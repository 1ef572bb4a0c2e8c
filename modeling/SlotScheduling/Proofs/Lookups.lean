import SlotScheduling.Proofs.Reachable
import SlotScheduling.Proofs.Reports

/-!
# Lookups

The table of instructions is kept apart from the units, which list what they hold themselves.  A
lookup gives a unit that holds the instruction, and the schedule has a slot for it, as long as no
merge leaves anything behind but the two instructions whose keys it removes: the exit of the block
that comes along, and its entry if that is folded.  Whatever is fused into one of these units is
lost, while its key stays.
-/

namespace SlotScheduling

theorem ScheduleUnit.instrs_subset_fuse (unit : ScheduleUnit) (instr : Instr) (offset : Nat) :
    unit.instrs ⊆ (unit.fuse instr offset).instrs :=
  List.cons_subset_cons _ (List.subset_append_left _ _)

namespace Graph

variable {g g' sub : Graph} {done : Completed} {anchor : Option UnitId} {id : UnitId}
  {instr : Instr} {block : BlockId} {op : OpId}

/-- The unit exists, and the instruction is one of those that it lists. -/
def Holds (g : Graph) (id : UnitId) (instr : Instr) : Prop :=
  ∃ unit, g.units[id]? = some unit ∧ instr ∈ unit.instrs.map Prod.fst

instance (g : Graph) (id : UnitId) (instr : Instr) : Decidable (g.Holds id instr) :=
  inferInstanceAs (Decidable (∃ unit ∈ g.units[id]?, instr ∈ unit.instrs.map Prod.fst))

/-- Every instruction in the table is held by the unit that it is looked up to. -/
structure Located (g : Graph) : Prop where
  entries : ∀ {instr id}, (instr, id) ∈ g.holders.entries → g.Holds id instr

theorem Holds.lt_size (h : g.Holds id instr) : id < g.units.size :=
  lt_size_of_getElem? h.choose_spec.1

theorem Located.holder (hg : g.Located) (h : g.holder? instr = some id) : g.Holds id instr :=
  hg.entries (Table.mem_entries_of_get?_eq_some h)

/-! ## Graphs with the same contents -/

/-- What units hold, and where it is looked up. -/
def contents (g : Graph) : Array (List (Instr × Nat)) × Table Instr UnitId :=
  (g.units.map (·.instrs), g.holders)

theorem holds_iff_of_map_eq
    (h : g'.units[id]?.map (·.instrs) = g.units[id]?.map (·.instrs)) :
    g'.Holds id instr ↔ g.Holds id instr := by
  have hmap : ∀ g : Graph, g.Holds id instr ↔
      ∃ instrs, g.units[id]?.map (·.instrs) = some instrs ∧ instr ∈ instrs.map Prod.fst := by
    intro g
    rw [Holds]
    cases g.units[id]? <;> simp
  rw [hmap, h, ← hmap]

theorem holds_iff_of_contents_eq (h : g'.contents = g.contents) :
    g'.Holds id instr ↔ g.Holds id instr := by
  apply holds_iff_of_map_eq
  have hunits : g'.units.map (·.instrs) = g.units.map (·.instrs) := congrArg Prod.fst h
  simpa using congrArg (fun instrs : Array (List (Instr × Nat)) => instrs[id]?) hunits

theorem Located.of_contents_eq (hg : g.Located) (h : g'.contents = g.contents) : g'.Located := by
  have hholders : g'.holders = g.holders := congrArg Prod.snd h
  exact ⟨fun hmem => (holds_iff_of_contents_eq h).mpr (hg.entries (hholders ▸ hmem))⟩

theorem contents_changeUnit {change : ScheduleUnit → ScheduleUnit}
    (h : g.changeUnit id change = .ok g') (hchange : ∀ unit, (change unit).instrs = unit.instrs) :
    g'.contents = g.contents := by
  obtain ⟨_, rfl⟩ := changeUnit_eq_ok.mp h
  simp only [contents, map_modify_eq hchange]

theorem contents_eq_of_outline_eq (h : g'.outline = g.outline) : g'.contents = g.contents := by
  have hcontents : ∀ g : Graph, g.outline.contents = g.contents := by
    intro g
    simp only [contents, outline, Array.map_map]
    rfl
  rw [← hcontents g', h, hcontents g]

theorem contents_eq_of_skeleton_eq (h : g'.skeleton = g.skeleton) : g'.contents = g.contents :=
  contents_eq_of_outline_eq (outline_eq_of_skeleton_eq h)

theorem contents_eq_of_bare_eq (h : g'.bare = g.bare) : g'.contents = g.contents := by
  have hcontents : ∀ g : Graph, g.bare.contents = g.contents := by
    intro g
    simp only [contents, bare, Array.map_map]
    rfl
  rw [← hcontents g', h, hcontents g]

/-! ## New units -/

theorem located_start (entryBlock : BlockId) (entrySlot : Nat) :
    (start entryBlock entrySlot).Located := by
  refine ⟨fun {instr id} hmem => ?_⟩
  have hmem : (instr, id) ∈ [(Instr.entry entryBlock, 0)] := hmem
  obtain ⟨rfl, rfl⟩ := Prod.mk.inj (List.mem_singleton.mp hmem)
  exact ⟨_, rfl, List.mem_cons_self⟩

theorem Located.createUnit (hg : g.Located) {lead : Instr} {funcUnit : FuncUnit} {control : Bool}
    {latency : Nat} : (g.createUnit lead block funcUnit control latency).Located := by
  refine ⟨fun {instr id} hmem => ?_⟩
  rcases Table.mem_entries_insert.mp hmem with heq | ⟨hmem, _⟩
  · obtain ⟨rfl, rfl⟩ := Prod.mk.inj heq
    exact ⟨_, Array.getElem?_push_size, List.mem_cons_self⟩
  · obtain ⟨unit, hunit, hheld⟩ := hg.entries hmem
    have hlt := lt_size_of_getElem? hunit
    refine ⟨unit, ?_, hheld⟩
    rw [Graph.createUnit, Array.getElem?_push_lt hlt, ← Array.getElem?_eq_getElem hlt, hunit]

theorem Located.createExit (hg : g.Located) : (g.createExit block).Located := by
  have hcreated : (g.createUnit (.exit block) block .trivial true 0).Located := hg.createUnit
  exact hcreated.of_contents_eq rfl

/-- An operation that is fused into a unit is looked up to it from then on, wherever it was. -/
theorem Located.fuse (hg : g.Located) {offset : Nat} (h : g.fuse id op offset = .ok g') :
    g'.Located := by
  obtain ⟨_, _, h⟩ := Checked.bind_eq_ok.mp h
  obtain ⟨fused, hfused, h⟩ := Checked.bind_eq_ok.mp h
  obtain rfl := Checked.pure_eq_ok.mp h
  have hunits := getElem?_changeUnit hfused
  have hkept : ∀ {other : UnitId} {instr : Instr},
      g.Holds other instr → fused.Holds other instr := by
    rintro other instr ⟨unit, hunit, hheld⟩
    rw [Holds, hunits, hunit]
    split
    · exact ⟨_, rfl, List.map_subset _ (unit.instrs_subset_fuse _ _) hheld⟩
    · exact ⟨unit, rfl, hheld⟩
  obtain ⟨hlt, hgraph⟩ := changeUnit_eq_ok.mp hfused
  refine ⟨fun {instr other} hmem => ?_⟩
  rcases Table.mem_entries_insert.mp hmem with heq | ⟨hmem, _⟩
  · obtain ⟨rfl, rfl⟩ := Prod.mk.inj heq
    have hget := hunits other
    rw [if_pos rfl, Array.getElem?_eq_getElem hlt, Option.map_some] at hget
    exact ⟨_, hget, by simp [ScheduleUnit.fuse, ScheduleUnit.instrs]⟩
  · exact hkept (hg.entries (by rwa [hgraph] at hmem))

/-! ## Merges -/

/-- The unit lists one instruction and no other. -/
def HoldsOnly (g : Graph) (id : UnitId) (instr : Instr) : Prop :=
  ∀ other, g.Holds id other → other = instr

/-- A merge leaves nothing behind but the instructions whose keys it removes. -/
structure Sheds (sub : Graph) (folded : Bool) : Prop where
  exit : ∀ {exit}, sub.exitRoot = some exit → sub.HoldsOnly exit (.exit sub.entryBlock)
  entry : folded = true → sub.HoldsOnly sub.entryRoot (.entry sub.entryBlock)

theorem Absorbs.holds_old (h : Absorbs sub done anchor g g') (hheld : g.Holds id instr) :
    g'.Holds id instr := by
  refine (holds_iff_of_map_eq ?_).mpr hheld
  have hinstrs : ∀ found : Option ScheduleUnit,
      found.map (·.instrs) = (found.map ScheduleUnit.bare).map (·.instrs) := by
    rintro (_ | unit) <;> rfl
  rw [hinstrs, h.agrees.units hheld.lt_size, ← hinstrs]

theorem Absorbs.holds_new (h : Absorbs sub done anchor g g') (hmoves : Moves anchor id)
    (hid : id < done.exit) (hheld : sub.Holds id instr) :
    g'.Holds (relocate g.units.size anchor id) instr := by
  obtain ⟨unit, hunit, hmem⟩ := hheld
  obtain ⟨moved, hmoved, hbare⟩ := Option.map_eq_some_iff.mp (h.moved hmoves hid hunit)
  have hinstrs : moved.instrs = unit.instrs := by
    have hinstrs := congrArg ScheduleUnit.instrs hbare
    exact hinstrs
  exact ⟨moved, hmoved, hinstrs ▸ hmem⟩

/-- The keys that come along belong to units that do. -/
theorem Located.absorb (hg : g.Located) (hlocated : sub.Located) (hsheds : Sheds sub anchor.isSome)
    (hdone : Complete sub done) (h : Absorbs sub done anchor g g') : g'.Located := by
  refine ⟨fun {instr id} hmem => ?_⟩
  rw [h.holders] at hmem
  rcases Table.mem_entries_insertAll hmem with hnew | ⟨hold, _⟩
  swap
  · exact h.holds_old (hg.entries hold)
  obtain ⟨⟨instr', old⟩, hentry, heq⟩ := List.mem_map.mp hnew
  obtain ⟨rfl, rfl⟩ := Prod.mk.inj heq
  obtain ⟨hentry, hfolded⟩ :
      (instr', old) ∈ (sub.holders.erase (.exit sub.entryBlock)).entries ∧
      (anchor.isSome = true → instr' ≠ .entry sub.entryBlock) := by
    split at hentry
    · obtain ⟨hentry, hne⟩ := List.mem_filter.mp hentry
      exact ⟨hentry, fun _ => by simpa using hne⟩
    next hnone => exact ⟨hentry, fun hsome => absurd hsome hnone⟩
  obtain ⟨hentry, hkept⟩ := List.mem_filter.mp hentry
  have hexit : instr' ≠ .exit sub.entryBlock := by simpa using hkept
  have hheld := hlocated.entries hentry
  have hmoves : Moves anchor old := by
    by_cases hanchor : anchor = none
    · exact Or.inl hanchor
    have hsome : anchor.isSome = true := Option.isSome_iff_ne_none.mpr hanchor
    refine Or.inr ?_
    rintro rfl
    exact hfolded hsome (hsheds.entry hsome _ hheld)
  have hlt : old < done.exit := by
    have hlt : old < done.exit + 1 := hdone.size ▸ hheld.lt_size
    refine Nat.lt_of_le_of_ne (Nat.le_of_lt_succ hlt) ?_
    rintro rfl
    exact hexit (hsheds.exit hdone.exit _ hheld)
  exact h.holds_new hmoves hlt hheld

/-- What was taken over stays where the last check of a merge fails. -/
theorem locates_freezeInto (anchor : Option UnitId) (hsub : sub.Listed) (hlocated : sub.Located)
    (hsheds : Sheds sub anchor.isSome) : (freezeInto sub anchor).Maintains
      fun g => (g.Coherent ∧ ∀ unit ∈ anchor, unit < g.units.size) ∧ g.Located := by
  unfold freezeInto
  apply Step.maintains_lift_bind
  intro done hdone
  apply Step.maintains_current_bind
  intro start _
  apply Step.Maintains.bind
  · refine Step.maintains_updateChecked fun g g' h hg => ?_
    obtain ⟨⟨hcoherent, hanchor⟩, hg⟩ := hg
    have hcomplete := completed_eq_ok hsub hdone
    have habsorbs := (absorb_eq_ok hcoherent.toWellFormed hsub hcomplete hanchor h).1
    have hmoves : Moves anchor done.exit := Or.inr (hcomplete.last ▸ Nat.succ_ne_zero _)
    refine ⟨⟨hcoherent.absorb hsub hdone hanchor h, fun unit hunit => ?_⟩,
      hg.absorb hlocated hsheds hcomplete habsorbs⟩
    exact (hanchor unit hunit).trans_le (habsorbs.size ▸ base_le_relocate hmoves)
  intro _
  apply Step.maintains_current_bind
  intro merged _
  apply Step.maintains_ite
  · exact Step.maintains_fail_bind _ _
  · exact (Step.maintains_note _ _).bind fun _ => Step.maintains_pure _

theorem locates_merge (hsub : sub.Listed) (hlocated : sub.Located) (hsheds : Sheds sub false) :
    (merge sub).Maintains fun g => g.Coherent ∧ g.Located := by
  intro now hnow
  have hmerged := locates_freezeInto none hsub hlocated hsheds now
    ⟨⟨hnow.1, fun _ hunit => by cases hunit⟩, hnow.2⟩
  exact ⟨hmerged.1.1, hmerged.2⟩

theorem locates_mergeOnto (hsub : sub.Listed) (hlocated : sub.Located) (hsheds : Sheds sub true)
    (entry : UnitId) : (mergeOnto sub entry).Maintains fun g => g.Coherent ∧ g.Located := by
  intro now hnow
  rw [mergeOnto, Step.current_bind]
  split
  swap
  · exact hnow
  cases hunit : now.state.unit entry with
  | error failure => exact hnow
  | ok unit =>
      have hlt : entry < now.state.units.size := lt_size_of_getElem? (unit_eq_ok.mp hunit)
      have hmerged := locates_freezeInto (some entry) hsub hlocated hsheds now
        ⟨⟨hnow.1, fun _ hunit => Option.some.inj hunit ▸ hlt⟩, hnow.2⟩
      show (fun g : Graph => g.Coherent ∧ g.Located) (Step.stateOf
        ((if unit.deps.size ≠ 0 then _ else freezeInto sub (some entry) : Step Graph UnitId) now))
      split
      · exact hnow
      · exact ⟨hmerged.1.1, hmerged.2⟩

/-! ## Calls -/

theorem locates_of_contents {α : Type} {step : Step Graph α} (h : step.Keeps contents) :
    step.Maintains Located :=
  h.maintains fun _ _ heq hg => hg.of_contents_eq heq

theorem locates_updateChecked {change : Graph → Checked Graph}
    (h : ∀ g g', change g = .ok g' → g'.contents = g.contents) :
    (Step.updateChecked change).Maintains Located :=
  locates_of_contents (Step.keeps_updateChecked h)

theorem locates_changeUnit (id : UnitId) {change : ScheduleUnit → ScheduleUnit}
    (hchange : ∀ unit, (change unit).instrs = unit.instrs) :
    (Step.updateChecked fun g : Graph => g.changeUnit id change).Maintains Located :=
  locates_updateChecked fun _ _ h => contents_changeUnit h hchange

theorem locates_reanchor : Graph.reanchor.Maintains Located := by
  unfold reanchor
  apply Step.maintains_current_bind
  intro g _
  refine Step.Maintains.bind (Step.maintains_lift _) fun moves => ?_
  apply Step.maintains_forM
  intro move
  refine Step.Maintains.bind (Step.maintains_note _ _) fun _ => ?_
  apply Step.Maintains.bind
  · exact locates_updateChecked fun _ _ h => contents_eq_of_bare_eq (bare_removeDep h)
  · exact fun _ => locates_updateChecked fun _ _ h => contents_eq_of_bare_eq (bare_addDep h)

theorem lasting_located : Lasting Located where
  of_skeleton_eq := fun hg h => hg.of_contents_eq (contents_eq_of_skeleton_eq h)
  reanchor := locates_reanchor
  disablePipeline := fun hg => hg.of_contents_eq rfl

theorem contents_setTerminator (h : g.setTerminator block id = .ok g') :
    g'.contents = g.contents := by
  obtain ⟨middle, hmiddle, h⟩ := Checked.bind_eq_ok.mp h
  obtain rfl := Checked.pure_eq_ok.mp h
  have hcontents : middle.contents = g.contents := contents_changeUnit hmiddle fun _ => rfl
  exact hcontents

theorem contents_trySetLoopOp {target : Option BlockId}
    (h : Prod.snd <$> g.trySetLoopOp id target = .ok g') : g'.contents = g.contents := by
  obtain ⟨⟨loops, last⟩, htried, rfl⟩ := Checked.map_eq_ok.mp h
  obtain ⟨unit, _, htried⟩ := Checked.bind_eq_ok.mp htried
  split at htried <;> cases htried <;> rfl

theorem contents_detach (h : g.detach id = .ok g') : g'.contents = g.contents := by
  obtain ⟨unit, _, h⟩ := Checked.bind_eq_ok.mp h
  obtain ⟨released, hreleased, h⟩ := Checked.bind_eq_ok.mp h
  obtain ⟨dropped, hdropped, h⟩ := Checked.bind_eq_ok.mp h
  have hbare : g'.bare = g.bare := by
    rw [bare_changeUnit h fun _ => rfl, bare_changeUnits hdropped fun _ => rfl,
      bare_changeUnits hreleased fun _ => rfl]
  exact contents_eq_of_bare_eq hbare

/-- The graphs that a call takes in leave nothing behind. -/
def Call.Sheds : Call → Prop
  | .merge sub => Graph.Sheds sub false
  | .mergeOnto sub _ => Graph.Sheds sub true
  | _ => True

/-- Whether or not it ends well, a call that loses nothing leaves a graph in which lookups are
right. -/
theorem Call.locates (call : Call) (hmerged : ∀ sub ∈ call.merged, sub.Coherent ∧ sub.Located)
    (hsheds : call.Sheds) : call.step.Maintains fun g => g.Coherent ∧ g.Located := by
  have hcoherent : call.step.Maintains Coherent :=
    call.maintains fun sub hsub => (hmerged sub hsub).1
  have hlift : call.step.Maintains Located →
      call.step.Maintains fun g => g.Coherent ∧ g.Located :=
    fun hlocates now hnow => ⟨hcoherent now hnow.1, hlocates now hnow.2⟩
  cases call with
  | createUnit lead block funcUnit control latency => exact hlift fun _ hnow => hnow.createUnit
  | createEntry block => exact hlift fun _ hnow => hnow.createUnit
  | createExit block => exact hlift fun _ hnow => hnow.createExit
  | fuse id op offset =>
      exact hlift (Step.maintains_updateChecked fun _ _ h (hg : Located _) => hg.fuse h)
  | addDep target source edge =>
      exact hlift (locates_updateChecked fun _ _ h => contents_eq_of_bare_eq (bare_addDep h))
  | removeDep target source =>
      exact hlift (locates_updateChecked fun _ _ h => contents_eq_of_bare_eq (bare_removeDep h))
  | detach id => exact hlift (locates_updateChecked fun _ _ => contents_detach)
  | setTerminator block id => exact hlift (locates_updateChecked fun _ _ => contents_setTerminator)
  | setPhi id => exact hlift (locates_changeUnit id fun _ => rfl)
  | trySetLoopOp id target => exact hlift (locates_updateChecked fun _ _ => contents_trySetLoopOp)
  | disablePipeline => exact hlift fun _ hnow => hnow.of_contents_eq rfl
  | setInterval block interval => exact hlift fun _ hnow => hnow.of_contents_eq rfl
  | place id slot => exact hlift (locates_changeUnit id fun _ => rfl)
  | unplace id => exact hlift (locates_changeUnit id fun _ => rfl)
  | setDangling id dangling => exact hlift (locates_changeUnit id fun _ => rfl)
  | setClass id valueClass => exact hlift (locates_changeUnit id fun _ => rfl)
  | resetControl interval => exact hlift (lasting_located.resetControl interval)
  | resetData =>
      exact hlift (lasting_located.of_keeps_frame
        (Step.keeps_updateChecked fun _ _ h => frame_changeUnits h fun _ => rfl))
  | undangle root =>
      exact hlift (lasting_located.of_keeps_frame
        (Step.keeps_updateChecked fun _ _ h => (undangle_sound h).1.frame))
  | delayPhis => exact hlift (lasting_located.of_keeps_skeleton (keeps_delayPhis.comp Prod.fst))
  | merge sub =>
      obtain ⟨hsub, hlocated⟩ := hmerged sub (by simp [merged])
      exact (locates_merge hsub.toListed hlocated hsheds).map
  | mergeOnto sub entry =>
      obtain ⟨hsub, hlocated⟩ := hmerged sub (by simp [merged])
      exact (locates_mergeOnto hsub.toListed hlocated hsheds entry).map
  | reanchor => exact hlift locates_reanchor
  | classify options id =>
      exact hlift (lasting_located.of_keeps_frame
        (Step.keeps_updateChecked fun _ _ h => DataPath.frame_classify h))
  | run strategy options => exact hlift (lasting_located.run strategy options)
  | search moves =>
      have hmoves : (moves.forM fun move => move.step.attempt).Keeps PipelineSearch.skeleton :=
        Step.keeps_forM fun move => move.keeps.attempt
      have hstart : PipelineSearch.start.Maintains Located :=
        lasting_located.of_keeps_skeleton (PipelineSearch.keeps_start.comp Prod.fst)
      refine hlift (hstart.bind fun search => ?_)
      exact lasting_located.of_keeps_skeleton (hmoves.focus fun _ _ hkept => hkept)
  | schedule options => exact hlift (lasting_located.schedule options)

/-- The graph is left behind by calls that lose nothing, and so is every graph that one of them
took in. -/
inductive Gathered : Graph → Prop
  | start (entryBlock : BlockId) (entrySlot : Nat) : Gathered (start entryBlock entrySlot)
  | call {now : Journaled Graph} (call : Call) (hnow : Gathered now.state)
      (hmerged : ∀ sub ∈ call.merged, Gathered sub) (hsheds : call.Sheds) :
      Gathered (Step.stateOf (call.step now))

theorem Gathered.coherent_and_located (h : g.Gathered) : g.Coherent ∧ g.Located := by
  induction h with
  | start entryBlock entrySlot =>
      exact ⟨coherent_start entryBlock entrySlot, located_start entryBlock entrySlot⟩
  | call call _ _ hsheds ihnow ihmerged => exact call.locates ihmerged hsheds _ ihnow

/-- A lookup gives a unit of the graph that holds the instruction. -/
theorem Gathered.holds_of_lookup (h : g.Gathered) (hlookup : g.holder? instr = some id) :
    g.Holds id instr :=
  h.coherent_and_located.2.holder hlookup

end Graph

/-! ## Schedules -/

namespace Schedule

variable {schedule schedule' : Schedule} {unit : ScheduleUnit} {op : OpId} {start : Nat}

theorem slot?_addInstr {instr : Instr × Nat}
    (h : addInstr unit start schedule instr = .ok schedule') (op : OpId) :
    schedule'.slot? op =
      if instr.1 = .op op then some (start + instr.2) else schedule.slot? op := by
  unfold addInstr at h
  split at h
  next held hheld =>
    obtain ⟨issue, hissue, h⟩ := Checked.bind_eq_ok.mp h
    obtain rfl := Checked.pure_eq_ok.mp h
    obtain rfl := (Word.add_eq_ok.mp hissue).2
    simp [slot?, IndexMap.get?_insert, hheld]
  next hother =>
    obtain rfl := Checked.pure_eq_ok.mp h
    rw [if_neg (hother op)]

/-- Of the instructions of a unit the last one for the operation counts, if there is one. -/
theorem foldlM_addInstr_cases {instrs : List (Instr × Nat)}
    (h : instrs.foldlM (addInstr unit start) schedule = .ok schedule') (op : OpId) :
    (∃ offset, (.op op, offset) ∈ instrs ∧ schedule'.slot? op = some (start + offset)) ∨
      (.op op ∉ instrs.map Prod.fst ∧ schedule'.slot? op = schedule.slot? op) := by
  induction instrs generalizing schedule with
  | nil =>
      obtain rfl := Checked.pure_eq_ok.mp h
      exact Or.inr ⟨List.not_mem_nil, rfl⟩
  | cons instr rest ih =>
      rw [List.foldlM_cons] at h
      obtain ⟨added, hadd, h⟩ := Checked.bind_eq_ok.mp h
      have hslot := slot?_addInstr hadd op
      rcases ih h with ⟨offset, hmem, hlast⟩ | ⟨hrest, hkept⟩
      · exact Or.inl ⟨offset, List.mem_cons_of_mem _ hmem, hlast⟩
      rw [hslot] at hkept
      split at hkept
      next hfirst => exact Or.inl ⟨instr.2, by simp [← hfirst], hkept⟩
      next hother => exact Or.inr ⟨by simpa [Ne.symm hother] using hrest, hkept⟩

theorem addUnit_cases (h : addUnit schedule unit = .ok schedule') (op : OpId) :
    (∃ start offset, unit.slot = some start ∧ (.op op, offset) ∈ unit.instrs ∧
        schedule'.slot? op = some (start + offset)) ∨
      (.op op ∉ unit.instrs.map Prod.fst ∧ schedule'.slot? op = schedule.slot? op) := by
  unfold addUnit at h
  split at h
  · cases h
  next start hstart =>
    rcases foldlM_addInstr_cases h op with ⟨offset, hmem, hslot⟩ | hother
    · exact Or.inl ⟨start, offset, hstart, hmem, hslot⟩
    · exact Or.inr hother

/-- The operation issues in the slot, as one of the units tells. -/
def IsTold (units : List ScheduleUnit) (op : OpId) (slot : Nat) : Prop :=
  ∃ unit ∈ units, ∃ start offset,
    unit.slot = some start ∧ (.op op, offset) ∈ unit.instrs ∧ slot = start + offset

/-- An operation that a unit holds issues in the slot of such a unit, moved by its offset there. -/
theorem exists_slot_of_holds {g : Graph} {id : UnitId} (h : ofGraph g = .ok schedule)
    (hheld : g.Holds id (.op op)) :
    ∃ slot, schedule.slot? op = some slot ∧ IsTold g.units.toList op slot := by
  obtain ⟨told, htold, h⟩ := Checked.bind_eq_ok.mp h
  obtain rfl := Checked.pure_eq_ok.mp h
  have hround : ∀ unit ∈ g.units.toList, ∀ before after : Schedule,
      (∀ slot, before.slot? op = some slot → IsTold g.units.toList op slot) →
      addUnit before unit = .ok after →
      (∀ slot, after.slot? op = some slot → IsTold g.units.toList op slot) ∧
        (.op op ∈ unit.instrs.map Prod.fst → ∃ slot, after.slot? op = some slot) ∧
        ∀ unit' : ScheduleUnit,
          (.op op ∈ unit'.instrs.map Prod.fst → ∃ slot, before.slot? op = some slot) →
          .op op ∈ unit'.instrs.map Prod.fst → ∃ slot, after.slot? op = some slot := by
    intro unit hunit before after hbefore hadd
    rcases addUnit_cases hadd op with ⟨start, offset, hstart, hmem, hslot⟩ | ⟨hother, hkept⟩
    · refine ⟨fun slot hafter => ?_, fun _ => ⟨_, hslot⟩, fun _ _ _ => ⟨_, hslot⟩⟩
      exact ⟨unit, hunit, start, offset, hstart, hmem,
        Option.some.inj (hafter.symm.trans hslot)⟩
    · rw [hkept]
      exact ⟨hbefore, fun hmem => absurd hmem hother, fun _ hknown hmem => hknown hmem⟩
  obtain ⟨hsound, hcomplete⟩ := Checked.foldlM_forall hround
    (fun slot hslot => by simp [slot?, IndexMap.get?] at hslot) htold
  obtain ⟨unit, hunit, hmem⟩ := hheld
  have hlisted : unit ∈ g.units.toList := List.mem_of_getElem? (Array.getElem?_toList ▸ hunit)
  obtain ⟨slot, hslot⟩ := hcomplete unit hlisted hmem
  exact ⟨slot, hslot, hsound slot hslot⟩

end Schedule

namespace Graph

variable {g : Graph} {id : UnitId} {op : OpId} {schedule : Schedule}

/-- No operation that can be looked up is missing from the schedule. -/
theorem Gathered.exists_slot_of_lookup (h : g.Gathered) (hlookup : g.holder? (.op op) = some id)
    (hreport : Schedule.ofGraph g = .ok schedule) :
    ∃ slot, schedule.slot? op = some slot ∧ Schedule.IsTold g.units.toList op slot :=
  Schedule.exists_slot_of_holds hreport (h.holds_of_lookup hlookup)

/-- A scheduled block with operations that are fused into its entry, its terminator and its exit. -/
def fusedBlock : Graph :=
  (start 0 1).after [
    .createUnit (.op 0) 0 .trivial true 0,
    .setTerminator 0 1,
    .createExit 0,
    .fuse 0 7 0,
    .fuse 1 8 3,
    .fuse 2 9 0,
    .place 0 1,
    .place 1 1]

/-- The block, folded into an entry that it is scheduled with. -/
def foldedBlock : Graph :=
  (start 0 1).after [.mergeOnto fusedBlock 0, .place 0 1, .place 1 1]

/-- Of the three fused operations only the one in the terminator comes along.  The other two are
looked up to an entry that does not hold the operation, and to a unit that does not exist. -/
theorem lookup_of_foldedBlock :
    foldedBlock.Reachable ∧
      foldedBlock.holder? (.op 7) = some 0 ∧ ¬foldedBlock.Holds 0 (.op 7) ∧
      foldedBlock.holder? (.op 9) = some foldedBlock.units.size ∧
      ∃ schedule, Schedule.ofGraph foldedBlock = .ok schedule ∧ schedule.slot? 7 = none ∧
        schedule.slot? 8 = some 4 ∧ schedule.slot? 9 = none := by
  have hfused : fusedBlock.Reachable := (Reachable.start 0 1).after (by simp [Call.merged])
  have hfolded : foldedBlock.Reachable :=
    (Reachable.start 0 1).after (by simpa [Call.merged] using hfused)
  refine ⟨hfolded, ?_, ?_, ?_, _, rfl, ?_, ?_, ?_⟩ <;> decide +kernel

end Graph

end SlotScheduling
