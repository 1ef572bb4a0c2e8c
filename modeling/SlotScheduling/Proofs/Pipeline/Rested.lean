import SlotScheduling.Proofs.Graph.Delays
import SlotScheduling.Proofs.Pipeline.Restarts

/-!
# What a restart leaves

A restart of the control path without an interval overwrites the slots of the control units, and
how long the exit waits for moves.  Whatever a search has done to these, the restart leaves one
graph, and it succeeds or fails alike.
-/

namespace SlotScheduling.Graph

variable {g g' h : Graph} {id exit source : UnitId} {unit : ScheduleUnit} {interval slot : Nat}

/-- Changing units in a way that does nothing the second time. -/
theorem changeUnits_eq_ok {change : ScheduleUnit → ScheduleUnit} {ids : List UnitId}
    (hchange : ∀ unit, change (change unit) = change unit) :
    g.changeUnits ids change = .ok h ↔ (∀ id ∈ ids, id < g.units.size) ∧
      h = { g with
        units := g.units.mapIdx fun id unit => if id ∈ ids then change unit else unit } := by
  unfold changeUnits
  induction ids generalizing g with
  | nil =>
      have hsame : g.units.mapIdx (fun _ unit => unit) = g.units :=
        Array.ext_getElem? fun id => by simp
      rw [List.foldlM_nil, Checked.pure_eq_ok]
      simp [hsame]
  | cons first rest ih =>
      simp only [List.foldlM_cons, Checked.bind_eq_ok, changeUnit_eq_ok, ih, List.forall_mem_cons]
      have hunits : (g.units.modify first change).mapIdx
          (fun id unit => if id ∈ rest then change unit else unit) =
            g.units.mapIdx fun id unit => if id ∈ first :: rest then change unit else unit := by
        refine Array.ext_getElem? fun id => ?_
        simp only [Array.getElem?_mapIdx, Array.getElem?_modify, List.mem_cons]
        rcases eq_or_ne first id with rfl | hid
        · cases g.units[first]? <;> simp [hchange]
        · simp [hid, hid.symm]
      simp [hunits, and_assoc]

/-! ## Graphs at rest -/

/-- The unit once the control path is cleared. -/
def clearUnit (g : Graph) (id : UnitId) (unit : ScheduleUnit) : ScheduleUnit :=
  if id = g.entryRoot then unit.place g.entrySlot
  else if id ∈ g.controlUnits then unit.unplace
  else unit

/-- The unit as a restart leaves it. -/
def restUnit (g : Graph) (id : UnitId) (unit : ScheduleUnit) : ScheduleUnit :=
  if g.exitRoot = some id then g.widenUnit 0 (g.clearUnit id unit) else g.clearUnit id unit

/-- The graph once its control path is cleared. -/
def cleared (g : Graph) : Graph := { g with units := g.units.mapIdx g.clearUnit }

/-- The graph as a restart leaves it. -/
def rested (g : Graph) : Graph := { g with units := g.units.mapIdx g.restUnit }

/-- The units that a restart looks up are there. -/
structure Restartable (g : Graph) : Prop where
  control : ∀ id ∈ g.controlUnits, id < g.units.size
  entry : g.entryRoot < g.units.size
  exit : ∀ {exit}, g.exitRoot = some exit →
    ∃ unit, g.units[exit]? = some unit ∧ ∀ source ∈ unit.deps.keys, source < g.units.size

/-- The graph of a block with an exit can be restarted. -/
theorem OfBlock.restartable {block : BlockId} {entrySlot : Nat} (hg : g.OfBlock block entrySlot)
    (hexit : g.HasExit) :
    g.Restartable where
  control := fun _ hid => (hg.control.mp hid).lt_size
  entry := hg.root.lt_size
  exit := by
    intro exit hroot
    obtain ⟨exit', hroot', ⟨unit, hunit, _⟩, _⟩ := hexit
    obtain rfl := Option.some.inj (hroot.symm.trans hroot')
    refine ⟨unit, hunit, fun source hsource => ?_⟩
    obtain ⟨producer, hproducer, _⟩ := hg.linked.mp ⟨unit, hunit, hsource⟩
    exact lt_size_of_getElem? hproducer

theorem agrees_clearUnit : (g.clearUnit id unit).Agrees unit := by
  unfold clearUnit
  split
  · constructor <;> rfl
  · split <;> constructor <;> rfl

theorem clearControl_eq_ok :
    g.clearControl = .ok h ↔
      ((∀ id ∈ g.controlUnits, id < g.units.size) ∧ g.entryRoot < g.units.size) ∧
        h = g.cleared := by
  have hunits : (g.units.mapIdx fun id unit => if id ∈ g.controlUnits then unit.unplace else unit
      ).modify g.entryRoot (·.place g.entrySlot) = g.units.mapIdx g.clearUnit := by
    refine Array.ext_getElem? fun id => ?_
    rw [Array.getElem?_modify, Array.getElem?_mapIdx, Array.getElem?_mapIdx]
    rcases eq_or_ne g.entryRoot id with rfl | hroot
    · cases g.units[g.entryRoot]? <;>
        simp [clearUnit, ScheduleUnit.place, ScheduleUnit.unplace, apply_ite]
    · cases g.units[id]? <;> simp [clearUnit, hroot, hroot.symm]
  have hroot : ∀ g' : Graph, g'.entryRoot = g.entryRoot := fun _ => rfl
  have hunplaced : ∀ h, g.changeUnits g.controlUnits (·.unplace) = .ok h ↔ _ :=
    fun _ => changeUnits_eq_ok fun _ => rfl
  simp only [clearControl, Checked.bind_eq_ok, hunplaced, changeUnit_eq_ok]
  simp [hroot, hunits, cleared, and_assoc]

theorem widenUnit_congr (hmoves : ∀ source, h.IsMove source ↔ g.IsMove source) :
    h.widenUnit interval = g.widenUnit interval := by
  funext unit
  rw [widenUnit, Table.modifyIf_congr fun source _ => hmoves source, widenUnit]

theorem widenUnit_widenUnit (interval interval' : Nat) (unit : ScheduleUnit) :
    g.widenUnit interval (g.widenUnit interval' unit) = g.widenUnit interval unit := by
  have hdeps : (unit.deps.modifyIf g.IsMove (·.withLatency interval')).modifyIf g.IsMove
      (·.withLatency interval) = unit.deps.modifyIf g.IsMove (·.withLatency interval) :=
    Table.modifyIf_modifyIf fun _ => rfl
  simp only [widenUnit, hdeps]

theorem isMove_cleared : g.cleared.IsMove id ↔ g.IsMove id := by
  simp only [IsMove, cleared, Array.getElem?_mapIdx]
  cases g.units[id]? <;> simp [agrees_clearUnit.phi]

theorem widenExit_clearControl_eq_ok :
    (g.clearControl >>= (·.widenExit 0)) = .ok h ↔ g.Restartable ∧ h = g.rested := by
  have hroot : g.cleared.exitRoot = g.exitRoot := rfl
  simp only [Checked.bind_eq_ok, clearControl_eq_ok, and_assoc, exists_and_left, exists_eq_left]
  cases hexit : g.exitRoot with
  | none =>
      have hrested : g.rested = g.cleared := by
        have hunit : g.restUnit = g.clearUnit := by
          funext id unit
          rw [restUnit, hexit, if_neg nofun]
        rw [rested, hunit, cleared]
      rw [widenExit, hroot, hexit, hrested]
      simp only [Checked.pure_eq_ok]
      constructor
      · rintro ⟨hcontrol, hentry, rfl⟩
        exact ⟨⟨hcontrol, hentry, fun h => absurd (hexit.symm.trans h) nofun⟩, rfl⟩
      · rintro ⟨⟨hcontrol, hentry, _⟩, rfl⟩
        exact ⟨hcontrol, hentry, rfl⟩
  | some exit =>
      have hrested : g.rested =
          { g.cleared with units := g.cleared.units.modify exit (g.cleared.widenUnit 0) } := by
        rw [widenUnit_congr fun _ => isMove_cleared, rested, cleared]
        congr 1
        refine Array.ext_getElem? fun id => ?_
        rw [Array.getElem?_modify, Array.getElem?_mapIdx, Array.getElem?_mapIdx]
        by_cases hid : exit = id <;> cases g.units[id]? <;> simp [restUnit, hexit, hid]
      have hsources : (∃ unit, g.cleared.units[exit]? = some unit ∧
          ∀ source ∈ unit.deps.keys, source < g.cleared.units.size) ↔
            ∃ unit, g.units[exit]? = some unit ∧ ∀ source ∈ unit.deps.keys,
              source < g.units.size := by
        simp only [cleared, Array.size_mapIdx, Array.getElem?_mapIdx]
        cases g.units[exit]? <;> simp [agrees_clearUnit.deps]
      rw [widenExit_eq_ok (hroot.trans hexit), hsources, hrested]
      constructor
      · rintro ⟨hcontrol, hentry, hsources, rfl⟩
        exact ⟨⟨hcontrol, hentry, fun h => Option.some.inj (hexit.symm.trans h) ▸ hsources⟩, rfl⟩
      · rintro ⟨⟨hcontrol, hentry, hsources⟩, rfl⟩
        exact ⟨hcontrol, hentry, hsources hexit, rfl⟩

/-- A restart succeeds if the units it looks up are there. -/
theorem resetControl_zero_eq_ok_iff {now last : Journaled Graph} :
    resetControl 0 now = .ok ⟨⟩ last ↔
      now.state.Restartable ∧ last = ⟨now.state.rested, now.journal⟩ := by
  have hrestart : resetControl 0 now = .ok ⟨⟩ last ↔
      ∃ h, (now.state.clearControl >>= (·.widenExit 0)) = .ok h ∧ last = ⟨h, now.journal⟩ := by
    rw [resetControl, Step.updateChecked_bind_eq_ok]
    simp only [Nat.lt_irrefl, if_false, Step.updateChecked_eq_ok, Checked.bind_eq_ok]
    constructor
    · rintro ⟨cleared, hclear, h, hwiden, rfl⟩
      exact ⟨h, ⟨cleared, hclear, hwiden⟩, rfl⟩
    · rintro ⟨h, ⟨cleared, hclear, hwiden⟩, rfl⟩
      exact ⟨cleared, hclear, h, hwiden, rfl⟩
  simp only [hrestart, widenExit_clearControl_eq_ok, and_assoc, exists_and_left, exists_eq_left]

theorem skeleton_rested (g : Graph) : g.rested.skeleton = g.skeleton := by
  have hclear : ∀ id unit, (g.clearUnit id unit).frame = unit.frame := by
    intro id unit
    unfold clearUnit
    split <;> [rfl; split <;> rfl]
  have hwiden : ∀ unit : ScheduleUnit, (g.widenUnit 0 unit).skeleton = unit.skeleton := by
    intro unit
    have hentries : (g.widenUnit 0 unit).deps.entries.map
        (fun dep => (dep.1, dep.2.withLatency 0)) =
          unit.deps.entries.map fun dep => (dep.1, dep.2.withLatency 0) := by
      simp only [widenUnit, Table.modifyIf, List.map_map]
      refine List.map_congr_left fun dep _ => ?_
      simp only [Function.comp]
      split <;> rfl
    simp only [ScheduleUnit.skeleton, hentries]
    rfl
  have hskeleton : ∀ id unit, (g.clearUnit id unit).skeleton = unit.skeleton := by
    intro id unit
    have hframe := congrArg ScheduleUnit.skeleton (hclear id unit)
    exact hframe
  simp only [skeleton, rested]
  congr 1
  refine Array.ext_getElem? fun id => ?_
  simp only [Array.getElem?_mapIdx, Option.map_map]
  congr 1
  funext unit
  by_cases hexit : g.exitRoot = some id
  · simp [restUnit, hexit, hwiden, hskeleton]
  · simp [restUnit, hexit, hclear]

theorem skeleton_eq_of_rested_eq (hrested : h.rested = g.rested) :
    h.skeleton = g.skeleton := by
  rw [← skeleton_rested, hrested, skeleton_rested]

/-! ## What a restart undoes -/

theorem agrees_restUnit : (g.restUnit id unit).phi = unit.phi ∧
    (g.restUnit id unit).deps.keys = unit.deps.keys := by
  unfold restUnit
  split
  · exact ⟨agrees_clearUnit.phi,
      Table.keys_modifyIf.trans (congrArg Table.keys agrees_clearUnit.deps)⟩
  · exact ⟨agrees_clearUnit.phi, congrArg Table.keys agrees_clearUnit.deps⟩

theorem eq_of_rested_eq {α : Type} (f : Graph → α) (hrested : h.rested = g.rested)
    (hf : ∀ g, f g.rested = f g) : f h = f g := by
  rw [← hf, hrested, hf]

theorem Restartable.of_rested_eq (hg : g.Restartable) (hrested : h.rested = g.rested) :
    h.Restartable := by
  have hsize : h.units.size = g.units.size :=
    eq_of_rested_eq (·.units.size) hrested fun _ => Array.size_mapIdx
  have hcontrol : h.controlUnits = g.controlUnits :=
    eq_of_rested_eq (·.controlUnits) hrested fun _ => rfl
  have hroot : h.exitRoot = g.exitRoot := eq_of_rested_eq (·.exitRoot) hrested fun _ => rfl
  have hsources : ∀ (g : Graph) (exit : UnitId),
      (∃ unit : ScheduleUnit, g.units[exit]? = some unit ∧
        ∀ source ∈ unit.deps.keys, source < g.units.size) ↔
      ∃ unit : ScheduleUnit, g.rested.units[exit]? = some unit ∧
        ∀ source ∈ unit.deps.keys, source < g.rested.units.size := by
    intro g exit
    simp only [rested, Array.size_mapIdx, Array.getElem?_mapIdx]
    cases g.units[exit]? <;> simp [agrees_restUnit.2]
  refine ⟨?_, ?_, fun {exit} hexit => ?_⟩
  · rw [hcontrol, hsize]
    exact hg.control
  · rw [hsize]
    exact hg.entry
  · rw [hsources, hrested, ← hsources]
    exact hg.exit (hroot.symm.trans hexit)

theorem rested_disablePipeline : g.disablePipeline.rested = g.rested.disablePipeline := rfl

/-- Graphs come out the same if their units do. -/
theorem rested_eq (hsame : h = { g with units := h.units })
    (hunits : ∀ id, h.units[id]?.map (g.restUnit id) = g.units[id]?.map (g.restUnit id)) :
    h.rested = g.rested := by
  have hmoves : ∀ source, h.IsMove source ↔ g.IsMove source := fun source =>
    exists_iff_of_map_eq (hunits source) fun unit => by rw [agrees_restUnit.1]
  have hunit : h.restUnit = g.restUnit := by
    funext other unit
    simp only [restUnit, widenUnit_congr hmoves]
    rw [hsame]
    rfl
  have hmapped : h.units.mapIdx g.restUnit = g.units.mapIdx g.restUnit :=
    Array.ext_getElem? fun id => by rw [Array.getElem?_mapIdx, Array.getElem?_mapIdx, hunits]
  rw [rested, hunit, hmapped, hsame, rested]

theorem rested_changeUnit {change : ScheduleUnit → ScheduleUnit}
    (hchange : g.changeUnit id change = .ok g')
    (hrest : ∀ unit, g.restUnit id (change unit) = g.restUnit id unit) : g'.rested = g.rested := by
  obtain ⟨_, rfl⟩ := changeUnit_eq_ok.mp hchange
  refine rested_eq rfl fun other => ?_
  rw [Array.getElem?_modify]
  by_cases hid : id = other
  · subst hid
    cases g.units[id]? <;> simp [hrest]
  · rw [if_neg hid]

/-- A restart decides the slots of the entry and of all control units. -/
theorem rested_changeSlot {slot? : Option Nat}
    (hchange : g.changeUnit id (fun unit => { unit with slot := slot? }) = .ok g')
    (hid : id = g.entryRoot ∨ id ∈ g.controlUnits) : g'.rested = g.rested := by
  refine rested_changeUnit hchange fun unit => ?_
  have hclear : g.clearUnit id { unit with slot := slot? } = g.clearUnit id unit := by
    by_cases hroot : id = g.entryRoot
    · rw [clearUnit, if_pos hroot, clearUnit, if_pos hroot]
      rfl
    · have hmem := hid.resolve_left hroot
      rw [clearUnit, if_neg hroot, if_pos hmem, clearUnit, if_neg hroot, if_pos hmem]
      rfl
  rw [restUnit, hclear, restUnit]

theorem rested_place (hplace : g.changeUnit id (·.place slot) = .ok g')
    (hid : id ∈ g.controlUnits) : g'.rested = g.rested :=
  rested_changeSlot hplace (Or.inr hid)

theorem rested_unplaceAll {ids : List UnitId} (hunplace : g.changeUnits ids (·.unplace) = .ok g')
    (hids : ∀ id ∈ ids, id ∈ g.controlUnits) : g'.rested = g.rested := by
  suffices hall : g'.controlUnits = g.controlUnits ∧ g'.rested = g.rested from hall.2
  refine Checked.foldlM_induction
    (P := fun now : Graph => now.controlUnits = g.controlUnits ∧ now.rested = g.rested)
    (fun id hid before after hbefore hround => ?_) ⟨rfl, rfl⟩ hunplace
  obtain ⟨hcontrol, hrested⟩ := hbefore
  have hround' := rested_changeSlot hround (Or.inr (hcontrol ▸ hids id hid))
  obtain ⟨_, rfl⟩ := changeUnit_eq_ok.mp hround
  exact ⟨hcontrol, hround'.trans hrested⟩

theorem rested_placeAll {placements : List (UnitId × Nat)}
    (hplace : g.placeAll placements = .ok g')
    (hids : ∀ placement ∈ placements, placement.1 ∈ g.controlUnits) : g'.rested = g.rested := by
  suffices hall : g'.controlUnits = g.controlUnits ∧ g'.rested = g.rested from hall.2
  refine Checked.foldlM_induction
    (P := fun now : Graph => now.controlUnits = g.controlUnits ∧ now.rested = g.rested)
    (fun placement hmem before after hbefore hround => ?_) ⟨rfl, rfl⟩ hplace
  obtain ⟨hcontrol, hrested⟩ := hbefore
  refine ⟨?_, (rested_place hround (hcontrol ▸ hids placement hmem)).trans hrested⟩
  obtain ⟨_, rfl⟩ := changeUnit_eq_ok.mp hround
  exact hcontrol

theorem rested_clearControl (hclear : g.clearControl = .ok g') : g'.rested = g.rested := by
  have htwice : ∀ id unit, g.clearUnit id (g.clearUnit id unit) = g.clearUnit id unit := by
    intro id unit
    simp only [clearUnit]
    split <;> [rfl; split <;> rfl]
  obtain ⟨_, rfl⟩ := clearControl_eq_ok.mp hclear
  refine rested_eq rfl fun id => ?_
  rw [cleared, Array.getElem?_mapIdx, Option.map_map]
  congr 1
  funext unit
  simp only [Function.comp, restUnit, htwice]

theorem rested_widenExit (hwiden : g.widenExit interval = .ok g') : g'.rested = g.rested := by
  cases hexit : g.exitRoot with
  | none =>
      rw [widenExit, hexit] at hwiden
      rw [Checked.pure_eq_ok.mp hwiden]
  | some exit =>
      obtain ⟨⟨unit, hunit, _⟩, rfl⟩ := (widenExit_eq_ok hexit).mp hwiden
      refine rested_changeUnit (changeUnit_eq_ok.mpr ⟨lt_size_of_getElem? hunit, rfl⟩)
        fun unit => ?_
      have hclear : g.clearUnit exit (g.widenUnit interval unit) =
          g.widenUnit interval (g.clearUnit exit unit) := by
        unfold clearUnit
        split <;> [rfl; split <;> rfl]
      rw [restUnit, if_pos hexit, hclear, widenUnit_widenUnit, restUnit, if_pos hexit]

/-- A restart undoes every other restart, as long as the loop operation is a control unit. -/
theorem maintains_rested (hloop : ∀ {loop}, g.loopOp = some loop → loop ∈ g.controlUnits)
    (interval : Nat) : (resetControl interval).Maintains fun h => h.rested = g.rested := by
  have hclear : (Step.updateChecked clearControl).Maintains fun h => h.rested = g.rested :=
    Step.maintains_updateChecked fun _ _ hclear hrested =>
      (rested_clearControl hclear).trans hrested
  have hwiden : (Step.updateChecked (widenExit · interval)).Maintains
      fun h => h.rested = g.rested :=
    Step.maintains_updateChecked fun _ _ hwiden hrested => (rested_widenExit hwiden).trans hrested
  unfold resetControl
  refine hclear.bind fun _ => ?_
  by_cases hpos : 0 < interval
  · simp only [hpos, if_true]
    refine Step.maintains_current_bind fun h hrested => ?_
    have hloops : h.loopOp = g.loopOp := eq_of_rested_eq (·.loopOp) hrested fun _ => rfl
    cases hloopOp : h.loopOp with
    | none => exact Step.maintains_fail_bind _ _
    | some loop =>
        refine Step.Maintains.bind (Step.maintains_lift _) fun slot => ?_
        refine Step.Maintains.bind (Step.maintains_updateChecked fun k k' hplace hrested' => ?_)
          fun _ => hwiden
        have hcontrol : k.controlUnits = g.controlUnits :=
          eq_of_rested_eq (·.controlUnits) hrested' fun _ => rfl
        exact (rested_place hplace (hcontrol ▸ hloop (hloops.symm.trans hloopOp))).trans hrested'
  · simp only [hpos, if_false]
    exact hwiden

/-- A restart undoes all delays of moves on the control path. -/
theorem rested_delayPhis {now last : Journaled Graph} {result : PUnit}
    (h : delayPhis now = .ok result last) : last.state.rested = now.state.rested := by
  refine delayPhis_induction (P := fun h => h.rested = now.state.rested)
    (fun {ends id before after result} hid hbefore hdelay => ?_) rfl h
  have hcontrol : before.state.controlUnits = now.state.controlUnits :=
    eq_of_rested_eq (·.controlUnits) hbefore fun _ => rfl
  obtain ⟨_, _, ⟨rfl, _⟩ | ⟨_, _, _, _, _, _, hplace⟩⟩ := delayPhi_cases hdelay
  · exact hbefore
  · exact (rested_place hplace (hcontrol ▸ hid)).trans hbefore

end SlotScheduling.Graph
