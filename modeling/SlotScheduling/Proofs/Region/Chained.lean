import SlotScheduling.Proofs.Region.Legality

/-!
# Chained blocks

A block that joins a region is entered at a unit that waits for the terminator of the block
before it.  Later blocks leave that unit and the terminator of the block alone.
-/

namespace SlotScheduling

namespace Graph

variable {sub g g' : Graph} {done : Completed} {anchor : Option UnitId}

/-- The entries of a graph are held where its units came to stand, less a folded one. -/
theorem Absorbs.exists_entries (h : Absorbs sub done anchor g g') :
    ∃ more : List (Instr × UnitId), g'.holders = g.holders.insertAll more ∧
      ∀ {block id}, (.entry block, id) ∈ more ↔ (anchor.isSome = true → block ≠ sub.entryBlock) ∧
        ∃ old, (.entry block, old) ∈ sub.holders.entries ∧
          relocate g.units.size anchor old = id := by
  refine ⟨_, h.holders, fun {block id} => ?_⟩
  simp only [List.mem_map, Prod.mk.injEq, Prod.exists]
  constructor
  · rintro ⟨instr, old, hentry, rfl, hid⟩
    split at hentry
    next =>
      obtain ⟨hentry, hne⟩ := List.mem_filter.mp hentry
      refine ⟨fun _ heq => ?_, old, List.mem_of_mem_filter hentry, hid⟩
      simp [heq] at hne
    next hnone => exact ⟨fun hsome => absurd hsome hnone, old, List.mem_of_mem_filter hentry, hid⟩
  · rintro ⟨hne, old, hentry, hid⟩
    refine ⟨.entry block, old, ?_, rfl, hid⟩
    split
    next hsome => simp [Table.erase, hentry, hne hsome]
    next => simp [Table.erase, hentry]

theorem Absorbs.terminator?_eq {program : Program} {basic : BasicBlock} {entrySlot : Nat}
    (h : Absorbs sub done anchor g g') (hsub : Alone program basic entrySlot sub)
    (hdone : Complete sub done) {block : BlockId} {id : UnitId}
    (hend : g'.terminator? block = some id) : g.terminator? block = some id ∨
      block = basic.id ∧ g.units.size ≤ id ∧ g'.IsControl id := by
  rw [terminator?, h.terminators] at hend
  by_cases hnew : ∃ old, (block, old) ∈ sub.terminators.entries
  · obtain ⟨old, hold⟩ := hnew
    obtain ⟨value, hmem, hget⟩ := Table.exists_get?_insertAll (List.mem_map_of_mem
      (f := fun entry : BlockId × UnitId =>
        (entry.1, relocate g.units.size anchor entry.2)) hold)
    obtain rfl := Option.some.inj (hend.symm.trans hget)
    obtain ⟨⟨_, other⟩, hother, heq⟩ := List.mem_map.mp hmem
    cases heq
    obtain ⟨rfl, hlast⟩ := hsub.terminators hother
    obtain ⟨hne, hcontrol⟩ := hsub.ends hlast
    have hmoves : Moves anchor other := Or.inr hne
    have hexit : sub.exitRoot ≠ some other := by
      have hterminator : sub.terminator? basic.id = some done.terminator :=
        hsub.entryBlock ▸ hdone.terminator
      obtain rfl := Option.some.inj (hlast.symm.trans hterminator)
      exact hdone.exitRoot_ne (hdone.last ▸ Nat.lt_succ_self _)
    exact Or.inr ⟨rfl, base_le_relocate hmoves,
      (h.embeds.isControl_iff hdone hmoves (hdone.lt_exit hcontrol.lt_size hexit)).mpr hcontrol⟩
  · rw [Table.get?_insertAll_of_forall_ne] at hend
    · exact Or.inl hend
    · rintro ⟨_, value⟩ hmem rfl
      obtain ⟨⟨_, other⟩, hother, heq⟩ := List.mem_map.mp hmem
      cases heq
      exact hnew ⟨other, hother⟩

end Graph

namespace Region

open SlotScheduling.Graph

variable {σ : Type} {program : Program} {blocks before after : List BasicBlock}
  {basic : BasicBlock} {entrySlot : Nat} {options : SchedulingOptions} {l l' : Lowering}
  {entry : UnitId} {now last : Journaled σ}

/-- The block was added to a graph, and is entered at the unit. -/
structure Joins (basic : BasicBlock) (l l' : Lowering) (entry : UnitId) : Prop where
  holder : l'.graph.holder? (.entry basic.id) = some entry
  control : l'.graph.IsControl entry
  root : l.takesEntry basic.id = true → entry = l.graph.entryRoot
  chained : l.takesEntry basic.id = false → ∀ last ∈ l.lastTerminator,
    last < l.graph.units.size → l'.graph.Honours entry last 0
  others : ∀ {block}, block ≠ basic.id →
    l'.graph.holder? (.entry block) = l.graph.holder? (.entry block)
  ends : ∀ {block id}, l'.graph.terminator? block = some id →
    l.graph.terminator? block = some id ∨
      block = basic.id ∧ l.graph.units.size ≤ id ∧ l'.graph.IsControl id
  last : l'.lastTerminator = l'.graph.terminator? basic.id
  taken : l'.entryTaken = true

theorem joins_of_merges {sub : Graph} {done : Completed} {anchor : Option UnitId}
    (h : Lowering.Merges sub done anchor l l') (hsub : Alone program basic entrySlot sub)
    (hroot : l.graph.IsControl l.graph.entryRoot)
    (hholder : l.takesEntry basic.id = true →
      l.graph.holder? (.entry basic.id) = some l.graph.entryRoot) :
    Joins basic l l' (relocate l.graph.units.size anchor 0) := by
  obtain ⟨hdone, habsorbs, hfolded, hunfolded, hchained, hlast, htaken, _⟩ := h
  rw [hsub.entryBlock] at hfolded hunfolded hchained hlast
  obtain ⟨more, hholders, hmore⟩ := habsorbs.exists_entries
  have hothers : ∀ {block}, (block ≠ basic.id ∨ anchor.isSome = true) →
      l'.graph.holder? (.entry block) = l.graph.holder? (.entry block) := by
    intro block hblock
    rw [holder?, hholders, Table.get?_insertAll_of_forall_ne, holder?]
    rintro ⟨_, id⟩ hmem rfl
    obtain ⟨hne, old, hold, _⟩ := hmore.mp hmem
    obtain ⟨heq, _⟩ := hsub.entries hold
    rcases hblock with hblock | hsome
    · exact hblock heq
    · exact hne hsome (heq.trans hsub.entryBlock.symm)
  have hpos : 0 < done.exit := hdone.last ▸ Nat.succ_pos _
  refine ⟨?_, ?_, fun htakes => ?_, fun htakes last hmem hlt => ?_, fun hne => hothers (Or.inl hne),
    habsorbs.terminator?_eq hsub hdone, hlast, htaken⟩
  · by_cases htakes : l.takesEntry basic.id = true
    · rw [hfolded htakes, hothers (Or.inr (by rw [hfolded htakes]; rfl)), hholder htakes]
      rfl
    · have hnone := hunfolded (Bool.eq_false_iff.mpr htakes)
      have hmem := hmore.mpr ⟨fun hsome => by simp [hnone] at hsome, _,
        Table.mem_entries_of_get?_eq_some hsub.entry, rfl⟩
      obtain ⟨value, hvalue, hget⟩ : ∃ value, (.entry basic.id, value) ∈ more ∧
          (l.graph.holders.insertAll more).get? (.entry basic.id) = some value :=
        Table.exists_get?_insertAll hmem
      obtain ⟨_, old, hold, rfl⟩ := hmore.mp hvalue
      rw [holder?, hholders, hget, (hsub.entries hold).2]
      rfl
  · by_cases htakes : l.takesEntry basic.id = true
    · rw [hfolded htakes]
      exact (habsorbs.agrees.isControl_iff hroot.lt_size).mpr hroot
    · have hmoves : Moves anchor 0 := Or.inl (hunfolded (Bool.eq_false_iff.mpr htakes))
      exact (habsorbs.embeds.isControl_iff hdone hmoves hpos).mpr hsub.root
  · rw [hfolded htakes]
    rfl
  · rw [hunfolded htakes]
    exact hchained htakes last hmem hlt

/-- What keeps the operations of a block behind its entry: they are anchored to it, or the
block moves as a whole. -/
inductive Opens (program : Program) (basic : BasicBlock) (entrySlot base top : Nat)
    (entry : UnitId) (g : Graph) : Prop
  | lowered (hloops : isSelfLoop program basic = .ok false)
      (hanchors : Lowering.Anchors program basic base top entry g)
      (hparts : ∀ {id : UnitId} {unit : ScheduleUnit}, base ≤ id → id < top →
        g.units[id]? = some unit → unit.Fresh program basic)
      (hentry : ∀ {id}, g.Leads (.entry basic.id) id → base ≤ id → id < top → id = entry)
  | merged (hloops : isSelfLoop program basic = .ok true) {sub : Graph} {done : Completed}
      {anchor : Option UnitId} (hsub : Alone program basic entrySlot sub)
      (hdone : Complete sub done) (hembeds : Embeds sub done base anchor g)
      (hentry : entry = relocate base anchor 0) (htop : relocate base anchor done.exit = top)

theorem Opens.mono {base top : Nat} {g g' : Graph}
    (h : Opens program basic entrySlot base top entry g) (hagrees : AgreesBelow g.units.size g g')
    (hsize : g.units.size ≤ g'.units.size) (htop : top ≤ g.units.size) :
    Opens program basic entrySlot base top entry g' := by
  cases h with
  | lowered hloops hanchors hparts hentry =>
      have hbelow : ∀ {id}, id < top → id < g.units.size := fun hlt => Nat.lt_of_lt_of_le hlt htop
      refine .lowered hloops (hanchors.mono (hagrees.mono htop)) (fun hle hlt hunit => ?_)
        fun hleads hle hlt => hentry ((hagrees.leads_iff (hbelow hlt)).mp hleads) hle hlt
      obtain ⟨unit', hunit', hbare⟩ := hagrees.exists_unit (hbelow hlt) hunit
      exact (hparts hle hlt hunit').of_bare_eq hbare
  | merged hloops hsub hdone hembeds hentry htop' =>
      exact .merged hloops hsub hdone (hembeds.mono hdone hagrees hsize) hentry htop'

/-- A graph under construction that holds its entry while no block has taken it over. -/
structure Open (l : Lowering) : Prop extends Growing l.graph where
  entry : ∀ {block}, l.takesEntry block = true →
    l.graph.holder? (.entry block) = some l.graph.entryRoot

theorem open_start (block : BlockId) (entrySlot : Nat) : Open (Lowering.start block entrySlot) where
  toGrowing := growing_start block entrySlot
  entry := by
    intro other htakes
    rw [Lowering.takesEntry_start.mp htakes]
    exact (OfBlock.start block entrySlot).entry

/-- A block that is added is entered, and kept behind its entry if no other unit before it is one
of the block. -/
theorem joins_addBlock (hl : Open l)
    (h : addBlock program entrySlot options l basic now = .ok l' last) :
    ∃ entry, Joins basic l l' entry ∧ Open l' ∧
      ((∀ {id : UnitId} {unit : ScheduleUnit}, l.graph.units[id]? = some unit →
        unit.block = basic.id → id = entry) →
      Opens program basic entrySlot l.graph.units.size l'.graph.units.size entry l'.graph) := by
  obtain ⟨hadded, _, _⟩ := addBlock_eq_ok hl.toGrowing h
  have hopen : l'.entryTaken = true → Open l' := fun htaken =>
    ⟨hadded.growing hl.toGrowing, fun htakes => by simp [Lowering.takesEntry, htaken] at htakes⟩
  obtain ⟨loops, hloops, hadd⟩ := Step.lift_bind_eq_ok.mp h
  cases loops with
  | false =>
      obtain ⟨hlowers, htaken, _⟩ :=
        Lowering.lowers_lowerBlock hl.toWellFormed hl.held hl.rootLead hadd
      obtain ⟨hlast, entry, henters, hanchors⟩ := Lowering.enters_lowerBlock hl.toWellFormed
        hl.held hl.rootLead hl.root hl.entry hadd
      refine ⟨entry, ⟨henters.holder, henters.control, henters.root, henters.chained,
        henters.others, hlowers.ends, hlast, htaken⟩, hopen htaken, fun hold => ?_⟩
      exact .lowered hloops (hanchors hold) (fun hle _ hunit => hlowers.fresh hle hunit)
        fun hleads hle _ => henters.leads hleads hle
  | true =>
      obtain ⟨sub, done, anchor, _, halone, hmerges⟩ := merges_addBlock hl.toGrowing hloops h
      refine ⟨_, joins_of_merges hmerges halone hl.root hl.entry, hopen hmerges.taken, fun _ => ?_⟩
      exact .merged hloops halone hmerges.complete hmerges.absorbs.embeds rfl
        hmerges.absorbs.size.symm

/-- Blocks with other numbers leave an entry and a terminator alone. -/
theorem kept_foldlM (hl : Open l)
    (h : blocks.foldlM (addBlock program entrySlot options) l now = .ok l' last) :
    Open l' ∧ (l.entryTaken = true ∨ blocks ≠ [] → l'.entryTaken = true) ∧
      ∀ {block}, (∀ basic ∈ blocks, basic.id ≠ block) →
        l'.graph.holder? (.entry block) = l.graph.holder? (.entry block) ∧
          ∀ {id}, l'.graph.terminator? block = some id → l.graph.terminator? block = some id := by
  induction blocks generalizing l now with
  | nil =>
      obtain ⟨rfl, rfl⟩ := Step.pure_eq_ok.mp h
      exact ⟨hl, fun htaken => htaken.resolve_right (by simp), fun _ => ⟨rfl, fun h => h⟩⟩
  | cons basic rest ih =>
      rw [List.foldlM_cons, Step.bind_eq_ok] at h
      obtain ⟨l₁, now₁, hadd, h⟩ := h
      obtain ⟨entry, hjoins, hopen, _⟩ := joins_addBlock hl hadd
      obtain ⟨hlast, htaken, hkept⟩ := ih hopen h
      refine ⟨hlast, fun _ => htaken (Or.inl hjoins.taken), fun {block} hblocks => ?_⟩
      obtain ⟨hne, hrest⟩ := List.forall_mem_cons.mp hblocks
      obtain ⟨hholder, hends⟩ := hkept hrest
      refine ⟨hholder.trans (hjoins.others hne.symm), fun hend => ?_⟩
      exact (hjoins.ends (hends hend)).resolve_right fun hnew => hne hnew.1.symm

theorem terminator?_start_foldlM {first : BlockId}
    (h : before.foldlM (addBlock program entrySlot options) (Lowering.start first entrySlot) now =
      .ok l last) (hne : ∀ earlier ∈ before, earlier.id ≠ basic.id) :
    l.graph.terminator? basic.id = none := by
  refine Option.eq_none_iff_forall_ne_some.mpr fun id hend => ?_
  have hstart := ((kept_foldlM (open_start first entrySlot) h).2.2 hne).2 hend
  cases hstart

/-- The unit of a region before its end is the entry of the region, or part of a block. -/
theorem block_of_grows {first : BlockId} {g : Graph}
    (h : Grows program before (Graph.start first entrySlot) g) {id : UnitId} {unit : ScheduleUnit}
    (hunit : g.units[id]? = some unit) :
    unit.block = first ∨ ∃ earlier ∈ before, unit.block = earlier.id := by
  by_cases hid : id < (Graph.start first entrySlot).units.size
  · obtain ⟨root, hroot, hbare⟩ := h.agrees.exists_unit hid hunit
    have hblock : unit.block = root.block := by
      have hblock := congrArg ScheduleUnit.block hbare
      exact hblock
    rw [getElem?_start] at hroot
    split at hroot
    · cases hroot
      exact Or.inl hblock
    · cases hroot
  · obtain ⟨earlier, hmem, hpart⟩ := h.parts (Nat.not_lt.mp hid) hunit
    exact Or.inr ⟨earlier, hmem, hpart.block⟩

/-- A block that has a number of its own has no unit in the graph of the blocks before it. -/
theorem block_ne_of_grows {first block : BlockId} {g : Graph}
    (h : Grows program before (Graph.start first entrySlot) g)
    (hfirst : ∃ head ∈ before, head.id = first) (hne : ∀ earlier ∈ before, earlier.id ≠ block)
    {id : UnitId} {unit : ScheduleUnit} (hunit : g.units[id]? = some unit) :
    unit.block ≠ block := by
  rcases block_of_grows h hunit with hroot | ⟨earlier, hmem, hblock⟩
  · obtain ⟨head, hmem, hhead⟩ := hfirst
    exact hroot ▸ hhead ▸ hne head hmem
  · exact hblock ▸ hne earlier hmem

/-- The units of a block stand where it was lowered; only the exit of the region comes later, and
only its entry can come before. -/
theorem between_of_grows {low mid high built : Graph} {block closing : BlockId}
    (hadded : AgreesBelow low.units.size low mid) (hgrows : Grows program after mid high)
    (hcloses : Closes closing high built)
    (hold : ∀ {id : UnitId} {unit : ScheduleUnit}, low.units[id]? = some unit →
      unit.block = block → id = entry)
    (hlater : ∀ later ∈ after, later.id ≠ block) {id : UnitId} {unit : ScheduleUnit}
    (hunit : built.units[id]? = some unit) (hblock : unit.block = block)
    (hexit : built.exitRoot ≠ some id) :
    id = entry ∨ low.units.size ≤ id ∧ id < mid.units.size := by
  have hlt := lt_size_of_getElem? hunit
  rw [hcloses.size] at hlt
  have hhigh : id < high.units.size :=
    Nat.lt_of_le_of_ne (Nat.le_of_lt_succ hlt) fun heq => hexit (heq ▸ hcloses.exitRoot)
  obtain ⟨unit', hunit', hbare⟩ := hcloses.agrees.exists_unit hhigh hunit
  have hblock' : unit'.block = block := (congrArg ScheduleUnit.block hbare).symm.trans hblock
  have hmid : id < mid.units.size := by
    by_contra hle
    obtain ⟨later, hmem, hpart⟩ := hgrows.parts (Nat.not_lt.mp hle) hunit'
    exact hlater later hmem (hpart.block.symm.trans hblock')
  by_cases hlow : id < low.units.size
  · obtain ⟨unit₁, hunit₁, hbare₁⟩ := hgrows.agrees.exists_unit hmid hunit'
    obtain ⟨unit₂, hunit₂, hbare₂⟩ := hadded.exists_unit hlow hunit₁
    have hblock₂ := congrArg ScheduleUnit.block (hbare₁.trans hbare₂)
    exact Or.inl (hold hunit₂ (hblock₂.symm.trans hblock'))
  · exact Or.inr ⟨Nat.not_lt.mp hlow, hmid⟩

/-- The terminator that is remembered is that of the block that came last. -/
theorem lastTerminator_foldlM {first : BlockId} {init : List BasicBlock}
    (h : (init ++ [basic]).foldlM (addBlock program entrySlot options)
      (Lowering.start first entrySlot) now = .ok l last)
    (hne : ∀ earlier ∈ init, earlier.id ≠ basic.id) :
    l.lastTerminator = l.graph.terminator? basic.id ∧
      ∀ {id}, l.graph.terminator? basic.id = some id → id < l.graph.units.size := by
  rw [List.foldlM_append, Step.bind_eq_ok] at h
  obtain ⟨before, now₁, hinit, h⟩ := h
  obtain ⟨after, now₂, hadd, h⟩ := Step.bind_eq_ok.mp h
  obtain ⟨rfl, rfl⟩ := Step.pure_eq_ok.mp h
  obtain ⟨_, hjoins, _⟩ := joins_addBlock (kept_foldlM (open_start first entrySlot) hinit).1 hadd
  refine ⟨hjoins.last, fun hend => ?_⟩
  rcases hjoins.ends hend with hold | ⟨_, _, hcontrol⟩
  · cases (terminator?_start_foldlM hinit hne).symm.trans hold
  · exact hcontrol.lt_size

/-- A block that joins a graph waits for the terminator of the block that came last. -/
theorem Joins.honours_last (hjoins : Joins basic l l' entry)
    (htakes : l.takesEntry basic.id = false) {first : BlockId} {init : List BasicBlock}
    {earlier : BasicBlock} (hinit : (init ++ [earlier]).foldlM
      (addBlock program entrySlot options) (Lowering.start first entrySlot) now = .ok l last)
    (hne : ∀ other ∈ init, other.id ≠ earlier.id) (hself : earlier.id ≠ basic.id) {id : UnitId}
    (hend : l'.graph.terminator? earlier.id = some id) : l'.graph.Honours entry id 0 := by
  obtain ⟨hlast, hlt⟩ := lastTerminator_foldlM hinit hne
  have hold : l.graph.terminator? earlier.id = some id :=
    (hjoins.ends hend).resolve_right fun hnew => hself hnew.1
  exact hjoins.chained htakes id (hlast.trans hold) (hlt hold)

/-- A block stands in a graph between two positions, and is entered at the unit, which is the
entry of the graph if no block is before. -/
structure Stands (program : Program) (before : List BasicBlock) (basic : BasicBlock)
    (entrySlot base top : Nat) (entry : UnitId) (g : Graph) : Prop where
  holder : g.holder? (.entry basic.id) = some entry
  control : g.IsControl entry
  lt : entry < top
  root : before = [] → entry = g.entryRoot
  opens : Opens program basic entrySlot base top entry g
  within : ∀ {id : UnitId} {unit : ScheduleUnit}, g.units[id]? = some unit →
    unit.block = basic.id → g.exitRoot ≠ some id → id = entry ∨ base ≤ id ∧ id < top
  closed : ∀ exit, g.exitRoot = some exit → top ≤ exit
  ends : ∀ {id}, g.terminator? basic.id = some id → base ≤ id ∧ id < top ∧ g.IsControl id
  chained : ∀ {init earlier last}, before = init ++ [earlier] →
    g.terminator? earlier.id = some last → g.Honours entry last 0

section

variable {threshold : Option Level} {whole built g : Graph}

/-- Every block of a region stands in the graph of the region. -/
theorem Outcome.exists_stands
    (h : Outcome σ program blocks entrySlot options threshold whole built g)
    (hids : (blocks.map (·.id)).Nodup) (hblocks : blocks = before ++ basic :: after) :
    ∃ base top entry, Stands program before basic entrySlot base top entry built := by
  obtain ⟨first, rest, lend, now, last, hfirst, hfold, rfl⟩ := h.run
  obtain ⟨_, hcloses⟩ := h.closes
  rw [hblocks] at hfold hfirst hids
  rw [List.foldlM_append, Step.bind_eq_ok] at hfold
  obtain ⟨l, now₁, hbefore, hfold⟩ := hfold
  rw [List.foldlM_cons, Step.bind_eq_ok] at hfold
  obtain ⟨l', now₂, hadd, hafter⟩ := hfold
  have hstart := open_start first.id entrySlot
  obtain ⟨hopen, htaken, _⟩ := kept_foldlM hstart hbefore
  obtain ⟨_, hgrowsBefore, _⟩ := foldlM_addBlock_eq_ok hstart.toGrowing hbefore
  obtain ⟨hadded, _⟩ := addBlock_eq_ok hopen.toGrowing hadd
  obtain ⟨entry, hjoins, hopen', hopens⟩ := joins_addBlock hopen hadd
  obtain ⟨_, _, hkept⟩ := kept_foldlM hopen' hafter
  obtain ⟨_, hgrows, _⟩ := foldlM_addBlock_eq_ok hopen'.toGrowing hafter
  rw [List.map_append, List.map_cons, List.nodup_append] at hids
  obtain ⟨hidsBefore, hidsAfter, hcross⟩ := hids
  have hearlier : ∀ earlier ∈ before, earlier.id ≠ basic.id := fun earlier hmem =>
    hcross _ (List.mem_map_of_mem hmem) _ List.mem_cons_self
  have hlater : ∀ later ∈ after, later.id ≠ basic.id := fun later hmem heq =>
    (List.nodup_cons.mp hidsAfter).1 (heq ▸ List.mem_map_of_mem hmem)
  have hagrees : AgreesBelow l'.graph.units.size l'.graph built :=
    hgrows.agrees.trans (hcloses.agrees.mono hgrows.size)
  have hsize : l'.graph.units.size ≤ built.units.size := by
    rw [hcloses.size]
    exact Nat.le_succ_of_le hgrows.size
  have hends : built.terminator? = lend.graph.terminator? := by
    have hterminators := congrArg (fun rest => Table.get? rest.2.2.2.1) hcloses.surroundings
    exact hterminators
  have htakes : before ≠ [] → l.takesEntry basic.id = false := fun hne => by
    simp [Lowering.takesEntry, htaken (Or.inr hne)]
  have hroot : before = [] → entry = l.graph.entryRoot := by
    rintro rfl
    obtain rfl : basic = first := (List.cons.inj hfirst).1
    obtain ⟨rfl, _⟩ := Step.pure_eq_ok.mp hbefore
    exact hjoins.root (Lowering.takesEntry_start.mpr rfl)
  have hold : ∀ {id : UnitId} {unit : ScheduleUnit}, l.graph.units[id]? = some unit →
      unit.block = basic.id → id = entry := by
    intro id unit hunit hblock
    by_cases hnil : before = []
    · rw [hroot hnil]
      subst hnil
      obtain ⟨rfl, _⟩ := Step.pure_eq_ok.mp hbefore
      have hlt := lt_size_of_getElem? hunit
      exact Nat.lt_one_iff.mp hlt
    · refine absurd hblock (block_ne_of_grows hgrowsBefore ?_ hearlier hunit)
      obtain ⟨head, tail, rfl⟩ := List.exists_cons_of_ne_nil hnil
      obtain rfl : head = first := (List.cons.inj hfirst).1
      exact ⟨head, List.mem_cons_self, rfl⟩
  refine ⟨l.graph.units.size, l'.graph.units.size, entry, ?_, ?_, hjoins.control.lt_size, hroot,
    (hopens hold).mono hagrees hsize (Nat.le_refl _), fun {id unit} hunit hblock hexit => ?_,
    fun exit hexit => ?_, fun {id} hend => ?_, fun {init earlier last} hbefore' hend => ?_⟩
  · rw [holder?, hcloses.holders, Table.get?_insert, if_neg (by simp), ← hjoins.holder]
    exact (hkept hlater).1
  · exact (hagrees.isControl_iff hjoins.control.lt_size).mpr hjoins.control
  · exact between_of_grows hadded.grows.agrees hgrows hcloses hold hlater hunit hblock hexit
  · rw [← Option.some.inj (hcloses.exitRoot.symm.trans hexit)]
    exact hgrows.size
  · rw [hends] at hend
    rcases hjoins.ends ((hkept hlater).2 hend) with hold | ⟨_, hle, hcontrol⟩
    · cases (terminator?_start_foldlM hbefore hearlier).symm.trans hold
    · exact ⟨hle, hcontrol.lt_size, (hagrees.isControl_iff hcontrol.lt_size).mpr hcontrol⟩
  · subst hbefore'
    rw [List.map_append, List.map_singleton, List.nodup_append] at hidsBefore
    obtain ⟨_, _, hinit⟩ := hidsBefore
    have hmem : earlier ∈ init ++ [earlier] :=
      List.mem_append_right _ (List.mem_singleton_self _)
    have hne : ∀ other ∈ after, other.id ≠ earlier.id := fun other hother heq =>
      hcross _ (List.mem_map_of_mem hmem) _ (List.mem_cons_of_mem _ (List.mem_map_of_mem hother))
        heq.symm
    rw [hends] at hend
    have hhonours := hjoins.honours_last (htakes (by simp)) hbefore
      (fun other hother => hinit _ (List.mem_map_of_mem hother) _ (List.mem_singleton_self _))
      (hearlier earlier hmem) ((hkept hne).2 hend)
    exact hhonours.of_bundle?_eq (hagrees.edges hjoins.control.lt_size)

end

end Region

end SlotScheduling
