import SlotScheduling.Proofs.Freezing.Relative
import SlotScheduling.Proofs.Graph.Knit

/-!
# Frozen blocks among others

All that is new between the units of a graph that absorbs another one are edges of fixed timing, and
all new terminators end the blocks that come along.
-/

namespace SlotScheduling.Graph

variable {g g' sub : Graph} {done : Completed} {anchor : Option UnitId} {id target source : UnitId}
  {block : BlockId} {bundle : EdgeBundle} {blocks others : List BlockId}

theorem isFixedTiming_of_mem_frozenUnits (hsub : sub.Listed) (hdone : Complete sub done)
    {units : List ScheduleUnit} (h : done.frozenUnits = .ok units) {unit : ScheduleUnit}
    (hunit : unit ∈ units) {dep : UnitId × EdgeBundle} (hdep : dep ∈ unit.deps.entries) :
    dep.2.edge.isFixedTiming = true := by
  obtain ⟨_, hunits, _, hadded⟩ := Completed.exists_frozenUnits hsub hdone
  obtain rfl := Except.ok.inj (h.symm.trans hunits)
  obtain ⟨id, hid⟩ := List.mem_iff_getElem?.mp hunit
  obtain ⟨_, _, _, hedges⟩ := hadded hid
  have hmem : (dep.1, dep.2.edge) ∈ unit.edges := List.mem_map_of_mem hdep
  rw [hedges, Completed.edgesInto] at hmem
  obtain ⟨edge, _, heq⟩ := List.mem_map.mp hmem
  have heq : DepEdge.fixedTiming edge.2.2 = dep.2.edge := congrArg Prod.snd heq
  rw [← heq]
  rfl

/-- The units that come along are held together by fixed timing only. -/
theorem hasEdge_absorb (hsub : sub.Listed) (hdone : Complete sub done)
    (h : g.absorb done anchor = .ok g') (hedge : g'.HasEdge target source bundle) :
    g.HasEdge target source bundle ∨ bundle.edge.isFixedTiming = true := by
  obtain ⟨units, hunits, hsame⟩ := units_of_absorb h
  obtain ⟨unit, hunit, hmem⟩ := hedge
  have hget : (g'.units.toList.map ScheduleUnit.unused)[target]? = some unit.unused := by
    rw [List.getElem?_map, Array.getElem?_toList, hunit, Option.map_some]
  rw [hsame, List.getElem?_append, List.getElem?_map, List.getElem?_map] at hget
  split at hget
  · obtain ⟨old, hold, heq⟩ := Option.map_eq_some_iff.mp hget
    have hdeps : old.deps = unit.deps := by
      have hdeps := congrArg ScheduleUnit.deps heq
      exact hdeps
    rw [Array.getElem?_toList] at hold
    exact Or.inl ⟨old, hold, hdeps ▸ hmem⟩
  · obtain ⟨moved, hmoved, heq⟩ := Option.map_eq_some_iff.mp hget
    have hdeps : moved.deps = unit.deps := by
      have hdeps := congrArg ScheduleUnit.deps heq
      exact hdeps
    rw [← hdeps] at hmem
    obtain ⟨old, hold, rfl⟩ := List.mem_map.mp (List.mem_of_getElem? hmoved)
    obtain ⟨dep, hdep, heq⟩ := List.mem_map.mp hmem
    have hold : old ∈ units := by
      split at hold
      · exact List.mem_of_mem_drop hold
      · exact hold
    cases heq
    exact Or.inr (isFixedTiming_of_mem_frozenUnits hsub hdone hunits hold hdep)

/-- A terminator comes along, and is not folded. -/
theorem EndsWithin.moves (hends : sub.EndsWithin others) (hdone : Complete sub done)
    (hmem : (block, id) ∈ sub.terminators.entries) : Moves anchor id ∧ id < done.exit := by
  obtain ⟨_, hend⟩ := hends hmem
  have hlt := lt_size_of_block? hend.block
  have hne : id ≠ done.exit := by
    rintro rfl
    exact hend.notExit hdone.exit
  rw [hdone.size] at hlt
  exact ⟨Or.inr hend.notEntry, Nat.lt_of_le_of_ne (Nat.le_of_lt_succ hlt) hne⟩

theorem EndsWithin.absorb (hg : g.EndsWithin blocks) (hends : sub.EndsWithin others)
    (hdone : Complete sub done) (hrooted : g.entryRoot < g.units.size) (hexit : g.exitRoot = none)
    (h : Absorbs sub done anchor g g') : g'.EndsWithin (others ++ blocks) := by
  intro block id hmem
  have hroot : g'.exitRoot = none := h.rest.2.2.2.trans hexit
  have hunended : g'.exitRoot ≠ some id := by simp [hroot]
  rw [h.terminators] at hmem
  rcases Table.mem_entries_insertAll hmem with hnew | ⟨hmem, _⟩
  · obtain ⟨⟨block', id'⟩, hold, heq⟩ := List.mem_map.mp hnew
    cases heq
    obtain ⟨hblock, hend⟩ := hends hold
    obtain ⟨hmoves, hlt⟩ := hends.moves hdone hold
    obtain ⟨unit, hunit, hunitBlock⟩ := Option.map_eq_some_iff.mp hend.block
    obtain ⟨unit', hunit', hbare⟩ := Option.map_eq_some_iff.mp (h.moved hmoves hlt hunit)
    have hsame : unit'.block = unit.block := by
      have hsame := congrArg ScheduleUnit.block hbare
      exact hsame
    refine ⟨List.mem_append_left _ hblock, ?_, ?_, hunended⟩
    · rw [block?_eq hunit', hsame, hunitBlock]
    · exact Nat.ne_of_gt (Nat.lt_of_lt_of_le hrooted (base_le_relocate hmoves))
  · obtain ⟨hblock, hend⟩ := hg hmem
    refine ⟨List.mem_append_right _ hblock, ?_, hend.notEntry, hunended⟩
    rw [block?_of_agreesBelow h.agrees (lt_size_of_block? hend.block)]
    exact hend.block

/-- The terminators that were there still end their blocks. -/
theorem Absorbs.terminator?_of_notMem (h : Absorbs sub done anchor g g')
    (hends : sub.EndsWithin others) (hblock : block ∉ others) :
    g'.terminator? block = g.terminator? block := by
  rw [terminator?, h.terminators, Table.get?_insertAll_of_forall_ne, terminator?]
  intro entry hentry heq
  obtain ⟨⟨block', id'⟩, hmem, rfl⟩ := List.mem_map.mp hentry
  exact hblock (heq ▸ (hends hmem).1)

theorem Knit.absorb (hg : Knit blocks g) (hsub : sub.Listed) (hdone : sub.completed = .ok done)
    (hanchor : ∀ unit ∈ anchor, unit < g.units.size) (hends : sub.EndsWithin others)
    (hapart : ∀ block ∈ others, block ∉ blocks) (h : g.absorb done anchor = .ok g') :
    Knit blocks g' := by
  have hcomplete := completed_eq_ok hsub hdone
  obtain ⟨habsorbs, _⟩ := absorb_eq_ok hg.toWellFormed hsub hcomplete hanchor h
  have hedges : ∀ {target source bundle}, g'.HasEdge target source bundle →
      bundle.edge.isFixedTiming = false → g.HasEdge target source bundle := by
    intro target source bundle hedge hfixed
    rcases hasEdge_absorb hsub hcomplete h hedge with hold | hnew
    · exact hold
    · cases hfixed.symm.trans hnew
  have hblock : ∀ {id : UnitId}, id < g.units.size → g'.block? id = g.block? id :=
    block?_of_agreesBelow habsorbs.agrees
  refine ⟨hg.toCoherent.absorb hsub hdone hanchor h, fun {target source bundle} hedge hfixed => ?_,
    fun {target source bundle} hedge hfixed hentry => ?_⟩
  · have hold := hedges hedge hfixed
    rw [hblock hold.target_lt, hblock (hold.source_lt hg.toCoherent)]
    exact hg.crosses hold hfixed
  · have hold := hedges hedge hfixed
    have hentry : g.IsEntry target :=
      (exists_iff_of_map_eq (habsorbs.agrees.units hold.target_lt) fun _ => Iff.rfl).mp hentry
    obtain ⟨block, hmem, hsource, hlast⟩ := hg.entries hold hfixed hentry
    refine ⟨block, hmem, (hblock (lt_size_of_block? hsource)).trans hsource, ?_⟩
    rw [habsorbs.terminator?_of_notMem hends fun hother => hapart block hother hmem]
    exact hlast

end SlotScheduling.Graph
