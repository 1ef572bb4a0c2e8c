import SlotScheduling.Proofs.Placement.Dependencies
import SlotScheduling.Proofs.Strategy

/-!
# Straight-line schedules

A block that is not pipelined, or not any more, starts at its entry slot, and
every dependency within one iteration is met.
-/

namespace SlotScheduling

namespace Graph

theorem counts_of_getElem? {g : Graph} {id : UnitId} {unit : ScheduleUnit}
    (hunit : g.units[id]? = some unit) (h : g.IsControl id ∨ g.IsNeeded id) :
    unit.control = true ∨ unit.dangling = false := by
  refine h.imp (fun ⟨unit', hunit', hcontrol⟩ => ?_) fun ⟨unit', hunit', hneeded⟩ => ?_
  · rwa [Option.some.inj (hunit.symm.trans hunit')]
  · rwa [Option.some.inj (hunit.symm.trans hunit')]

/-- A legal schedule of straight-line code from an entry slot on. -/
structure IsStraightLine (entrySlot : Nat) (g : Graph) : Prop where
  entry : g.slot? g.entryRoot = some entrySlot
  placed : ∀ {id : UnitId} {unit : ScheduleUnit}, g.units[id]? = some unit →
    ∃ slot, unit.slot = some slot ∧ entrySlot ≤ slot
  ordered : ∀ {target source : UnitId} {consumer : ScheduleUnit} {bundle : EdgeBundle},
    g.units[target]? = some consumer → consumer.control = true ∨ consumer.dangling = false →
    consumer.dep? source = some bundle → bundle.edge.distance = 0 →
    ∃ s t, g.slot? source = some s ∧ consumer.slot = some t ∧ s + bundle.edge.latency ≤ t

variable {g : Graph} {block : BlockId} {entrySlot : Nat} {options : SchedulingOptions}
  {now last : Journaled Graph} {result : PUnit}

/-- The control path that straight-line code starts from. -/
structure StartsStraight (block : BlockId) (entrySlot : Nat) (g : Graph) : Prop where
  ofBlock : g.OfBlock block entrySlot
  straight : g.isPipelined = false
  entry : g.slot? g.entryRoot = some entrySlot
  path : DataPath.HasControlPath entrySlot g
  met : g.MeetsControl (g.interval? block) 0

theorem startsStraight_of_reset {cleared : Graph} {bounds : ControlBounds}
    (hg : cleared.OfBlock block entrySlot) (hexit : cleared.HasExit)
    (hentry : cleared.slot? cleared.entryRoot = some entrySlot)
    (hcleared : ∀ {id}, cleared.IsControl id → id ≠ cleared.entryRoot →
      cleared.slot? id = none)
    (hbounds : bounds.pipelining = false) (hstraight : cleared.isPipelined = false)
    (hplaced : ControlSystem.Placed cleared bounds g) : StartsStraight block entrySlot g := by
  have hg' := hg.of_frame_eq hplaced.frame
  have hword : entrySlot < Word.count := by
    obtain ⟨exit, _, hcontrol, hne⟩ := hexit
    have hmem := hg.control.mpr hcontrol
    obtain ⟨slot, hslot⟩ := hplaced.scheduled hmem
    have hrange := hplaced.range hmem (hcleared hcontrol hne) hslot
    rw [hg.entrySlot] at hrange
    omega
  have hintervals : g.interval? block = cleared.interval? block :=
    congrFun (interval?_of_frame_eq hplaced.frame) block
  refine ⟨hg', ?_, hplaced.kept hentry, ?_, ?_⟩
  · rw [isPipelined_of_skeleton_eq (skeleton_eq_of_frame_eq hplaced.frame), hstraight]
  · apply hplaced.hasControlPath hg'.toListed hg'.entrySlot.ge
    intro id slot hid hslot
    by_cases hroot : id = cleared.entryRoot
    · rw [hroot, hentry] at hslot
      cases hslot
      exact ⟨le_rfl, hword⟩
    · rw [hcleared hid hroot] at hslot
      cases hslot
  · rw [hintervals]
    apply hplaced.meetsControl hg'
    simp [ControlBounds.interval?, hbounds]

/-- The control path of straight-line code is placed from the entry on, and nothing
else changes. -/
theorem scheduleStraight_placed (hg : now.state.OfBlock block entrySlot)
    (hexit : now.state.HasExit) (h : scheduleStraight options now = .ok result last) :
    ∃ cleared bounds, cleared.setup = now.state.setup ∧
      cleared.slot? cleared.entryRoot = some entrySlot ∧
      (∀ {id}, cleared.IsControl id → id ≠ cleared.entryRoot → cleared.slot? id = none) ∧
      bounds.pipelining = false ∧ ControlSystem.Placed cleared bounds last.state := by
  obtain ⟨_, cleared, hreset, h⟩ := Step.bind_eq_ok.mp h
  have hsetup : cleared.state.setup = now.state.setup := (keeps_resetControl 0).of_eq_ok hreset
  obtain ⟨hskeleton, hentry, hcleared⟩ := resetControl_zero_eq_ok hreset
  have hg' := hg.of_skeleton_eq hskeleton
  have hexit' := hexit.of_skeleton_eq hskeleton
  rw [hg.entrySlot] at hentry
  have hnone : ∀ {id}, cleared.state.IsControl id → id ≠ cleared.state.entryRoot →
      cleared.state.slot? id = none := by
    intro id hid hne
    have houtline := outline_eq_of_skeleton_eq hskeleton
    exact hcleared id (hg.control.mpr (isControl_of_outline_eq houtline hid)) hne
  obtain ⟨_, noted, hnote, h⟩ := Step.bind_eq_ok.mp h
  obtain rfl := Step.note_eq_ok.mp hnote
  have hfree : ∃ id ∈ cleared.state.controlUnits, cleared.state.slot? id = none := by
    obtain ⟨exit, _, hcontrol, hne⟩ := hexit'
    exact ⟨exit, hg'.control.mpr hcontrol, hnone hcontrol hne⟩
  obtain ⟨g, bounds, hframe, hslots, hbounds, hplaced⟩ :=
    ControlPath.schedule_placed h hg' hentry hfree
  refine ⟨g, bounds, (setup_eq_of_frame_eq hframe).trans hsetup, (hslots _).trans hentry, ?_,
    hbounds, hplaced⟩
  intro id hid hne
  exact (hslots id).trans (hnone ((isControl_iff_of_frame_eq hframe).mp hid) hne)

theorem startsStraight_of_scheduleStraight (hg : now.state.OfBlock block entrySlot)
    (hexit : now.state.HasExit) (hstraight : now.state.isPipelined = false)
    (h : scheduleStraight options now = .ok result last) :
    StartsStraight block entrySlot last.state := by
  obtain ⟨cleared, bounds, hsetup, hentry, hcleared, hbounds, hplaced⟩ :=
    scheduleStraight_placed hg hexit h
  have hskeleton : cleared.skeleton = now.state.skeleton := congrArg Prod.fst hsetup
  exact startsStraight_of_reset (hg.of_skeleton_eq hskeleton) (hexit.of_skeleton_eq hskeleton)
    hentry hcleared hbounds ((isPipelined_of_skeleton_eq hskeleton).trans hstraight) hplaced

/-- Straight-line code keeps its skeleton and its intervals. -/
theorem setup_of_scheduleStraight (hg : now.state.OfBlock block entrySlot)
    (hexit : now.state.HasExit) (h : scheduleStraight options now = .ok result last) :
    last.state.setup = now.state.setup := by
  obtain ⟨cleared, bounds, hsetup, _, _, _, hplaced⟩ := scheduleStraight_placed hg hexit h
  exact (setup_eq_of_frame_eq hplaced.frame).trans hsetup

theorem StartsStraight.isStraightLine {g' : Graph} (hg : StartsStraight block entrySlot g)
    (h : DataPath.Finished entrySlot g g') : g'.IsStraightLine entrySlot where
  entry := (h.control hg.ofBlock.root).trans hg.entry
  placed := fun hunit => h.exists_slot hg.path hunit
  ordered := by
    intro target source consumer bundle hconsumer hcounts hdep hdistance
    obtain ⟨offset?, hoffset, producer, hproducer, s, t, hs, ht, hgap⟩ :=
      h.meets hg.ofBlock hg.path rfl hg.met hconsumer hcounts hdep
    rw [DepEdge.offset?_of_distance_eq_zero hdistance] at hoffset
    cases hoffset
    refine ⟨s, t, (slot?_eq hproducer).trans hs, ht, ?_⟩
    have hgap := hgap _ rfl
    simp only [Nat.cast_zero, ite_self] at hgap
    omega

end Graph

end SlotScheduling
