import SlotScheduling.Proofs.Pipeline.Found
import SlotScheduling.Proofs.Strategy

/-!
# Pipelined schedules

In a pipelined loop the loop operation issues one interval after the entry.  A
dependency may reach back as many intervals as its distance says, and one more if
it starts at a move, which was delayed.
-/

namespace SlotScheduling

namespace Graph

variable {g g' : Graph} {block : BlockId} {entrySlot interval : Nat} {id : UnitId}
  {options : SchedulingOptions}

theorem Delayed.slot_eq (h : Delayed interval g.controlUnits g g') (hg : g.Listed)
    (hid : g.IsControl id) {slot : Nat} (hslot : g.slot? id = some slot) :
    g'.slot? id = some (slot + g.delayOf interval id) := by
  rw [h.slots (hg.control.mpr hid), hslot]
  rfl

theorem Delayed.hasControlPath (h : Delayed interval g.controlUnits g g') (hg : g.Listed)
    (hpath : DataPath.HasControlPath entrySlot g) : DataPath.HasControlPath entrySlot g' := by
  intro id hid
  have hcontrol := (isControl_iff_of_frame_eq h.frame).mp hid
  obtain ⟨slot, hslot, hlow, hword⟩ := hpath id hcontrol
  have hmoved := h.words (hg.control.mpr hcontrol) hslot hword
  exact ⟨_, h.slot_eq hg hcontrol hslot, Nat.le_add_right_of_le hlow, hmoved⟩

/-- A move that comes late may miss a dependency by as much as it was delayed. -/
theorem Delayed.meetsControl {known : Option Nat} (h : Delayed interval g.controlUnits g g')
    (hg : g.Listed) (hmeets : g.MeetsControl known 0) : g'.MeetsControl known interval := by
  intro target source consumer bundle hconsumer hcontrol hdep
  obtain ⟨consumer', hconsumer', hagree⟩ := exists_of_frame_eq h.frame hconsumer
  have hdep' : consumer'.dep? source = some bundle := by
    rw [ScheduleUnit.dep?, ← hagree.deps]
    exact hdep
  obtain ⟨offset?, hoffset, hgap⟩ := hmeets hconsumer' (hagree.control ▸ hcontrol) hdep'
  refine ⟨offset?, hoffset, fun offset hsome producer hproducer hsource => ?_⟩
  obtain ⟨producer', hproducer', hagree'⟩ := exists_of_frame_eq h.frame hproducer
  obtain ⟨s, t, hs, ht, hgap⟩ := hgap offset hsome producer' hproducer' (hagree'.control ▸ hsource)
  have hsource' := h.slot_eq hg ⟨producer', hproducer', hagree'.control ▸ hsource⟩
    ((slot?_eq hproducer').trans hs)
  have htarget' := h.slot_eq hg ⟨consumer', hconsumer', hagree.control ▸ hcontrol⟩
    ((slot?_eq hconsumer').trans ht)
  refine ⟨_, _, (slot?_eq hproducer).symm.trans hsource',
    (slot?_eq hconsumer).symm.trans htarget', ?_⟩
  rw [delayOf_eq hproducer', hagree'.phi]
  simp only [Nat.cast_zero, ite_self] at hgap
  push_cast
  split <;> omega

/-- The control path that a pipelined schedule starts from. -/
structure StartsPipelined (block : BlockId) (entrySlot interval : Nat) (g : Graph) : Prop where
  ofBlock : g.OfBlock block entrySlot
  pipelined : g.isPipelined = true
  recorded : g.interval? block = some interval
  loop : ∃ loopOp, g.loopOp = some loopOp ∧
    g.slot? loopOp = some (entrySlot + interval + g.delayOf interval loopOp)
  entry : g.loopOp ≠ some g.entryRoot →
    g.slot? g.entryRoot = some (entrySlot + g.delayOf interval g.entryRoot)
  moves : g.ExitsAfterMoves interval
  path : DataPath.HasControlPath entrySlot g
  met : g.MeetsControl (some interval) interval

theorem StartsPipelined.slot?_entryRoot {exit : UnitId}
    (h : StartsPipelined block entrySlot interval g) (hg : Enclosed block entrySlot exit g) :
    g.slot? g.entryRoot = some entrySlot := by
  obtain ⟨root, hroot, -⟩ := hg.root
  have hentry := h.entry hg.entryNoLoop
  rwa [delayOf_eq hroot, (hg.entryUnit hroot).2, if_neg Bool.false_ne_true, Nat.add_zero] at hentry

theorem startsPipelined_of_run {now last : Journaled Graph}
    (hg : now.state.OfBlock block entrySlot)
    (h : PipelineSearch.run now = .ok interval last) :
    StartsPipelined block entrySlot interval last.state := by
  obtain ⟨g, placed, hskeleton, hattempt, hword, hloop, hdelayed⟩ :=
    PipelineSearch.run_eq_ok hg h
  obtain ⟨bounds, order, ordered, _, _, _, _, hinterval, hplaced⟩ := hattempt.placed
  obtain ⟨loopOp, hloopOp, hloopSlot⟩ := hloop
  have hg' := hattempt.ofBlock.of_frame_eq hplaced.frame
  have hrecorded := hg'.setInterval interval
  have hlast := hrecorded.of_frame_eq hdelayed.frame
  have hloopOp' : last.state.loopOp = some loopOp :=
    (loopOp_of_frame_eq hdelayed.frame).trans hloopOp
  have hpath : DataPath.HasControlPath entrySlot placed := by
    apply hplaced.hasControlPath hg'.toListed hg'.entrySlot.ge
    intro id slot hid hslot
    have hmem := hattempt.start hid hslot
    omega
  have hpath' : DataPath.HasControlPath entrySlot (placed.setInterval block interval) := hpath
  have hmeets : (placed.setInterval block interval).MeetsControl (some interval) 0 :=
    hplaced.meetsControl hg' hinterval
  have hdelayed' : Delayed interval (placed.setInterval block interval).controlUnits
      (placed.setInterval block interval) last.state := hdelayed
  refine ⟨hlast, ?_, ?_, ⟨loopOp, hloopOp', ?_⟩, fun hne => ?_, ?_, ?_, ?_⟩
  · simp [isPipelined, hloopOp']
  · rw [← PipelineSearch.interval?_setInterval placed block interval]
    exact congrFun (interval?_of_frame_eq hdelayed.frame) block
  · rw [delayOf_of_frame_eq hdelayed.frame]
    exact hdelayed'.slot_eq hrecorded.toListed (hrecorded.loop hloopOp) hloopSlot
  · have hfirst : g.loopOp = placed.loopOp := (loopOp_of_frame_eq hplaced.frame).symm
    have hentry : g.slot? g.entryRoot = some entrySlot :=
      hattempt.entry (hfirst.trans hloopOp ▸ hloopOp' ▸ hne)
    rw [delayOf_of_frame_eq hdelayed.frame]
    exact hdelayed'.slot_eq hrecorded.toListed hrecorded.root (hplaced.kept hentry)
  · have hmoves : placed.ExitsAfterMoves interval := hattempt.moves.of_frame_eq hplaced.frame
    have hmoves : (placed.setInterval block interval).ExitsAfterMoves interval := hmoves
    exact hmoves.of_frame_eq hdelayed.frame
  · exact hdelayed'.hasControlPath hrecorded.toListed hpath'
  · exact hdelayed'.meetsControl hrecorded.toListed hmeets

/-- A legal schedule of a loop that starts an iteration every `interval` slots. -/
structure IsPipelinedAt (entrySlot interval : Nat) (g : Graph) : Prop where
  loop : ∃ loopOp unit, g.loopOp = some loopOp ∧ g.units[loopOp]? = some unit ∧
    (unit.phi = false → unit.slot = some (entrySlot + interval))
  ordered : ∀ {target source : UnitId} {consumer : ScheduleUnit} {bundle : EdgeBundle},
    g.units[target]? = some consumer → consumer.control = true ∨ consumer.dangling = false →
    consumer.dep? source = some bundle →
    ∃ producer, g.units[source]? = some producer ∧ ∃ s t : Nat, producer.slot = some s ∧
      consumer.slot = some t ∧ (bundle.edge.latency : Int) -
        (bundle.edge.distance + if producer.phi then 1 else 0) * interval ≤ (t : Int) - s

theorem StartsPipelined.isPipelinedAt (hg : StartsPipelined block entrySlot interval g)
    (h : DataPath.Finished entrySlot g g') : g'.IsPipelinedAt entrySlot interval where
  loop := by
    obtain ⟨loopOp, hloopOp, hslot⟩ := hg.loop
    have hg' := hg.ofBlock.of_frame_eq h.frame
    have hloopOp' : g'.loopOp = some loopOp :=
      (loopOp_of_frame_eq h.frame).trans hloopOp
    obtain ⟨unit, hunit, _⟩ := hg'.loop hloopOp'
    refine ⟨loopOp, unit, hloopOp', hunit, fun hphi => ?_⟩
    rw [← slot?_eq hunit, h.control (hg.ofBlock.loop hloopOp), hslot,
      ← delayOf_of_frame_eq h.frame, delayOf_eq hunit, hphi]
    simp
  ordered := by
    intro target source consumer bundle hconsumer hcounts hdep
    obtain ⟨offset?, hoffset, producer, hproducer, s, t, hs, ht, hgap⟩ :=
      h.meets hg.ofBlock hg.path hg.recorded hg.met hconsumer hcounts hdep
    refine ⟨producer, hproducer, s, t, hs, ht, ?_⟩
    have hgap := hgap _ (bundle.edge.offset?_eq_offsetAt hoffset)
    rw [DepEdge.offsetAt] at hgap
    split at hgap
    next hphi =>
      rw [if_pos hphi, add_mul, one_mul]
      omega
    next hphi =>
      rw [if_neg hphi, add_zero]
      omega

end Graph

end SlotScheduling
