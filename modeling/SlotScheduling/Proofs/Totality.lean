import SlotScheduling.Proofs.ControlPath
import SlotScheduling.Proofs.Pipeline.Found
import SlotScheduling.Proofs.Placement.Classes
import SlotScheduling.Proofs.Reachable
import SlotScheduling.Schedule

/-!
# Schedules without gaps

Each pass that ends well has reached every unit of its own, whatever was placed, frozen or recorded
in the graph before.  The control path ends early only if nothing is free, a search ends well only
after an attempt that placed everything, and the data path makes a variable of every unit that it
has not placed as dangling.  So a complete schedule has no gaps, and its report never misses a slot.
-/

namespace SlotScheduling

open SlotScheduling.Graph ConstraintSystem

variable {options : SchedulingOptions} {result : PUnit}

namespace Graph

variable {g g' : Graph}

/-- Every unit of the control path has a slot. -/
def HasControlSlots (g : Graph) : Prop :=
  ∀ id ∈ g.controlUnits, ∃ slot, g.slot? id = some slot

theorem HasControlSlots.of_later (h : g.HasControlSlots) (hlater : Later g g') :
    g'.HasControlSlots := by
  intro id hid
  have hlisted : g'.controlUnits = g.controlUnits :=
    controlUnits_eq_of_outline_eq (outline_eq_of_skeleton_eq (skeleton_eq_of_frame_eq hlater.frame))
  obtain ⟨slot, hslot⟩ := h id (hlisted ▸ hid)
  obtain ⟨slot', hslot', _⟩ := hlater.slots hslot
  exact ⟨slot', hslot'⟩

theorem HasControlSlots.of_bare_eq (h : g.HasControlSlots) (hbare : g'.bare = g.bare) :
    g'.HasControlSlots := by
  intro id hid
  have hlisted : g'.controlUnits = g.controlUnits := congrArg (·.controlUnits) hbare
  rw [slot?_of_bare_eq hbare]
  exact h id (hlisted ▸ hid)

end Graph

theorem ControlSystem.Placed.hasControlSlots {g g' : Graph} {bounds : ControlBounds}
    (h : ControlSystem.Placed g bounds g') : g'.HasControlSlots := by
  intro id hid
  have hlisted : g'.controlUnits = g.controlUnits :=
    controlUnits_eq_of_outline_eq (outline_eq_of_skeleton_eq (skeleton_eq_of_frame_eq h.frame))
  exact h.scheduled (hlisted ▸ hid)

/-! ## The control path -/

namespace ControlPath

variable {now last : Journaled Graph}

/-- With nothing free, the control path does no more than to put the entry in its slot. -/
theorem state_of_schedule {started : Journaled Graph} (hentry : placeEntry now = .ok result started)
    (hfull : started.state.HasControlSlots) {result' : PUnit}
    (h : schedule now = .ok result' last) : last.state = started.state := by
  rw [schedule, Step.bind_of_eq_ok hentry] at h
  simp only [Step.current_bind, Step.lift_bind_eq_ok, Step.note_bind] at h
  obtain ⟨system, hsystem, h⟩ := h
  obtain ⟨base, hdescribes⟩ := ControlSystem.exists_describes hsystem
  have hnone : system.unknowns.size = 0 := by
    by_contra hpos
    rw [hdescribes.grows.keepsUnits] at hpos
    obtain ⟨id, hid, hfree⟩ := hdescribes.free.exists_of_pos (Nat.pos_of_ne_zero hpos)
    obtain ⟨slot, hslot⟩ := hfull id hid
    rw [hslot] at hfree
    cases hfree
  rw [if_pos hnone] at h
  obtain ⟨_, rfl⟩ := Step.pure_eq_ok.mp h
  rfl

theorem hasControlSlots_schedule (h : schedule now = .ok result last) :
    last.state.HasControlSlots := by
  obtain ⟨_, started, hentry, _⟩ := Step.bind_eq_ok.mp h
  by_cases hfree : ∃ id ∈ started.state.controlUnits, started.state.slot? id = none
  · obtain ⟨g, bounds, _, _, _, _, middle, _, hplaced, hend⟩ := schedule_rounds hentry hfree h
    exact hplaced.hasControlSlots.of_bare_eq (keeps_reanchor.of_eq_ok hend)
  · have hfull : started.state.HasControlSlots := by
      intro id hid
      by_contra hnone
      refine hfree ⟨id, hid, ?_⟩
      simpa [Option.eq_none_iff_forall_ne_some] using hnone
    rw [state_of_schedule hentry hfull h]
    exact hfull

end ControlPath

/-! ## The search -/

namespace PipelineSearch

variable {now last : Journaled PipelineSearch} {interval : Nat}

theorem hasControlSlots_placeState (h : placeState now = .ok true last) :
    last.state.graph.HasControlSlots := by
  obtain ⟨placed, tried, _, h⟩ := Step.bind_eq_ok.mp h
  cases placed with
  | false =>
      have hfalse := (Step.pure_eq_ok.mp h).1
      cases hfalse
  | true =>
      simp only [Step.current_bind, Step.lift_bind_eq_ok, if_true] at h
      obtain ⟨order, _, h⟩ := h
      obtain ⟨_, cleared, _, h⟩ := Step.bind_eq_ok.mp h
      exact (tryPlace_eq_ok h).2.hasControlSlots

/-- Rounds end well only with an attempt that has placed everything. -/
theorem hasControlSlots_reachState {rounds : Nat} (h : reachState rounds now = .ok result last) :
    last.state.graph.HasControlSlots := by
  induction rounds generalizing now with
  | zero =>
      rw [reachState, giveUp, Step.current_bind] at h
      exact absurd h Step.fail_ne_ok
  | succ rounds ih =>
      obtain ⟨placed, tried, _, h⟩ := Step.bind_eq_ok.mp h
      cases placed with
      | false =>
          obtain ⟨_, relaxed, _, h⟩ := Step.bind_eq_ok.mp h
          exact ih h
      | true =>
          obtain ⟨shared, stated, hstate, h⟩ := Step.bind_eq_ok.mp h
          cases shared with
          | false =>
              obtain ⟨_, relaxed, _, h⟩ := Step.bind_eq_ok.mp h
              exact ih h
          | true =>
              obtain ⟨_, rfl⟩ := Step.pure_eq_ok.mp h
              exact hasControlSlots_placeState hstate

theorem hasControlSlots_run {now last : Journaled Graph} (h : run now = .ok interval last) :
    last.state.HasControlSlots := by
  obtain ⟨search, started, reached, bounded, found, committed, _, _, _, hfind, hcommit, rfl⟩ :=
    run_stages h
  obtain ⟨_, _, _, _, _, inner, hdelay, hlast⟩ := commit_cases hcommit
  have hfound : (found.state.graph.setInterval found.state.graph.entryBlock
      interval).HasControlSlots := hasControlSlots_reachState hfind
  rw [hlast]
  exact hfound.of_later (later_delayPhis hdelay)

end PipelineSearch

/-! ## The data path -/

namespace DataPath

variable {g g' : Graph} {base sys sys' : ConstraintSystem} {id : UnitId} {unit : ScheduleUnit}
  {now last : Journaled Graph}

theorem extends_addUnit (h : addUnit g options sys id = .ok sys') : sys.Extends sys' :=
  (adds_addUnit (Extends.refl sys) h).grows

/-- The variables are the data-path units without slots, whatever constrains them. -/
theorem exists_isFree (h : build g options = .ok sys) :
    ∃ base : ConstraintSystem, base.IsFree g g.dataUnits ∧ base.Extends sys := by
  obtain ⟨base, hbase, h⟩ := Checked.bind_eq_ok.mp h
  refine ⟨base, isFree_ofFree hbase, ?_⟩
  exact Checked.foldlM_induction (P := base.Extends)
    (fun _ _ _ _ hextends hround => hextends.trans (extends_addUnit hround)) (Extends.refl _) h

/-- A solution gives every free unit of the data path a slot and leaves the other units alone. -/
theorem slots_placeAll {slots : List (UnitId × Nat)} (hsystem : build g options = .ok sys)
    (hslots : (if options.dataPathLate then sys.latest else sys.earliest) = .ok slots)
    (hplace : g.placeAll slots = .ok g') :
    (∀ {id}, id ∉ g.dataUnits → g'.slot? id = g.slot? id) ∧
      ∀ {id}, id ∈ g.dataUnits → ∃ slot, g'.slot? id = some slot := by
  obtain ⟨base, hfree, hextends⟩ := exists_isFree hsystem
  have hclosed := hextends.closed hfree.closed
  have hunits : slots.map Prod.fst = base.unknowns.toList := by
    rw [← hextends.keepsUnits]
    split at hslots
    · exact (latest_eq_ok hclosed hslots).2.1
    · exact (earliest_eq_ok hclosed hslots).2.1
  have hplaces := places_placeAll (g := g) hfree.nodup hunits hplace
  refine ⟨fun hid => hplaces.slot?_eq (hfree.variableOf?_eq_none fun hmem => hid hmem.1), ?_⟩
  intro id hid
  cases hslot : g.slot? id with
  | none =>
      obtain ⟨index, hindex⟩ := hfree.exists_index hid hslot
      exact hplaces.exists_slot hindex
  | some slot =>
      refine ⟨slot, (hplaces.slot?_eq (hfree.variableOf?_eq_none fun hmem => ?_)).trans hslot⟩
      rw [hslot] at hmem
      cases hmem.2

/-- The data path gives a slot to every unit of its own and leaves the control path alone. -/
theorem schedule_slots (hg : now.state.Listed) (h : schedule options now = .ok result last) :
    (∀ {id}, now.state.IsControl id → last.state.slot? id = now.state.slot? id) ∧
      ∀ {id}, now.state.IsData id → ∃ slot, last.state.slot? id = some slot := by
  simp only [schedule, Step.updateChecked_bind_eq_ok] at h
  obtain ⟨cleared, hreset, undangled, hundangle, h⟩ := h
  rw [Step.current_bind] at h
  obtain ⟨count, placed, hplace, h⟩ := Step.bind_eq_ok.mp h
  simp only [Step.current_bind, Step.lift_bind_eq_ok, Step.note_bind] at h
  obtain ⟨system, hsystem, h⟩ := h
  obtain ⟨hframe, hcontrol, hfree, _⟩ := reset_undangle hg hreset hundangle
  have hundangled : undangled.Listed :=
    hg.of_outline_eq (outline_eq_of_skeleton_eq (skeleton_eq_of_frame_eq hframe))
  have hprepared : Prepared undangled placed.state := placeAllDangling_sound hundangled
    (fun hid => hfree ((isData_iff_of_frame_eq hframe).mp hid)) hplace
  have hwhole : placed.state.frame = now.state.frame := hprepared.frame.trans hframe
  have hlisted : placed.state.Listed :=
    hg.of_outline_eq (outline_eq_of_skeleton_eq (skeleton_eq_of_frame_eq hwhole))
  have hsolved : (∀ {id}, id ∉ placed.state.dataUnits →
        last.state.slot? id = placed.state.slot? id) ∧
      ∀ {id}, id ∈ placed.state.dataUnits → ∃ slot, last.state.slot? id = some slot := by
    split at h
    · simp only [Step.lift_bind_eq_ok, Step.updateChecked_bind_eq_ok,
        Step.updateChecked_eq_ok] at h
      obtain ⟨slots, hslots, solved, hsolution, final, hclassify, rfl⟩ := h
      obtain ⟨hothers, hdata⟩ :=
        slots_placeAll hsystem (Checked.orMalformed_eq_ok.mp hslots) hsolution
      have hsame := (classifyAll_sound hclassify).2.1
      exact ⟨fun hid => (hsame _).trans (hothers hid), fun hid =>
        (hdata hid).imp fun _ hslot => (hsame _).trans hslot⟩
    next hnone =>
      obtain ⟨final, hclassify, rfl⟩ := Step.updateChecked_eq_ok.mp h
      have hsame := (classifyAll_sound hclassify).2.1
      obtain ⟨base, hbase, hextends⟩ := exists_isFree hsystem
      refine ⟨fun _ => hsame _, fun {id} hid => ?_⟩
      -- Without variables, every unit of the data path has a slot.
      by_contra hslot
      have hmissing : placed.state.slot? id = none := by
        rw [← hsame id]
        simpa [Option.eq_none_iff_forall_ne_some] using hslot
      obtain ⟨index, hindex⟩ := hbase.exists_index hid hmissing
      have hlt := lt_size_of_variableOf? hindex
      rw [← hextends.keepsUnits] at hlt
      omega
  obtain ⟨hothers, hdata⟩ := hsolved
  refine ⟨fun {id} hid => ?_, fun {id} hid => ?_⟩
  · have hkept := hprepared.control ((isControl_iff_of_frame_eq hframe).mpr hid)
    have hnot : id ∉ placed.state.dataUnits := fun hmem =>
      ((isControl_iff_of_frame_eq hwhole).mpr hid).not_isData (hlisted.data.mp hmem)
    rw [hothers hnot, hkept, hcontrol hid]
  · exact hdata (hlisted.data.mpr ((isData_iff_of_frame_eq hwhole).mpr hid))

end DataPath

/-! ## The whole schedule -/

namespace Graph

variable {g : Graph} {now last : Journaled Graph}

theorem hasControlSlots_scheduleStraight (h : scheduleStraight options now = .ok result last) :
    last.state.HasControlSlots := by
  obtain ⟨_, _, _, h⟩ := Step.bind_eq_ok.mp h
  rw [Strategy.run, Step.note_bind] at h
  exact ControlPath.hasControlSlots_schedule h

theorem hasControlSlots_schedulePipelined (h : schedulePipelined options now = .ok result last) :
    last.state.HasControlSlots := by
  obtain ⟨_, _, ⟨_, hrun⟩ | ⟨_, _, _, _, _, _, _, hstraight⟩⟩ := schedulePipelined_cases h
  · exact PipelineSearch.hasControlSlots_run hrun
  · exact hasControlSlots_scheduleStraight hstraight

/-- Every unit has a slot, and every result of the data path has a class. -/
structure Gapless (g : Graph) : Prop where
  slots : ∀ {id}, id < g.units.size → ∃ slot, g.slot? id = some slot
  classes : ∀ {id}, g.IsData id → ∃ valueClass, g.class? id = some valueClass

/-- The data path completes a control path without gaps. -/
theorem gapless_dataPath {journal : Journal} (hg : g.Listed) (hcontrol : g.HasControlSlots)
    (h : DataPath.schedule options ⟨g, journal⟩ = .ok result last) : last.state.Gapless := by
  have hframe : last.state.frame = g.frame := (DataPath.keeps_schedule options).of_eq_ok h
  obtain ⟨hkept, hdata⟩ := DataPath.schedule_slots (by exact hg) h
  obtain ⟨_, _, hclasses⟩ := DataPath.schedule_classes (by exact hg) h
  constructor
  case slots =>
    intro id hid
    obtain ⟨unit, hunit⟩ : ∃ unit, g.units[id]? = some unit := by
      rw [size_eq_of_skeleton_eq (skeleton_eq_of_frame_eq hframe)] at hid
      exact ⟨_, Array.getElem?_eq_getElem hid⟩
    cases hflag : unit.control with
    | true =>
        have hid : g.IsControl id := ⟨unit, hunit, hflag⟩
        rw [hkept hid]
        exact hcontrol id (hg.control.mpr hid)
    | false => exact hdata ⟨unit, hunit, hflag⟩
  case classes =>
    intro id hid
    exact Option.isSome_iff_exists.mp (hclasses ((isData_iff_of_frame_eq hframe).mp hid))

/-- A schedule that ends well leaves no gaps in a coherent graph. -/
theorem gapless_schedule (hg : now.state.Coherent) (h : schedule options now = .ok result last) :
    last.state.Gapless := by
  obtain ⟨_, middle, hcontrol, hdata⟩ := schedule_eq_ok_iff.mp h
  rw [Strategy.run, Step.note_bind] at hdata
  split at hcontrol
  · have hcoherent := (lasting_coherent.schedulePipelined options).of_eq_ok hg hcontrol
    exact gapless_dataPath hcoherent.toListed (hasControlSlots_schedulePipelined hcontrol) hdata
  · have hcoherent := (lasting_coherent.scheduleStraight options).of_eq_ok hg hcontrol
    exact gapless_dataPath hcoherent.toListed (hasControlSlots_scheduleStraight hcontrol) hdata

end Graph

/-! ## Reports -/

namespace Schedule

/-- Only an issue slot that is out of range can spoil the report of a unit with a slot. -/
theorem addUnit_eq_error {unit : ScheduleUnit} {schedule : Schedule} {failure : Failure}
    {slot : Nat} (hslot : unit.slot = some slot) (h : schedule.addUnit unit = .error failure) :
    failure = .fault .overflow := by
  rw [addUnit, hslot] at h
  obtain ⟨schedule', instr, _, h⟩ := Checked.foldlM_eq_error h
  unfold addInstr at h
  split at h
  · cases hissue : Word.add slot instr.2 with
    | ok issue =>
        rw [hissue] at h
        cases h
    | error failure' =>
        rw [hissue] at h
        cases h
        unfold Word.add Word.check at hissue
        split at hissue
        · cases hissue
        · cases hissue
          rfl
  · cases h

theorem ofGraph_eq_error {g : Graph} {failure : Failure} (hg : g.Gapless)
    (h : ofGraph g = .error failure) : failure = .fault .overflow := by
  have hfold : g.units.toList.foldlM addUnit {} = .error failure := by
    unfold ofGraph at h
    cases hrun : g.units.toList.foldlM addUnit {} with
    | ok schedule =>
        rw [hrun] at h
        cases h
    | error failure' =>
        rw [hrun] at h
        cases h
        rfl
  obtain ⟨schedule, unit, hunit, hround⟩ := Checked.foldlM_eq_error hfold
  obtain ⟨id, hid⟩ := List.getElem?_of_mem hunit
  rw [Array.getElem?_toList] at hid
  obtain ⟨slot, hslot⟩ := hg.slots (lt_size_of_getElem? hid)
  exact addUnit_eq_error ((slot?_eq hid).symm.trans hslot) hround

end Schedule

namespace Graph

variable {now last : Journaled Graph}

/-- Whatever a reachable graph holds beforehand, a schedule of it that ends well gives every unit a
slot and every result of the data path a class, so that no unit is missing from its report. -/
theorem Reachable.leaves_no_gap (hg : now.state.Reachable)
    (h : schedule options now = .ok result last) :
    (∀ id < last.state.units.size, ∃ slot, last.state.slot? id = some slot) ∧
      (∀ id, last.state.IsData id → ∃ valueClass, last.state.class? id = some valueClass) ∧
      ∀ text, Schedule.ofGraph last.state ≠ broken .unscheduledUnit text := by
  have hgapless := gapless_schedule hg.coherent h
  refine ⟨fun id hid => hgapless.slots hid, fun id hid => hgapless.classes hid, ?_⟩
  intro text hreport
  have hfault := Schedule.ofGraph_eq_error hgapless hreport
  cases hfault

/-- A block with a unit that has a slot already and one that dangles.  Another block, whose units
are frozen, was merged into it, and an interval is on record for that one. -/
def patched : Graph :=
  (start 0 1).after [
    .createUnit (.op 3) 0 .trivial true 0,
    .createUnit (.op 4) 0 .trivial false 1,
    .createUnit (.op 5) 0 .trivial true 0,
    .addDep 1 0 (.value 0),
    .addDep 2 1 (.value 0),
    .addDep 3 2 (.value 1),
    .setTerminator 0 3,
    .merge scheduledBlock,
    .addDep 4 3 (.value 0),
    .addDep 5 2 (.value 1),
    .createExit 1,
    .addDep 8 7 (.value 0),
    .createUnit (.op 6) 1 .trivial false 0,
    .addDep 9 5 (.value 0),
    .place 1 4,
    .setInterval 1 3]

theorem leaves_no_gap_patched :
    ∃ last, patched.Reachable ∧ schedule {} ⟨patched, {}⟩ = .ok ⟨⟩ last ∧
      patched.IsFrozen 6 ∧ patched.slot? 1 = some 4 ∧ patched.interval? 1 = some 3 ∧
      (∀ id < last.state.units.size, ∃ slot, last.state.slot? id = some slot) ∧
      (∀ id, last.state.IsData id → ∃ valueClass, last.state.class? id = some valueClass) ∧
      ∀ text, Schedule.ofGraph last.state ≠ broken .unscheduledUnit text := by
  have hscheduled : scheduledBlock.Reachable :=
    (Reachable.start 1 1).after (by simp [Call.merged])
  have hreachable : patched.Reachable :=
    (Reachable.start 0 1).after (by simpa [Call.merged] using hscheduled)
  have hsucceeds : (schedule {}).succeeds ⟨patched, {}⟩ (fun _ => true) = true := by
    decide +kernel
  obtain ⟨result, last, hrun, _⟩ := Step.exists_of_succeeds hsucceeds
  have hfrozen : (patched.units[6]?.any (·.fixedTiming)) = true := by decide +kernel
  obtain ⟨unit, hunit, hfixed⟩ := (Option.any_eq_true _ _).mp hfrozen
  refine ⟨last, hreachable, hrun, ⟨unit, hunit, hfixed⟩, by decide +kernel, by decide +kernel, ?_⟩
  exact Reachable.leaves_no_gap (by exact hreachable) hrun

end Graph

end SlotScheduling
