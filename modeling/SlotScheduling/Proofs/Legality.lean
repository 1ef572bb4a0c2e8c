import SlotScheduling.Proofs.FunctionUnits
import SlotScheduling.Proofs.Pipeline.Started
import SlotScheduling.Proofs.Pipelined
import SlotScheduling.Proofs.StraightLine

/-!
# Legal schedules

A block that is lowered and scheduled on its own ends up with a legal schedule:
that of a pipelined loop, or one of straight-line code.
-/

namespace SlotScheduling

open SlotScheduling.Graph

variable {σ : Type} {program : Program} {basic : BasicBlock} {entrySlot interval : Nat}
  {options : SchedulingOptions} {now last : Journaled σ} {g : Graph}

theorem exists_start
    (h : (do
      let g ← Lowering.buildBlock program basic entrySlot
      scheduleApart options g : Step σ Graph) now = .ok g last) :
    (∃ start, StartsStraight basic.id entrySlot start ∧ DataPath.Finished entrySlot start g) ∨
      ∃ interval start, StartsPipelined basic.id entrySlot interval start ∧
        start.slot? start.entryRoot = some entrySlot ∧ DataPath.Finished entrySlot start g := by
  obtain ⟨built, now', hbuild, middle, finished, _, hdata, rfl, hcomes⟩ :=
    schedule_buildBlock_cases h
  rcases hcomes with ⟨_, placed, _, hplace, hmiddle, hg', hexit, hstraight⟩ |
    ⟨_, _, found, interval, hrun, rfl, hmiddle⟩
  · have hstart := startsStraight_of_scheduleStraight hg' hexit hstraight hplace
    rw [hmiddle] at hstart
    exact Or.inl ⟨_, hstart, DataPath.schedule_finished hstart.ofBlock hstart.path hdata⟩
  · obtain ⟨exit, hg⟩ := Lowering.enclosed_buildBlock hbuild
    have hstart := startsPipelined_of_run hg.toOfBlock hrun
    have hg' := hg.of_skeleton_eq (PipelineSearch.keeps_run.of_eq_ok hrun)
    have hentry := hstart.slot?_entryRoot hg'
    rw [hmiddle] at hstart hentry
    exact Or.inr ⟨interval, _, hstart, hentry,
      DataPath.schedule_finished hstart.ofBlock hstart.path hdata⟩

/-- A block that is not pipelined, or not any more, has a legal straight-line
schedule. -/
theorem straightLine_legal
    (h : (do
      let g ← Lowering.buildBlock program basic entrySlot
      scheduleApart options g : Step σ Graph) now = .ok g last)
    (hstraight : g.isPipelined = false) : g.IsStraightLine entrySlot := by
  rcases exists_start h with ⟨start, hstart, hfinished⟩ |
    ⟨interval, start, hstart, _, hfinished⟩
  · exact hstart.isStraightLine hfinished
  · have hsame := isPipelined_of_skeleton_eq (skeleton_eq_of_frame_eq hfinished.frame)
    rw [hstraight, hstart.pipelined] at hsame
    cases hsame

/-- Two accesses to one memory, the second one of a value made from the first one. -/
def accessPair : Program where
  ops := ⟨#[.control "ldst" 7 ⟨.memoryBus, 0⟩, .data "add" 7 ⟨.addSub, 0⟩,
    .control "ldst" 7 ⟨.memoryBus, 0⟩]⟩
  oracle :=
    { dependences := fun op =>
        if op = 0 then some []
        else if op = 1 then some [.value 0 2]
        else some [.value 1 1, .throughMemory 0 1]
      stepsToFinish := fun _ => 1 }

theorem straightLine_legal_accessPair :
    ∃ g last, (do
        let g ← Lowering.buildBlock accessPair ⟨7, [0, 1, 2]⟩ 3
        scheduleApart {} g : Step PUnit Graph) ⟨⟨⟩, {}⟩ = .ok g last ∧
      g.isPipelined = false ∧ g.IsStraightLine 3 := by
  have hsucceeds : (do
      let g ← Lowering.buildBlock accessPair ⟨7, [0, 1, 2]⟩ 3
      scheduleApart {} g : Step PUnit Graph).succeeds ⟨⟨⟩, {}⟩ (!·.isPipelined) = true := by
    decide +kernel
  obtain ⟨g, last, hrun, htest⟩ := Step.exists_of_succeeds hsucceeds
  have hstraight : g.isPipelined = false := by simpa using htest
  exact ⟨g, last, hrun, hstraight, straightLine_legal hrun hstraight⟩

/-- A block that is pipelined in the end has a legal schedule for the interval that
it recorded. -/
theorem pipelined_legal
    (h : (do
      let g ← Lowering.buildBlock program basic entrySlot
      scheduleApart options g : Step σ Graph) now = .ok g last)
    (hpipelined : g.isPipelined = true) :
    ∃ interval, g.interval? basic.id = some interval ∧ g.IsPipelinedAt entrySlot interval := by
  rcases exists_start h with ⟨start, hstart, hfinished⟩ |
    ⟨interval, start, hstart, _, hfinished⟩
  · have hsame := isPipelined_of_skeleton_eq (skeleton_eq_of_frame_eq hfinished.frame)
    rw [hpipelined, hstart.straight] at hsame
    cases hsame
  · have hintervals : g.interval? = start.interval? :=
      interval?_of_frame_eq hfinished.frame
    refine ⟨interval, ?_, hstart.isPipelinedAt hfinished⟩
    rw [hintervals]
    exact hstart.recorded

/-- A loop that accesses one memory twice in every iteration, from an address that
the second access yields for the next iteration. -/
def accessLoop : Program where
  ops := ⟨#[{ Operation.control "phi" 7 .trivial with phi := true },
    .control "ldst" 7 ⟨.memoryBus, 0⟩, .control "ldst" 7 ⟨.memoryBus, 0⟩, .branch 7 7]⟩
  oracle :=
    { dependences := fun op =>
        if op = 0 then some [.loopCarried 2 1 1]
        else if op = 2 then some [.value 1 2]
        else some [.value 0 0]
      stepsToFinish := fun _ => 1 }

theorem pipelined_legal_accessLoop :
    ∃ g last, (do
        let g ← Lowering.buildBlock accessLoop ⟨7, [0, 1, 2, 3]⟩ 3
        scheduleApart {} g : Step PUnit Graph) ⟨⟨⟩, {}⟩ = .ok g last ∧
      g.isPipelined = true ∧
      ∃ interval, g.interval? 7 = some interval ∧ g.IsPipelinedAt 3 interval := by
  have hsucceeds : (do
      let g ← Lowering.buildBlock accessLoop ⟨7, [0, 1, 2, 3]⟩ 3
      scheduleApart {} g : Step PUnit Graph).succeeds ⟨⟨⟩, {}⟩ (·.isPipelined) = true := by
    decide +kernel
  obtain ⟨g, last, hrun, hpipelined⟩ := Step.exists_of_succeeds hsucceeds
  exact ⟨g, last, hrun, hpipelined, pipelined_legal hrun hpipelined⟩

/-- A search that ends well on the graph of a block never books a function unit
twice. -/
theorem funcUnits_neverDoubleBooked
    (h : (do
      let g ← Lowering.buildBlock program basic entrySlot
      Step.apart g PipelineSearch.run : Step σ (Nat × Graph)) now = .ok (interval, g) last) :
    g.NeverDoubleBooks interval := by
  obtain ⟨built, now', hbuild, h⟩ := Step.bind_eq_ok.mp h
  obtain ⟨hg, _⟩ := Lowering.ofBlock_buildBlock hbuild
  obtain ⟨finished, hrun, rfl, _⟩ := Step.apart_eq_ok.mp h
  obtain ⟨first, placed, _, hattempt, _, _, hdelayed⟩ := PipelineSearch.run_eq_ok hg hrun
  have hlisted := (hattempt.ofBlock_placed.setInterval interval).toListed
  intro u v unit unit' hne hunit hcontrol hunit' hcontrol' hsame hshared
  obtain ⟨start, hstart, hagree⟩ := exists_of_frame_eq hdelayed.frame hunit
  obtain ⟨start', hstart', hagree'⟩ := exists_of_frame_eq hdelayed.frame hunit'
  rw [hagree.control] at hcontrol
  rw [hagree'.control] at hcontrol'
  rw [hagree.funcUnit, hagree'.funcUnit] at hsame
  rw [hagree.funcUnit] at hshared
  obtain ⟨s, t, hs, ht, happart, hst, hts⟩ :=
    hattempt.close hne hstart hcontrol hstart' hcontrol' hsame hshared
  have hslot := Delayed.slot_eq hdelayed hlisted ⟨start, hstart, hcontrol⟩
    ((slot?_eq hstart).trans hs)
  have hslot' := Delayed.slot_eq hdelayed hlisted ⟨start', hstart', hcontrol'⟩
    ((slot?_eq hstart').trans ht)
  obtain ⟨m, hm⟩ := exists_delayOf (placed.setInterval basic.id interval) interval u
  obtain ⟨n, hn⟩ := exists_delayOf (placed.setInterval basic.id interval) interval v
  rw [hm] at hslot
  rw [hn] at hslot'
  refine ⟨_, _, (slot?_eq hunit).symm.trans hslot, (slot?_eq hunit').symm.trans hslot', ?_⟩
  intro i j
  rw [add_assoc, ← add_mul, add_assoc, ← add_mul]
  exact ne_of_close happart hst hts (m + i) (n + j)

theorem funcUnits_neverDoubleBooked_accessLoop :
    ∃ interval g last, (do
        let g ← Lowering.buildBlock accessLoop ⟨7, [0, 1, 2, 3]⟩ 3
        Step.apart g PipelineSearch.run : Step PUnit (Nat × Graph)) ⟨⟨⟩, {}⟩ =
          .ok (interval, g) last ∧
      ∃ s t, g.slot? 2 = some s ∧ g.slot? 3 = some t ∧
        ∀ i j : Nat, s + i * interval ≠ t + j * interval := by
  have hsucceeds : (do
      let g ← Lowering.buildBlock accessLoop ⟨7, [0, 1, 2, 3]⟩ 3
      Step.apart g PipelineSearch.run : Step PUnit (Nat × Graph)).succeeds ⟨⟨⟩, {}⟩
        (fun result => (result.2.units[2]?).any (fun unit =>
            unit.control && unit.funcUnit == ⟨.memoryBus, 0⟩) &&
          (result.2.units[3]?).any (fun unit =>
            unit.control && unit.funcUnit == ⟨.memoryBus, 0⟩)) = true := by
    decide +kernel
  obtain ⟨⟨interval, g⟩, last, hrun, htest⟩ := Step.exists_of_succeeds hsucceeds
  simp only [Bool.and_eq_true, Option.any_eq_true, beq_iff_eq] at htest
  obtain ⟨⟨unit, hunit, hcontrol, hbus⟩, unit', hunit', hcontrol', hbus'⟩ := htest
  obtain ⟨s, t, hs, ht, happart⟩ := funcUnits_neverDoubleBooked hrun (by decide) hunit hcontrol
    hunit' hcontrol' (hbus.trans hbus'.symm) (by rw [hbus]; rfl)
  exact ⟨interval, g, last, hrun, s, t, (slot?_eq hunit).trans hs, (slot?_eq hunit').trans ht,
    happart⟩

end SlotScheduling
