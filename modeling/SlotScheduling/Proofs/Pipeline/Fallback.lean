import SlotScheduling.Proofs.Failures
import SlotScheduling.Proofs.Messages
import SlotScheduling.Proofs.Pipelinable
import SlotScheduling.Proofs.Pipeline.Found
import SlotScheduling.Proofs.Pipeline.Rested

/-!
# Loops on which a search gives up

A restart undoes whatever a search has done but the interval that it records when it ends well.  So
a search that gives up leaves no trace: the loop comes out as if it had never been pipelined.
-/

namespace SlotScheduling

namespace PipelineSearch

open SlotScheduling.Graph

variable {g : Graph} {failure : Failure} {now last : Journaled Graph}

theorem maintains_rested_tryPlace (bounds : ControlBounds) :
    (tryPlace bounds).Maintains fun search => search.graph.rested = g.rested := by
  unfold tryPlace
  refine Step.maintains_current_bind fun search hsearch => ?_
  refine Step.maintains_lift_bind fun system hsystem => ?_
  obtain ⟨base, hdescribes⟩ := ControlSystem.exists_describes hsystem
  split
  next slots hslots =>
    have hplace : (Step.updateChecked (·.placeAll slots)).Maintains
        fun h : Graph => h.rested = g.rested := by
      refine Step.maintains_updateChecked fun h h' hplace hrested => ?_
      have hcontrol : h.controlUnits = search.graph.controlUnits :=
        eq_of_rested_eq (·.controlUnits) (hrested.trans hsearch.symm) fun _ => rfl
      refine (rested_placeAll hplace fun placement hmem => ?_).trans hrested
      rw [hcontrol]
      exact ((hdescribes.mem_placed hslots).mp (List.mem_map_of_mem hmem)).1
    exact (maintains_onGraph hplace).bind fun _ => Step.maintains_pure true
  · exact Step.maintains_ite ((Step.maintains_note _ _).bind fun _ => Step.maintains_pure false)
      (Step.maintains_fail _)
  · exact Step.maintains_lift _

section

variable (hloop : ∀ {loop}, g.loopOp = some loop → loop ∈ g.controlUnits)

include hloop

/-- A search that fails on its way to the bounds leaves nothing that a restart does not undo. -/
theorem rested_of_complete_eq_error {now last : Journaled PipelineSearch}
    (hrested : now.state.graph.rested = g.rested) (hrun : complete now = .error failure last)
    (hfinal : ¬failure.IsFinal) : last.state.graph.rested = g.rested := by
  have hreset := maintains_rested hloop
  have hcritical := fun rounds =>
    maintains_reachCriticalPath hreset maintains_rested_tryPlace rounds
  have hbound := maintains_of_keeps_graph (P := fun h => h.rested = g.rested) keeps_computeInterval
  have hstate := fun rounds => maintains_reachState hreset maintains_rested_tryPlace rounds
  rw [complete, Step.current_bind] at hrun
  rcases Step.bind_eq_error.mp hrun with hfail | ⟨_, reached, hreach, hrun⟩
  · exact (hcritical _).of_eq_error hrested hfail
  have hrested := (hcritical _).of_eq_ok hrested hreach
  rcases Step.bind_eq_error.mp hrun with hfail | ⟨_, bounded, hcompute, hrun⟩
  · exact hbound.of_eq_error hrested hfail
  have hrested := hbound.of_eq_ok hrested hcompute
  rw [Step.current_bind] at hrun
  rcases Step.bind_eq_error.mp hrun with hfail | ⟨_, found, _, hfail⟩
  · exact (hstate _).of_eq_error hrested hfail
  · exact absurd (failsFinally_commit _ _ _ hfail) hfinal

/-- A restart undoes all that a search has done that gave up. -/
theorem rested_of_run_eq_error (hrested : now.state.rested = g.rested)
    (hrun : run now = .error failure last) (hfinal : ¬failure.IsFinal) :
    last.state.rested = g.rested := by
  have hstart := maintains_start (maintains_rested hloop)
  rcases Step.bind_eq_error.mp hrun with hfail | ⟨search, middle, hsearch, hfail⟩
  · exact hstart.of_eq_error hrested hfail
  · obtain ⟨inner, hinner, rfl⟩ := Step.focus_eq_error.mp hfail
    exact rested_of_complete_eq_error hloop (hstart.of_eq_ok hrested hsearch) hinner hfinal

/-- A restart undoes all that a search has done but the interval on record. -/
theorem rested_of_run {interval : Nat} (hrested : now.state.rested = g.rested)
    (h : run now = .ok interval last) :
    last.state.rested = g.rested.setInterval g.entryBlock interval := by
  obtain ⟨search, started, reached, bounded, found, committed, hstart, hreach, hbound, hfind,
    hcommit, rfl⟩ := run_stages h
  have hreset := maintains_rested hloop
  have hstarted : started.state.rested = g.rested :=
    (maintains_start hreset).of_eq_ok hrested hstart
  have hreached : reached.state.graph.rested = g.rested :=
    (maintains_reachCriticalPath hreset maintains_rested_tryPlace _).of_eq_ok hstarted hreach
  have hbounded : bounded.state.graph.rested = g.rested :=
    (maintains_of_keeps_graph (P := fun h => h.rested = g.rested) keeps_computeInterval).of_eq_ok
      hreached hbound
  have hfound : found.state.graph.rested = g.rested :=
    (maintains_reachState hreset maintains_rested_tryPlace _).of_eq_ok hbounded hfind
  have hblock : found.state.graph.entryBlock = g.entryBlock :=
    eq_of_rested_eq (·.entryBlock) hfound fun _ => rfl
  obtain ⟨_, _, _, _, _, inner, hdelay, hlast⟩ := commit_cases hcommit
  calc committed.state.graph.rested
    _ = inner.state.rested := by rw [hlast]
    _ = found.state.graph.rested.setInterval found.state.graph.entryBlock interval :=
      rested_delayPhis hdelay
    _ = g.rested.setInterval g.entryBlock interval := by rw [hfound, hblock]

end

/-- A search that gives up was given a loop, and has started over once. -/
theorem restartable_of_run_eq_error (hrun : run now = .error failure last)
    (hfinal : ¬failure.IsFinal) : now.state.isPipelined = true ∧ now.state.Restartable := by
  have hstart : ∀ {failure' middle}, start now = .error failure' middle → ¬failure'.IsFinal := by
    intro failure' middle hfail
    have hrun' : run now = .error failure' middle := Step.bind_eq_error.mpr (Or.inl hfail)
    obtain ⟨rfl, _⟩ := EStateM.Result.error.inj (hrun.symm.trans hrun')
    exact hfinal
  simp only [start, Step.current_bind] at hstart
  by_cases hpipelined : now.state.isPipelined = false
  · rw [if_pos hpipelined] at hstart
    exact absurd rfl (hstart rfl)
  rw [if_neg hpipelined] at hstart
  refine ⟨Bool.eq_true_of_not_eq_false hpipelined, ?_⟩
  cases hexit : now.state.exitRoot with
  | none =>
      rw [hexit] at hstart
      exact absurd rfl (hstart rfl)
  | some exit =>
      rw [hexit] at hstart
      cases hreset : resetControl 0 now with
      | ok result cleared => exact (resetControl_zero_eq_ok_iff.mp hreset).1
      | error failure' cleared =>
          exact absurd (failsFinally_resetControl 0 _ _ _ hreset)
            (hstart (Step.bind_eq_error.mpr (Or.inl hreset)))

end PipelineSearch

namespace Graph

variable {options : SchedulingOptions} {threshold : Option Level} {g : Graph} {journal : Journal}
  {last : Journaled Graph} {block interval criticalPath : Nat}

/-- Straight-line code comes out the same for graphs that a restart makes one. -/
theorem matches_scheduleStraight {now now' : Journaled Graph}
    (hnow : Alike threshold (fun g h => g.rested = h.rested) now now')
    (hrestartable : now'.state.Restartable) :
    Step.Matches threshold Eq (scheduleStraight options now) (scheduleStraight options now') := by
  have hreset := resetControl_zero_eq_ok_iff.mpr ⟨hrestartable.of_rested_eq hnow.state, rfl⟩
  have hreset' := resetControl_zero_eq_ok_iff.mpr ⟨hrestartable, rfl⟩
  rw [scheduleStraight, Step.bind_of_eq_ok hreset, Step.bind_of_eq_ok hreset']
  have hcontrol : (Strategy.run .controlPath options).IgnoresMessages := by
    apply (Step.parallel_note _ _ _).bind
    exact fun _ => ControlPath.ignores_schedule
  exact hcontrol ⟨hnow.state, hnow.left, hnow.right⟩

/-- Once a search has given up, straight-line code is made of the graph it leaves. -/
theorem schedulePipelined_of_run_eq_error
    (hrun : PipelineSearch.run ⟨g, journal⟩ =
      .error (.error (.searchExhausted block interval criticalPath)) last) :
    ∃ journal', journal'.threshold = journal.threshold ∧
      schedulePipelined options ⟨g, journal⟩ =
        scheduleStraight options ⟨last.state.disablePipeline, journal'⟩ := by
  have hnoted : Alike journal.threshold Eq ⟨g, journal⟩
      ⟨g, journal.note .debug fun _ => s!"running {Strategy.pipeline.name}"⟩ :=
    ⟨rfl, rfl, Journal.threshold_note _ _ _⟩
  obtain ⟨given, hgiven, hlast⟩ := PipelineSearch.ignores_run.of_eq_error hnoted hrun
  have hsearch : Strategy.run .pipeline options ⟨g, journal⟩ =
      .error (.error (.searchExhausted block interval criticalPath)) given := by
    rw [Strategy.run, Step.note_bind]
    exact Step.bind_eq_error.mpr (Or.inl hgiven)
  rw [schedulePipelined, hsearch, hlast.state]
  simp only [Step.note_bind, Step.update_bind]
  refine ⟨_, ?_, rfl⟩
  exact (Journal.threshold_note _ _ _).trans hlast.right

/-- A search that gives up leaves no trace: the graph is scheduled as if it had not been a loop,
where the loop operation is a control unit. -/
theorem schedule_matches_disablePipeline (hverify : g.verify = .ok ⟨⟩)
    (hloop : ∀ {loop}, g.loopOp = some loop → loop ∈ g.controlUnits)
    (hrun : PipelineSearch.run ⟨g, journal⟩ =
      .error (.error (.searchExhausted block interval criticalPath)) last) :
    Step.Matches journal.threshold Eq (schedule options ⟨g, journal⟩)
      (schedule options ⟨g.disablePipeline, journal⟩) := by
  have hfinal := Failure.not_isFinal_searchExhausted block interval criticalPath
  obtain ⟨hpipelined, hrestartable⟩ := PipelineSearch.restartable_of_run_eq_error hrun hfinal
  have hrested := PipelineSearch.rested_of_run_eq_error hloop rfl hrun hfinal
  have hcontrol : Step.Matches journal.threshold Eq (schedulePipelined options ⟨g, journal⟩)
      (scheduleStraight options ⟨g.disablePipeline, journal⟩) := by
    obtain ⟨journal', hthreshold, hfallback⟩ := schedulePipelined_of_run_eq_error hrun
    rw [hfallback]
    refine matches_scheduleStraight ⟨?_, hthreshold, rfl⟩ ⟨hrestartable.control,
      hrestartable.entry, hrestartable.exit⟩
    show last.state.disablePipeline.rested = g.disablePipeline.rested
    rw [rested_disablePipeline, hrested, rested_disablePipeline]
  have hdata : (Strategy.run .dataPath options).IgnoresMessages := by
    apply (Step.parallel_note _ _ _).bind
    exact fun _ => DataPath.ignores_schedule options
  have hpipeline : schedule options ⟨g, journal⟩ = (do
      schedulePipelined options
      Strategy.run .dataPath options : Step Graph PUnit) ⟨g, journal⟩ := by
    rw [schedule, Step.current_bind, Step.lift_bind_of_eq_ok hverify, Strategy.forControl,
      if_pos hpipelined]
  have hstraight : schedule options ⟨g.disablePipeline, journal⟩ = (do
      scheduleStraight options
      Strategy.run .dataPath options : Step Graph PUnit) ⟨g.disablePipeline, journal⟩ := by
    have hverify' : g.disablePipeline.verify = .ok ⟨⟩ := hverify
    have hunlooped : ¬g.disablePipeline.isPipelined = true := Bool.false_ne_true
    rw [schedule, Step.current_bind, Step.lift_bind_of_eq_ok hverify', Strategy.forControl,
      if_neg hunlooped]
  rw [hpipeline, hstraight]
  exact hcontrol.bind fun _ => hdata

theorem schedule_matches_disablePipeline_lateBranch :
    ∃ g built last,
      (Lowering.buildBlock PipelineSearch.lateBranch ⟨0, [0, 1, 2]⟩ 1 : Step PUnit Graph) ⟨⟨⟩, {}⟩ =
        .ok g built ∧
      g.verify = .ok ⟨⟩ ∧ (∀ loop ∈ g.loopOp, loop ∈ g.controlUnits) ∧
      PipelineSearch.run ⟨g, {}⟩ = .error (.error (.searchExhausted 0 7 15)) last ∧
      Step.Matches none Eq (schedule {} ⟨g, {}⟩) (schedule {} ⟨g.disablePipeline, {}⟩) := by
  have hsucceeds : (Lowering.buildBlock PipelineSearch.lateBranch ⟨0, [0, 1, 2]⟩ 1 :
      Step PUnit Graph).succeeds ⟨⟨⟩, {}⟩ (fun g => decide (g.verify = .ok ⟨⟩ ∧
        (∀ loop ∈ g.loopOp, loop ∈ g.controlUnits) ∧
        PipelineSearch.run.failure? ⟨g, {}⟩ = some (.error (.searchExhausted 0 7 15)))) = true := by
    decide +kernel
  obtain ⟨g, built, hbuild, htest⟩ := Step.exists_of_succeeds hsucceeds
  obtain ⟨hverify, hloop, hfailure⟩ := of_decide_eq_true htest
  obtain ⟨last, hrun⟩ := Step.exists_of_failure? hfailure
  exact ⟨g, built, last, hbuild, hverify, hloop, hrun,
    schedule_matches_disablePipeline hverify (hloop _) hrun⟩

/-- A loop whose loop operation is on the data path.  The block after it holds a unit that waits for
the entry of the loop. -/
def dataLoop : Checked Graph := do
  let g ← ((start 0 1).createUnit (.op 0) 0 .trivial true 0).setPhi 1
  let g ← (g.createUnit (.op 1) 0 .trivial false 0).setTerminator 0 2
  let (_, g) ← g.trySetLoopOp 2 (some 0)
  let g := ((g.createEntry 1).createUnit (.op 2) 1 .trivial true 0).createExit 0
  let g := g.createUnit (.op 3) 1 .trivial false 0
  let g ← g.addDep 1 0 (.value 0)
  let g ← g.addDep 3 2 (.value 0)
  let g ← g.addDep 4 3 (.value 0)
  let g ← g.addDep 4 0 (.value 9)
  let g ← g.addDep 5 1 (.value 0)
  let g ← g.addDep 5 0 (.fixedTiming 0)
  g.addDep 6 4 (.value 0)

/-- No restart undoes where a search has put a loop operation on the data path, so that another
dependency is anchored anew than in a graph that was never pipelined. -/
theorem dataLoop_leavesTrace :
    ∃ g last finished finished', dataLoop = .ok g ∧ g.verify = .ok ⟨⟩ ∧
      PipelineSearch.run ⟨g, {}⟩ = .error (.error (.searchExhausted 0 8 16)) last ∧
      schedule {} ⟨g, {}⟩ = .ok ⟨⟩ finished ∧
      schedule {} ⟨g.disablePipeline, {}⟩ = .ok ⟨⟩ finished' ∧
      finished.state.bundle? 4 0 ≠ finished'.state.bundle? 4 0 := by
  have hsucceeds : (liftM dataLoop : Step PUnit Graph).succeeds ⟨⟨⟩, {}⟩ (fun g =>
      decide (g.verify = .ok ⟨⟩ ∧
        PipelineSearch.run.failure? ⟨g, {}⟩ = some (.error (.searchExhausted 0 8 16))) &&
      (schedule {} >>= fun _ => Step.current).succeeds ⟨g, {}⟩ (fun h =>
        decide (h.bundle? 4 0 = none)) &&
      (schedule {} >>= fun _ => Step.current).succeeds ⟨g.disablePipeline, {}⟩ (fun h =>
        decide ((h.bundle? 4 0).isSome = true))) = true := by
    decide +kernel
  have hscheduled : ∀ {now : Journaled Graph} {test : Graph → Bool},
      (schedule {} >>= fun _ => Step.current).succeeds now test = true →
        ∃ finished, schedule {} now = .ok ⟨⟩ finished ∧ test finished.state = true := by
    intro now test hrun
    obtain ⟨_, _, hrun, htest⟩ := Step.exists_of_succeeds hrun
    obtain ⟨_, finished, hschedule, hcurrent⟩ := Step.bind_eq_ok.mp hrun
    obtain ⟨rfl, _⟩ := Step.current_eq_ok.mp hcurrent
    exact ⟨finished, hschedule, htest⟩
  obtain ⟨g, _, hbuild, htest⟩ := Step.exists_of_succeeds hsucceeds
  simp only [Bool.and_eq_true, decide_eq_true_eq] at htest
  obtain ⟨⟨⟨hverify, hfailure⟩, hpipelined⟩, hstraight⟩ := htest
  obtain ⟨last, hrun⟩ := Step.exists_of_failure? hfailure
  obtain ⟨finished, hschedule, hnone⟩ := hscheduled hpipelined
  obtain ⟨finished', hschedule', hsome⟩ := hscheduled hstraight
  refine ⟨g, last, finished, finished', (Step.lift_eq_ok.mp hbuild).1, hverify, hrun, hschedule,
    hschedule', ?_⟩
  rw [of_decide_eq_true hnone]
  exact (Option.ne_none_iff_isSome.mpr (of_decide_eq_true hsome)).symm

end Graph

end SlotScheduling
