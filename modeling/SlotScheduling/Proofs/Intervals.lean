import SlotScheduling.Proofs.Pipeline.ControlSide
import SlotScheduling.Proofs.Reachable
import SlotScheduling.Proofs.StraightLine

/-!
# Intervals on record

A search that ends well records an interval, and nothing takes an interval off the record again.  So
a loop that is scheduled as such always has its interval on record.  The converse holds as long as
the loop was not given up before: a loop that is scheduled as straight-line code only after it has
been pipelined keeps the interval that it was pipelined with.
-/

namespace SlotScheduling.Graph

variable {block : BlockId} {entrySlot : Nat} {options : SchedulingOptions} {start g g' : Graph}
  {now last : Journaled Graph} {result : PUnit}

/-! ## What all calls maintain -/

/-- The second graph is the block of the first one after some calls that schedule it. -/
structure Continues (block : BlockId) (entrySlot : Nat) (start g : Graph) : Prop
    extends OfBlock block entrySlot g where
  exit : g.HasExit
  own : g.OwnInterval block
  loops : g.isPipelined = true → start.isPipelined = true
  unrecorded : start.isPipelined = false → g.intervals = {}

theorem Continues.of_setup_eq (hg : Continues block entrySlot start g) (h : g'.setup = g.setup) :
    Continues block entrySlot start g' := by
  have hskeleton : g'.skeleton = g.skeleton := congrArg Prod.fst h
  have hintervals : g'.intervals = g.intervals := congrArg Prod.snd h
  have hpipelined := isPipelined_of_skeleton_eq hskeleton
  exact ⟨hg.toOfBlock.of_skeleton_eq hskeleton, hg.exit.of_skeleton_eq hskeleton,
    hg.own.of_setup_eq h, fun hloop => hg.loops (hpipelined ▸ hloop),
    fun hstraight => hintervals.trans (hg.unrecorded hstraight)⟩

theorem Continues.disablePipeline (hg : Continues block entrySlot start g) :
    Continues block entrySlot start g.disablePipeline where
  toOfBlock := hg.toOfBlock.disablePipeline
  exit := hg.exit
  own := ⟨hg.own.entryBlock, hg.own.entries⟩
  loops := fun hloop => absurd hloop Bool.false_ne_true
  unrecorded := hg.unrecorded

theorem maintains_continues_of_setup {α : Type} {step : Step Graph α} (h : step.Keeps setup) :
    step.Maintains (Continues block entrySlot start) :=
  h.maintains fun _ _ heq hg => hg.of_setup_eq heq

theorem maintains_continues_dataPath :
    (Strategy.run .dataPath options).Maintains (Continues block entrySlot start) :=
  (Step.maintains_note _ _).bind fun _ => (DataPath.keeps_schedule options).maintains
    fun _ _ hframe hg => hg.of_setup_eq (setup_eq_of_frame_eq hframe)

theorem maintains_continues_scheduleStraight :
    (scheduleStraight options).Maintains (Continues block entrySlot start) := by
  refine (maintains_continues_of_setup (keeps_resetControl 0)).bind fun _ => ?_
  refine (Step.maintains_note _ _).bind fun _ => ?_
  refine ControlPath.maintains_schedule (fun h h' hunplaced hg => ?_)
    (maintains_reanchor_of_isAnchored fun hg => hg.toOfBlock.isAnchored)
  have hframe : h'.frame = h.frame := congrArg Prod.fst hunplaced
  exact hg.of_setup_eq (setup_eq_of_frame_eq hframe)

/-- A search is given a loop, so that it may record an interval. -/
theorem maintains_continues_run (hstart : start.isPipelined = true) :
    PipelineSearch.run.Maintains (Continues block entrySlot start) := by
  intro now hnow
  have hskeleton := PipelineSearch.keeps_run now
  have hown := PipelineSearch.maintains_run now hnow.own
  have hkept : ∀ {h : Graph}, h.skeleton = now.state.skeleton → h.OwnInterval block →
      Continues block entrySlot start h := fun hskeleton hown =>
    ⟨hnow.toOfBlock.of_skeleton_eq hskeleton, hnow.exit.of_skeleton_eq hskeleton, hown,
      fun _ => hstart, fun hstraight => by simp [hstart] at hstraight⟩
  exact hkept hskeleton hown

theorem maintains_continues_schedulePipelined (hstart : start.isPipelined = true) :
    (schedulePipelined options).Maintains (Continues block entrySlot start) := by
  have hsearch : (Strategy.run .pipeline options).Maintains (Continues block entrySlot start) :=
    (Step.maintains_note _ _).bind fun _ =>
      (maintains_continues_run hstart).bind fun _ => Step.maintains_pure _
  have hfallBack : ∀ text : Unit → String, (do
      Step.note .warn text
      Step.update Graph.disablePipeline
      scheduleStraight options).Maintains (Continues block entrySlot start) := by
    intro text
    refine (Step.maintains_note _ _).bind fun _ => ?_
    refine Step.Maintains.bind ?_ fun _ => maintains_continues_scheduleStraight
    exact Step.maintains_update fun _ hg => hg.disablePipeline
  intro now hnow
  have hrun := hsearch now hnow
  unfold schedulePipelined
  split
  next hgaveUp =>
    rw [hgaveUp] at hrun
    exact hfallBack _ _ hrun
  next => exact hrun

theorem maintains_continues_schedule :
    (schedule options).Maintains (Continues block entrySlot start) := by
  unfold schedule
  refine Step.maintains_current_bind fun g hg => ?_
  refine Step.Maintains.bind (Step.maintains_lift _) fun _ => ?_
  by_cases hpipelined : g.isPipelined = true
  · rw [Strategy.forControl, if_pos hpipelined]
    exact (maintains_continues_schedulePipelined (hg.loops hpipelined)).bind
      fun _ => maintains_continues_dataPath
  · rw [Strategy.forControl, if_neg hpipelined]
    exact maintains_continues_scheduleStraight.bind fun _ => maintains_continues_dataPath

/-! ## Sequences of calls -/

/-- The calls that schedule a block, or have it scheduled as straight-line code. -/
inductive Call.Schedules : Call → Prop
  | schedule (options : SchedulingOptions) : Schedules (.schedule options)
  | disablePipeline : Schedules .disablePipeline

theorem Continues.stateOf {call : Call} (journal : Journal) (hcall : call.Schedules)
    (hg : Continues block entrySlot start g) :
    Continues block entrySlot start (Step.stateOf (call.step ⟨g, journal⟩)) := by
  cases hcall with
  | schedule options => exact maintains_continues_schedule ⟨g, journal⟩ hg
  | disablePipeline => exact hg.disablePipeline

theorem Continues.after {calls : List Call} (hcalls : ∀ call ∈ calls, call.Schedules)
    (hg : Continues block entrySlot start g) : Continues block entrySlot start (g.after calls) := by
  induction calls generalizing g with
  | nil => exact hg
  | cons call rest ih =>
      rw [List.forall_mem_cons] at hcalls
      exact ih hcalls.2 (hg.stateOf {} hcalls.1)

/-! ## What is on record -/

/-- A search that gave up has recorded nothing. -/
theorem intervals_of_run_eq_error {failure : Failure} (hg : now.state.OfBlock block entrySlot)
    (hrun : PipelineSearch.run now = .error failure last) (hfinal : ¬failure.IsFinal) :
    last.state.intervals = now.state.intervals := by
  have hloop : ∀ {loop}, now.state.loopOp = some loop → loop ∈ now.state.controlUnits :=
    fun hloop => hg.control.mpr (hg.loop hloop)
  have hrested := PipelineSearch.rested_of_run_eq_error hloop rfl hrun hfinal
  exact eq_of_rested_eq (·.intervals) hrested fun _ => rfl

/-- Straight-line code is no loop, and keeps the record. -/
theorem intervals_of_scheduleStraight (hg : now.state.OfBlock block entrySlot)
    (hexit : now.state.HasExit) (hstraight : now.state.isPipelined = false)
    (h : scheduleStraight options now = .ok result last) :
    last.state.isPipelined = false ∧ last.state.intervals = now.state.intervals := by
  have hsetup := setup_of_scheduleStraight hg hexit h
  have hskeleton : last.state.skeleton = now.state.skeleton := congrArg Prod.fst hsetup
  exact ⟨(isPipelined_of_skeleton_eq hskeleton).trans hstraight, congrArg Prod.snd hsetup⟩

/-- A complete schedule is one of a pipelined loop, whose interval it records, or it is one of
straight-line code, and leaves the record alone. -/
theorem Continues.intervals_of_schedule (hg : Continues block entrySlot start now.state)
    (h : schedule options now = .ok result last) :
    (last.state.isPipelined = true ∧
      ∃ interval, last.state.intervals = now.state.intervals.insert block interval) ∨
    (last.state.isPipelined = false ∧ last.state.intervals = now.state.intervals) := by
  obtain ⟨_, middle, hcontrol, hdata⟩ := schedule_eq_ok_iff.mp h
  have hframe : last.state.frame = middle.state.frame := by
    obtain ⟨noted, hnoted, _, hrun⟩ := exists_dataPath hdata
    exact ((DataPath.keeps_schedule options).of_eq_ok hrun).trans (congrArg frame hnoted)
  rw [isPipelined_of_skeleton_eq (skeleton_eq_of_frame_eq hframe), intervals_of_frame_eq hframe]
  split at hcontrol
  next hpipelined =>
    obtain ⟨noted, hnoted, ⟨interval, hrun⟩ | ⟨_, _, _, failed, hrun, given, hgiven, hplace⟩⟩ :=
      schedulePipelined_cases hcontrol
    all_goals rw [← hnoted] at hg hpipelined ⊢
    · have hskeleton := PipelineSearch.keeps_run.of_eq_ok hrun
      exact Or.inl ⟨(isPipelined_of_skeleton_eq hskeleton).trans hpipelined, interval,
        PipelineSearch.intervals_of_run hg.toOfBlock hrun⟩
    · have hskeleton := PipelineSearch.keeps_run.of_eq_error hrun
      have hkept := intervals_of_run_eq_error hg.toOfBlock hrun
        (Failure.not_isFinal_searchExhausted _ _ _)
      have hexit : failed.state.HasExit := hg.exit.of_skeleton_eq hskeleton
      -- The loop is given up before it is scheduled as straight-line code.
      have hplaced := intervals_of_scheduleStraight
        (hgiven ▸ (hg.toOfBlock.of_skeleton_eq hskeleton).disablePipeline) (hgiven ▸ hexit)
        (hgiven ▸ rfl) hplace
      rw [hgiven] at hplaced
      exact Or.inr ⟨hplaced.1, hplaced.2.trans hkept⟩
  next hpipelined =>
    exact Or.inr (intervals_of_scheduleStraight hg.toOfBlock hg.exit
      (Bool.eq_false_iff.mpr hpipelined) hcontrol)

section

variable {σ : Type} {program : Program} {basic : BasicBlock} {before built : Journaled σ}
  {calls : List Call} {journal : Journal}

theorem continues_buildBlock
    (hbuild : Lowering.buildBlock program basic entrySlot before = .ok g built) :
    Continues basic.id entrySlot g g := by
  obtain ⟨hg, hexit⟩ := Lowering.ofBlock_buildBlock hbuild
  have hnone := Lowering.intervals_buildBlock hbuild
  exact ⟨hg, hexit, ⟨hg.entryBlock, Or.inl (by rw [hnone])⟩, id, fun _ => hnone⟩

/-- After any calls that schedule a block, a loop that is scheduled as such has its interval on
record.  An interval on record is one of the block, which was built as a loop; and it is a loop
still, unless the interval was on record before. -/
theorem record_of_schedule
    (hbuild : Lowering.buildBlock program basic entrySlot before = .ok g built)
    (hcalls : ∀ call ∈ calls, call.Schedules)
    (h : schedule options ⟨g.after calls, journal⟩ = .ok result last) :
    (last.state.isPipelined = true → (last.state.interval? basic.id).isSome) ∧
      ∀ {other interval}, last.state.interval? other = some interval →
        other = basic.id ∧ g.isPipelined = true ∧
          (last.state.isPipelined = true ∨ (g.after calls).interval? other = some interval) := by
  have hnow : Continues basic.id entrySlot g
      (⟨g.after calls, journal⟩ : Journaled Graph).state :=
    (continues_buildBlock hbuild).after hcalls
  have hlast := maintains_continues_schedule.of_eq_ok hnow h
  refine ⟨fun hpipelined => ?_, fun {other interval} hinterval => ⟨?_, ?_, ?_⟩⟩
  · rcases hnow.intervals_of_schedule h with ⟨_, interval, hrecorded⟩ | ⟨hstraight, _⟩
    · simp [interval?, hrecorded, Table.get?_insert]
    · simp [hstraight] at hpipelined
  · have hmem := Table.mem_entries_of_get?_eq_some hinterval
    rcases hlast.own.entries with hnone | ⟨own, hown⟩
    · simp [hnone] at hmem
    · rw [hown, List.mem_singleton] at hmem
      exact (Prod.mk.inj hmem).1
  · by_contra hstraight
    have hnone := hlast.unrecorded (Bool.eq_false_iff.mpr hstraight)
    simp [interval?, hnone, Table.get?] at hinterval
  · rcases hnow.intervals_of_schedule h with ⟨hpipelined, _⟩ | ⟨_, hkept⟩
    · exact Or.inl hpipelined
    · exact Or.inr (by rwa [interval?, hkept] at hinterval)

/-- A schedule of a block without an interval on record leaves one exactly for a pipelined loop. -/
theorem isSome_interval?_iff_of_schedule
    (hbuild : Lowering.buildBlock program basic entrySlot before = .ok g built)
    (hcalls : ∀ call ∈ calls, call.Schedules) (hnone : (g.after calls).intervals = {})
    (h : schedule options ⟨g.after calls, journal⟩ = .ok result last) :
    (last.state.interval? basic.id).isSome = last.state.isPipelined := by
  obtain ⟨hrecorded, hlater⟩ := record_of_schedule hbuild hcalls h
  rw [Bool.eq_iff_iff]
  refine ⟨fun hsome => ?_, hrecorded⟩
  obtain ⟨interval, hinterval⟩ := Option.isSome_iff_exists.mp hsome
  obtain ⟨_, _, hpipelined | hbefore⟩ := hlater hinterval
  · exact hpipelined
  · simp [interval?, hnone, Table.get?] at hbefore

end

/-- A loop around a single operation. -/
def shortLoop : Program where
  ops := ⟨#[.control "a" 0 .trivial, .branch 0 0]⟩
  oracle := { dependences := fun _ => some [.liveIn], stepsToFinish := fun _ => 0 }

/-- A loop that has been pipelined and is then scheduled as straight-line code, all in one slot:
its interval is still reported. -/
theorem interval_outlives_loop :
    ∃ g built looped last schedule',
      (Lowering.buildBlock shortLoop ⟨0, [0, 1]⟩ 1 : Step PUnit Graph) ⟨⟨⟩, {}⟩ = .ok g built ∧
      schedule {} ⟨g, {}⟩ = .ok ⟨⟩ looped ∧ looped.state.interval? 0 = some 1 ∧
      schedule {} ⟨looped.state.disablePipeline, {}⟩ = .ok ⟨⟩ last ∧
      last.state.isPipelined = false ∧ last.state.slots = [some 1, some 1, some 1, some 1] ∧
      Schedule.ofGraph last.state = .ok schedule' ∧ schedule'.interval? 0 = some 1 := by
  have hsucceeds : (Lowering.buildBlock shortLoop ⟨0, [0, 1]⟩ 1 : Step PUnit Graph).succeeds
      ⟨⟨⟩, {}⟩ (fun g => (schedule {} >>= fun _ => Step.current).succeeds ⟨g, {}⟩ fun looped =>
        decide (looped.interval? 0 = some 1) &&
        (schedule {} >>= fun _ => Step.current).succeeds ⟨looped.disablePipeline, {}⟩ fun last =>
          decide (last.isPipelined = false ∧ last.slots = [some 1, some 1, some 1, some 1]) &&
          (liftM (Schedule.ofGraph last) : Step Graph Schedule).succeeds ⟨last, {}⟩ fun schedule' =>
            decide (schedule'.interval? 0 = some 1)) = true := by
    decide +kernel
  obtain ⟨g, built, hbuild, hruns⟩ := Step.exists_of_succeeds hsucceeds
  obtain ⟨looped, hlooped, hruns⟩ := Step.exists_last_of_succeeds hruns
  obtain ⟨hinterval, hruns⟩ := (Bool.and_eq_true _ _).mp hruns
  obtain ⟨last, hlast, hruns⟩ := Step.exists_last_of_succeeds hruns
  obtain ⟨hstraight, hreports⟩ := (Bool.and_eq_true _ _).mp hruns
  obtain ⟨hpipelined, hslots⟩ := of_decide_eq_true hstraight
  obtain ⟨schedule', _, hreport, hreported⟩ := Step.exists_of_succeeds hreports
  exact ⟨g, built, looped, last, schedule', hbuild, hlooped, of_decide_eq_true hinterval, hlast,
    hpipelined, hslots, (Step.lift_eq_ok.mp hreport).1, of_decide_eq_true hreported⟩

end SlotScheduling.Graph
