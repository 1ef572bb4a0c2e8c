import SlotScheduling.Proofs.Failures
import SlotScheduling.Proofs.Journals
import SlotScheduling.Proofs.Pipeline.Skeletons
import SlotScheduling.Proofs.Placement.DataPath
import SlotScheduling.Proofs.Graph.Blocks
import SlotScheduling.Region

/-!
# Where a schedule comes from

The control path of a complete schedule was placed as straight-line code, or it
was found by the search for a pipelined schedule.
-/

namespace SlotScheduling.Graph

variable {g : Graph} {block : BlockId} {entrySlot : Nat} {options : SchedulingOptions}
  {now last : Journaled Graph} {result : PUnit}

theorem isPipelined_of_skeleton_eq {g' : Graph} (h : g'.skeleton = g.skeleton) :
    g'.isPipelined = g.isPipelined :=
  eq_of_skeleton_eq (·.isPipelined) h fun _ => rfl

/-! ## Stages -/

/-- A complete schedule is a control path with a data path around it. -/
theorem schedule_eq_ok_iff : schedule options now = .ok result last ↔
    now.state.verify = .ok ⟨⟩ ∧ ∃ middle,
      (if now.state.isPipelined = true then schedulePipelined options
        else scheduleStraight options) now = .ok ⟨⟩ middle ∧
      Strategy.run .dataPath options middle = .ok result last := by
  have hstages : ∀ control : Step Graph PUnit, (do
      control
      Strategy.run .dataPath options : Step Graph PUnit) now = .ok result last ↔
        ∃ middle, control now = .ok ⟨⟩ middle ∧
          Strategy.run .dataPath options middle = .ok result last := by
    intro control
    rw [Step.bind_eq_ok]
    exact ⟨fun ⟨_, hrun⟩ => hrun, fun hrun => ⟨⟨⟩, hrun⟩⟩
  rw [schedule, Step.current_bind, Step.lift_bind_eq_ok, exists_and_right, Strategy.forControl,
    Checked.exists_punit_eq_ok]
  by_cases hpipelined : now.state.isPipelined = true
  · simp only [if_pos hpipelined, hstages]
  · simp only [if_neg hpipelined, hstages]

theorem exists_dataPath (h : Strategy.run .dataPath options now = .ok result last) :
    ∃ noted : Journaled Graph, noted.state = now.state ∧
      noted.journal.threshold = now.journal.threshold ∧
      DataPath.schedule options noted = .ok result last := by
  obtain ⟨_, noted, hnote, h⟩ := Step.bind_eq_ok.mp h
  have hnoted := Step.note_eq_ok.mp hnote
  exact ⟨noted, by rw [hnoted], by rw [hnoted, Journal.threshold_note], h⟩

/-- A loop is pipelined, or else it is straight-line code once the search has given up. -/
theorem schedulePipelined_cases (h : schedulePipelined options now = .ok result last) :
    ∃ noted : Journaled Graph, noted.state = now.state ∧
      ((∃ interval, PipelineSearch.run noted = .ok interval last) ∨
        ∃ block interval criticalPath failed, PipelineSearch.run noted =
            .error (.error (.searchExhausted block interval criticalPath)) failed ∧
          ∃ given : Journaled Graph, given.state = failed.state.disablePipeline ∧
            scheduleStraight options given = .ok result last) := by
  have hsearches : Strategy.run .pipeline options now =
      (PipelineSearch.run >>= fun _ => pure ⟨⟩) ⟨now.state, _⟩ := Step.note_bind _ _ _
  generalize hnoted : Journaled.mk now.state _ = noted at hsearches
  refine ⟨noted, by rw [← hnoted], ?_⟩
  unfold schedulePipelined at h
  split at h
  next block interval criticalPath failed hsearch =>
    rw [hsearches] at hsearch
    simp only [Step.note_bind, Step.update_bind] at h
    rcases Step.bind_eq_error.mp hsearch with hrun | ⟨_, _, _, hpure⟩
    · exact Or.inr ⟨block, interval, criticalPath, failed, hrun,
        ⟨failed.state.disablePipeline, _⟩, rfl, h⟩
    · cases hpure
  next =>
    rw [hsearches] at h
    obtain ⟨interval, _, hrun, h⟩ := Step.bind_eq_ok.mp h
    obtain ⟨_, rfl⟩ := Step.pure_eq_ok.mp h
    exact Or.inl ⟨interval, hrun⟩

/-- A search that ends well pipelines the loop. -/
theorem schedulePipelined_of_run {interval : Nat}
    (hrun : PipelineSearch.run
      ⟨now.state, now.journal.note .debug fun _ => s!"running {Strategy.pipeline.name}"⟩ =
        .ok interval last) : schedulePipelined options now = .ok ⟨⟩ last := by
  have hsearch : Strategy.run .pipeline options now = .ok ⟨⟩ last := by
    rw [Strategy.run, Step.note_bind]
    exact Step.bind_eq_ok.mpr ⟨interval, last, hrun, rfl⟩
  rw [schedulePipelined, hsearch]

/-! ## Origins -/

/-- The control path of the graph was placed as straight-line code. -/
def ComesStraight (block : BlockId) (entrySlot : Nat) (options : SchedulingOptions)
    (g : Graph) : Prop :=
  ∃ now last result, scheduleStraight options now = .ok result last ∧ last.state = g ∧
    now.state.OfBlock block entrySlot ∧ now.state.HasExit ∧ now.state.isPipelined = false

/-- The control path of the second graph was found by a search. -/
def ComesPipelined (g g' : Graph) : Prop :=
  g.isPipelined = true ∧ ∃ now last interval,
    PipelineSearch.run now = .ok interval last ∧ now.state = g ∧ last.state = g'

theorem comes_of_schedulePipelined (hg : now.state.OfBlock block entrySlot)
    (hexit : now.state.HasExit) (hpipelined : now.state.isPipelined = true)
    (h : schedulePipelined options now = .ok result last) :
    ComesStraight block entrySlot options last.state ∨
      ComesPipelined now.state last.state := by
  obtain ⟨noted, hnoted, ⟨interval, hrun⟩ | ⟨_, _, _, failed, hrun, given, hgiven, hstraight⟩⟩ :=
    schedulePipelined_cases h
  · exact Or.inr ⟨hpipelined, _, _, interval, hrun, hnoted, rfl⟩
  · -- Even a search that failed has kept the skeleton.
    have hskeleton : failed.state.skeleton = now.state.skeleton :=
      hnoted ▸ PipelineSearch.keeps_run.of_eq_error hrun
    have hexit' : failed.state.HasExit := hexit.of_skeleton_eq hskeleton
    refine Or.inl ⟨given, last, result, hstraight, rfl, ?_⟩
    rw [hgiven]
    exact ⟨(hg.of_skeleton_eq hskeleton).disablePipeline, hexit', rfl⟩

/-- The control path of a complete schedule comes from one of the two. -/
theorem schedule_cases (hg : now.state.OfBlock block entrySlot) (hexit : now.state.HasExit)
    (h : schedule options now = .ok result last) :
    ∃ middle : Journaled Graph, DataPath.schedule options middle = .ok result last ∧
      (ComesStraight block entrySlot options middle.state ∨
        ComesPipelined now.state middle.state) := by
  obtain ⟨_, middle, hcontrol, hdata⟩ := schedule_eq_ok_iff.mp h
  obtain ⟨noted, hstate, _, hrun⟩ := exists_dataPath hdata
  refine ⟨noted, hrun, ?_⟩
  rw [hstate]
  split at hcontrol
  next hpipelined => exact comes_of_schedulePipelined hg hexit hpipelined hcontrol
  next hpipelined =>
    have hstraight := Bool.eq_false_iff.mpr hpipelined
    exact Or.inl ⟨now, middle, _, hcontrol, rfl, hg, hexit, hstraight⟩

/-- A block that is lowered and scheduled on its own gets a data path around one
of the two control paths. -/
theorem schedule_buildBlock_cases {σ : Type} {program : Program} {basic : BasicBlock}
    {now last : Journaled σ}
    (h : (do
      let g ← Lowering.buildBlock program basic entrySlot
      scheduleApart options g : Step σ Graph) now = .ok g last) :
    ∃ (built : Graph) (now' : Journaled σ),
      Lowering.buildBlock program basic entrySlot now = .ok built now' ∧
      ∃ middle finished : Journaled Graph, ∃ result,
        DataPath.schedule options middle = .ok result finished ∧ finished.state = g ∧
        (ComesStraight basic.id entrySlot options middle.state ∨
          ComesPipelined built middle.state) := by
  obtain ⟨built, now', hbuild, h⟩ := Step.bind_eq_ok.mp h
  obtain ⟨hg, hexit⟩ := Lowering.ofBlock_buildBlock hbuild
  obtain ⟨⟨result, scheduled⟩, hrun, rfl⟩ := Step.map_eq_ok.mp h
  obtain ⟨finished, hschedule, hfinished, _⟩ := Step.apart_eq_ok.mp hrun
  obtain ⟨middle, hdata, hcomes⟩ := schedule_cases hg hexit hschedule
  exact ⟨built, now', hbuild, middle, finished, result, hdata, hfinished, hcomes⟩

end SlotScheduling.Graph
