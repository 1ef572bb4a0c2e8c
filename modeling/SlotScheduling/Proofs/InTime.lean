import SlotScheduling.Proofs.BlockEnds
import SlotScheduling.Proofs.Pipeline.Bounded
import SlotScheduling.Proofs.Pipeline.Fallback

/-!
# Control paths in time

The control path of a block with small numbers ends in time, or with an error, whether the block is
straight-line code, a loop, or a loop on which the search gives up.
-/

namespace SlotScheduling.Graph

variable {options : SchedulingOptions} {now : Journaled Graph} {g : Graph} {block : BlockId}
  {entrySlot limit distance : Nat} {exit branch : UnitId}

theorem Laden.disablePipeline (hladen : g.Laden limit distance) :
    g.disablePipeline.Laden limit distance :=
  ⟨hladen.spans, hladen.total, hladen.steps⟩

/-- A graph with slots that are not late is made of the graph of a block, as a loop or not. -/
def InTime (block : BlockId) (entrySlot limit distance : Nat) (exit : UnitId) (h : Graph) : Prop :=
  ∃ g, Enclosed block entrySlot exit g ∧ g.Laden limit distance ∧ Timed block g h

variable (hladen : g.Laden limit distance) (hlimit : limit < 2 ^ 20)
  (hnone : g.interval? block = none)

include hladen hlimit hnone

/-- Straight-line code is made alike of all graphs that a restart makes one. -/
theorem ensures_scheduleStraight (hg : Enclosed block entrySlot exit g) (hne : exit ≠ g.entryRoot)
    (hrested : now.state.rested = g.rested) :
    (scheduleStraight options).Ensures (fun _ h => Timed block g h) now := by
  have hcontrols : g.HasExit := ⟨exit, hg.exitRoot, hg.exitControl, hne⟩
  have hrestartable := hg.restartable hcontrols
  have hreset := resetControl_zero_eq_ok_iff.mpr ⟨hrestartable.of_rested_eq hrested, rfl⟩
  obtain ⟨again, hagain, hrestart⟩ := exists_resetControl hg
    (show Similar g (⟨g, now.journal⟩ : Journaled Graph).state from .refl g)
    (fun hpos => absurd hpos (Nat.lt_irrefl 0)) fun hpos => absurd hpos (Nat.lt_irrefl 0)
  obtain ⟨-, rfl⟩ := resetControl_zero_eq_ok_iff.mp hagain
  rw [← hrested] at hrestart
  have hnone' : now.state.rested.interval? block = none := by
    rw [hrested]
    exact hnone
  exact (Step.ensures_bind_of_eq_ok hreset).mpr (Step.ensures_note_bind fun journal =>
    ControlPath.ensures_schedule hg hladen hlimit hrestart hnone' hne)

/-- A search that gives up leaves straight-line code. -/
theorem ensures_schedulePipelined (hg : g.SelfLoop block entrySlot exit branch)
    (hne : exit ≠ g.entryRoot) (hloop : ∀ {loop}, g.loopOp = some loop → loop ∈ g.controlUnits)
    (hnow : now.state = g) :
    (schedulePipelined options).Ensures (fun _ => InTime block entrySlot limit distance exit)
      now := by
  have hsearches : Strategy.run .pipeline options now =
      (PipelineSearch.run >>= fun _ => pure ⟨⟩) ⟨now.state, _⟩ := Step.note_bind _ _ _
  generalize hnoted : Journaled.mk now.state _ = noted at hsearches
  have hnoted : noted.state = g := by rw [← hnoted, hnow]
  have hensures : (Strategy.run .pipeline options).Ensures (fun _ h => Timed block g h) now := by
    rw [Step.Ensures, hsearches]
    exact (PipelineSearch.ensures_run hg hladen hlimit noted hnoted).bind fun _ _ _ htimed => htimed
  unfold Step.Ensures schedulePipelined
  cases hsearch : Strategy.run .pipeline options now with
  | ok value last =>
      exact ⟨g, hg.toEnclosed, hladen, hensures.of_eq_ok hsearch⟩
  | error failure last =>
      rw [Step.Ensures, hsearch] at hensures
      obtain ⟨cause, rfl⟩ := hensures
      cases cause with
      | searchExhausted found interval criticalPath =>
          have hfails : PipelineSearch.run noted =
              .error (.error (.searchExhausted found interval criticalPath)) last := by
            rcases Step.bind_eq_error.mp (hsearches.symm.trans hsearch) with hrun | ⟨_, _, _, hpure⟩
            · exact hrun
            · cases hpure
          have hrested := PipelineSearch.rested_of_run_eq_error hloop (congrArg rested hnoted)
            hfails (Failure.not_isFinal_searchExhausted _ _ _)
          have hrested : last.state.disablePipeline.rested = g.disablePipeline.rested := by
            rw [rested_disablePipeline, hrested, rested_disablePipeline]
          have hstraight : ∀ journal, (scheduleStraight options).Ensures
              (fun _ h => Timed block g.disablePipeline h)
              ⟨last.state.disablePipeline, journal⟩ := fun journal =>
            ensures_scheduleStraight hladen.disablePipeline hlimit hnone
              hg.toEnclosed.disablePipeline hne hrested
          exact (hstraight _).mono fun _ _ htimed =>
            ⟨_, hg.toEnclosed.disablePipeline, hladen.disablePipeline, htimed⟩
      | _ => exact ⟨_, rfl⟩

end SlotScheduling.Graph
