import SlotScheduling.Proofs.Pipeline.Parallel
import SlotScheduling.Region

/-!
# Schedules and messages

A block gets the same schedule wherever it is scheduled, whatever has been noted before.
-/

namespace SlotScheduling

open SlotScheduling.Step

namespace Graph

theorem ignores_resetControl (interval : Nat) : (resetControl interval).IgnoresMessages := by
  unfold resetControl
  apply (ignores_updateChecked _).bind
  intro _
  apply parallel_ite
  · apply ignores_current_bind
    intro g
    split
    · exact parallel_fail_bind _ _ _
    · apply (parallel_lift _).bind
      intro slot
      exact (ignores_updateChecked _).bind fun _ => ignores_updateChecked _
  · exact ignores_updateChecked _

theorem ignores_delayPhis : delayPhis.IgnoresMessages := by
  have hdelay : ∀ ends id, (delayPhi ends id).IgnoresMessages := by
    intro ends id
    unfold delayPhi
    apply ignores_current_bind
    intro g
    apply (parallel_lift _).bind
    intro unit
    split
    · split
      · exact parallel_pure _
      · split
        · exact parallel_fail _
        · apply (parallel_lift _).bind
          intro moved
          exact parallel_ite (parallel_fail _) (ignores_updateChecked _)
    · exact parallel_pure _
  unfold delayPhis
  apply ignores_current_bind
  intro g
  apply Parallel.bind
  · apply parallel_mapM
    intro block
    exact (parallel_lift _).bind fun _ => parallel_pure _
  · exact fun ends => parallel_forM fun id _ => hdelay ends id

theorem ignores_reanchor : reanchor.IgnoresMessages := by
  unfold reanchor
  apply ignores_current_bind
  intro g
  apply (parallel_lift _).bind
  intro moves
  apply parallel_forM
  intro move _
  apply (parallel_note _ _ _).bind
  intro _
  exact (ignores_updateChecked _).bind fun _ => ignores_updateChecked _

end Graph

/-! ## The control path -/

namespace ControlPath

theorem ignores_placeInOrder (placed : List UnitId) (order : IssueOrder) :
    (placeInOrder placed order).IgnoresMessages := by
  unfold placeInOrder
  apply (ignores_updateChecked _).bind
  intro _
  apply ignores_current_bind
  intro g
  apply (parallel_lift _).bind
  intro system
  apply (parallel_lift _).bind
  intro slots
  exact (parallel_note _ _ _).bind fun _ => ignores_updateChecked _

theorem ignores_schedule : schedule.IgnoresMessages := by
  unfold schedule
  apply (ignores_updateChecked _).bind
  intro _
  apply ignores_current_bind
  intro g
  apply (parallel_lift _).bind
  intro system
  apply (parallel_note _ _ _).bind
  intro _
  apply parallel_ite
  · exact parallel_pure _
  apply (parallel_lift _).bind
  intro slots
  apply (ignores_updateChecked _).bind
  intro _
  apply ignores_current_bind
  intro placed
  apply (parallel_lift _).bind
  intro order
  apply parallel_ite
  · exact (ignores_placeInOrder _ _).bind fun _ => Graph.ignores_reanchor
  · exact Graph.ignores_reanchor

end ControlPath

/-! ## The search for a pipelined schedule -/

namespace PipelineSearch

variable {α : Type}

theorem ignores_onGraph {work : Step Graph α} (h : work.IgnoresMessages) :
    (onGraph work).IgnoresMessages :=
  h.focus _ _

theorem ignores_start : start.IgnoresMessages := by
  unfold start
  apply ignores_current_bind
  intro g
  apply parallel_ite
  · exact parallel_fail_bind _ _ _
  split
  · exact parallel_fail _
  · apply (Graph.ignores_resetControl 0).bind
    intro _
    apply ignores_current_bind
    intro cleared
    apply (parallel_lift _).bind
    intro system
    apply (parallel_lift _).bind
    intro slots
    apply (parallel_lift _).bind
    intro latencies
    apply (parallel_lift _).bind
    intro longest
    apply (parallel_lift _).bind
    intro larger
    apply (parallel_lift _).bind
    intro ceiling
    exact (parallel_note _ _ _).bind fun _ => parallel_pure _

theorem congruent_eq : Congruent Eq where
  entryBlock := fun h => congrArg Graph.entryBlock h.symm
  bound := fun _ h => h ▸ ⟨rfl, rfl⟩
  order := fun h => congrArg IssueOrder.build h.symm
  reset := Graph.ignores_resetControl
  place := fun _ _ => parallel_tryPlace (fun h => h ▸ rfl) fun _ _ _ => ignores_updateChecked _

theorem ignores_commit : commit.IgnoresMessages := by
  unfold commit
  apply ignores_current_bind
  intro search
  apply (parallel_lift _).bind
  intro expected
  split
  all_goals
    apply Parallel.bind
    · first | exact parallel_pure none | exact (parallel_lift _).map _
    intro slot
    apply (parallel_lift _).bind
    intro last
    apply parallel_ite
    · exact parallel_fail_bind _ _ _
    apply Parallel.bind
    · exact ignores_onGraph ((ignores_update _).bind fun _ => Graph.ignores_delayPhis)
    intro _
    apply (parallel_records _).bind
    intro recorded
    apply parallel_ite
    · apply ignores_current_bind
      intro search'
      apply (parallel_lift _).bind
      intro total
      exact (parallel_note _ _ _).bind fun _ => parallel_pure _
    · exact parallel_pure _

theorem ignores_run : run.IgnoresMessages := by
  have hsame : OnRelated Eq = (Eq : PipelineSearch → PipelineSearch → Prop) :=
    funext fun _ => funext fun _ => propext onRelated_eq
  have hcommit : Parallel (OnRelated Eq) commit commit := by
    rw [hsame]
    exact ignores_commit
  have hcomplete := parallel_complete congruent_eq hcommit
  rw [hsame] at hcomplete
  unfold run
  apply ignores_start.bind
  intro search
  exact IgnoresMessages.focus hcomplete _ _

end PipelineSearch

/-! ## The data path -/

namespace DataPath

theorem ignores_schedule (options : SchedulingOptions) : (schedule options).IgnoresMessages := by
  have hdangling : ∀ ids, (placeAllDangling ids).IgnoresMessages := by
    intro ids
    apply parallel_foldlM
    intro count id
    apply ignores_current_bind
    intro g
    apply (parallel_lift _).bind
    intro placed
    exact (ignores_replace _).bind fun _ => parallel_pure _
  unfold schedule
  apply (ignores_updateChecked _).bind
  intro _
  apply (ignores_updateChecked _).bind
  intro _
  apply ignores_current_bind
  intro g
  apply (hdangling _).bind
  intro count
  apply ignores_current_bind
  intro g'
  apply (parallel_lift _).bind
  intro system
  apply (parallel_note _ _ _).bind
  intro _
  apply parallel_ite
  · apply (parallel_lift _).bind
    intro slots
    exact (ignores_updateChecked _).bind fun _ => ignores_updateChecked _
  · exact ignores_updateChecked _

end DataPath

/-! ## Graphs -/

namespace Graph

theorem ignores_scheduleStraight (options : SchedulingOptions) :
    (scheduleStraight options).IgnoresMessages := by
  apply (ignores_resetControl 0).bind
  intro _
  apply (parallel_note _ _ _).bind
  exact fun _ => ControlPath.ignores_schedule

/-- A search that gave up leaves the same graph behind for the schedule that replaces it. -/
theorem ignores_schedulePipelined (options : SchedulingOptions) :
    (schedulePipelined options).IgnoresMessages := by
  have hsearch : (Strategy.run .pipeline options).IgnoresMessages := by
    apply (parallel_note _ _ _).bind
    intro _
    exact PipelineSearch.ignores_run.bind fun _ => parallel_pure _
  have hretry : ∀ text, (do
      Step.note .warn text
      Step.update disablePipeline
      scheduleStraight options : Step Graph PUnit).IgnoresMessages := by
    intro text
    apply (parallel_note _ _ _).bind
    intro _
    exact (ignores_update _).bind fun _ => ignores_scheduleStraight options
  intro threshold now now' hnow
  have hlast := hsearch hnow
  unfold schedulePipelined
  cases hrun : Strategy.run .pipeline options now <;>
    cases hrun' : Strategy.run .pipeline options now' <;> rw [hrun, hrun'] at hlast
  · exact hlast
  · exact hlast.elim
  · exact hlast.elim
  · obtain ⟨rfl, hlast⟩ := hlast
    split
    next heq =>
      cases heq
      exact hretry _ hlast
    next hother =>
      split
      next heq =>
        cases heq
        exact absurd rfl (hother _ _ _ _)
      · exact ⟨rfl, hlast⟩

theorem ignores_schedule (options : SchedulingOptions) : (schedule options).IgnoresMessages := by
  unfold schedule
  apply ignores_current_bind
  intro g
  apply (parallel_lift _).bind
  intro _
  have hdata : (Strategy.run .dataPath options).IgnoresMessages := by
    apply (parallel_note _ _ _).bind
    exact fun _ => DataPath.ignores_schedule options
  split
  · exact (ignores_schedulePipelined options).bind fun _ => hdata
  · exact (ignores_scheduleStraight options).bind fun _ => hdata

end Graph

/-! ## Blocks -/

variable {σ τ : Type} {Q : σ → τ → Prop}

theorem parallel_scheduleApart (options : SchedulingOptions) (g : Graph) :
    Parallel Q (scheduleApart options g : Step σ Graph) (scheduleApart options g) :=
  (Parallel.apart (Graph.ignores_schedule options) g).map _

namespace Lowering

theorem parallel_lowerBlock (program : Program) (l : Lowering) (block : BasicBlock) :
    Parallel Q (lowerBlock program l block : Step σ Lowering) (lowerBlock program l block) := by
  have hcreate : ∀ ops g, Parallel Q (createOps program block.id ops g : Step σ _)
      (createOps program block.id ops g) := by
    intro ops g
    apply parallel_foldlM
    intro sofar op
    unfold createNext
    apply (parallel_lift _).bind
    intro created
    apply parallel_ite
    · exact (parallel_note _ _ _).bind fun _ => parallel_pure _
    · exact parallel_pure _
  unfold lowerBlock
  apply (parallel_lift _).bind
  intro entered
  apply (parallel_lift _).bind
  intro ops
  apply (hcreate _ _).bind
  intro created
  apply (parallel_lift _).bind
  intro attached
  exact (parallel_note _ _ _).bind fun _ => parallel_pure _

theorem parallel_buildBlock (program : Program) (block : BasicBlock) (entrySlot : Nat) :
    Parallel Q (buildBlock program block entrySlot : Step σ Graph)
      (buildBlock program block entrySlot) :=
  (parallel_lowerBlock _ _ _).bind fun _ => parallel_lift _

theorem parallel_mergeBlock (l : Lowering) (sub : Graph) :
    Parallel Q (mergeBlock l sub : Step σ Lowering) (mergeBlock l sub) := by
  have hfreeze : ∀ anchor, (Graph.freezeInto sub anchor).IgnoresMessages := by
    intro anchor
    apply (parallel_lift _).bind
    intro done
    apply ignores_current_bind
    intro g
    apply (ignores_updateChecked _).bind
    intro _
    apply ignores_current_bind
    intro g'
    apply parallel_ite
    · exact parallel_fail_bind _ _ _
    · exact (parallel_note _ _ _).bind fun _ => parallel_pure _
  have honto : ∀ entry, (Graph.mergeOnto sub entry).IgnoresMessages := by
    intro entry
    apply ignores_current_bind
    intro g
    apply parallel_ite
    · apply (parallel_lift _).bind
      intro unit
      exact parallel_ite (parallel_fail _) (hfreeze _)
    · exact parallel_fail _
  unfold mergeBlock
  apply parallel_ite
  · exact (((honto _).apart _).map _).bind fun _ => parallel_pure _
  · apply ((hfreeze none).apart _).bind
    intro merged
    exact (parallel_lift _).bind fun _ => parallel_pure _

end Lowering

theorem Region.parallel_addBlock (program : Program) (entrySlot : Nat)
    (options : SchedulingOptions) (l : Lowering) (block : BasicBlock) :
    Parallel Q (addBlock program entrySlot options l block : Step σ Lowering)
      (addBlock program entrySlot options l block) := by
  unfold addBlock
  apply (parallel_lift _).bind
  intro loops
  apply parallel_ite
  · apply (Lowering.parallel_buildBlock _ _ _).bind
    intro built
    apply (parallel_scheduleApart _ _).bind
    exact fun sub => Lowering.parallel_mergeBlock l sub
  · exact Lowering.parallel_lowerBlock program l block

end SlotScheduling
