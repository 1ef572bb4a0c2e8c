import SlotScheduling.Pipeline.Search
import SlotScheduling.Proofs.Journals

/-!
# Searches that run in parallel

A search for a pipelined schedule takes the same way on two graphs, if restarts and attempts do the
same to both of them.
-/

namespace SlotScheduling

open SlotScheduling.Step

namespace MinInterval

variable {σ τ : Type} {Q : σ → τ → Prop}

theorem parallel_recurrenceInterval (component : Component) : Parallel Q
    (recurrenceInterval component : Step σ Nat) (recurrenceInterval component) := by
  unfold recurrenceInterval
  apply (parallel_lift _).bind
  intro bound
  apply (parallel_lift _).bind
  intro found
  cases found with
  | some interval => exact parallel_pure interval
  | none => exact (parallel_note _ _ _).bind fun _ => parallel_pure bound

theorem parallel_compute {g h : Graph} {block : BlockId}
    (hresource : resourceBound h block = resourceBound g block)
    (hrecurrences : recurrences h block = recurrences g block) :
    Parallel Q (compute g block : Step σ MinInterval) (compute h block) := by
  unfold compute recurrenceBound
  rw [hresource, hrecurrences]
  apply (parallel_lift _).bind
  intro resource
  apply Parallel.bind
  · apply parallel_foldlM
    intro largest component
    exact (parallel_recurrenceInterval component).bind fun _ => parallel_pure _
  intro recurrence
  exact (parallel_note _ _ _).bind fun _ => parallel_pure _

end MinInterval

namespace PipelineSearch

variable {Q : Graph → Graph → Prop} {α : Type}

/-- Searches within the same bounds, on graphs in a relation. -/
structure OnRelated (Q : Graph → Graph → Prop) (search search' : PipelineSearch) : Prop where
  graph : Q search.graph search'.graph
  interval : search'.interval = search.interval
  criticalPathEnd : search'.criticalPathEnd = search.criticalPathEnd
  ceiling : search'.ceiling = search.ceiling

theorem onRelated_eq {search search' : PipelineSearch} :
    OnRelated Eq search search' ↔ search = search' := by
  refine ⟨fun h => ?_, fun h => h ▸ ⟨rfl, rfl, rfl, rfl⟩⟩
  cases search
  cases search'
  exact PipelineSearch.mk.injEq .. ▸
    ⟨h.graph, h.interval.symm, h.criticalPathEnd.symm, h.ceiling.symm⟩

theorem parallel_onGraph {work work' : Step Graph α} (h : Parallel Q work work') :
    Parallel (OnRelated Q) (onGraph work) (onGraph work') :=
  h.focus (fun _ _ hsame => hsame.graph) fun _ _ _ _ hsame hgraph => { hsame with graph := hgraph }

/-! ## Attempts -/

theorem parallel_tryPlace {bounds : ControlBounds}
    (hbuild : ∀ {g h}, Q g h → ControlSystem.build h bounds = ControlSystem.build g bounds)
    (hplace : ∀ {g h system slots}, Q g h → ControlSystem.build g bounds = .ok system →
      system.earliest = .ok slots →
      Parallel Q (Step.updateChecked (·.placeAll slots)) (Step.updateChecked (·.placeAll slots))) :
    Parallel (OnRelated Q) (tryPlace bounds) (tryPlace bounds) := by
  unfold tryPlace
  refine parallel_current_bind fun search search' hsame => ?_
  rw [hbuild hsame.graph]
  refine parallel_lift_bind fun system hsystem => ?_
  split
  next slots hslots =>
    exact (parallel_onGraph (hplace hsame.graph hsystem hslots)).bind fun _ => parallel_pure true
  · apply parallel_ite
    · exact (parallel_note _ _ _).bind fun _ => parallel_pure false
    · exact parallel_fail _
  · exact parallel_lift _

/-- Graphs in the relation are alike for a search. -/
structure Congruent (Q : Graph → Graph → Prop) : Prop where
  entryBlock : ∀ {g h}, Q g h → h.entryBlock = g.entryBlock
  bound : ∀ {g h} block, Q g h →
    MinInterval.resourceBound h block = MinInterval.resourceBound g block ∧
      MinInterval.recurrences h block = MinInterval.recurrences g block
  order : ∀ {g h}, Q g h → IssueOrder.build h = IssueOrder.build g
  reset : ∀ interval, Parallel Q (Graph.resetControl interval) (Graph.resetControl interval)
  place : ∀ {bounds : ControlBounds}, bounds.pipelining = true →
    (∀ order ∈ bounds.order, ∃ g h, Q g h ∧ IssueOrder.build g = .ok order) →
    Parallel (OnRelated Q) (tryPlace bounds) (tryPlace bounds)

variable (hQ : Congruent Q)

include hQ

theorem parallel_computeInterval :
    Parallel (OnRelated Q) computeInterval computeInterval := by
  unfold computeInterval
  refine parallel_current_bind fun search search' hsame => ?_
  obtain ⟨hresource, hrecurrences⟩ := hQ.bound search.graph.entryBlock hsame.graph
  dsimp only
  rw [hQ.entryBlock hsame.graph]
  apply (MinInterval.parallel_compute hresource hrecurrences).bind
  intro bound
  have hset : Parallel (OnRelated Q)
      (Step.update fun search => { search with interval := bound.value })
      (Step.update fun search => { search with interval := bound.value }) :=
    parallel_update fun _ _ hsame => { hsame with interval := rfl }
  exact hset.bind fun _ => parallel_note _ _ _

theorem parallel_placeCriticalPath :
    Parallel (OnRelated Q) placeCriticalPath placeCriticalPath := by
  unfold placeCriticalPath
  refine parallel_current_bind fun search search' hsame => ?_
  rw [hsame.interval, hsame.criticalPathEnd]
  apply (parallel_onGraph (hQ.reset _)).bind
  exact fun _ => hQ.place rfl fun order hsome => by cases hsome

theorem parallel_placeState : Parallel (OnRelated Q) placeState placeState := by
  unfold placeState
  apply (parallel_placeCriticalPath hQ).bind
  intro placed
  apply parallel_ite
  · refine parallel_current_bind fun search search' hsame => ?_
    rw [hQ.order hsame.graph, hsame.interval, hsame.criticalPathEnd]
    refine parallel_lift_bind fun order horder => ?_
    apply (parallel_onGraph (hQ.reset _)).bind
    refine fun _ => hQ.place rfl fun order' hsome => ⟨_, _, hsame.graph, ?_⟩
    exact Option.some.inj hsome ▸ horder
  · exact parallel_pure false

/-! ## Bounds -/

omit hQ in
theorem parallel_increaseInterval :
    Parallel (OnRelated Q) increaseInterval increaseInterval := by
  unfold increaseInterval
  refine parallel_current_bind fun search search' hsame => ?_
  rw [hsame.interval]
  apply (parallel_lift _).bind
  intro interval
  have hset : Parallel (OnRelated Q) (Step.update fun search => { search with interval })
      (Step.update fun search => { search with interval }) :=
    parallel_update fun _ _ hsame => { hsame with interval := rfl }
  exact hset.bind fun _ => parallel_note _ _ _

theorem parallel_giveUp : Parallel (OnRelated Q) giveUp giveUp := by
  refine parallel_current_bind fun search search' hsame => ?_
  rw [hQ.entryBlock hsame.graph, hsame.interval, hsame.criticalPathEnd]
  exact parallel_fail _

theorem parallel_lengthenCriticalPath :
    Parallel (OnRelated Q) lengthenCriticalPath lengthenCriticalPath := by
  unfold lengthenCriticalPath
  refine parallel_current_bind fun search search' hsame => ?_
  rw [hsame.criticalPathEnd]
  apply (parallel_lift _).bind
  intro criticalPathEnd
  have hset : Parallel (OnRelated Q) (Step.update fun search => { search with criticalPathEnd })
      (Step.update fun search => { search with criticalPathEnd }) :=
    parallel_update fun _ _ hsame => { hsame with criticalPathEnd := rfl }
  apply hset.bind
  intro _
  refine parallel_current_bind fun search search' hsame => ?_
  rw [hsame.ceiling]
  apply parallel_ite
  · exact (parallel_giveUp hQ).bind fun _ => parallel_note _ _ _
  · exact parallel_note _ _ _

theorem parallel_relaxDependencies :
    Parallel (OnRelated Q) relaxDependencies relaxDependencies := by
  unfold relaxDependencies
  refine parallel_current_bind fun search search' hsame => ?_
  rw [hsame.interval, hsame.criticalPathEnd]
  apply (parallel_lift _).bind
  intro twice
  exact parallel_ite parallel_increaseInterval (parallel_lengthenCriticalPath hQ)

theorem parallel_relaxSharing : Parallel (OnRelated Q) relaxSharing relaxSharing := by
  unfold relaxSharing
  refine parallel_current_bind fun search search' hsame => ?_
  rw [hsame.interval, hsame.criticalPathEnd]
  exact parallel_ite parallel_increaseInterval (parallel_lengthenCriticalPath hQ)

/-! ## Rounds -/

theorem parallel_reachCriticalPath (rounds : Nat) :
    Parallel (OnRelated Q) (reachCriticalPath rounds) (reachCriticalPath rounds) := by
  induction rounds with
  | zero => exact parallel_giveUp hQ
  | succ rounds ih =>
      apply (parallel_placeCriticalPath hQ).bind
      intro placed
      exact parallel_ite (parallel_pure _) ((parallel_lengthenCriticalPath hQ).bind fun _ => ih)

theorem parallel_reachState (rounds : Nat) :
    Parallel (OnRelated Q) (reachState rounds) (reachState rounds) := by
  induction rounds with
  | zero => exact parallel_giveUp hQ
  | succ rounds ih =>
      apply (parallel_placeCriticalPath hQ).bind
      intro placed
      apply parallel_ite
      · apply (parallel_placeState hQ).bind
        intro shared
        exact parallel_ite (parallel_pure _) ((parallel_relaxSharing hQ).bind fun _ => ih)
      · exact (parallel_relaxDependencies hQ).bind fun _ => ih

/-- If the bounds found are recorded alike, whole searches run in parallel. -/
theorem parallel_complete (hcommit : Parallel (OnRelated Q) commit commit) :
    Parallel (OnRelated Q) complete complete := by
  unfold complete
  refine parallel_current_bind fun search search' hsame => ?_
  rw [hsame.criticalPathEnd, hsame.ceiling]
  apply (parallel_reachCriticalPath hQ _).bind
  intro _
  apply (parallel_computeInterval hQ).bind
  intro _
  refine parallel_current_bind fun found found' hfound => ?_
  rw [hfound.criticalPathEnd, hfound.ceiling, hfound.interval]
  exact (parallel_reachState hQ _).bind fun _ => hcommit

end PipelineSearch

end SlotScheduling
