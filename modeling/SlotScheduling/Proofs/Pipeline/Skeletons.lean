import SlotScheduling.Pipeline.Search
import SlotScheduling.Proofs.Graph.Resets

/-!
# What a search keeps

A search places units, widens the edges of the exit and records an interval.
Whether or not it ends well, it keeps the skeleton of the graph, and it records
no interval but the one of the entry block.
-/

namespace SlotScheduling

namespace MinInterval

variable {σ κ : Type} {key : σ → κ}

theorem keeps_recurrenceInterval (component : Component) :
    (recurrenceInterval component : Step σ Nat).Keeps key := by
  unfold recurrenceInterval
  apply (Step.keeps_lift _).bind
  intro bound
  apply (Step.keeps_lift _).bind
  intro found
  cases found with
  | some interval => exact Step.keeps_pure interval
  | none =>
      apply (Step.keeps_note _ _).bind
      exact fun _ => Step.keeps_pure bound

theorem keeps_compute (g : Graph) (block : BlockId) :
    (compute g block : Step σ MinInterval).Keeps key := by
  have hbound : (recurrenceBound g block : Step σ Nat).Keeps key := by
    apply Step.keeps_foldlM
    intro largest component
    exact (keeps_recurrenceInterval component).bind fun _ => Step.keeps_pure _
  unfold compute
  apply (Step.keeps_lift _).bind
  intro resource
  apply hbound.bind
  intro recurrence
  apply (Step.keeps_note _ _).bind
  exact fun _ => Step.keeps_pure _

end MinInterval

namespace Graph

/-- The skeleton of a graph and its intervals. -/
def setup (g : Graph) : Graph × Table BlockId Nat := (g.skeleton, g.intervals)

theorem setup_eq_of_frame_eq {g g' : Graph} (h : g'.frame = g.frame) : g'.setup = g.setup := by
  rw [setup, skeleton_eq_of_frame_eq h, intervals_of_frame_eq h, setup]

theorem keeps_place (id : UnitId) (slot : Nat) :
    (Step.updateChecked fun g : Graph => g.changeUnit id (·.place slot)).Keeps setup := by
  apply Step.keeps_updateChecked
  intro g g' h
  exact setup_eq_of_frame_eq (frame_changeUnit h fun _ => rfl)

theorem keeps_delayPhis : delayPhis.Keeps setup := by
  have hdelay : ∀ ends id, (delayPhi ends id).Keeps setup := by
    intro ends id
    unfold delayPhi
    apply Step.keeps_current.bind
    intro g
    apply (Step.keeps_lift _).bind
    intro unit
    split
    · split
      · exact Step.keeps_pure _
      · split
        · exact Step.keeps_fail _
        · apply (Step.keeps_lift _).bind
          intro moved
          split
          · exact Step.keeps_fail _
          · exact keeps_place id moved
    · exact Step.keeps_pure _
  unfold delayPhis
  apply Step.keeps_current.bind
  intro g
  apply Step.Keeps.bind
  · apply Step.keeps_mapM
    intro block
    exact (Step.keeps_lift _).bind fun _ => Step.keeps_pure _
  · exact fun ends => Step.keeps_forM (hdelay ends)

end Graph

namespace PipelineSearch

/-- The skeleton of the graph that is searched. -/
def skeleton (search : PipelineSearch) : Graph := search.graph.skeleton

/-- The skeleton of the graph that is searched, and its intervals. -/
def setup (search : PipelineSearch) : Graph × Table BlockId Nat := search.graph.setup

variable {α : Type}

theorem keeps_onGraph {work : Step Graph α} (h : work.Keeps Graph.setup) :
    (onGraph work).Keeps setup :=
  h.focus fun _ _ hkept => hkept

theorem keeps_tryPlace (bounds : ControlBounds) : (tryPlace bounds).Keeps setup := by
  have hplace : ∀ slots, (onGraph (Step.updateChecked (·.placeAll slots))).Keeps setup := by
    intro slots
    apply keeps_onGraph
    apply Step.keeps_updateChecked
    intro g g' h
    exact Graph.setup_eq_of_frame_eq (Graph.frame_placeAll h)
  unfold tryPlace
  apply Step.keeps_current.bind
  intro search
  apply (Step.keeps_lift _).bind
  intro system
  split
  next slots _ => exact (hplace slots).bind fun _ => Step.keeps_pure true
  · split
    · exact (Step.keeps_note _ _).bind fun _ => Step.keeps_pure false
    · exact Step.keeps_fail _
  · exact Step.keeps_lift _

/-! ## Bounds -/

theorem keeps_giveUp : giveUp.Keeps (·.graph) :=
  Step.keeps_current.bind fun _ => Step.keeps_fail _

theorem keeps_increaseInterval : increaseInterval.Keeps (·.graph) := by
  unfold increaseInterval
  apply Step.keeps_current.bind
  intro search
  apply (Step.keeps_lift _).bind
  intro interval
  apply Step.Keeps.bind
  · exact Step.keeps_update fun _ => rfl
  · exact fun _ => Step.keeps_note _ _

theorem keeps_lengthenCriticalPath : lengthenCriticalPath.Keeps (·.graph) := by
  unfold lengthenCriticalPath
  apply Step.keeps_current.bind
  intro search
  apply (Step.keeps_lift _).bind
  intro criticalPathEnd
  apply Step.Keeps.bind
  · exact Step.keeps_update fun _ => rfl
  intro _
  apply Step.keeps_current.bind
  intro search'
  split
  · exact keeps_giveUp.bind fun _ => Step.keeps_note _ _
  · exact Step.keeps_note _ _

theorem keeps_relaxDependencies : relaxDependencies.Keeps (·.graph) := by
  unfold relaxDependencies
  apply Step.keeps_current.bind
  intro search
  apply (Step.keeps_lift _).bind
  intro twice
  split
  · exact keeps_increaseInterval
  · exact keeps_lengthenCriticalPath

theorem keeps_relaxSharing : relaxSharing.Keeps (·.graph) := by
  unfold relaxSharing
  apply Step.keeps_current.bind
  intro search
  split
  · exact keeps_increaseInterval
  · exact keeps_lengthenCriticalPath

theorem keeps_computeInterval : computeInterval.Keeps (·.graph) := by
  unfold computeInterval
  apply Step.keeps_current.bind
  intro search
  apply (MinInterval.keeps_compute _ _).bind
  intro bound
  apply Step.Keeps.bind
  · exact Step.keeps_update fun _ => rfl
  · exact fun _ => Step.keeps_note _ _

/-! ## Rounds -/

section

variable {P : Graph → Prop}

theorem maintains_onGraph {work : Step Graph α} (h : work.Maintains P) :
    (onGraph work).Maintains fun search => P search.graph :=
  h.focus (fun _ hg => hg) fun _ _ _ hg => hg

theorem maintains_of_keeps_graph {step : Step PipelineSearch α} (h : step.Keeps (·.graph)) :
    step.Maintains fun search => P search.graph :=
  h.maintains fun _ _ heq hg => heq ▸ hg

variable (hreset : ∀ interval, (Graph.resetControl interval).Maintains P)

include hreset

theorem maintains_start : start.Maintains P := by
  unfold start
  refine Step.maintains_current_bind fun g _ => ?_
  apply Step.maintains_ite
  · exact Step.maintains_fail_bind _ _
  split
  · exact Step.maintains_fail _
  · refine (hreset 0).bind fun _ => ?_
    refine Step.maintains_current_bind fun cleared _ => ?_
    refine Step.Maintains.bind (Step.maintains_lift _) fun system => ?_
    refine Step.Maintains.bind (Step.maintains_lift _) fun slots => ?_
    refine Step.Maintains.bind (Step.maintains_lift _) fun latencies => ?_
    refine Step.Maintains.bind (Step.maintains_lift _) fun longest => ?_
    refine Step.Maintains.bind (Step.maintains_lift _) fun larger => ?_
    refine Step.Maintains.bind (Step.maintains_lift _) fun ceiling => ?_
    exact (Step.maintains_note _ _).bind fun _ => Step.maintains_pure _

variable (hplace : ∀ bounds, (tryPlace bounds).Maintains fun search => P search.graph)

include hplace

theorem maintains_placeCriticalPath :
    placeCriticalPath.Maintains fun search => P search.graph := by
  unfold placeCriticalPath
  apply Step.maintains_current_bind
  intro search _
  exact (maintains_onGraph (hreset _)).bind fun _ => hplace _

theorem maintains_placeState : placeState.Maintains fun search => P search.graph := by
  unfold placeState
  apply (maintains_placeCriticalPath hreset hplace).bind
  intro placed
  cases placed with
  | false => exact Step.maintains_pure false
  | true =>
      apply Step.maintains_current_bind
      intro search _
      refine Step.Maintains.bind (Step.maintains_lift _) fun order => ?_
      exact (maintains_onGraph (hreset _)).bind fun _ => hplace _

/-- Whatever restarts and attempts maintain, a search for the critical path maintains. -/
theorem maintains_reachCriticalPath (rounds : Nat) :
    (reachCriticalPath rounds).Maintains fun search => P search.graph := by
  induction rounds with
  | zero => exact maintains_of_keeps_graph keeps_giveUp
  | succ rounds ih =>
      apply (maintains_placeCriticalPath hreset hplace).bind
      intro placed
      cases placed with
      | true => exact Step.maintains_pure _
      | false => exact (maintains_of_keeps_graph keeps_lengthenCriticalPath).bind fun _ => ih

/-- Whatever restarts and attempts maintain, a search for shared function units maintains. -/
theorem maintains_reachState (rounds : Nat) :
    (reachState rounds).Maintains fun search => P search.graph := by
  induction rounds with
  | zero => exact maintains_of_keeps_graph keeps_giveUp
  | succ rounds ih =>
      apply (maintains_placeCriticalPath hreset hplace).bind
      intro placed
      cases placed with
      | false => exact (maintains_of_keeps_graph keeps_relaxDependencies).bind fun _ => ih
      | true =>
          apply (maintains_placeState hreset hplace).bind
          intro shared
          cases shared with
          | true => exact Step.maintains_pure _
          | false => exact (maintains_of_keeps_graph keeps_relaxSharing).bind fun _ => ih

end

theorem maintains_reset (kept : Graph × Table BlockId Nat) (interval : Nat) :
    (Graph.resetControl interval).Maintains fun g => g.setup = kept :=
  (Graph.keeps_resetControl interval).maintains fun _ _ heq hg => heq.trans hg

theorem maintains_tryPlace (kept : Graph × Table BlockId Nat) (bounds : ControlBounds) :
    (tryPlace bounds).Maintains fun search => search.graph.setup = kept :=
  (keeps_tryPlace bounds).maintains fun _ _ heq hg => heq.trans hg

theorem keeps_placeCriticalPath : placeCriticalPath.Keeps setup :=
  Step.keeps_of_maintains fun kept =>
    maintains_placeCriticalPath (maintains_reset kept) (maintains_tryPlace kept)

theorem keeps_placeState : placeState.Keeps setup :=
  Step.keeps_of_maintains fun kept =>
    maintains_placeState (maintains_reset kept) (maintains_tryPlace kept)

theorem keeps_reachCriticalPath (rounds : Nat) : (reachCriticalPath rounds).Keeps setup :=
  Step.keeps_of_maintains fun kept =>
    maintains_reachCriticalPath (maintains_reset kept) (maintains_tryPlace kept) rounds

theorem keeps_reachState (rounds : Nat) : (reachState rounds).Keeps setup :=
  Step.keeps_of_maintains fun kept =>
    maintains_reachState (maintains_reset kept) (maintains_tryPlace kept) rounds

/-! ## The whole search -/

theorem keeps_record (block : BlockId) (interval : Nat) :
    (onGraph do
      Step.update (·.setInterval block interval)
      Graph.delayPhis).Keeps skeleton := by
  have hkeeps : Step.Keeps Graph.skeleton (do
      Step.update (·.setInterval block interval)
      Graph.delayPhis) := by
    apply Step.Keeps.bind
    · exact Step.keeps_update fun _ => rfl
    · exact fun _ => Graph.keeps_delayPhis.comp Prod.fst
  exact hkeeps.focus fun _ _ hkept => hkept

theorem keeps_commit : commit.Keeps skeleton := by
  unfold commit
  apply Step.keeps_current.bind
  intro search
  apply (Step.keeps_lift _).bind
  intro expected
  split
  all_goals
    apply Step.Keeps.bind
    · first | exact Step.keeps_pure none | exact (Step.keeps_lift _).map
    intro slot
    apply (Step.keeps_lift _).bind
    intro last
    apply Step.keeps_ite
    · exact Step.keeps_fail_bind _ _
    apply (keeps_record _ _).bind
    intro _
    apply (Step.keeps_records _).bind
    intro recorded
    apply Step.keeps_ite
    · apply Step.keeps_current.bind
      intro search
      apply (Step.keeps_lift _).bind
      intro total
      exact (Step.keeps_note _ _).bind fun _ => Step.keeps_pure _
    · exact Step.keeps_pure _

theorem keeps_complete : complete.Keeps skeleton := by
  unfold complete
  apply Step.keeps_current.bind
  intro search
  apply ((keeps_reachCriticalPath _).comp Prod.fst).bind
  intro _
  apply (keeps_computeInterval.comp Graph.skeleton).bind
  intro _
  apply Step.keeps_current.bind
  intro search'
  apply ((keeps_reachState _).comp Prod.fst).bind
  exact fun _ => keeps_commit

theorem keeps_start : start.Keeps Graph.setup :=
  Step.keeps_of_maintains fun kept => maintains_start (maintains_reset kept)

theorem keeps_run : run.Keeps Graph.skeleton := by
  unfold run
  apply (keeps_start.comp Prod.fst).bind
  intro search
  apply keeps_complete.focus
  exact fun _ _ hkept => hkept

end PipelineSearch

/-! ## Intervals -/

/-- The graph has no interval but one for its entry block. -/
structure Graph.OwnInterval (block : BlockId) (g : Graph) : Prop where
  entryBlock : g.entryBlock = block
  entries : g.intervals.entries = [] ∨ ∃ interval, g.intervals.entries = [(block, interval)]

theorem Graph.OwnInterval.nodup {block : BlockId} {g : Graph} (hg : g.OwnInterval block) :
    g.intervals.keys.Nodup := by
  rcases hg.entries with hnone | ⟨interval, hown⟩
  · simp [Table.keys, hnone]
  · simp [Table.keys, hown]

theorem Graph.OwnInterval.setInterval {block : BlockId} {g : Graph} (hg : g.OwnInterval block)
    (interval : Nat) : (g.setInterval block interval).OwnInterval block where
  entryBlock := hg.entryBlock
  entries := by
    refine Or.inr ⟨interval, ?_⟩
    rcases hg.entries with hnone | ⟨old, hold⟩
    · simp [Graph.setInterval, Table.insert, Table.erase, hnone]
    · simp [Graph.setInterval, Table.insert, Table.erase, hold]

theorem Graph.OwnInterval.of_setup_eq {block : BlockId} {g g' : Graph} (hg : g.OwnInterval block)
    (h : g'.setup = g.setup) : g'.OwnInterval block where
  entryBlock := by
    have hentry := congrArg (fun setup => setup.1.entryBlock) h
    exact hentry.trans hg.entryBlock
  entries := by
    have hintervals : g'.intervals = g.intervals := congrArg Prod.snd h
    rw [hintervals]
    exact hg.entries

namespace PipelineSearch

variable {block : BlockId}

/-- A step that keeps skeleton and intervals maintains that all intervals are the own ones. -/
theorem maintains_of_keeps {α : Type} {step : Step PipelineSearch α} (h : step.Keeps setup) :
    step.Maintains fun search => search.graph.OwnInterval block :=
  h.maintains fun _ _ heq hg => hg.of_setup_eq heq

theorem maintains_record (interval : Nat) :
    (onGraph do
      Step.update (·.setInterval block interval)
      Graph.delayPhis).Maintains fun search => search.graph.OwnInterval block := by
  refine Step.Maintains.focus (Q := Graph.OwnInterval block) ?_ (fun _ hg => hg) fun _ _ _ hg => hg
  refine Step.Maintains.bind (Step.maintains_update fun g hg => hg.setInterval interval) ?_
  exact fun _ => Graph.keeps_delayPhis.maintains fun _ _ heq hg => hg.of_setup_eq heq

theorem maintains_commit : commit.Maintains fun search => search.graph.OwnInterval block := by
  unfold commit
  apply Step.maintains_current_bind
  intro search hsearch
  simp only [hsearch.entryBlock]
  refine Step.Maintains.bind (Step.maintains_lift _) fun expected => ?_
  split
  all_goals
    apply Step.Maintains.bind
    · first | exact Step.maintains_pure none | exact (Step.maintains_lift _).map
    intro slot
    refine Step.Maintains.bind (Step.maintains_lift _) fun last => ?_
    apply Step.maintains_ite
    · exact Step.maintains_fail_bind _ _
    refine Step.Maintains.bind (maintains_record _) fun _ => ?_
    refine Step.Maintains.bind (Step.maintains_records _) fun recorded => ?_
    apply Step.maintains_ite
    · apply Step.maintains_current_bind
      intro search' _
      refine Step.Maintains.bind (Step.maintains_lift _) fun total => ?_
      exact (Step.maintains_note _ _).bind fun _ => Step.maintains_pure _
    · exact Step.maintains_pure _

theorem maintains_complete : complete.Maintains fun search => search.graph.OwnInterval block := by
  unfold complete
  apply Step.maintains_current_bind
  intro search _
  refine Step.Maintains.bind (maintains_of_keeps (keeps_reachCriticalPath _)) fun _ => ?_
  refine Step.Maintains.bind (maintains_of_keeps_graph keeps_computeInterval) fun _ => ?_
  apply Step.maintains_current_bind
  intro search' _
  exact Step.Maintains.bind (maintains_of_keeps (keeps_reachState _)) fun _ => maintains_commit

/-- A search records no interval but the one of the entry block. -/
theorem maintains_run : run.Maintains (Graph.OwnInterval block) := by
  unfold run
  refine Step.Maintains.bind (keeps_start.maintains fun _ _ heq hg => hg.of_setup_eq heq) ?_
  intro search
  exact maintains_complete.focus (fun _ hg => hg) fun _ _ _ hg => hg

end PipelineSearch

end SlotScheduling
