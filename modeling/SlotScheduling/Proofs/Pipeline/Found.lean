import SlotScheduling.Proofs.Graph.Blocks
import SlotScheduling.Proofs.Graph.Delays
import SlotScheduling.Proofs.Pipeline.Restarts
import SlotScheduling.Proofs.Pipeline.Skeletons
import SlotScheduling.Proofs.Placement.Dependencies

/-!
# What a search has found

A search that ends well has placed the control units in an issue order that fits
into the interval.  It has recorded the interval and delayed the moves of the loop.
-/

namespace SlotScheduling.PipelineSearch

variable {g g' : Graph} {block : BlockId} {entrySlot interval : Nat}
  {now last : Journaled PipelineSearch} {result : PUnit} {bounds : ControlBounds}

theorem onGraph_eq_ok {α : Type} {work : Step Graph α} {value : α} :
    onGraph work now = .ok value last ↔
      ∃ inner, work ⟨now.state.graph, now.journal⟩ = .ok value inner ∧
        last = ⟨{ now.state with graph := inner.state }, inner.journal⟩ :=
  Step.focus_eq_ok

theorem tryPlace_eq_ok (h : tryPlace bounds now = .ok true last) :
    last.state = { now.state with graph := last.state.graph } ∧
      ControlSystem.Placed now.state.graph bounds last.state.graph := by
  rw [tryPlace, Step.current_bind] at h
  obtain ⟨system, hsystem, h⟩ := Step.lift_bind_eq_ok.mp h
  obtain ⟨base, hdescribes⟩ := ControlSystem.exists_describes hsystem
  rcases hsolve : system.earliest with (cause | cause) | slots <;> rw [hsolve] at h
  · simp only at h
    split at h
    · obtain ⟨_, noted, _, h⟩ := Step.bind_eq_ok.mp h
      have hfalse := (Step.pure_eq_ok.mp h).1
      cases hfalse
    · exact absurd h Step.fail_ne_ok
  · have hfault := (Step.lift_eq_ok.mp h).1
    cases hfault
  · obtain ⟨_, placed, hplace, h⟩ := Step.bind_eq_ok.mp h
    obtain ⟨_, rfl⟩ := Step.pure_eq_ok.mp h
    obtain ⟨inner, hinner, rfl⟩ := onGraph_eq_ok.mp hplace
    obtain ⟨graph, hgraph, rfl⟩ := Step.updateChecked_eq_ok.mp hinner
    exact ⟨rfl, hdescribes.placed hsolve hgraph⟩

/-- The first graph of the attempt that a search ends with. -/
structure Attempt (block : BlockId) (entrySlot interval : Nat) (g g' : Graph) : Prop where
  ofBlock : g.OfBlock block entrySlot
  start : ∀ {id slot}, g.IsControl id → g.slot? id = some slot →
    entrySlot ≤ slot ∧ slot ≤ entrySlot + interval
  entry : g.loopOp ≠ some g.entryRoot → g.slot? g.entryRoot = some entrySlot
  moves : g.ExitsAfterMoves interval
  placed : ∃ bounds order from_, bounds.order = some order ∧ IssueOrder.build from_ = .ok order ∧
    from_.skeleton = g.skeleton ∧ bounds.moduloWindow = true ∧
    bounds.interval? g block = some interval ∧ ControlSystem.Placed g bounds g'

theorem Attempt.ofBlock_placed (h : Attempt block entrySlot interval g g') :
    g'.OfBlock block entrySlot := by
  obtain ⟨_, _, _, _, _, _, _, _, hplaced⟩ := h.placed
  exact h.ofBlock.of_frame_eq hplaced.frame

/-- An attempt that places the state has placed the critical path first, and starts over once the
issue order is known. -/
theorem placeState_stages (h : placeState now = .ok true last) :
    ∃ tried order reset, placeCriticalPath now = .ok true tried ∧
      IssueOrder.build tried.state.graph = .ok order ∧
      Graph.resetControl tried.state.interval ⟨tried.state.graph, tried.journal⟩ = .ok ⟨⟩ reset ∧
      last.state = { tried.state with graph := last.state.graph } ∧
      ControlSystem.Placed reset.state
        { pipelining := true
          loopInterval := some tried.state.interval
          criticalPathEnd := some tried.state.criticalPathEnd
          order := some order
          moduloWindow := true } last.state.graph := by
  obtain ⟨placed, tried, hfirst, h⟩ := Step.bind_eq_ok.mp h
  cases placed with
  | false =>
      have hfalse := (Step.pure_eq_ok.mp h).1
      cases hfalse
  | true =>
      simp only [Step.current_bind, Step.lift_bind_eq_ok, if_true] at h
      obtain ⟨order, horder, h⟩ := h
      obtain ⟨_, cleared, hclear, h⟩ := Step.bind_eq_ok.mp h
      obtain ⟨reset, hreset, rfl⟩ := onGraph_eq_ok.mp hclear
      obtain ⟨hlast, hplaced⟩ := tryPlace_eq_ok h
      exact ⟨tried, order, reset, hfirst, horder, hreset, hlast, hplaced⟩

theorem placeState_eq_ok (hg : now.state.graph.OfBlock block entrySlot)
    (h : placeState now = .ok true last) :
    ∃ g, g.skeleton = now.state.graph.skeleton ∧
      Attempt block entrySlot last.state.interval g last.state.graph := by
  obtain ⟨tried, order, reset, hfirst, horder, hreset, hlast, hplaced⟩ := placeState_stages h
  have hskeleton : tried.state.graph.skeleton = now.state.graph.skeleton :=
    congrArg Prod.fst (keeps_placeCriticalPath.of_eq_ok hfirst)
  have hcleared : reset.state.skeleton = tried.state.graph.skeleton :=
    congrArg Prod.fst ((Graph.keeps_resetControl _).of_eq_ok hreset)
  have htried := hg.of_skeleton_eq hskeleton
  have hg' := htried.of_skeleton_eq hcleared
  have hinterval : last.state.interval = tried.state.interval := by
    rw [hlast]
  refine ⟨reset.state, hcleared.trans hskeleton, hg', ?_, fun hloop => ?_, ?_, ?_⟩
  · intro id slot hid hslot
    have hcontrol := Graph.isControl_of_outline_eq
      (Graph.outline_eq_of_skeleton_eq hcleared) hid
    have hmem := Graph.slot_mem_of_resetControl hreset (htried.control.mpr hcontrol) hslot
    rw [htried.entrySlot] at hmem
    rw [hinterval]
    exact hmem
  · have hloopOp : reset.state.loopOp = tried.state.graph.loopOp :=
      Graph.eq_of_skeleton_eq (·.loopOp) hcleared fun _ => rfl
    have hentry := Graph.slot?_entryRoot_of_resetControl hreset (hloopOp ▸ hloop)
    rw [htried.entrySlot] at hentry
    exact hentry
  · rw [hinterval]
    exact Graph.exitsAfterMoves_of_resetControl htried.toWellFormed hreset
  · refine ⟨_, order, tried.state.graph, rfl, horder, hcleared.symm, rfl, ?_, hplaced⟩
    rw [ControlBounds.interval?, if_pos ⟨rfl, hg'.entryBlock.symm⟩, hinterval]

/-- A search that comes to a state ends with an attempt that has placed it. -/
theorem exists_placeState_of_reachState {rounds : Nat}
    (h : reachState rounds now = .ok result last) :
    ∃ tried, tried.state.graph.skeleton = now.state.graph.skeleton ∧
      placeState tried = .ok true last := by
  induction rounds generalizing now with
  | zero =>
      rw [reachState, giveUp, Step.current_bind] at h
      exact absurd h Step.fail_ne_ok
  | succ rounds ih =>
      obtain ⟨placed, tried, hfirst, h⟩ := Step.bind_eq_ok.mp h
      have htried : tried.state.graph.skeleton = now.state.graph.skeleton :=
        congrArg Prod.fst (keeps_placeCriticalPath.of_eq_ok hfirst)
      have hrelaxed : ∀ {relax : Step PipelineSearch PUnit} {from_ : Journaled PipelineSearch},
          from_.state.graph.skeleton = now.state.graph.skeleton → relax.Keeps skeleton →
          (relax >>= fun _ => reachState rounds) from_ = .ok result last →
          ∃ tried, tried.state.graph.skeleton = now.state.graph.skeleton ∧
            placeState tried = .ok true last := by
        intro relax from_ hfrom hkeeps hrun
        obtain ⟨_, relaxed, hrelax, hrest⟩ := Step.bind_eq_ok.mp hrun
        obtain ⟨tried, hsame, hplace⟩ := ih hrest
        exact ⟨tried, hsame.trans ((hkeeps.of_eq_ok hrelax).trans hfrom), hplace⟩
      cases placed with
      | false => exact hrelaxed htried (keeps_relaxDependencies.comp Graph.skeleton) h
      | true =>
          obtain ⟨shared, stated, hsecond, h⟩ := Step.bind_eq_ok.mp h
          have hstated : stated.state.graph.skeleton = now.state.graph.skeleton :=
            ((keeps_placeState.comp Prod.fst).of_eq_ok hsecond).trans htried
          cases shared with
          | false => exact hrelaxed hstated (keeps_relaxSharing.comp Graph.skeleton) h
          | true =>
              obtain ⟨_, rfl⟩ := Step.pure_eq_ok.mp h
              exact ⟨tried, htried, hsecond⟩

theorem reachState_eq_ok {rounds : Nat} (hg : now.state.graph.OfBlock block entrySlot)
    (h : reachState rounds now = .ok result last) :
    ∃ g, g.skeleton = now.state.graph.skeleton ∧
      Attempt block entrySlot last.state.interval g last.state.graph := by
  obtain ⟨tried, hskeleton, hplace⟩ := exists_placeState_of_reachState h
  obtain ⟨g, hsame, hattempt⟩ := placeState_eq_ok (hg.of_skeleton_eq hskeleton) hplace
  exact ⟨g, hsame.trans hskeleton, hattempt⟩

/-- The second graph is the first one with its interval recorded and its moves
delayed. -/
structure Committed (block : BlockId) (entrySlot interval : Nat) (g g' : Graph) : Prop where
  word : entrySlot + interval < Word.count
  loop : ∃ loopOp, g.loopOp = some loopOp ∧ g.slot? loopOp = some (entrySlot + interval)
  delayed : Graph.Delayed interval g.controlUnits (g.setInterval block interval) g'

theorem interval?_setInterval (g : Graph) (block : BlockId) (interval : Nat) :
    (g.setInterval block interval).interval? block = some interval := by
  simp [Graph.setInterval, Graph.interval?, Table.get?_insert]

/-- What a commit has checked, and how it delays the moves. -/
theorem commit_cases (h : commit now = .ok interval last) :
    interval = now.state.interval ∧ now.state.graph.entrySlot + interval < Word.count ∧
      (∃ loopOp, now.state.graph.loopOp = some loopOp ∧
        now.state.graph.slot? loopOp = some (now.state.graph.entrySlot + interval)) ∧
      (∃ end_, now.state.graph.endSlot now.state.graph.entryBlock = .ok end_ ∧
        now.state.graph.entrySlot + interval ≤ end_.getD 0) ∧
      ∃ result inner, Graph.delayPhis
        ⟨now.state.graph.setInterval now.state.graph.entryBlock interval, now.journal⟩ =
          .ok result inner ∧ last.state = { now.state with graph := inner.state } := by
  rw [commit, Step.current_bind] at h
  obtain ⟨expected, hexpected, h⟩ := Step.lift_bind_eq_ok.mp h
  obtain ⟨hword, rfl⟩ := Word.add_eq_ok.mp hexpected
  cases hloop : now.state.graph.loopOp with
  | none =>
      rw [hloop] at h
      obtain ⟨slot, _, hslot, h⟩ := Step.bind_eq_ok.mp h
      obtain ⟨rfl, rfl⟩ := Step.pure_eq_ok.mp hslot
      obtain ⟨_, _, h⟩ := Step.lift_bind_eq_ok.mp h
      rcases Step.ite_eq_ok.mp h with ⟨_, h⟩ | ⟨hexpected, _⟩
      · exact absurd h Step.fail_bind_ne_ok
      · simp at hexpected
  | some loopOp =>
      rw [hloop] at h
      obtain ⟨slot, same, hslot, h⟩ := Step.bind_eq_ok.mp h
      obtain ⟨unit, hunit, rfl⟩ := Step.map_eq_ok.mp hslot
      obtain ⟨hunit, hsame⟩ := Step.lift_eq_ok.mp hunit
      rw [hsame] at h
      obtain ⟨end_, hend, h⟩ := Step.lift_bind_eq_ok.mp h
      rcases Step.ite_eq_ok.mp h with ⟨_, h⟩ | ⟨hexpected, h⟩
      · exact absurd h Step.fail_bind_ne_ok
      rw [not_or, not_not, not_lt] at hexpected
      obtain ⟨_, recorded, hrecord, h⟩ := Step.bind_eq_ok.mp h
      have hreport : interval = now.state.interval ∧ last.state = recorded.state := by
        obtain ⟨reported, _, hreported, h⟩ := Step.bind_eq_ok.mp h
        obtain ⟨_, rfl⟩ := Step.records_eq_ok.mp hreported
        rcases Step.ite_eq_ok.mp h with ⟨_, h⟩ | ⟨_, h⟩
        · rw [Step.current_bind] at h
          obtain ⟨_, _, h⟩ := Step.lift_bind_eq_ok.mp h
          obtain ⟨rfl, rfl⟩ := Step.pure_eq_ok.mp (Step.note_bind _ _ _ ▸ h)
          exact ⟨rfl, rfl⟩
        · obtain ⟨rfl, rfl⟩ := Step.pure_eq_ok.mp h
          exact ⟨rfl, rfl⟩
      obtain ⟨rfl, hlast⟩ := hreport
      obtain ⟨inner, hinner, rfl⟩ := onGraph_eq_ok.mp hrecord
      rw [Step.update_bind] at hinner
      refine ⟨rfl, hword, ⟨loopOp, rfl, ?_⟩, ⟨end_, hend, hexpected.2⟩, _, inner, hinner, hlast⟩
      rw [Graph.slot?_eq (Graph.unit_eq_ok.mp hunit), hexpected.1]

theorem commit_eq_ok (hg : now.state.graph.OfBlock block entrySlot)
    (h : commit now = .ok interval last) : interval = now.state.interval ∧
      Committed block entrySlot interval now.state.graph last.state.graph := by
  obtain ⟨hinterval, hword, hloop, _, _, inner, hdelay, hlast⟩ := commit_cases h
  rw [hg.entrySlot] at hword hloop
  rw [hg.entryBlock] at hdelay
  rw [hlast]
  refine ⟨hinterval, hword, hloop, ?_⟩
  have hrecorded := hg.setInterval interval
  refine Graph.delayed_delayPhis hrecorded.toListed (fun {id unit} hunit => ?_) hdelay
  rw [(hg.units hunit).block]
  exact interval?_setInterval _ _ _

/-- The stages of a whole search. -/
theorem run_stages {now last : Journaled Graph} (h : run now = .ok interval last) :
    ∃ search started reached bounded found committed, start now = .ok search started ∧
      reachCriticalPath (search.ceiling + 1 - search.criticalPathEnd)
        ⟨{ search with graph := started.state }, started.journal⟩ = .ok ⟨⟩ reached ∧
      computeInterval reached = .ok ⟨⟩ bounded ∧
      reachState ((bounded.state.ceiling + 1 - bounded.state.criticalPathEnd) +
        (bounded.state.ceiling + 1 - bounded.state.interval)) bounded = .ok ⟨⟩ found ∧
      commit found = .ok interval committed ∧
      last = ⟨committed.state.graph, committed.journal⟩ := by
  obtain ⟨search, started, hstart, h⟩ := Step.bind_eq_ok.mp h
  obtain ⟨committed, hcomplete, rfl⟩ := Step.focus_eq_ok.mp h
  rw [complete, Step.current_bind] at hcomplete
  obtain ⟨_, reached, hreach, hcomplete⟩ := Step.bind_eq_ok.mp hcomplete
  obtain ⟨_, bounded, hbound, hcomplete⟩ := Step.bind_eq_ok.mp hcomplete
  rw [Step.current_bind] at hcomplete
  obtain ⟨_, found, hfind, hcommit⟩ := Step.bind_eq_ok.mp hcomplete
  exact ⟨search, started, reached, bounded, found, committed, hstart, hreach, hbound, hfind,
    hcommit, rfl⟩

/-- What a whole search does to the graph it starts from. -/
theorem run_eq_ok {now last : Journaled Graph} (hg : now.state.OfBlock block entrySlot)
    (h : run now = .ok interval last) :
    ∃ g placed, g.skeleton = now.state.skeleton ∧
      Attempt block entrySlot interval g placed ∧
      Committed block entrySlot interval placed last.state := by
  obtain ⟨search, started, reached, bounded, found, _, hstart, hreach, hbound, hfind, hcommit,
    rfl⟩ := run_stages h
  have hstarted : started.state.skeleton = now.state.skeleton :=
    (keeps_start.comp Prod.fst).of_eq_ok hstart
  have hbounded : bounded.state.graph.skeleton = now.state.skeleton := by
    have hreached := ((keeps_reachCriticalPath _).comp Prod.fst).of_eq_ok hreach
    have hbounded := (keeps_computeInterval.comp Graph.skeleton).of_eq_ok hbound
    exact hbounded.trans (hreached.trans hstarted)
  have hfound : found.state.graph.skeleton = bounded.state.graph.skeleton :=
    ((keeps_reachState _).comp Prod.fst).of_eq_ok hfind
  obtain ⟨g, hskeleton, hattempt⟩ := reachState_eq_ok (hg.of_skeleton_eq hbounded) hfind
  obtain ⟨hinterval, hcommitted⟩ :=
    commit_eq_ok (hg.of_skeleton_eq (hfound.trans hbounded)) hcommit
  rw [← hinterval] at hattempt
  exact ⟨g, found.state.graph, hskeleton.trans hbounded, hattempt, hcommitted⟩

end SlotScheduling.PipelineSearch
