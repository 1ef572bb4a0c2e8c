import SlotScheduling.Proofs.Pipelinable
import SlotScheduling.Proofs.Pipeline.IntervalBounds
import SlotScheduling.Proofs.Pipeline.Rested
import SlotScheduling.Proofs.Placement.Overflows

/-!
# How a search can fail

For a loop that was built from a block, the checks of a search for the loop operation and for the
moves never fail: a restart puts the loop operation an interval after the entry, where no attempt
moves it, and the exit waits for every move as long as the interval, so that a delayed move stays
within the block.  What is left is that the dependencies have no solution in the first place, that
the search gives up, and that a number leaves its range.
-/

namespace SlotScheduling

open Failure (IsOverflow)

namespace Graph

variable {g h : Graph} {block : BlockId} {entrySlot interval : Nat} {exit branch : UnitId}
  {now last : Journaled Graph}

/-- The graph of a block that loops back to its start. -/
structure SelfLoop (block : BlockId) (entrySlot : Nat) (exit branch : UnitId) (g : Graph) : Prop
    extends Enclosed block entrySlot exit g where
  loops : g.loopOp = some branch

theorem SelfLoop.of_skeleton_eq (hg : g.SelfLoop block entrySlot exit branch)
    (hsame : h.skeleton = g.skeleton) : h.SelfLoop block entrySlot exit branch :=
  ⟨hg.toEnclosed.of_skeleton_eq hsame,
    (eq_of_skeleton_eq (·.loopOp) hsame fun _ => rfl).trans hg.loops⟩

/-! ## Restarts -/

theorem word_of_resetControl {result : PUnit} (hpos : 0 < interval)
    (hreset : resetControl interval now = .ok result last) :
    now.state.entrySlot + interval < Word.count := by
  obtain ⟨_, _, _, ⟨rfl, _⟩ | ⟨_, _, _, hword, _⟩, _⟩ := resetControl_cases hreset
  · exact absurd hpos (Nat.lt_irrefl 0)
  · exact hword

theorem SelfLoop.restarted {result : PUnit} (hg : now.state.SelfLoop block entrySlot exit branch)
    (hreset : resetControl interval now = .ok result last) :
    Restarted interval now.state last.state := by
  obtain ⟨last', hreset', hrestarted⟩ := exists_resetControl hg.toEnclosed (.refl now.state)
    (fun _ => ⟨branch, hg.loops⟩) fun hpos => word_of_resetControl hpos hreset
  obtain ⟨-, rfl⟩ := EStateM.Result.ok.inj (hreset.symm.trans hreset')
  exact hrestarted

/-- The control path of a loop starts over, unless the slot of the loop operation is no word. -/
theorem SelfLoop.failsAs_resetControl (hg : now.state.SelfLoop block entrySlot exit branch) :
    (resetControl interval).FailsAs IsOverflow now := by
  by_cases hword : 0 < interval → now.state.entrySlot + interval < Word.count
  · obtain ⟨last, hreset, -⟩ := exists_resetControl hg.toEnclosed (.refl now.state)
      (fun _ => ⟨branch, hg.loops⟩) hword
    exact Step.failsAs_of_eq_ok hreset
  · obtain ⟨hpos, hword⟩ := Classical.not_imp.mp hword
    have hclear := exists_clearControl hg.toWellFormed hg.root
    unfold resetControl
    refine (Step.failsAs_updateChecked (Checked.failsAs_of_exists hclear)).bind
      fun _ middle hrun => ?_
    obtain ⟨cleared, hclear, rfl⟩ := Step.updateChecked_eq_ok.mp hrun
    have hframe := (clearControl_cases hclear).1
    rw [if_pos hpos]
    refine Step.failsAs_current_bind ?_
    simp only [loopOp_of_frame_eq hframe, hg.loops, entrySlot_of_frame_eq hframe]
    exact Step.failsAs_lift_bind (Word.failsAs_check _) fun slot hslot =>
      absurd (Word.add_eq_ok.mp hslot).1 hword

/-- After a restart every move comes an interval ahead of the exit. -/
theorem SelfLoop.add_le_of_isMove {placed : Graph} {bounds : ControlBounds} {id : UnitId}
    {atExit : Nat} (hg : g.SelfLoop block entrySlot exit branch) (hwidened : Widened interval g h)
    (hplaced : ControlSystem.Placed h bounds placed) (hid : h.IsControl id) (hmove : h.IsMove id)
    (hexit : placed.slot? exit = some atExit) :
    ∃ slot, placed.slot? id = some slot ∧ slot + interval ≤ atExit := by
  have hh := hg.of_skeleton_eq hwidened.skeleton
  obtain ⟨unit, hunit, hmem⟩ := hh.dependsOn_exit hid hmove
  obtain ⟨bundle, hdep⟩ := Table.mem_keys_iff.mp hmem
  have hbundle : h.bundle? exit id = some bundle := (bundle?_eq hunit id).trans hdep
  have hlatency := hwidened.moves hg.exitRoot
    ((isMove_of_skeleton_eq hwidened.skeleton).mp hmove) hbundle
  obtain ⟨slot, hslot⟩ := hplaced.scheduled (hh.control.mpr hid)
  obtain ⟨offset?, hoffset, hmeets⟩ := hplaced.deps (hh.control.mpr hh.exitControl) hunit
    (Table.mem_entries_of_get?_eq_some hdep) hexit
  rw [ControlBounds.offset?, DepEdge.offset?_of_distance_eq_zero (hh.waits hbundle).2,
    hlatency] at hoffset
  obtain rfl := Except.ok.inj hoffset
  have hgap := (hmeets _ rfl hid slot hslot).le
  exact ⟨slot, hslot, by omega⟩

/-! ## The dependencies alone -/

/-- The earliest slots that the dependencies of a loop allow, without an interval or an end. -/
def slotsByDependencies (g : Graph) : Checked (List (UnitId × Nat)) := do
  let system ← ControlSystem.build g.rested { pipelining := true }
  system.earliest

end Graph

namespace MinInterval

variable {σ : Type} {g : Graph} {now : Journaled σ}

theorem failsAs_resourceBound (hg : g.Listed) (block : BlockId) :
    (resourceBound g block).FailsAs Failure.IsOverflow := by
  rcases resourceBound_cases hg block with ⟨resource, hresource, _⟩ | ⟨hfault, _⟩
  · exact Checked.failsAs_of_exists ⟨resource, hresource⟩
  · rw [hfault]
    exact Checked.failsAs_overflow

theorem failsAs_recurrenceInterval {component : Component} (hclosed : component.Closed) :
    (recurrenceInterval component : Step σ Nat).FailsAs Failure.IsOverflow now := by
  have hbound : component.intervalBound.FailsAs Failure.IsOverflow :=
    (Word.failsAs_sum _).bind fun _ _ => Checked.failsAs_ok _
  refine Step.failsAs_lift_bind hbound fun bound hbound => ?_
  refine Step.failsAs_lift_bind ?_ fun found _ => ?_
  · rcases Component.firstInterval_cases hclosed (Component.intervalBound_eq_ok.mp hbound).1
      bound 1 with ⟨_, hsearch, _⟩ | ⟨hsearch, _⟩ | ⟨_, hsearch, _⟩
    · exact Checked.failsAs_of_exists ⟨_, hsearch⟩
    · exact Checked.failsAs_of_exists ⟨_, hsearch⟩
    · rw [hsearch]
      exact Checked.failsAs_overflow
  · cases found with
    | some interval => exact Step.failsAs_pure interval
    | none => exact (Step.failsAs_note _ _).bind fun _ _ _ => Step.failsAs_pure bound

/-- Only a number that leaves its range keeps the least interval from being known. -/
theorem failsAs_compute (hg : g.Listed) (block : BlockId) :
    (compute g block : Step σ MinInterval).FailsAs IsOverflow now := by
  refine Step.failsAs_lift_bind (failsAs_resourceBound hg block) fun _ _ => ?_
  refine Step.FailsAs.bind (Step.failsAs_foldlM (fun component hmem largest now =>
    (failsAs_recurrenceInterval (of_mem_recurrences hmem).1).bind fun _ _ _ =>
      Step.failsAs_pure _) 0) fun recurrence middle _ => ?_
  exact (Step.failsAs_note _ _).bind fun _ _ _ => Step.failsAs_pure _

end MinInterval

namespace PipelineSearch

open SlotScheduling.Graph

variable {g : Graph} {block : BlockId} {entrySlot : Nat} {exit branch : UnitId}
  {now last : Journaled PipelineSearch} {bounds : ControlBounds}

/-- The search for the block gave up, or a number left its range. -/
def GivesUp (block : BlockId) (failure : Failure) : Prop :=
  failure.IsOverflow ∨
    ∃ interval criticalPath, failure = .error (.searchExhausted block interval criticalPath)

theorem givesUp_of_isOverflow (failure : Failure) (h : failure.IsOverflow) :
    GivesUp block failure :=
  Or.inl h

/-! ## Attempts -/

theorem failsAs_onGraph {α : Type} {kind : Failure → Prop} {work : Step Graph α}
    (h : work.FailsAs kind ⟨now.state.graph, now.journal⟩) : (onGraph work).FailsAs kind now :=
  Step.FailsAs.focus h

/-- An attempt finds slots or sees that there are none. -/
theorem failsAs_tryPlace (hg : now.state.graph.SelfLoop block entrySlot exit branch)
    (horder : ∀ {order chain}, bounds.order = some order → chain ∈ order.chains →
      ∀ id ∈ chain.units, now.state.graph.IsControl id) :
    (tryPlace bounds).FailsAs IsOverflow now := by
  have hexit : ∀ {root}, now.state.graph.exitRoot = some root →
      root < now.state.graph.units.size := fun hroot =>
    Option.some.inj (hg.exitRoot.symm.trans hroot) ▸ hg.exitControl.lt_size
  refine Step.failsAs_current_bind (Step.failsAs_lift_bind (ControlSystem.failsAs_build
    hg.toWellFormed hexit fun hsome hchain id hid => (horder hsome hchain id hid).lt_size)
    fun system hbuild => ?_)
  obtain ⟨base, hdescribes⟩ := ControlSystem.exists_describes hbuild
  rcases ConstraintSystem.earliest_cases (hdescribes.grows.closed hdescribes.free.closed) with
    ⟨slots, hslots⟩ | ⟨reason, hreason⟩
  · rw [hslots]
    have hplace := ControlSystem.exists_placeAll hg.toListed hbuild hslots
    exact (failsAs_onGraph (Step.failsAs_updateChecked (Checked.failsAs_of_exists hplace))).bind
      fun _ _ _ => Step.failsAs_pure true
  · rw [hreason]
    exact (Step.failsAs_note _ _).bind fun _ _ _ => Step.failsAs_pure false

/-- An attempt of any kind starts over first, and then has the same loop before it. -/
theorem failsAs_restart (hg : now.state.graph.SelfLoop block entrySlot exit branch)
    (horder : ∀ {order chain}, bounds.order = some order → chain ∈ order.chains →
      ∀ id ∈ chain.units, now.state.graph.IsControl id) (interval : Nat) :
    (onGraph (resetControl interval) >>= fun _ => tryPlace bounds).FailsAs IsOverflow now := by
  refine (failsAs_onGraph hg.failsAs_resetControl).bind fun _ middle hrestart => ?_
  obtain ⟨reset, hreset, rfl⟩ := onGraph_eq_ok.mp hrestart
  have hskeleton : reset.state.skeleton = now.state.graph.skeleton :=
    congrArg Prod.fst ((keeps_resetControl interval).of_eq_ok hreset)
  exact failsAs_tryPlace (hg.of_skeleton_eq hskeleton) fun hsome hchain id hid =>
    isControl_of_outline_eq (outline_eq_of_skeleton_eq hskeleton.symm) (horder hsome hchain id hid)

theorem failsAs_placeCriticalPath (hg : now.state.graph.SelfLoop block entrySlot exit branch) :
    placeCriticalPath.FailsAs IsOverflow now :=
  Step.failsAs_current_bind (failsAs_restart hg (fun hsome => by cases hsome) _)

theorem failsAs_placeState (hg : now.state.graph.SelfLoop block entrySlot exit branch) :
    placeState.FailsAs IsOverflow now := by
  refine (failsAs_placeCriticalPath hg).bind fun placed tried hfirst => ?_
  cases placed with
  | false => exact Step.failsAs_pure false
  | true =>
      have htried := hg.of_skeleton_eq (congrArg Prod.fst (keeps_placeCriticalPath.of_eq_ok hfirst))
      obtain ⟨order, horder, hchains⟩ := IssueOrder.exists_build htried.toOfBlock
      refine Step.failsAs_current_bind (Step.failsAs_lift_bind
        (Checked.failsAs_of_exists ⟨order, horder⟩) fun order' horder' => ?_)
      obtain rfl := Except.ok.inj (horder.symm.trans horder')
      refine failsAs_restart htried (fun hsome hchain id hid => ?_) _
      cases hsome
      exact (hchains _ hchain).2.2.1 id hid

/-! ## Bounds -/

theorem failsAs_giveUp (hblock : now.state.graph.entryBlock = block) :
    giveUp.FailsAs (GivesUp block) now :=
  Step.failsAs_current_bind (Step.failsAs_fail (Or.inr ⟨_, _, by rw [hblock]⟩))

theorem failsAs_increaseInterval : increaseInterval.FailsAs (GivesUp block) now :=
  Step.failsAs_current_bind (Step.failsAs_lift_bind
    ((Word.failsAs_check _).mono givesUp_of_isOverflow) fun _ _ =>
      (Step.failsAs_update _).bind fun _ _ _ => Step.failsAs_note _ _)

theorem failsAs_lengthenCriticalPath (hblock : now.state.graph.entryBlock = block) :
    lengthenCriticalPath.FailsAs (GivesUp block) now := by
  refine Step.failsAs_current_bind (Step.failsAs_lift_bind
    ((Word.failsAs_check _).mono givesUp_of_isOverflow) fun criticalPathEnd _ => ?_)
  refine (Step.failsAs_update _).bind fun _ raised hraise => ?_
  have hgraph : raised.state.graph = now.state.graph := by
    cases hraise
    rfl
  refine Step.failsAs_current_bind ?_
  split
  · exact (failsAs_giveUp (hgraph ▸ hblock)).bind fun _ _ _ => Step.failsAs_note _ _
  · exact Step.failsAs_note _ _

theorem failsAs_relaxDependencies (hblock : now.state.graph.entryBlock = block) :
    relaxDependencies.FailsAs (GivesUp block) now := by
  refine Step.failsAs_current_bind (Step.failsAs_lift_bind
    ((Word.failsAs_check _).mono givesUp_of_isOverflow) fun _ _ => ?_)
  split
  · exact failsAs_increaseInterval
  · exact failsAs_lengthenCriticalPath hblock

theorem failsAs_relaxSharing (hblock : now.state.graph.entryBlock = block) :
    relaxSharing.FailsAs (GivesUp block) now := by
  refine Step.failsAs_current_bind ?_
  split
  · exact failsAs_increaseInterval
  · exact failsAs_lengthenCriticalPath hblock

/-! ## Rounds -/

theorem failsAs_reachCriticalPath (rounds : Nat)
    (hg : now.state.graph.SelfLoop block entrySlot exit branch) :
    (reachCriticalPath rounds).FailsAs (GivesUp block) now := by
  induction rounds generalizing now with
  | zero => exact failsAs_giveUp hg.entryBlock
  | succ rounds ih =>
      refine ((failsAs_placeCriticalPath hg).mono givesUp_of_isOverflow).bind
        fun placed tried hfirst => ?_
      have htried := hg.of_skeleton_eq (congrArg Prod.fst (keeps_placeCriticalPath.of_eq_ok hfirst))
      cases placed with
      | true => exact Step.failsAs_pure _
      | false =>
          refine (failsAs_lengthenCriticalPath htried.entryBlock).bind fun _ longer hlengthen => ?_
          exact ih (keeps_lengthenCriticalPath.of_eq_ok hlengthen ▸ htried)

theorem failsAs_reachState (rounds : Nat)
    (hg : now.state.graph.SelfLoop block entrySlot exit branch) :
    (reachState rounds).FailsAs (GivesUp block) now := by
  induction rounds generalizing now with
  | zero => exact failsAs_giveUp hg.entryBlock
  | succ rounds ih =>
      have hgoesOn : ∀ {relax : Step PipelineSearch PUnit} {from_ : Journaled PipelineSearch},
          from_.state.graph.SelfLoop block entrySlot exit branch → relax.Keeps (·.graph) →
          relax.FailsAs (GivesUp block) from_ →
          (relax >>= fun _ => reachState rounds).FailsAs (GivesUp block) from_ :=
        fun hfrom hkeeps hrelax => hrelax.bind fun _ relaxed hrun =>
          ih (hkeeps.of_eq_ok hrun ▸ hfrom)
      refine ((failsAs_placeCriticalPath hg).mono givesUp_of_isOverflow).bind
        fun placed tried hfirst => ?_
      have htried := hg.of_skeleton_eq (congrArg Prod.fst (keeps_placeCriticalPath.of_eq_ok hfirst))
      cases placed with
      | false =>
          exact hgoesOn htried keeps_relaxDependencies (failsAs_relaxDependencies htried.entryBlock)
      | true =>
          refine ((failsAs_placeState htried).mono givesUp_of_isOverflow).bind
            fun shared stated hsecond => ?_
          have hstated := htried.of_skeleton_eq
            (congrArg Prod.fst (keeps_placeState.of_eq_ok hsecond))
          cases shared with
          | true => exact Step.failsAs_pure _
          | false =>
              exact hgoesOn hstated keeps_relaxSharing (failsAs_relaxSharing hstated.entryBlock)

/-! ## Commits -/

/-- The state that an attempt has placed can be committed. -/
theorem exists_commit_of_placeState (hg : now.state.graph.SelfLoop block entrySlot exit branch)
    (h : placeState now = .ok true last) (hpos : 0 < last.state.interval) :
    ∃ committed, commit last = .ok last.state.interval committed := by
  obtain ⟨tried, order, reset, hfirst, -, hreset, hlast, hplaced⟩ := placeState_stages h
  have htried : (Journaled.mk tried.state.graph tried.journal).state.SelfLoop block entrySlot exit
      branch := hg.of_skeleton_eq (congrArg Prod.fst (keeps_placeCriticalPath.of_eq_ok hfirst))
  have hinterval : last.state.interval = tried.state.interval := by rw [hlast]
  rw [← hinterval] at hreset
  have hword := word_of_resetControl hpos hreset
  have hrestarted := htried.restarted hreset
  have hreset' := htried.of_skeleton_eq hrestarted.skeleton
  have hplaced' := hreset'.of_skeleton_eq (skeleton_eq_of_frame_eq hplaced.frame)
  have hbranch := hplaced.kept (hrestarted.loop hpos htried.loops)
  rw [htried.entrySlot] at hword hbranch
  -- The exit is free after the restart, so that its slot is a word.
  have hexitListed := hreset'.control.mpr hreset'.exitControl
  have hlt := htried.loopOp htried.loops
  have hfree : reset.state.slot? exit = none :=
    hrestarted.cleared htried.exitControl (fun heq => Nat.not_lt_zero branch (hlt.trans_eq heq))
      fun _ heq => lt_irrefl _ (htried.loopOp heq)
  obtain ⟨atExit, hexit⟩ := hplaced.scheduled hexitListed
  obtain ⟨-, hexitWord⟩ := hplaced.range hexitListed hfree hexit
  obtain ⟨end_, hend, hle⟩ := hplaced'.exists_endSlot hplaced'.exitControl hexit
  refine exists_commit_of_slots hplaced'.toOfBlock hplaced'.loops hbranch hword
    (hplaced.kept hrestarted.entry) hend fun hid hmove => ?_
  obtain ⟨slot, hslot, hready⟩ := htried.add_le_of_isMove hrestarted.toWidened hplaced
    ((isControl_iff_of_frame_eq hplaced.frame).mp hid)
    ((isMove_of_skeleton_eq (skeleton_eq_of_frame_eq hplaced.frame)).mp hmove) hexit
  exact ⟨slot, hslot, by omega, by omega⟩

/-! ## Whole searches -/

/-- The search for a block gave up, the dependencies of its graph have no solution, or a number left
its range. -/
def IsExpected (g : Graph) (block : BlockId) (failure : Failure) : Prop :=
  GivesUp block failure ∨
    ∃ reason, g.slotsByDependencies = .error (.error (.infeasible reason)) ∧
      failure = .error (.broken .infeasibleSystem reason)

theorem isExpected_of_isOverflow (failure : Failure) (h : failure.IsOverflow) :
    IsExpected g block failure :=
  Or.inl (Or.inl h)

theorem failsAs_start {now : Journaled Graph}
    (hg : now.state.SelfLoop block entrySlot exit branch) :
    start.FailsAs (IsExpected now.state block) now := by
  have hpipelined : ¬now.state.isPipelined = false := by
    rw [isPipelined, hg.loops]
    exact Bool.noConfusion
  have hword : ∀ {α : Type} {work : Checked α}, work.FailsAs IsOverflow →
      work.FailsAs (IsExpected now.state block) :=
    fun hwork => hwork.mono isExpected_of_isOverflow
  unfold start
  refine Step.failsAs_current_bind ?_
  simp only [hg.exitRoot]
  rw [if_neg hpipelined]
  refine (hg.failsAs_resetControl.mono isExpected_of_isOverflow).bind fun _ reset hreset => ?_
  have hrested := hg.of_skeleton_eq now.state.skeleton_rested
  have hexit : ∀ {root}, now.state.rested.exitRoot = some root →
      root < now.state.rested.units.size := fun hroot =>
    Option.some.inj (hrested.exitRoot.symm.trans hroot) ▸ hrested.exitControl.lt_size
  obtain ⟨-, rfl⟩ := resetControl_zero_eq_ok_iff.mp hreset
  refine Step.failsAs_current_bind (Step.failsAs_lift_bind (hword (ControlSystem.failsAs_build
    hrested.toWellFormed hexit fun hsome => by cases hsome)) fun system hbuild => ?_)
  obtain ⟨base, hdescribes⟩ := ControlSystem.exists_describes hbuild
  refine Step.failsAs_lift_bind ?_ fun slots _ => ?_
  · rcases ConstraintSystem.earliest_cases (hdescribes.grows.closed hdescribes.free.closed) with
      ⟨slots, hslots⟩ | ⟨reason, hreason⟩
    · exact Checked.failsAs_of_exists ⟨slots, Checked.orMalformed_eq_ok.mpr hslots⟩
    · rw [hreason]
      rintro _ ⟨⟩
      exact Or.inr ⟨reason, by rw [slotsByDependencies, hbuild, Checked.ok_bind, hreason], rfl⟩
  · refine Step.failsAs_lift_bind (hword (Word.failsAs_sum _)) fun latencies _ => ?_
    refine Step.failsAs_lift_bind (hword (Word.failsAs_check _)) fun path _ => ?_
    refine Step.failsAs_lift_bind (hword (Word.failsAs_check _)) fun path _ => ?_
    refine Step.failsAs_lift_bind (hword (Word.failsAs_check _)) fun ceiling _ => ?_
    exact (Step.failsAs_note _ _).bind fun _ _ _ => Step.failsAs_pure _

theorem failsAs_complete (hg : now.state.graph.SelfLoop block entrySlot exit branch) :
    complete.FailsAs (GivesUp block) now := by
  refine Step.failsAs_current_bind ?_
  refine (failsAs_reachCriticalPath _ hg).bind fun _ reached hreach => ?_
  have hreached := hg.of_skeleton_eq
    (congrArg Prod.fst ((keeps_reachCriticalPath _).of_eq_ok hreach))
  have hcompute : computeInterval.FailsAs (GivesUp block) reached :=
    Step.failsAs_current_bind (((MinInterval.failsAs_compute hreached.toListed _).mono
      givesUp_of_isOverflow).bind fun _ _ _ => (Step.failsAs_update _).bind fun _ _ _ =>
        Step.failsAs_note _ _)
  refine hcompute.bind fun _ bounded hbound => ?_
  have hbounded : bounded.state.graph.SelfLoop block entrySlot exit branch :=
    keeps_computeInterval.of_eq_ok hbound ▸ hreached
  obtain ⟨bound, _, -, hinterval⟩ := computeInterval_eq_ok hbound
  have hpos : IsAtLeast 1 bounded.state := by
    rw [IsAtLeast, hinterval]
    exact Nat.le_max_right _ _
  refine Step.failsAs_current_bind
    ((failsAs_reachState _ hbounded).bind fun _ found hfind => ?_)
  obtain ⟨tried, hskeleton, hplace⟩ := exists_placeState_of_reachState hfind
  obtain ⟨committed, hcommit⟩ := exists_commit_of_placeState (hbounded.of_skeleton_eq hskeleton)
    hplace ((maintains_isAtLeast_reachState _).of_eq_ok hpos hfind)
  exact Step.failsAs_of_eq_ok hcommit

theorem failsAs_run {now : Journaled Graph} (hg : now.state.SelfLoop block entrySlot exit branch) :
    run.FailsAs (IsExpected now.state block) now := by
  refine (failsAs_start hg).bind fun search started hstart => Step.FailsAs.focus ?_
  have hstarted := hg.of_skeleton_eq (congrArg Prod.fst (keeps_start.of_eq_ok hstart))
  exact (failsAs_complete hstarted).mono fun _ => Or.inl

/-- A search for a block that loops back to its start ends well, or the dependencies alone have no
solution, or the search gives up, or a number leaves its range.  The checks for the loop operation
and for the moves never fail. -/
theorem run_cases_of_buildBlock {σ : Type} {program : Program} {basic : BasicBlock}
    {now last : Journaled σ}
    (hbuild : Lowering.buildBlock program basic entrySlot now = .ok g last)
    (hloop : g.isPipelined = true) (journal : Journal) :
    (∃ interval finished, run ⟨g, journal⟩ = .ok interval finished) ∨
      (∃ reason finished, g.slotsByDependencies = .error (.error (.infeasible reason)) ∧
        run ⟨g, journal⟩ = .error (.error (.broken .infeasibleSystem reason)) finished) ∨
      (∃ interval criticalPath finished, run ⟨g, journal⟩ =
        .error (.error (.searchExhausted basic.id interval criticalPath)) finished) ∨
      ∃ finished, run ⟨g, journal⟩ = .error (.fault .overflow) finished := by
  obtain ⟨exit, henclosed⟩ := Lowering.enclosed_buildBlock hbuild
  obtain ⟨branch, hbranch⟩ := Option.isSome_iff_exists.mp hloop
  have hg : (Journaled.mk g journal).state.SelfLoop basic.id entrySlot exit branch :=
    ⟨henclosed, hbranch⟩
  cases hrun : run ⟨g, journal⟩ with
  | ok interval finished => exact Or.inl ⟨interval, finished, rfl⟩
  | error failure finished =>
      refine Or.inr ?_
      rcases failsAs_run hg failure finished hrun with
        (hoverflow | ⟨interval, criticalPath, rfl⟩) | ⟨reason, hreason, rfl⟩
      · exact Or.inr (Or.inr ⟨finished, by rw [hoverflow]⟩)
      · exact Or.inr (Or.inl ⟨interval, criticalPath, finished, rfl⟩)
      · exact Or.inl ⟨reason, finished, hreason, rfl⟩

/-- A loop with two accesses in one iteration, each of which waits for the other one. -/
def crossedAccesses : Program where
  ops := ⟨#[.control "ldst" 7 .trivial, .control "ldst" 7 .trivial, .branch 7 7]⟩
  oracle :=
    { dependences := fun op =>
        if op = 0 then some [.liveIn, .throughMemory 1 1]
        else if op = 1 then some [.value 0 1]
        else some [.value 1 0]
      stepsToFinish := fun _ => 0 }

/-- No interval helps where the dependencies within one iteration have no solution. -/
theorem run_cases_crossedAccesses :
    ∃ g last reason finished,
      (Lowering.buildBlock crossedAccesses ⟨7, [0, 1, 2]⟩ 1 : Step PUnit Graph) ⟨⟨⟩, {}⟩ =
        .ok g last ∧
      g.isPipelined = true ∧ g.slotsByDependencies = .error (.error (.infeasible reason)) ∧
      run ⟨g, {}⟩ = .error (.error (.broken .infeasibleSystem reason)) finished := by
  have hsucceeds : (Lowering.buildBlock crossedAccesses ⟨7, [0, 1, 2]⟩ 1 :
      Step PUnit Graph).succeeds ⟨⟨⟩, {}⟩ (fun g => decide (g.isPipelined = true ∧
        run.failure? ⟨g, {}⟩ = some (.error (.broken .infeasibleSystem
          "positive cycle among 9 constraints")))) = true := by
    decide +kernel
  obtain ⟨g, last, hbuild, htest⟩ := Step.exists_of_succeeds hsucceeds
  obtain ⟨hloop, hfailure⟩ := of_decide_eq_true htest
  obtain ⟨failed, hfails⟩ := Step.exists_of_failure? hfailure
  rcases run_cases_of_buildBlock hbuild hloop {} with ⟨_, _, hrun⟩ |
    ⟨reason, finished, hreason, hrun⟩ | ⟨_, _, _, hrun⟩ | ⟨_, hrun⟩
  · exact nomatch hfails.symm.trans hrun
  · exact ⟨g, last, reason, finished, hbuild, hloop, hreason, hrun⟩
  · exact nomatch hfails.symm.trans hrun
  · exact nomatch hfails.symm.trans hrun

end PipelineSearch

end SlotScheduling
