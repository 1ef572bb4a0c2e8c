import SlotScheduling.Proofs.Ensured
import SlotScheduling.Proofs.Pipeline.Finding
import SlotScheduling.Proofs.Pipeline.Outcomes
import SlotScheduling.Proofs.Placement.Timed

/-!
# Searches within bounds

On the graph of a loop with small numbers, no bound that a search raises goes beyond the horizon, so
that every attempt can be made.  The search ends with slots that are not late, or with an error.
-/

namespace SlotScheduling

namespace Graph

theorem delayOf_le (g : Graph) (interval : Nat) (id : UnitId) :
    g.delayOf interval id ≤ interval := by
  unfold delayOf
  split
  · split
    · exact le_rfl
    · exact Nat.zero_le _
  · exact Nat.zero_le _

/-- Without an interval, no latency is larger than it was. -/
theorem Widened.latencySum_le {g h : Graph} {block : BlockId} {entrySlot : Nat} {exit : UnitId}
    (hwidened : Widened 0 g h) (hg : Enclosed block entrySlot exit g) :
    h.latencySum ≤ g.latencySum := by
  refine Graph.latencySum_le hg.toTidy (hg.toTidy.of_skeleton_eq hwidened.skeleton)
    (outline_eq_of_skeleton_eq hwidened.skeleton) fun hbundle hbundle' => ?_
  obtain ⟨found, hfound, -, rfl | hzero⟩ := hwidened.exists_bundle hg hbundle
  · rw [Option.some.inj (hfound.symm.trans hbundle')]
  · exact hzero.trans_le (Nat.zero_le _)

end Graph

namespace PipelineSearch

open SlotScheduling.Graph

/-- What a search is about: its graph is like the one it started from, and its bounds are below the
horizon. -/
structure Explores (g : Graph) (search : PipelineSearch) : Prop where
  similar : Similar g search.graph
  interval : search.interval ≤ horizon
  path : search.criticalPathEnd ≤ search.ceiling
  ceiling : search.ceiling ≤ horizon

/-- What an attempt leaves.  If it has found slots, none of them is late. -/
structure Attempted (g : Graph) (tried : Nat) (placed : Bool) (search : PipelineSearch) : Prop
    extends Explores g search where
  same : search.interval = tried
  widened : Widened tried g search.graph
  issues : placed = true → search.graph.IssuesBy (3 * horizon)

variable {g : Graph} {block : BlockId} {entrySlot limit distance interval : Nat}
  {exit branch : UnitId} {now : Journaled PipelineSearch} {bounds : ControlBounds}

theorem Explores.place {search search' : PipelineSearch} (h : Explores g search)
    (hsame : search' = { search with graph := search'.graph })
    (hsimilar : Similar g search'.graph) : Explores g search' := by
  rw [hsame]
  exact ⟨hsimilar, h.interval, h.path, h.ceiling⟩

/-! ## Attempts -/

section

variable (hg : g.SelfLoop block entrySlot exit branch) (hladen : g.Laden limit distance)
  (hlimit : limit < 2 ^ 20)

include hg

/-- The bounds of an attempt on a graph that starts over. -/
theorem attempts_of_pipelining {h : Graph} (hrestart : Restarted interval g h)
    (hpipelining : bounds.pipelining = true)
    (hloop : ∀ known ∈ bounds.loopInterval, known = interval)
    (hends : ∀ last ∈ bounds.criticalPathEnd, last ≤ horizon)
    (hchained : ∀ {order chain}, bounds.order = some order → chain ∈ order.chains →
      chain.block = block ∧ ∀ id ∈ chain.units, h.IsControl id ∧ id ≠ exit) :
    bounds.Attempts block exit interval h := by
  refine ⟨fun known hknown => hloop known ?_, hends, hchained⟩
  rwa [ControlBounds.interval?, hpipelining, (hrestart.ofBlock hg.toEnclosed).entryBlock,
    if_pos ⟨rfl, rfl⟩] at hknown

include hladen hlimit

theorem ensures_restart (hsearch : Explores g now.state) :
    (onGraph (resetControl now.state.interval)).Ensures (fun _ search =>
      search = { now.state with graph := search.graph } ∧
        Restarted now.state.interval g search.graph) now := by
  have hinterval := hsearch.interval
  have htotal := hladen.total
  have hhorizon : horizon = 2 ^ 22 := rfl
  have hword : Word.count = 2 ^ 32 := rfl
  have hwords : g.entrySlot + now.state.interval < Word.count := by omega
  obtain ⟨inner, hreset, hrestarted⟩ := exists_resetControl hg.toEnclosed
    (show Similar g (⟨now.state.graph, now.journal⟩ : Journaled Graph).state from hsearch.similar)
    (fun _ => ⟨branch, hg.loops⟩) fun _ => hwords
  exact Step.ensures_of_eq_ok (onGraph_eq_ok.mpr ⟨inner, hreset, rfl⟩) ⟨rfl, hrestarted⟩

theorem ensures_tryPlace (hsearch : Explores g now.state)
    (hrestart : Restarted now.state.interval g now.state.graph)
    (hbounds : bounds.Attempts block exit now.state.interval now.state.graph) :
    (tryPlace bounds).Ensures (Attempted g now.state.interval) now := by
  obtain ⟨sys, hbuild, hcases⟩ :=
    hrestart.exists_earliest hg.toEnclosed hladen hlimit hsearch.interval hbounds
  refine Step.ensures_current_bind ((Step.ensures_lift_bind_of_eq_ok hbuild).mpr ?_)
  rcases hcases with ⟨slots, placed, hslots, hplace, hplaced, hissues⟩ | ⟨reason, hreason⟩
  · rw [hslots]
    have hrun : onGraph (Step.updateChecked (·.placeAll slots)) now =
        .ok ⟨⟩ ⟨{ now.state with graph := placed }, now.journal⟩ :=
      onGraph_eq_ok.mpr ⟨_, Step.updateChecked_eq_ok.mpr ⟨placed, hplace, rfl⟩, rfl⟩
    have hdeadline := hladen.deadline_le hg.toListed hlimit hsearch.interval
    have hattempted : Attempted g now.state.interval true { now.state with graph := placed } :=
      ⟨hsearch.place rfl (hrestart.toSimilar.of_frame_eq hplaced.frame), rfl,
        hrestart.toWidened.of_frame_eq hplaced.frame, fun _ => hissues.mono hdeadline⟩
    rw [Step.ensures_bind_of_eq_ok hrun]
    exact Step.ensures_pure hattempted
  · rw [hreason]
    refine Step.ensures_note_bind fun journal => Step.ensures_pure ?_
    exact ⟨hsearch, rfl, hrestart.toWidened, fun h => by cases h⟩

/-- An attempt starts over first. -/
theorem ensures_attempt (hsearch : Explores g now.state)
    (hbounds : ∀ {h}, Restarted now.state.interval g h →
      bounds.Attempts block exit now.state.interval h) :
    (onGraph (resetControl now.state.interval) >>= fun _ => tryPlace bounds).Ensures
      (Attempted g now.state.interval) now := by
  refine (ensures_restart hg hladen hlimit hsearch).bind fun _ reset _ hreset => ?_
  obtain ⟨hsame, hrestarted⟩ := hreset
  have hinterval : reset.state.interval = now.state.interval := by rw [hsame]
  rw [← hinterval] at hrestarted ⊢
  exact ensures_tryPlace hg hladen hlimit (hsearch.place hsame hrestarted.toSimilar) hrestarted
    (hinterval ▸ hbounds (hinterval ▸ hrestarted))

theorem ensures_placeCriticalPath (hsearch : Explores g now.state) :
    placeCriticalPath.Ensures (Attempted g now.state.interval) now := by
  refine Step.ensures_current_bind (ensures_attempt hg hladen hlimit hsearch fun hrestart =>
    attempts_of_pipelining hg hrestart rfl (fun known hknown => ?_) (fun last hlast => ?_)
      fun horder => by cases horder)
  · simp only at hknown
    split at hknown
    · exact (Option.some.inj hknown).symm
    · cases hknown
  · cases hlast
    exact hsearch.path.trans hsearch.ceiling

theorem ensures_placeState (hsearch : Explores g now.state) :
    placeState.Ensures (Attempted g now.state.interval) now := by
  refine (ensures_placeCriticalPath hg hladen hlimit hsearch).bind fun placed tried _ htried => ?_
  cases placed with
  | false => exact Step.ensures_pure htried
  | true =>
      obtain ⟨order, horder, hchains⟩ :=
        (hg.toEnclosed.of_skeleton_eq htried.similar.skeleton).exists_issueOrder
      rw [if_pos rfl]
      refine Step.ensures_current_bind ((Step.ensures_lift_bind_of_eq_ok horder).mpr ?_)
      rw [← htried.same]
      refine ensures_attempt hg hladen hlimit htried.toExplores fun {h} hrestart =>
        attempts_of_pipelining hg hrestart rfl (fun known hknown => (Option.some.inj hknown).symm)
          (fun last hlast => ?_) fun horder hchain => ?_
      · cases hlast
        exact htried.path.trans htried.ceiling
      · cases horder
        obtain ⟨hblock, hids⟩ := hchains _ hchain
        have houtline := outline_eq_of_skeleton_eq
          (htried.similar.skeleton.trans hrestart.skeleton.symm)
        exact ⟨hblock, fun id hid =>
          ⟨isControl_of_outline_eq houtline (hids id hid).1, (hids id hid).2⟩⟩

end

/-! ## Bounds -/

theorem ensures_giveUp {post : PUnit → PipelineSearch → Prop} : giveUp.Ensures post now := ⟨_, rfl⟩

/-- The search goes on with a larger interval. -/
theorem ensures_increaseInterval (hsearch : Explores g now.state)
    (hlt : now.state.interval < now.state.criticalPathEnd) :
    increaseInterval.Ensures (fun _ search => Explores g search) now := by
  have hpath := hsearch.path
  have hceiling := hsearch.ceiling
  have hword : now.state.interval + 1 < Word.count := by
    have hhorizon : horizon = 2 ^ 22 := rfl
    have hword : Word.count = 2 ^ 32 := rfl
    omega
  obtain ⟨last, hrun, hlast⟩ := exists_increaseInterval hword
  refine Step.ensures_of_eq_ok hrun ?_
  rw [hlast]
  exact ⟨hsearch.similar, show now.state.interval + 1 ≤ horizon by omega, hpath, hceiling⟩

/-- The search goes on with a longer critical path, or gives up. -/
theorem ensures_lengthenCriticalPath (hsearch : Explores g now.state) :
    lengthenCriticalPath.Ensures (fun _ search => Explores g search ∧
      search.interval = now.state.interval ∧ search.graph = now.state.graph) now := by
  have hpath := hsearch.path
  have hceiling := hsearch.ceiling
  have hword : now.state.criticalPathEnd + 1 < Word.count := by
    have hhorizon : horizon = 2 ^ 22 := rfl
    have hword : Word.count = 2 ^ 32 := rfl
    omega
  refine Step.ensures_current_bind
    ((Step.ensures_lift_bind_of_eq_ok (Word.add_eq_ok.mpr ⟨hword, rfl⟩)).mpr ?_)
  refine Step.ensures_update_bind (Step.ensures_current_bind ?_)
  split
  next =>
    have hgivesUp : ∀ now, giveUp.Ensures (fun _ _ => False) now := fun _ => ensures_giveUp
    exact (hgivesUp _).bind fun _ _ _ hnever => hnever.elim
  next hle =>
    exact Step.ensures_note ⟨⟨hsearch.similar, hsearch.interval, Nat.le_of_not_lt hle, hceiling⟩,
      rfl, rfl⟩

theorem ensures_relaxDependencies (hsearch : Explores g now.state) :
    relaxDependencies.Ensures (fun _ search => Explores g search) now := by
  have hinterval := hsearch.interval
  have hword : 2 * now.state.interval < Word.count := by
    have hhorizon : horizon = 2 ^ 22 := rfl
    have hword : Word.count = 2 ^ 32 := rfl
    omega
  refine Step.ensures_current_bind
    ((Step.ensures_lift_bind_of_eq_ok (Word.mul_eq_ok.mpr ⟨hword, rfl⟩)).mpr ?_)
  split
  next hlt => exact ensures_increaseInterval hsearch (by omega)
  next => exact (ensures_lengthenCriticalPath hsearch).mono fun _ _ h => h.1

theorem ensures_relaxSharing (hsearch : Explores g now.state) :
    relaxSharing.Ensures (fun _ search => Explores g search) now := by
  refine Step.ensures_current_bind ?_
  split
  next hlt => exact ensures_increaseInterval hsearch hlt
  next => exact (ensures_lengthenCriticalPath hsearch).mono fun _ _ h => h.1

/-! ## Rounds -/

section

variable (hg : g.SelfLoop block entrySlot exit branch) (hladen : g.Laden limit distance)
  (hlimit : limit < 2 ^ 20)

include hg hladen hlimit

theorem ensures_reachCriticalPath (rounds : Nat) (hsearch : Explores g now.state) :
    (reachCriticalPath rounds).Ensures (fun _ search => Explores g search ∧
      search.interval = now.state.interval ∧ Widened now.state.interval g search.graph) now := by
  induction rounds generalizing now with
  | zero => exact ensures_giveUp
  | succ rounds ih =>
      refine (ensures_placeCriticalPath hg hladen hlimit hsearch).bind
        fun placed tried _ htried => ?_
      cases placed with
      | true => exact Step.ensures_pure ⟨htried.toExplores, htried.same, htried.widened⟩
      | false =>
          refine (ensures_lengthenCriticalPath htried.toExplores).bind fun _ longer _ hlonger => ?_
          obtain ⟨hexplores, hsame, -⟩ := hlonger
          rw [← htried.same, ← hsame]
          exact ih hexplores

theorem ensures_reachState (rounds : Nat) (hsearch : Explores g now.state) :
    (reachState rounds).Ensures (fun _ search => Attempted g search.interval true search) now := by
  induction rounds generalizing now with
  | zero => exact ensures_giveUp
  | succ rounds ih =>
      refine (ensures_placeCriticalPath hg hladen hlimit hsearch).bind
        fun placed tried _ htried => ?_
      cases placed with
      | false =>
          exact (ensures_relaxDependencies htried.toExplores).bind fun _ _ _ hrelaxed => ih hrelaxed
      | true =>
          refine (ensures_placeState hg hladen hlimit htried.toExplores).bind
            fun shared stated _ hstated => ?_
          cases shared with
          | true =>
              refine Step.ensures_pure ?_
              rw [hstated.same]
              exact hstated
          | false =>
              exact (ensures_relaxSharing hstated.toExplores).bind fun _ _ _ hrelaxed => ih hrelaxed

/-- The least interval is no longer than all latencies and control units together. -/
theorem ensures_computeInterval (hsearch : Explores g now.state)
    (hwidened : Widened 0 g now.state.graph) :
    computeInterval.Ensures (fun _ search => Explores g search ∧ IsAtLeast 1 search) now := by
  have hofBlock := hwidened.toSimilar.ofBlock hg.toEnclosed
  have hsum := hwidened.latencySum_le hg.toEnclosed
  have hcontrol := hofBlock.toListed.length_controlUnits_le
  have hsize := size_eq_of_skeleton_eq hwidened.skeleton
  have htotal := hladen.total
  have hhorizon : horizon = 2 ^ 22 := rfl
  have hword : Word.count = 2 ^ 32 := rfl
  have hroom : distance * horizon ≤ 2 ^ 62 :=
    (Nat.mul_le_mul_right horizon (by omega : distance ≤ 2 ^ 21)).trans (by decide)
  obtain ⟨bound, last, hcompute, hvalue⟩ :=
    MinInterval.exists_compute_le hofBlock.toListed (by omega) (by omega) (by omega) (by omega)
      (hwidened.not_outreaches hg.toEnclosed hladen.spans hroom) now
  have hstate : last.state = now.state :=
    ((MinInterval.keeps_compute _ _).of_eq_ok hcompute : id last.state = id now.state)
  rw [← hofBlock.entryBlock] at hcompute
  refine Step.ensures_current_bind ((Step.ensures_bind_of_eq_ok hcompute).mpr ?_)
  refine Step.ensures_update_bind (Step.ensures_note ?_)
  rw [hstate]
  exact ⟨⟨hsearch.similar, hvalue, hsearch.path, hsearch.ceiling⟩, Nat.le_max_right _ _⟩

/-! ## Whole searches -/

omit hladen hlimit in
/-- What a commit leaves: the moves issue one interval later. -/
theorem timed_commit {last : Journaled PipelineSearch}
    (hattempted : Attempted g now.state.interval true now.state)
    (h : commit now = .ok interval last) : Timed block g last.state.graph := by
  obtain ⟨rfl, hcommitted⟩ := commit_eq_ok (hattempted.similar.ofBlock hg.toEnclosed) h
  have hdelayed := hcommitted.delayed
  have hblock := (hattempted.similar.ofBlock hg.toEnclosed).setInterval now.state.interval
  have hrecorded : Widened now.state.interval g
      (now.state.graph.setInterval block now.state.interval) :=
    ⟨⟨hattempted.similar.skeleton, hattempted.similar.exitBundles⟩, hattempted.widened.moves⟩
  refine ⟨⟨_, hattempted.interval, hrecorded.of_frame_eq hdelayed.frame⟩, fun known hknown => ?_,
    fun {id} hid => ?_⟩
  · rw [interval?_of_frame_eq hdelayed.frame, interval?_setInterval] at hknown
    exact Option.some.inj hknown ▸ hattempted.interval
  · have hid : (now.state.graph.setInterval block now.state.interval).IsControl id :=
      (isControl_iff_of_frame_eq hdelayed.frame).mp hid
    obtain ⟨slot, hslot, hle⟩ := hattempted.issues rfl hid
    have hslot : (now.state.graph.setInterval block now.state.interval).slot? id = some slot :=
      hslot
    refine ⟨_, by rw [hdelayed.slots (hblock.control.mpr hid), hslot, Option.map_some], ?_⟩
    have hdelay := delayOf_le (now.state.graph.setInterval block now.state.interval)
      now.state.interval id
    have hinterval := hattempted.interval
    omega

theorem ensures_complete (hsearch : Explores g now.state) (hzero : now.state.interval = 0) :
    complete.Ensures (fun _ search => Timed block g search.graph) now := by
  refine Step.ensures_current_bind ?_
  refine (ensures_reachCriticalPath hg hladen hlimit _ hsearch).bind fun _ reached _ hreached => ?_
  obtain ⟨hexplores, hsame, hwidened⟩ := hreached
  rw [hzero] at hwidened
  refine (ensures_computeInterval hg hladen hlimit hexplores hwidened).bind
    fun _ bounded _ hbounded => ?_
  obtain ⟨hexplores, hpos⟩ := hbounded
  refine Step.ensures_current_bind
    ((ensures_reachState hg hladen hlimit _ hexplores).bind fun _ found hfind hfound => ?_)
  obtain ⟨tried, hskeleton, hplace⟩ := exists_placeState_of_reachState hfind
  obtain ⟨committed, hcommit⟩ := exists_commit_of_placeState
    (hg.of_skeleton_eq (hskeleton.trans hexplores.similar.skeleton)) hplace
    ((maintains_isAtLeast_reachState _).of_eq_ok hpos hfind)
  exact Step.ensures_of_eq_ok hcommit (timed_commit hg hfound hcommit)

omit hladen hlimit in
/-- Before there is an interval, no latency counts more than twice for the first critical path. -/
theorem firstPath_le {reset placed : Graph} {sys : ConstraintSystem} {slots : List (UnitId × Nat)}
    (hrestart : Restarted 0 g reset) (hbuild : ControlSystem.build reset bounds = .ok sys)
    (hslots : sys.earliest = .ok slots) (hplace : reset.placeAll slots = .ok placed)
    (hissues : placed.IssuesBy (g.deadline 0)) :
    ((slots.find? (·.1 = exit)).map Prod.snd).getD reset.entrySlot - reset.entrySlot ≤
      2 * g.latencySum + g.controlUnits.length := by
  have hentrySlot : reset.entrySlot = g.entrySlot :=
    eq_of_skeleton_eq (·.entrySlot) hrestart.skeleton fun _ => rfl
  cases hfind : slots.find? (·.1 = exit) with
  | none => simp
  | some found =>
      obtain ⟨id, slot⟩ := found
      obtain rfl : id = exit := by simpa using List.find?_some hfind
      have hcontrol : placed.IsControl id := (isControl_iff_of_frame_eq (frame_placeAll hplace)).mpr
        (isControl_of_outline_eq (outline_eq_of_skeleton_eq hrestart.skeleton).symm hg.exitControl)
      have hslot := ControlSystem.slot?_of_placeAll hbuild hslots hplace
        (List.mem_of_find?_eq_some hfind)
      obtain ⟨slot', hslot', hle⟩ := hissues hcontrol
      obtain rfl := Option.some.inj (hslot.symm.trans hslot')
      unfold deadline at hle
      simp only [Option.map_some, Option.getD_some]
      omega

/-- The first bounds are small. -/
theorem ensures_start (now : Journaled Graph) (hnow : now.state = g) :
    start.Ensures (fun search graph =>
      Explores g { search with graph } ∧ search.interval = 0) now := by
  subst hnow
  obtain ⟨reset, hreset, hrestart⟩ := exists_resetControl hg.toEnclosed (.refl now.state)
    (fun hpos => absurd hpos (Nat.lt_irrefl 0)) fun hpos => absurd hpos (Nat.lt_irrefl 0)
  have hpipelined : ¬now.state.isPipelined = false := by
    rw [isPipelined, hg.loops]
    exact Bool.noConfusion
  have hbounds : ControlBounds.Attempts { pipelining := true } block exit 0 reset.state :=
    attempts_of_pipelining hg hrestart rfl (fun known hknown => by cases hknown)
      (fun last hlast => by cases hlast) fun horder => by cases horder
  obtain ⟨sys, hbuild, hcases⟩ :=
    hrestart.exists_earliest hg.toEnclosed hladen hlimit (Nat.zero_le _) hbounds
  unfold start
  refine Step.ensures_current_bind ?_
  simp only [hg.exitRoot]
  rw [if_neg hpipelined, Step.ensures_bind_of_eq_ok hreset]
  refine Step.ensures_current_bind ((Step.ensures_lift_bind_of_eq_ok hbuild).mpr ?_)
  rcases hcases with ⟨slots, placed, hslots, hplace, -, hissues⟩ | ⟨reason, hreason⟩
  swap
  · exact Step.ensures_orMalformed_bind hreason
  have hsum := hrestart.toWidened.latencySum_le hg.toEnclosed
  have hcontrol := hg.toListed.length_controlUnits_le
  have hlength := congrArg List.length
    (controlUnits_eq_of_outline_eq (outline_eq_of_skeleton_eq hrestart.skeleton))
  have htotal := hladen.total
  have hhorizon : horizon = 2 ^ 22 := rfl
  have hword : Word.count = 2 ^ 32 := rfl
  have hle := firstPath_le hg hrestart hbuild hslots hplace hissues
  have hadd : ∀ {a b : Nat}, a + b < Word.count → Word.add a b = .ok (a + b) :=
    fun hlt => Word.add_eq_ok.mpr ⟨hlt, rfl⟩
  have hsolve : sys.earliest.orMalformed = .ok slots := by
    rw [hslots]
    rfl
  rw [Step.ensures_lift_bind_of_eq_ok hsolve,
    Step.ensures_lift_bind_of_eq_ok (totalLatency_eq_ok (by omega))]
  rw [Step.ensures_lift_bind_of_eq_ok (hadd (by omega)),
    Step.ensures_lift_bind_of_eq_ok (hadd (by omega)),
    Step.ensures_lift_bind_of_eq_ok (hadd (by omega))]
  refine Step.ensures_note_bind fun journal =>
    Step.ensures_pure ⟨⟨hrestart.toSimilar, ?_, ?_, ?_⟩, rfl⟩
  · exact Nat.zero_le _
  · simp only
    omega
  · simp only
    omega

/-- A search for a block with small numbers ends with slots that are not late, or with an error. -/
theorem ensures_run (now : Journaled Graph) (hnow : now.state = g) :
    run.Ensures (fun _ graph => Timed block g graph) now := by
  refine (ensures_start hg hladen hlimit now hnow).bind fun search started _ hstarted => ?_
  exact (ensures_complete hg hladen hlimit hstarted.1 hstarted.2).focus fun _ _ htimed => htimed

end

end PipelineSearch

end SlotScheduling
