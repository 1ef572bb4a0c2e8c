import SlotScheduling.Proofs.BlockEnds
import SlotScheduling.Proofs.Graph.Exits
import SlotScheduling.Proofs.Rescheduling

/-!
# Final results

A block is not left before the results of those control units are final that nothing but its exit
depends on.  Moves are the exception: whatever the exit was made to wait for, every restart replaces
its latency for a move by the interval, which is zero for straight-line code.
-/

namespace SlotScheduling

namespace Graph

variable {g h : Graph} {block : BlockId} {entrySlot : Nat} {exit source : UnitId}
  {options : SchedulingOptions} {now last : Journaled Graph} {result : PUnit}

/-! ## What restarts keep -/

/-- A restart leaves the edges of the exit that do not come from moves. -/
theorem bundle?_rested (hexit : g.exitRoot = some exit) (hmove : ¬g.IsMove source) :
    g.rested.bundle? exit source = g.bundle? exit source := by
  simp only [bundle?, rested, Array.getElem?_mapIdx]
  cases g.units[exit]? with
  | none => rfl
  | some unit =>
      have hdeps : (g.restUnit exit unit).deps =
          unit.deps.modifyIf g.IsMove (·.withLatency 0) := by
        rw [restUnit, if_pos hexit, widenUnit, agrees_clearUnit.deps]
      rw [Option.map_some, Option.bind_some, Option.bind_some, ScheduleUnit.dep?, hdeps,
        Table.get?_modifyIf, if_neg hmove, ScheduleUnit.dep?]

theorem bundle?_of_rested_eq (hrested : h.rested = g.rested) (hexit : g.exitRoot = some exit)
    (hmove : ¬g.IsMove source) : h.bundle? exit source = g.bundle? exit source := by
  have hskeleton := skeleton_eq_of_rested_eq hrested
  have hexit' : h.exitRoot = some exit := (exitRoot_of_skeleton_eq hskeleton).trans hexit
  have hmove' : ¬h.IsMove source := (isMove_of_skeleton_eq hskeleton).not.mpr hmove
  rw [← bundle?_rested hexit' hmove', hrested, bundle?_rested hexit hmove]

/-- A schedule leaves the edges of the exit that do not come from moves. -/
theorem exitBundle_of_schedule (hg : now.state.OfBlock block entrySlot)
    (hexit : now.state.exitRoot = some exit) (hmove : ¬now.state.IsMove source)
    (h : schedule options now = .ok result last) :
    last.state.bundle? exit source = now.state.bundle? exit source := by
  obtain ⟨_, middle, hcontrol, hdata⟩ := schedule_eq_ok_iff.mp h
  obtain ⟨noted, hstate, _, hrun⟩ := exists_dataPath hdata
  rw [bundle?_of_frame_eq ((DataPath.keeps_schedule options).of_eq_ok hrun), hstate]
  split at hcontrol
  · obtain ⟨given, hgiven, ⟨_, hrun⟩ | ⟨_, _, _, failed, hrun, straight, hstraight, hcontrol⟩⟩ :=
      schedulePipelined_cases hcontrol
    all_goals rw [← hgiven] at hg hexit hmove ⊢
    · have hrested := PipelineSearch.rested_of_run
        (fun hloop => hg.control.mpr (hg.loop hloop)) rfl hrun
      have hskeleton : middle.state.skeleton = given.state.skeleton :=
        PipelineSearch.keeps_run.of_eq_ok hrun
      rw [← bundle?_rested ((exitRoot_of_skeleton_eq hskeleton).trans hexit)
        ((isMove_of_skeleton_eq hskeleton).not.mpr hmove), hrested]
      exact bundle?_rested hexit hmove
    · have hrested := PipelineSearch.rested_of_run_eq_error
        (fun hloop => hg.control.mpr (hg.loop hloop)) rfl hrun
        (Failure.not_isFinal_searchExhausted _ _ _)
      have hrested' : middle.state.rested = given.state.disablePipeline.rested := by
        have hblock : straight.state.OfBlock block entrySlot := by
          rw [hstraight]
          exact (hg.of_skeleton_eq (skeleton_eq_of_rested_eq hrested)).disablePipeline
        rw [rested_of_scheduleStraight hblock.isAnchored hcontrol, hstraight,
          rested_disablePipeline, hrested, rested_disablePipeline]
      exact bundle?_of_rested_eq (g := given.state.disablePipeline) hrested' hexit hmove
  · exact bundle?_of_rested_eq (rested_of_scheduleStraight hg.isAnchored hcontrol) hexit hmove

end Graph

open SlotScheduling.Graph

variable {σ : Type} {program : Program} {basic : BasicBlock} {entrySlot : Nat}
  {options : SchedulingOptions} {now last : Journaled σ} {g : Graph} {exit id : UnitId}
  {unit : ScheduleUnit}

/-! ## Units that only the exit depends on -/

/-- The exit of a block that was built waits until the result of a control unit is final that
nothing else depends on. -/
theorem Lowering.exitBundle_buildBlock
    (hbuild : buildBlock program basic entrySlot now = .ok g last)
    (hexit : g.exitRoot = some exit) (hunit : g.units[id]? = some unit)
    (hcontrol : unit.control = true) (hne : id ≠ exit)
    (hunused : ∀ user, g.DependsOn user id → user = exit) :
    ∃ bundle, g.bundle? exit id = some bundle ∧ bundle.edge = .value unit.latency := by
  obtain ⟨l, now', hlower, hfinish⟩ := Step.bind_eq_ok.mp hbuild
  have hlow := (ofBlock_lowerBlock hlower).1
  have hfinishes := finishes_of_finish hlow.toWellFormed (Step.lift_eq_ok.mp hfinish).1
  obtain rfl := Option.some.inj (hfinishes.exitRoot.symm.trans hexit)
  obtain ⟨hlt, low, hlowUnit, hbare⟩ :=
    (hfinishes.unit_cases hunit).resolve_right fun hlast => hne hlast.1
  have hcontrol' : low.control = true := by
    have hsame := congrArg ScheduleUnit.control hbare
    exact hsame.symm.trans hcontrol
  have hlatency : low.latency = unit.latency := by
    have hsame := congrArg ScheduleUnit.latency hbare
    exact hsame.symm
  have huses : low.uses.size = 0 := by
    by_contra hsome
    obtain ⟨user, hdepends⟩ := (exists_dependsOn hlow.toWellFormed hlowUnit).mpr hsome
    have huser : user < l.graph.units.size := lt_size_of_getElem? hdepends.choose_spec.1
    obtain ⟨bundle, hbundle⟩ := dependsOn_iff_bundle?.mp hdepends
    rw [← hfinishes.agrees.edges huser] at hbundle
    exact Nat.ne_of_lt huser (hunused user (dependsOn_iff_bundle?.mpr ⟨bundle, hbundle⟩))
  obtain ⟨bundle, hbundle, hedge⟩ :=
    hfinishes.latency ⟨low, hlowUnit, hcontrol', Or.inl huses⟩ hlowUnit
  refine ⟨bundle, hbundle, ?_⟩
  rw [hedge, exitLatency, if_pos huses, hlatency]

theorem exitBundle_of_eq_ok
    (h : (do
      let g ← Lowering.buildBlock program basic entrySlot
      scheduleApart options g : Step σ Graph) now = .ok g last)
    (hexit : g.exitRoot = some exit) (hunit : g.units[id]? = some unit)
    (hcontrol : unit.control = true) (hphi : unit.phi = false) (hne : id ≠ exit)
    (hunused : ∀ user, g.DependsOn user id → user = exit) :
    ∃ bundle, g.bundle? exit id = some bundle ∧ bundle.edge = .value unit.latency := by
  obtain ⟨built, now', hbuild, hrun⟩ := Step.bind_eq_ok.mp h
  obtain ⟨⟨result, scheduled⟩, hrun, rfl⟩ := Step.map_eq_ok.mp hrun
  obtain ⟨finished, hschedule, rfl, _⟩ := Step.apart_eq_ok.mp hrun
  obtain ⟨built', _, hbuild', hscheduled⟩ := scheduled_of_eq_ok h
  obtain ⟨rfl, _⟩ := EStateM.Result.ok.inj (hbuild'.symm.trans hbuild)
  have hshape : finished.state.disablePipeline.skeleton = built'.disablePipeline.skeleton :=
    hscheduled.shape
  obtain ⟨old, hold, hskeleton, _⟩ := exists_of_skeleton_eq hshape hunit
  have hlatency : old.latency = unit.latency := by
    have hsame := congrArg ScheduleUnit.latency hskeleton
    exact hsame.symm
  have hbuiltExit : built'.exitRoot = some exit :=
    (exitRoot_of_skeleton_eq hshape).symm.trans hexit
  have hmove : ¬built'.IsMove id := by
    rintro ⟨found, hfound, htrue⟩
    obtain rfl := Option.some.inj (hold.symm.trans hfound)
    rw [← phi_of_skeleton_eq hskeleton, hphi] at htrue
    cases htrue
  have hblock : (Journaled.mk built' now'.journal).state.OfBlock basic.id entrySlot :=
    (Lowering.ofBlock_buildBlock hbuild).1
  have hkept : finished.state.bundle? exit id = built'.bundle? exit id :=
    exitBundle_of_schedule hblock hbuiltExit hmove hschedule
  rw [hkept, ← hlatency]
  refine Lowering.exitBundle_buildBlock hbuild hbuiltExit hold
    ((ScheduleUnit.control_of_skeleton_eq hskeleton).symm.trans hcontrol) hne
    fun user hdepends => ?_
  exact hunused user (dependsOn_of_outline_eq (outline_eq_of_skeleton_eq hshape).symm hdepends)

/-- The exit of a block comes no earlier than the final slot of a control unit that nothing else
depends on, and no earlier than the start of such a move. -/
theorem exit_afterUnused
    (h : (do
      let g ← Lowering.buildBlock program basic entrySlot
      scheduleApart options g : Step σ Graph) now = .ok g last)
    (hunit : g.units[id]? = some unit) (hcontrol : unit.control = true)
    (hexit : g.exitRoot ≠ some id)
    (hunused : ∀ user, g.DependsOn user id → g.exitRoot = some user) :
    ∃ exit s t, g.exitRoot = some exit ∧ unit.slot = some s ∧ g.slot? exit = some t ∧
      s + (if unit.phi = true then 0 else unit.latency) ≤ t := by
  obtain ⟨exit, henclosed, hends⟩ := exists_endsAt h
  have hroot : g.exitRoot = some exit := henclosed.exitRoot
  obtain ⟨s, hs⟩ := hends.placed (lt_size_of_getElem? hunit)
  obtain ⟨t, ht⟩ := hends.placed henclosed.exitControl.lt_size
  have hslot : unit.slot = some s := (slot?_eq hunit).symm.trans hs
  refine ⟨exit, s, t, hroot, hslot, ht, ?_⟩
  by_cases hphi : unit.phi = true
  · rw [if_pos hphi, Nat.add_zero]
    exact hends.before (hends.moves ⟨unit, hunit, hphi⟩) hs ht
  rw [if_neg hphi]
  -- The edge was made when the block was built, and no restart has changed it since.
  obtain ⟨bundle, hbundle, hedge⟩ :
      ∃ bundle, g.bundle? exit id = some bundle ∧ bundle.edge = .value unit.latency :=
    exitBundle_of_eq_ok h hroot hunit hcontrol (Bool.eq_false_iff.mpr hphi)
      (fun heq => hexit (heq ▸ hroot)) fun user hdepends =>
        Option.some.inj ((hunused user hdepends).symm.trans hroot)
  have hfollowed : g.WaitsWithin id exit := ⟨bundle, hbundle, by rw [hedge]; rfl⟩
  obtain ⟨consumer, hconsumer, hdep⟩ := exists_of_bundle? hbundle
  have hcounts := counts_of_getElem? hconsumer (Or.inl henclosed.exitControl)
  cases hpipelined : g.isPipelined with
  | false =>
      obtain ⟨s', t', hs', ht', hle⟩ :=
        (straightLine_legal h hpipelined).ordered hconsumer hcounts hdep (by rw [hedge]; rfl)
      obtain rfl := Option.some.inj (hs.symm.trans hs')
      obtain rfl := Option.some.inj (ht.symm.trans ((slot?_eq hconsumer).trans ht'))
      rwa [hedge] at hle
  | true =>
      obtain ⟨interval, _, hlegal⟩ := pipelined_legal h hpipelined
      obtain ⟨producer, hproducer, s', t', hs', ht', hgap⟩ :=
        hlegal.ordered hconsumer hcounts hdep
      obtain rfl := Option.some.inj (hunit.symm.trans hproducer)
      obtain rfl := Option.some.inj (hslot.symm.trans hs')
      obtain rfl := Option.some.inj (ht.symm.trans ((slot?_eq hconsumer).trans ht'))
      rw [hedge, if_neg hphi] at hgap
      have hgap : (unit.latency : Int) - (0 + 0 : Nat) * interval ≤ (t : Int) - s := hgap
      omega

/-- A move that takes five steps. -/
def slowMove : Program where
  ops := ⟨#[{ Operation.control "phi" 0 .trivial with phi := true }]⟩
  oracle :=
    { dependences := fun _ => some [.liveIn]
      stepsToFinish := fun _ => 5 }

/-- The exit was made to wait for the end of the move, which nothing else uses, and comes with its
start. -/
theorem exit_notAfterMove :
    ∃ built g now last, (Lowering.buildBlock slowMove ⟨0, [0]⟩ 1 : Step PUnit Graph) ⟨⟨⟩, {}⟩ =
        .ok built now ∧ (built.bundle? 2 1).map (·.edge) = some (.value 5) ∧
      (scheduleApart {} built : Step PUnit Graph) ⟨⟨⟩, {}⟩ = .ok g last ∧ g.isPipelined = false ∧
      g.exitRoot = some 2 ∧ (g.units[1]?).map (·.uses.toList) = some [2] ∧
      g.slot? 1 = some 1 ∧ g.slot? 2 = some 1 := by
  have hsucceeds : (Lowering.buildBlock slowMove ⟨0, [0]⟩ 1 : Step PUnit Graph).succeeds ⟨⟨⟩, {}⟩
      (fun built => decide ((built.bundle? 2 1).map (·.edge) = some (.value 5)) &&
        (scheduleApart {} built : Step PUnit Graph).succeeds ⟨⟨⟩, {}⟩ (fun g =>
          decide (g.isPipelined = false ∧ g.exitRoot = some 2 ∧
            (g.units[1]?).map (·.uses.toList) = some [2] ∧
            g.slot? 1 = some 1 ∧ g.slot? 2 = some 1))) = true := by
    decide +kernel
  obtain ⟨built, now, hbuild, htest⟩ := Step.exists_of_succeeds hsucceeds
  rw [Bool.and_eq_true, decide_eq_true_eq] at htest
  obtain ⟨g, last, hrun, htest'⟩ := Step.exists_of_succeeds htest.2
  exact ⟨built, g, now, last, hbuild, htest.1, hrun, of_decide_eq_true htest'⟩

end SlotScheduling
