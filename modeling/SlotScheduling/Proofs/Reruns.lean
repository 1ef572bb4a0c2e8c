import SlotScheduling.Proofs.Messages
import SlotScheduling.Proofs.Pipeline.Rested
import SlotScheduling.Proofs.Placement.ControlPath

/-!
# Control paths that are scheduled again

A restart undoes all that the control path decides but its anchors.  So a graph whose dependencies
between blocks are anchored already comes out the same once more.  Where a dependency is anchored
anew, its latency is what the slots of the first run leave of it, and the second run may find
another issue order for it.
-/

namespace SlotScheduling

open SlotScheduling.Graph

variable {g : Graph}

/-! ## What the control path leaves to a restart -/

namespace ControlPath

theorem maintains_rested_placeEntry : placeEntry.Maintains fun h => h.rested = g.rested := by
  refine Step.maintains_updateChecked fun h h' hplace hrested => ?_
  obtain ⟨unit, _, hplace⟩ := Checked.bind_eq_ok.mp hplace
  split at hplace
  · exact (rested_changeSlot hplace (Or.inl rfl)).trans hrested
  · obtain rfl := Checked.pure_eq_ok.mp hplace
    exact hrested

theorem maintains_rested_placeAll {system : ConstraintSystem} {bounds : ControlBounds}
    {slots : List (UnitId × Nat)} {h : Graph} (hrested : h.rested = g.rested)
    (hsystem : ControlSystem.build h bounds = .ok system) (hslots : system.earliest = .ok slots) :
    (∀ id ∈ slots.map Prod.fst, id ∈ g.controlUnits) ∧
      (Step.updateChecked (·.placeAll slots)).Maintains fun h : Graph => h.rested = g.rested := by
  obtain ⟨base, hdescribes⟩ := ControlSystem.exists_describes hsystem
  have hcontrol : ∀ {h : Graph}, h.rested = g.rested → h.controlUnits = g.controlUnits :=
    fun hrested => eq_of_rested_eq (·.controlUnits) hrested fun _ => rfl
  have hids : ∀ id ∈ slots.map Prod.fst, id ∈ g.controlUnits := fun id hid =>
    hcontrol hrested ▸ ((hdescribes.mem_placed hslots).mp hid).1
  refine ⟨hids, Step.maintains_updateChecked fun h h' hplace hrested => ?_⟩
  refine (rested_placeAll hplace fun placement hmem => ?_).trans hrested
  rw [hcontrol hrested]
  exact hids _ (List.mem_map_of_mem hmem)

theorem maintains_rested_placeInOrder {placed : List UnitId} {order : IssueOrder}
    (hplaced : ∀ id ∈ placed, id ∈ g.controlUnits) :
    (placeInOrder placed order).Maintains fun h => h.rested = g.rested := by
  unfold placeInOrder
  refine Step.Maintains.bind (Step.maintains_updateChecked fun h h' hclear hrested => ?_)
    fun _ => ?_
  · have hcontrol : h.controlUnits = g.controlUnits :=
      eq_of_rested_eq (·.controlUnits) hrested fun _ => rfl
    exact (rested_unplaceAll hclear (hcontrol ▸ hplaced)).trans hrested
  refine Step.maintains_current_bind fun h hrested => ?_
  refine Step.maintains_lift_bind fun system hsystem => ?_
  refine Step.maintains_lift_bind fun slots hslots => ?_
  refine (Step.maintains_note _ _).bind fun _ => ?_
  exact (maintains_rested_placeAll hrested hsystem (Checked.orMalformed_eq_ok.mp hslots)).2

/-- Where no dependency is anchored anew, a restart undoes a schedule of the control path. -/
theorem maintains_rested_schedule (hg : g.IsAnchored) :
    schedule.Maintains fun h => h.rested = g.rested := by
  have hreanchor : Graph.reanchor.Maintains fun h => h.rested = g.rested :=
    maintains_reanchor_of_isAnchored fun hrested =>
      hg.of_skeleton_eq (skeleton_eq_of_rested_eq hrested)
  unfold schedule
  refine maintains_rested_placeEntry.bind fun _ => ?_
  refine Step.maintains_current_bind fun h hrested => ?_
  refine Step.maintains_lift_bind fun system hsystem => ?_
  refine (Step.maintains_note _ _).bind fun _ => ?_
  apply Step.maintains_ite
  · exact Step.maintains_pure _
  refine Step.maintains_lift_bind fun slots hslots => ?_
  obtain ⟨hplaced, hplace⟩ :=
    maintains_rested_placeAll hrested hsystem (Checked.orMalformed_eq_ok.mp hslots)
  refine hplace.bind fun _ => ?_
  refine Step.maintains_current_bind fun h' _ => ?_
  refine Step.Maintains.bind (Step.maintains_lift _) fun order => ?_
  split
  · exact (maintains_rested_placeInOrder hplaced).bind fun _ => hreanchor
  · exact hreanchor

end ControlPath

/-! ## A second run -/

namespace Graph

variable {now last : Journaled Graph} {result : PUnit}

/-- Start the control path over and schedule it. -/
def rerun : Step Graph PUnit := do
  resetControl 0
  ControlPath.schedule

theorem rested_of_resetControl_zero (h : resetControl 0 now = .ok result last) :
    last.state.rested = now.state.rested := by
  obtain ⟨cleared, hclear, hwiden⟩ := resetControl_zero_cases h
  exact (rested_widenExit hwiden).trans (rested_clearControl hclear)

/-- Where no dependency is anchored anew, a second run leaves the graph of the first one. -/
theorem rerun_rerun (hg : now.state.IsAnchored) (h : rerun now = .ok result last) :
    ∃ again, rerun last = .ok result again ∧ again.state = last.state := by
  obtain ⟨_, started, hreset, hschedule⟩ := Step.bind_eq_ok.mp h
  have hstart := rested_of_resetControl_zero hreset
  obtain ⟨hrestartable, rfl⟩ := resetControl_zero_eq_ok_iff.mp hreset
  have hrested : last.state.rested = now.state.rested :=
    (ControlPath.maintains_rested_schedule hg).of_eq_ok hstart hschedule
  have hagain : resetControl 0 last = .ok ⟨⟩ ⟨last.state.rested, last.journal⟩ :=
    resetControl_zero_eq_ok_iff.mpr ⟨hrestartable.of_rested_eq hrested, rfl⟩
  rw [rerun, Step.bind_of_eq_ok hagain]
  obtain ⟨_, _, hthreshold⟩ := ControlPath.ignores_schedule.of_eq_ok ⟨rfl, rfl, rfl⟩ hschedule
  have hstarts : Alike now.journal.threshold Eq ⟨now.state.rested, now.journal⟩
      ⟨last.state.rested, last.journal⟩ := ⟨hrested.symm, rfl, hthreshold.left⟩
  obtain ⟨again, hrun, hsame⟩ := ControlPath.ignores_schedule.of_eq_ok hstarts hschedule
  exact ⟨again, hrun, hsame.state.symm⟩

/-- Two multiplications on one function unit, and two loads of the next block on another one, each
of which waits for one of the products. -/
def crossedLoads : Program where
  ops := ⟨#[.control "mul" 0 ⟨.mult, 0⟩, .control "mul" 0 ⟨.mult, 0⟩, .branch 0 1,
    .control "load" 1 ⟨.blockRam, 0⟩, .control "load" 1 ⟨.blockRam, 0⟩]⟩
  oracle :=
    { dependences := fun op =>
        if op = 3 then some [.value 1 5] else if op = 4 then some [.value 0 5] else some [.liveIn]
      stepsToFinish := fun _ => 0 }

/-- The loads issue one after the other at first.  That raises the latency of the second one, and a
second run puts the other one first. -/
theorem crossedLoads_change_places :
    ∃ g built last again,
      (do
        let l ← Lowering.lowerBlock crossedLoads (Lowering.start 0 1) ⟨0, [0, 1, 2]⟩
        let l ← Lowering.lowerBlock crossedLoads l ⟨1, [3, 4]⟩
        l.finish : Step PUnit Graph) ⟨⟨⟩, {}⟩ = .ok g built ∧
      (∀ unit ∈ g.units, ∀ dep ∈ unit.deps.entries, dep.2.edge.distance = 0) ∧
      rerun ⟨g, {}⟩ = .ok ⟨⟩ last ∧ rerun last = .ok ⟨⟩ again ∧
      last.state.slots = [some 1, some 1, some 2, some 1, some 1, some 7, some 8, some 8] ∧
      again.state.slots = [some 1, some 1, some 2, some 1, some 1, some 7, some 6, some 7] := by
  have hsucceeds : (do
      let l ← Lowering.lowerBlock crossedLoads (Lowering.start 0 1) ⟨0, [0, 1, 2]⟩
      let l ← Lowering.lowerBlock crossedLoads l ⟨1, [3, 4]⟩
      l.finish : Step PUnit Graph).succeeds ⟨⟨⟩, {}⟩ (fun g =>
        decide (∀ unit ∈ g.units, ∀ dep ∈ unit.deps.entries, dep.2.edge.distance = 0) &&
        (rerun >>= fun _ => Step.current >>= fun last => rerun >>= fun _ => Step.current >>=
          fun again => pure (last.slots, again.slots)).succeeds ⟨g, {}⟩ (· =
            ([some 1, some 1, some 2, some 1, some 1, some 7, some 8, some 8],
              [some 1, some 1, some 2, some 1, some 1, some 7, some 6, some 7]))) = true := by
    decide +kernel
  obtain ⟨g, built, hbuild, htest⟩ := Step.exists_of_succeeds hsucceeds
  obtain ⟨hdistance, hruns⟩ := (Bool.and_eq_true _ _).mp htest
  obtain ⟨slots, _, hruns, hslots⟩ := Step.exists_of_succeeds hruns
  obtain ⟨_, last, hfirst, hruns⟩ := Step.bind_eq_ok.mp hruns
  rw [Step.current_bind] at hruns
  obtain ⟨_, again, hsecond, hruns⟩ := Step.bind_eq_ok.mp hruns
  rw [Step.current_bind] at hruns
  obtain ⟨rfl, rfl⟩ := Step.pure_eq_ok.mp hruns
  obtain ⟨hlast, hagain⟩ := Prod.mk.inj (of_decide_eq_true hslots)
  exact ⟨g, built, last, _, hbuild, of_decide_eq_true hdistance, hfirst, hsecond, hlast, hagain⟩

end Graph

end SlotScheduling
