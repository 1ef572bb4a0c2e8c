import SlotScheduling.Proofs.Ensured
import SlotScheduling.Proofs.Pipeline.Started
import SlotScheduling.Proofs.Placement.ControlPath
import SlotScheduling.Proofs.Placement.Sized

/-!
# Straight-line control paths in time

Straight-line code starts over without an interval.  Both of its rounds can be made where numbers
are small, and end with slots that are not late, or with an error.
-/

namespace SlotScheduling

namespace Graph

variable {g h h' : Graph} {block : BlockId} {entrySlot interval limit distance : Nat}
  {exit : UnitId}

/-- The second graph is the first one with its control path in slots that are not late. -/
structure Timed (block : BlockId) (g h : Graph) : Prop where
  widened : ∃ interval ≤ horizon, Widened interval g h
  repeats : ∀ known ∈ h.interval? block, known ≤ horizon
  issues : h.IssuesBy (4 * horizon)

theorem Restarted.of_frame_eq (hrestart : Restarted interval g h) (hframe : h'.frame = h.frame)
    (hslots : ∀ id, h'.slot? id = h.slot? id) : Restarted interval g h' where
  toWidened := hrestart.toWidened.of_frame_eq hframe
  entry := (hslots _).trans hrestart.entry
  loop := fun hpos hloop => (hslots _).trans (hrestart.loop hpos hloop)
  cleared := fun hid hne hloop => (hslots _).trans (hrestart.cleared hid hne hloop)

end Graph

namespace ControlPath

open SlotScheduling.Graph

variable {g : Graph} {block : BlockId} {entrySlot limit distance : Nat} {exit : UnitId}
  {now : Journaled Graph}

section

variable (hg : Enclosed block entrySlot exit g) (hladen : g.Laden limit distance)
  (hlimit : limit < 2 ^ 20) (hrestart : Restarted 0 g now.state)
  (hnone : now.state.interval? block = none)

include hrestart

theorem placeEntry_of_restarted : placeEntry now = .ok ⟨⟩ now := by
  have hentry := hrestart.entry
  rw [← eq_of_skeleton_eq (·.entryRoot) hrestart.skeleton fun _ => rfl] at hentry
  obtain ⟨unit, hunit, hslot⟩ := Option.bind_eq_some_iff.mp hentry
  refine Step.updateChecked_eq_ok.mpr ⟨now.state, ?_, rfl⟩
  rw [unit_eq_ok.mpr hunit, Checked.ok_bind, hslot]
  rfl

include hnone

omit hrestart in
/-- Without an interval on record, the bounds of straight-line code are those of an attempt. -/
theorem attempts_of_straight {bounds : ControlBounds} (hpipelining : bounds.pipelining = false)
    (hends : bounds.criticalPathEnd = none)
    (hchained : ∀ {order chain}, bounds.order = some order → chain ∈ order.chains →
      chain.block = block ∧ ∀ id ∈ chain.units, now.state.IsControl id ∧ id ≠ exit) :
    bounds.Attempts block exit 0 now.state := by
  refine ⟨fun known hknown => ?_, fun last hlast => ?_, hchained⟩
  · rw [ControlBounds.interval?, hpipelining, if_neg (by simp), hnone] at hknown
    cases hknown
  · rw [hends] at hlast
    cases hlast

include hg hladen hlimit

theorem timed_of_placed {bounds : ControlBounds} {placed : Graph}
    (hplaced : ControlSystem.Placed now.state bounds placed)
    (hissues : placed.IssuesBy (g.deadline 0)) : Timed block g placed := by
  have hdeadline := hladen.deadline_le hg.toListed hlimit (Nat.zero_le _)
  refine ⟨⟨0, Nat.zero_le _, hrestart.toWidened.of_frame_eq hplaced.frame⟩, fun known hknown => ?_,
    hissues.mono (by omega)⟩
  rw [interval?_of_frame_eq hplaced.frame, hnone] at hknown
  cases hknown

/-- The second round starts from the slots that the first one started from. -/
theorem ensures_placeInOrder {first : Journaled Graph} {bounds : ControlBounds}
    {placed : List UnitId} {order : IssueOrder}
    (hplaced : ControlSystem.Placed now.state bounds first.state)
    (hfree : ∀ id, id ∈ placed ↔ id ∈ now.state.controlUnits ∧ now.state.slot? id = none)
    (hchains : ∀ chain ∈ order.chains, chain.block = block ∧
      ∀ id ∈ chain.units, now.state.IsControl id ∧ id ≠ exit) :
    (placeInOrder placed order).Ensures (fun _ h => Timed block g h) first := by
  have hsize := size_eq_of_skeleton_eq (skeleton_eq_of_frame_eq hplaced.frame)
  obtain ⟨cleared, hcleared⟩ : ∃ cleared,
      first.state.changeUnits placed (·.unplace) = .ok cleared :=
    exists_changeUnits fun id hid => hsize ▸
      ((hrestart.ofBlock hg).control.mp ((hfree id).mp hid).1).lt_size
  obtain ⟨hframe, hslots⟩ := hplaced.unplace hfree hcleared
  have hagain : Restarted 0 g (⟨cleared, first.journal⟩ : Journaled Graph).state :=
    hrestart.of_frame_eq hframe hslots
  have hnone' : (⟨cleared, first.journal⟩ : Journaled Graph).state.interval? block = none :=
    (congrFun (interval?_of_frame_eq hframe) block).trans hnone
  have hattempts : ({ order := some order } : ControlBounds).Attempts block exit 0 cleared := by
    refine attempts_of_straight hnone' rfl rfl fun horder hchain => ?_
    cases horder
    obtain ⟨hblock, hids⟩ := hchains _ hchain
    exact ⟨hblock, fun id hid =>
      ⟨(isControl_iff_of_frame_eq hframe).mpr (hids id hid).1, (hids id hid).2⟩⟩
  obtain ⟨sys, hbuild, hcases⟩ := hagain.exists_earliest hg hladen hlimit (Nat.zero_le _) hattempts
  refine (Step.ensures_updateChecked_bind_of_eq_ok hcleared).mpr (Step.ensures_current_bind
    ((Step.ensures_lift_bind_of_eq_ok hbuild).mpr ?_))
  rcases hcases with ⟨slots, last, hsolved, hplace, hlast, hissues⟩ | ⟨reason, hreason⟩
  · refine (Step.ensures_lift_bind_of_eq_ok (Checked.orMalformed_eq_ok.mpr hsolved)).mpr
      (Step.ensures_note_bind fun journal => ?_)
    exact Step.ensures_updateChecked (Checked.ensures_of_exists
      ⟨last, hplace, timed_of_placed hg hladen hlimit hagain hnone' hlast hissues⟩)
  · exact Step.ensures_orMalformed_bind hreason

/-- Both rounds of straight-line code end with slots that are not late, or with an error. -/
theorem ensures_schedule (hne : exit ≠ g.entryRoot) :
    schedule.Ensures (fun _ h => Timed block g h) now := by
  have hattempts : ({} : ControlBounds).Attempts block exit 0 now.state :=
    attempts_of_straight hnone rfl rfl fun horder => by cases horder
  obtain ⟨sys, hbuild, hcases⟩ :=
    hrestart.exists_earliest hg hladen hlimit (Nat.zero_le _) hattempts
  obtain ⟨base, hdescribes⟩ := ControlSystem.exists_describes hbuild
  have hlisted := (hrestart.ofBlock hg).toListed
  have hexit : exit ∈ now.state.controlUnits := hlisted.control.mpr
    (isControl_of_outline_eq (outline_eq_of_skeleton_eq hrestart.skeleton).symm hg.exitControl)
  have hfree : now.state.slot? exit = none := hrestart.cleared hg.exitControl
    hne fun hpos => absurd hpos (Nat.lt_irrefl 0)
  refine (Step.ensures_bind_of_eq_ok (placeEntry_of_restarted hrestart)).mpr
    (Step.ensures_current_bind ((Step.ensures_lift_bind_of_eq_ok hbuild).mpr
      (Step.ensures_note_bind fun journal => ?_)))
  rw [if_neg (hdescribes.unknowns_ne_zero hexit hfree)]
  rcases hcases with ⟨slots, first, hsolved, hplace, hplaced, hissues⟩ | ⟨reason, hreason⟩
  swap
  · exact Step.ensures_orMalformed_bind hreason
  obtain ⟨order, horder, hchains⟩ := (hg.of_skeleton_eq
    ((skeleton_eq_of_frame_eq hplaced.frame).trans hrestart.skeleton)).exists_issueOrder
  refine (Step.ensures_lift_bind_of_eq_ok (Checked.orMalformed_eq_ok.mpr hsolved)).mpr
    ((Step.ensures_updateChecked_bind_of_eq_ok hplace).mpr (Step.ensures_current_bind
      ((Step.ensures_lift_bind_of_eq_ok horder).mpr ?_)))
  have hdone : ∀ {last : Journaled Graph}, Timed block g last.state →
      Graph.reanchor.Ensures (fun _ h => Timed block g h) last := by
    intro last htimed
    obtain ⟨interval, -, hwidened⟩ := htimed.widened
    exact Step.ensures_of_eq_ok (hwidened.toSimilar.ofBlock hg).reanchor_eq htimed
  split
  · refine (ensures_placeInOrder hg hladen hlimit hrestart hnone hplaced
      (fun id => hdescribes.mem_placed hsolved) fun chain hchain => ?_).bind
        fun _ _ _ htimed => hdone htimed
    obtain ⟨hblock, hids⟩ := hchains chain hchain
    exact ⟨hblock, fun id hid =>
      ⟨(isControl_iff_of_frame_eq hplaced.frame).mp (hids id hid).1, (hids id hid).2⟩⟩
  · exact hdone (timed_of_placed hg hladen hlimit hrestart hnone hplaced hissues)

end

end ControlPath

end SlotScheduling
