import SlotScheduling.Proofs.Acyclic.Rounds
import SlotScheduling.Proofs.Pipeline.Rested

/-!
# Earliest control paths

Where every operation of a block waits for operations before it, the control path can be scheduled,
unless it would take slots that are not words, and no schedule with the same order of the shared
function units is earlier.  Neither data-path units nor the order that the first round leaves behind
stand in the way of that.
-/

namespace SlotScheduling

open SlotScheduling.Graph

variable {g h : Graph} {orders : UnitId → UnitId → Prop} {block : BlockId} {entrySlot : Nat}
  {slots first : UnitId → Int} {id exit : UnitId}

namespace Graph

theorem Respects.of_frame_eq (hslots : g.Respects orders slots) (hframe : h.frame = g.frame) :
    h.Respects orders slots := by
  have hskeleton := skeleton_eq_of_frame_eq hframe
  have hentrySlot : h.entrySlot = g.entrySlot :=
    eq_of_skeleton_eq (·.entrySlot) hskeleton fun _ => rfl
  refine ⟨hentrySlot ▸ hslots.entry, fun hid => ?_, fun hbundle => ?_, hslots.turns⟩
  · rw [hentrySlot]
    exact hslots.after (size_eq_of_skeleton_eq hskeleton ▸ hid)
  · rw [bundle?_of_frame_eq hframe] at hbundle
    exact hslots.met hbundle

theorem Earliest.of_frame_eq (hslots : g.Earliest orders slots) (hframe : h.frame = g.frame) :
    h.Earliest orders slots :=
  ⟨hslots.toRespects.of_frame_eq hframe, fun hslots' _ hid =>
    hslots.least (hslots'.of_frame_eq hframe.symm)
      (size_eq_of_skeleton_eq (skeleton_eq_of_frame_eq hframe) ▸ hid)⟩

end Graph

theorem ControlBounds.Poses.of_frame_eq {bounds : ControlBounds} (hposes : bounds.Poses g orders)
    (hframe : h.frame = g.frame) : bounds.Poses h orders where
  placing := hposes.placing
  unended := hposes.unended
  unwindowed := hposes.unwindowed
  chained horder hchain hid :=
    (isControl_iff_of_frame_eq hframe).mpr (hposes.chained horder hchain hid)
  control horder := (hposes.control horder).imp (isControl_iff_of_frame_eq hframe).mpr
    (isControl_iff_of_frame_eq hframe).mpr
  chains := hposes.chains

/-- Bounds without an order ask for none. -/
theorem ControlBounds.poses_nothing (horders : ∀ {source user}, ¬orders source user) :
    ControlBounds.Poses {} g orders where
  placing := rfl
  unended := rfl
  unwindowed := rfl
  chained horder := by cases horder
  control horder := absurd horder horders
  chains := ⟨fun _ _ _ horder => (by cases horder), fun _ _ _ horder => absurd horder horders⟩

namespace ControlPath

variable {now : Journaled Graph} {order : IssueOrder} {placed : List UnitId}

theorem placeEntry_of_slot? {slot : Nat}
    (hslot : now.state.slot? now.state.entryRoot = some slot) : placeEntry now = .ok ⟨⟩ now := by
  obtain ⟨unit, hunit, hplaced⟩ := Option.bind_eq_some_iff.mp hslot
  refine Step.updateChecked_eq_ok.mpr ⟨now.state, ?_, rfl⟩
  rw [unit_eq_ok.mpr hunit, Checked.ok_bind, hplaced]
  rfl

/-- A unit with a slot has it as its number. -/
theorem exists_slot_of_slotAt {bounds : ControlBounds}
    (hplaced : ControlSystem.Placed g bounds h) (hg : g.Listed) (hid : g.IsControl id)
    (hslot : h.slotAt id = slots id) :
    ∃ slot : Nat, h.slot? id = some slot ∧ slot = slots id := by
  obtain ⟨slot, hsome⟩ := hplaced.scheduled (hg.control.mpr hid)
  exact ⟨slot, hsome, (slotAt_eq hsome).symm.trans hslot⟩

/-- The second round places the units of the first one again, in order. -/
theorem exists_placeInOrder (hg : Acyclic block entrySlot exit g) (hsize : g.units.size < 2 ^ 64)
    (hposes : ControlBounds.Poses { order := some order } g orders)
    (hslots : g.Earliest orders slots)
    (hwords : ∀ {id}, g.IsControl id → slots id < Word.count)
    (hfirst : ControlSystem.Placed g {} now.state)
    (hplaced : ∀ id, id ∈ placed ↔ id ∈ g.controlUnits ∧ g.slot? id = none) :
    ∃ last, placeInOrder placed order now = .ok ⟨⟩ last ∧ last.state.frame = g.frame ∧
      ∀ {id}, g.IsControl id → ∃ slot : Nat, last.state.slot? id = some slot ∧ slot = slots id := by
  have hcount := size_eq_of_skeleton_eq (skeleton_eq_of_frame_eq hfirst.frame)
  obtain ⟨cleared, hcleared⟩ : ∃ cleared, now.state.changeUnits placed (·.unplace) = .ok cleared :=
    exists_changeUnits fun id hid => hcount ▸ (hg.control.mp ((hplaced id).mp hid).1).lt_size
  obtain ⟨hframe, hfree⟩ := hfirst.unplace hplaced hcleared
  have hcontrol : ∀ {id}, cleared.IsControl id ↔ g.IsControl id := isControl_iff_of_frame_eq hframe
  obtain ⟨sys, placed', g', hbuild, -, hsolve, -, hplace, hsecond, hsame⟩ :=
    (hg.of_frame_eq hframe hfree).exists_round (hposes.of_frame_eq hframe)
      (size_eq_of_skeleton_eq (skeleton_eq_of_frame_eq hframe) ▸ hsize)
      (hslots.of_frame_eq hframe) fun hid => hwords (hcontrol.mp hid)
  obtain ⟨last, hrun, rfl⟩ :
      ∃ last, placeInOrder placed order now = .ok ⟨⟩ last ∧ last.state = g' := by
    simp only [placeInOrder, Step.updateChecked_bind_eq_ok, Step.current_bind,
      Step.lift_bind_eq_ok, Step.note_bind, Step.updateChecked_eq_ok]
    exact ⟨_, ⟨cleared, hcleared, sys, hbuild, placed', Checked.orMalformed_eq_ok.mpr hsolve, _,
      hplace, rfl⟩, rfl⟩
  have hlisted : cleared.Listed := (hg.of_frame_eq hframe hfree).toListed
  exact ⟨last, hrun, hsecond.frame.trans hframe, fun hid =>
    exists_slot_of_slotAt hsecond hlisted (hcontrol.mpr hid) (hsame (hcontrol.mpr hid))⟩

/-- The control path can be scheduled if the lowest slots in order are words, and has these slots
then. -/
theorem exists_schedule (hg : Acyclic block entrySlot exit now.state)
    (hsize : now.state.units.size < 2 ^ 64)
    (hfirst : now.state.Earliest (fun _ _ => False) first)
    (hslots : now.state.Earliest (now.state.Turns first) slots)
    (hwords : ∀ {id}, now.state.IsControl id → slots id < Word.count) :
    ∃ last, schedule now = .ok ⟨⟩ last ∧ ∀ {id}, now.state.IsControl id →
      ∃ slot : Nat, last.state.slot? id = some slot ∧ slot = slots id := by
  have hle : ∀ {id}, now.state.IsControl id → first id ≤ slots id := fun hid =>
    hfirst.least (hslots.toRespects.mono fun h => h.elim) hid.lt_size
  obtain ⟨sys, placed, g, hbuild, hfree, hsolve, hplaced, hplace, hround, hsame⟩ :=
    hg.exists_round (ControlBounds.poses_nothing fun h => h) hsize hfirst
      fun hid => (hle hid).trans_lt (hwords hid)
  have hskeleton := skeleton_eq_of_frame_eq hround.frame
  obtain ⟨order, horder, -⟩ := IssueOrder.exists_build (hg.toOfBlock.of_skeleton_eq hskeleton)
  obtain ⟨middle, hrun, rfl⟩ : ∃ middle, (∀ last, schedule now = .ok ⟨⟩ last ↔
      (if order.isEmpty = false then do
        placeInOrder (placed.map Prod.fst) order
        reanchor
      else reanchor) middle = .ok ⟨⟩ last) ∧ middle.state = g := by
    rw [schedule, Step.bind_of_eq_ok (placeEntry_of_slot? hg.placed), Step.current_bind,
      Step.lift_bind_of_eq_ok hbuild, Step.note_bind, if_neg hfree,
      Step.lift_bind_of_eq_ok (Checked.orMalformed_eq_ok.mpr hsolve)]
    simp only [Step.updateChecked_bind_eq_ok, hplace, Except.ok.injEq, exists_eq_left',
      Step.current_bind, Step.lift_bind_eq_ok, horder]
    exact ⟨_, fun _ => Iff.rfl, rfl⟩
  have hend : ∀ {last : Journaled Graph}, last.state.frame = now.state.frame →
      reanchor last = .ok ⟨⟩ last := fun hframe => (hg.toOfBlock.of_frame_eq hframe).reanchor_eq
  by_cases hempty : order.isEmpty = false
  · obtain ⟨last, hsecond, hframe, hlast⟩ := exists_placeInOrder hg hsize
      (poses_of_build hg.toOfBlock hskeleton horder hsame) hslots hwords hround hplaced
    refine ⟨last, (hrun last).mpr ?_, hlast⟩
    rw [if_pos hempty, Step.bind_of_eq_ok hsecond]
    exact hend hframe
  · -- No unit shares its function unit, so that the first round is in order already.
    have hturns : ∀ {source user}, ¬now.state.Turns first source user := fun hturns => by
      obtain ⟨chain, hchain, -⟩ :=
        exists_chain_of_shares hg.toOfBlock hskeleton horder hturns.1
      rw [show order.chains = [] by simpa [IssueOrder.isEmpty] using hempty] at hchain
      exact List.not_mem_nil hchain
    refine ⟨middle, (hrun middle).mpr ?_, fun {id} hid =>
      exists_slot_of_slotAt hround hg.toListed hid ((hsame hid).trans ?_)⟩
    · rw [if_neg hempty]
      exact hend hround.frame
    · exact le_antisymm (hle hid)
        (hslots.least (hfirst.toRespects.mono fun h => absurd h hturns) hid.lt_size)

end ControlPath

/-! ## Built blocks -/

section

variable {σ : Type} {program : Program} {basic : BasicBlock} {before built : Journaled σ}

/-- A block that is created in order can start over. -/
theorem Lowering.exists_acyclic (journal : Journal)
    (hbuild : buildBlock program basic entrySlot before = .ok g built)
    (horder : CreatedInOrder program basic g) :
    ∃ exit started, resetControl 0 ⟨g, journal⟩ = .ok ⟨⟩ started ∧
      started.state.skeleton = g.skeleton ∧ Acyclic basic.id entrySlot exit started.state := by
  obtain ⟨hblock, hexit⟩ := ofBlock_buildBlock hbuild
  obtain ⟨exit, hg⟩ := enclosed_buildBlock hbuild
  obtain ⟨started, hreset⟩ : ∃ started, resetControl 0 ⟨g, journal⟩ = .ok ⟨⟩ started :=
    ⟨_, resetControl_zero_eq_ok_iff.mpr ⟨hblock.restartable hexit, rfl⟩⟩
  obtain ⟨hskeleton, hentry, hcleared⟩ := resetControl_zero_eq_ok hreset
  have houtline := outline_eq_of_skeleton_eq hskeleton
  have hstarted := hg.of_skeleton_eq hskeleton
  refine ⟨exit, started, hreset, hskeleton, hstarted, ?_,
    (forward_buildBlock horder hbuild).of_outline_eq houtline, fun hdata => ?_, ?_, ?_,
    fun hid hne => ?_⟩
  · obtain ⟨exit', hroot, -, hne⟩ := hexit
    exact Option.some.inj (hroot.symm.trans hg.exitRoot) ▸ hne
  · obtain ⟨source, hhonours⟩ :=
      exists_honours_of_isData hbuild (isData_of_outline_eq houtline hdata)
    exact ⟨source, dependsOn_of_outline_eq houtline.symm hhonours.dependsOn⟩
  · have hkept := congrArg Prod.snd ((keeps_resetControl 0).of_eq_ok hreset)
    exact hkept.trans (intervals_buildBlock hbuild)
  · rw [hstarted.entrySlot, ← hg.entrySlot]
    exact hentry
  · exact hcleared _ (hg.control.mpr (isControl_of_outline_eq houtline hid)) hne

/-- The control path of a block whose operations wait for earlier ones can be scheduled, unless the
slots that this takes are not words.  These are the lowest ones in which the units of shared
function units issue one after the other as they do in the lowest ones of all; and so, in the order
in which they issue in the end, no assignment of slots to all units has any control unit earlier. -/
theorem ControlPath.schedule_earliest (journal : Journal)
    (hbuild : Lowering.buildBlock program basic entrySlot before = .ok g built)
    (horder : Lowering.CreatedInOrder program basic g) (hsize : g.units.size < 2 ^ 64) :
    ∃ started first slots, resetControl 0 ⟨g, journal⟩ = .ok ⟨⟩ started ∧
      started.state.Earliest (fun _ _ => False) first ∧
      started.state.Earliest (started.state.Turns first) slots ∧
      started.state.Earliest (started.state.Turns slots) slots ∧
      ((∀ {id}, started.state.IsControl id → slots id < Word.count) →
        ∃ last, schedule started = .ok ⟨⟩ last ∧ ∀ {id}, started.state.IsControl id →
          ∃ slot : Nat, last.state.slot? id = some slot ∧ slot = slots id) := by
  obtain ⟨exit, started, hreset, hskeleton, hg⟩ := Lowering.exists_acyclic journal hbuild horder
  obtain ⟨first, hfirst⟩ :=
    hg.forward.exists_earliest hg.toWellFormed hg.toTidy hg.root.lt_size
  obtain ⟨slots, hslots⟩ := hg.forward.exists_earliest_turns hg.toWellFormed hg.toTidy
    hg.root.lt_size hfirst.toRespects
  have hturns : started.state.Turns slots = started.state.Turns first := by
    funext source user
    exact propext hslots.toRespects.turns_iff
  refine ⟨started, first, slots, hreset, hfirst, hslots, hturns ▸ hslots, fun hwords => ?_⟩
  exact exists_schedule hg (size_eq_of_skeleton_eq hskeleton ▸ hsize) hfirst hslots hwords

end

/-- Two loads on one memory bus, and a store of the sum of what they yield. -/
def loadedSum : Program where
  ops := ⟨#[.control "load" 7 ⟨.memoryBus, 0⟩, .control "load" 7 ⟨.memoryBus, 0⟩,
    .data "add" 7 ⟨.addSub, 0⟩, .control "store" 7 ⟨.memoryBus, 0⟩]⟩
  oracle :=
    { dependences := fun op =>
        if op = 2 then some [.value 0 2, .value 1 2] else if op = 3 then some [.value 2 1]
        else some [.liveIn]
      stepsToFinish := fun _ => 0 }

/-- The second load waits for the bus, and the store waits for that over the sum. -/
theorem ControlPath.schedule_earliest_loadedSum :
    ∃ g built started slots last,
      (Lowering.buildBlock loadedSum ⟨7, [0, 1, 2, 3]⟩ 1 : Step PUnit Graph) ⟨⟨⟩, {}⟩ =
        .ok g built ∧
      resetControl 0 ⟨g, {}⟩ = .ok ⟨⟩ started ∧
      started.state.Earliest (started.state.Turns slots) slots ∧
      schedule started = .ok ⟨⟩ last ∧
      last.state.slots = [some 1, some 1, some 2, none, some 5, some 5] ∧
      ∀ {id}, started.state.IsControl id →
        ∃ slot : Nat, last.state.slot? id = some slot ∧ slot = slots id := by
  have hsucceeds : (Lowering.buildBlock loadedSum ⟨7, [0, 1, 2, 3]⟩ 1 : Step PUnit Graph).succeeds
      ⟨⟨⟩, {}⟩ (fun g =>
        decide (Lowering.CreatedInOrder loadedSum ⟨7, [0, 1, 2, 3]⟩ g ∧ g.units.size < 2 ^ 64) &&
        (resetControl 0 >>= fun _ => Step.current >>= fun started => schedule >>= fun _ =>
          Step.current >>= fun last => pure (started, last)).succeeds ⟨g, {}⟩ (fun result =>
            decide (result.1.entrySlot + result.1.units.size * (result.1.latencySum + 1) <
                Word.count ∧
              result.2.slots = [some 1, some 1, some 2, none, some 5, some 5]))) = true := by
    decide +kernel
  obtain ⟨g, built, hbuild, hsucceeds⟩ := Step.exists_of_succeeds hsucceeds
  obtain ⟨hstart, hruns⟩ := Bool.and_eq_true_iff.mp hsucceeds
  obtain ⟨horder, hsize⟩ := of_decide_eq_true hstart
  obtain ⟨⟨restarted, ended⟩, final, hrun, hdecided⟩ := Step.exists_of_succeeds hruns
  obtain ⟨⟨⟩, reset, hreset, hrun⟩ := Step.bind_eq_ok.mp hrun
  rw [Step.current_bind] at hrun
  obtain ⟨⟨⟩, scheduled, hschedule, hrun⟩ := Step.bind_eq_ok.mp hrun
  rw [Step.current_bind] at hrun
  obtain ⟨heq, -⟩ := Step.pure_eq_ok.mp hrun
  cases heq
  obtain ⟨hbound, hslots⟩ := of_decide_eq_true hdecided
  dsimp only at hbound
  obtain ⟨started, first, slots, hreset', hfirst, hearliest, hinorder, hplaced⟩ :=
    ControlPath.schedule_earliest {} hbuild horder hsize
  obtain ⟨exit, started', hreset'', -, hg⟩ := Lowering.exists_acyclic {} hbuild horder
  obtain ⟨-, rfl⟩ := EStateM.Result.ok.inj (hreset'.symm.trans hreset)
  obtain ⟨-, rfl⟩ := EStateM.Result.ok.inj (hreset''.symm.trans hreset')
  obtain ⟨last, hlast, hsame⟩ := hplaced fun {id} hid => by
    have := hg.forward.le_of_earliest hg.toWellFormed hg.toTidy hfirst.toRespects hearliest
      hid.lt_size
    omega
  obtain ⟨-, rfl⟩ := EStateM.Result.ok.inj (hlast.symm.trans hschedule)
  exact ⟨g, built, _, slots, _, hbuild, hreset, hinorder, hschedule, hslots, hsame⟩

end SlotScheduling
