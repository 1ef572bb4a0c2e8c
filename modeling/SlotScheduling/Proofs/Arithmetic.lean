import SlotScheduling.Proofs.InTime
import SlotScheduling.Proofs.Placement.Surrounded
import SlotScheduling.Proofs.Region.Alone

/-!
# Blocks with small numbers

Where what is known about the operations of a block adds up to less than 2^20, no number leaves its
range while the block is lowered, scheduled and reported, and nothing is looked up that is not
there.
-/

namespace SlotScheduling

namespace Graph

variable {options : SchedulingOptions} {g h : Graph} {block : BlockId}
  {entrySlot limit distance : Nat} {exit : UnitId} {now : Journaled Graph}

theorem latency_le_stepSum {id : UnitId} {unit : ScheduleUnit} (hunit : g.units[id]? = some unit) :
    unit.latency ≤ g.stepSum :=
  List.single_le_sum (fun _ _ => Nat.zero_le _) _
    (List.mem_map_of_mem (Array.mem_toList_iff.mpr (Array.mem_of_getElem? hunit)))

/-- Around a control path in time there is room for the data path. -/
theorem Timed.spacious (htimed : Timed block g h) (hg : Enclosed block entrySlot exit g)
    (hladen : g.Laden limit distance) (hlimit : limit < 2 ^ 20) :
    DataPath.Spacious block entrySlot (4 * horizon) g.waitsFor h := by
  obtain ⟨interval, hinterval, hwidened⟩ := htimed.widened
  have hblock := hwidened.toSimilar.ofBlock hg
  have hsize := size_eq_of_skeleton_eq hwidened.skeleton
  have hentrySlot : h.entrySlot = g.entrySlot := hblock.entrySlot.trans hg.entrySlot.symm
  have houtline := outline_eq_of_skeleton_eq hwidened.skeleton
  have htotal := hladen.total
  have hhorizon : horizon = 2 ^ 22 := rfl
  have hword : Word.count = 2 ^ 32 := rfl
  have hlatency : ∀ {user source bundle}, h.bundle? user source = some bundle →
      bundle.edge.latency ≤ horizon := fun hbundle => by
    have := (hwidened.edge_le hg hladen hbundle).1
    omega
  refine { toOfBlock := hblock, toTidy := hg.toTidy.of_skeleton_eq hwidened.skeleton,
           size := by omega, starts := by omega, issues := htimed.issues, offsets := ?offsets,
           words := ?words, listed := ?listed, steps := ?steps }
  case offsets =>
    intro user source bundle hbundle
    have hspan : distance * horizon ≤ 2 ^ 21 * horizon := Nat.mul_le_mul_right _ (by omega)
    obtain ⟨offset?, hoffset, hwithin⟩ := DepEdge.exists_offset_le (hlatency hbundle)
      (hwidened.edge_le hg hladen hbundle).2 htimed.repeats (by omega)
    refine ⟨offset?, hoffset, fun offset hsome => ?_⟩
    obtain ⟨hhigh, hlow⟩ := hwithin offset hsome
    omega
  case words =>
    intro user source bundle hbundle
    have := hlatency hbundle
    omega
  case listed =>
    intro user source bundle hbundle hdata
    have hne : user ≠ exit := by
      rintro rfl
      -- The exit waits for control units only.
      obtain ⟨found, hfound, -⟩ := hwidened.exists_bundle hg hbundle
      rcases hdata with hdata | hdata
      · exact (isControl_of_outline_eq houtline.symm hg.exitControl).not_isData hdata
      · exact (isControl_of_outline_eq houtline.symm (hg.waits hfound).1).not_isData hdata
    rw [hwidened.bundle?_of_ne hg hne] at hbundle
    exact mem_waitsFor hbundle
  case steps =>
    intro id unit hunit
    obtain ⟨unit', hunit', hsame⟩ := exists_latency_eq hwidened.skeleton hunit
    have hle := latency_le_stepSum hunit'
    have hsteps := hladen.steps
    rw [sum_waitsFor]
    omega

/-- A block with small numbers is scheduled, or an error says why it is not. -/
theorem ensures_schedule (hg : Enclosed block entrySlot exit g) (hexit : g.HasExit)
    (hladen : g.Laden limit distance) (hlimit : limit < 2 ^ 20) (hnone : g.interval? block = none)
    (hnow : now.state = g) : (schedule options).Ensures (fun _ _ => True) now := by
  subst hnow
  have hne : exit ≠ now.state.entryRoot := by
    obtain ⟨exit', hexit', -, hne⟩ := hexit
    rwa [Option.some.inj (hg.exitRoot.symm.trans hexit')]
  have hdata : ∀ {middle : Journaled Graph},
      InTime block entrySlot limit distance exit middle.state →
      (Strategy.run .dataPath options).Ensures (fun _ _ => True) middle := by
    rintro middle ⟨g, hg, hladen, htimed⟩
    refine Step.ensures_note_bind fun journal => ?_
    have hspacious := htimed.spacious hg hladen hlimit
    change DataPath.Spacious _ _ _ _ (⟨middle.state, journal⟩ : Journaled Graph).state at hspacious
    exact (DataPath.ensures_schedule hspacious).mono fun _ _ _ => trivial
  refine Step.ensures_current_bind ?_
  refine Step.ensures_lift_bind (Checked.ensures_of_failsAs (failsAs_verify hg.toWellFormed
    hg.root.lt_size fun hsome => ?_) fun _ _ => trivial) fun _ _ => ?_
  · obtain rfl := Option.some.inj (hg.exitRoot.symm.trans hsome)
    exact hg.exitControl.lt_size
  by_cases hpipelined : now.state.isPipelined = true
  · obtain ⟨branch, hbranch⟩ := Option.isSome_iff_exists.mp hpipelined
    rw [Strategy.forControl, if_pos hpipelined]
    exact (ensures_schedulePipelined hladen hlimit hnone ⟨hg, hbranch⟩ hne
      (fun hloop => hg.control.mpr (hg.loop hloop)) rfl).bind fun _ _ _ htimed => hdata htimed
  · rw [Strategy.forControl, if_neg hpipelined]
    exact (ensures_scheduleStraight hladen hlimit hnone hg hne rfl).bind
      fun _ _ _ htimed => hdata ⟨_, hg, hladen, htimed⟩

/-- The report of a block on its own fits into the slots. -/
theorem Alone.exists_ofGraph {program : Program} {basic : BasicBlock}
    (hg : Alone program basic entrySlot g) : ∃ schedule, Schedule.ofGraph g = .ok schedule := by
  have hround : ∀ unit ∈ g.units.toList, ∀ schedule : Schedule, True →
      ∃ schedule', schedule.addUnit unit = .ok schedule' ∧ True := by
    intro unit hmem schedule _
    obtain ⟨id, hget⟩ := List.getElem?_of_mem hmem
    rw [Array.getElem?_toList] at hget
    obtain ⟨slot, hslot, hword⟩ := hg.placed (lt_size_of_getElem? hget)
    have hissue : Word.add slot 0 = .ok (slot + 0) := Word.add_eq_ok.mpr ⟨hword, rfl⟩
    have hinstr : ∃ schedule', schedule.addInstr unit slot (unit.lead, 0) = .ok schedule' := by
      unfold Schedule.addInstr
      split
      · simp only [hissue, Checked.ok_bind]
        exact ⟨_, rfl⟩
      · exact ⟨_, rfl⟩
    obtain ⟨schedule', hinstr⟩ := hinstr
    refine ⟨schedule', ?_, trivial⟩
    rw [Schedule.addUnit, ← slot?_eq hget, hslot]
    simp only [ScheduleUnit.instrs, hg.unfused hget, List.foldlM_cons, List.foldlM_nil, hinstr]
    rfl
  obtain ⟨schedule, hunits, -⟩ : ∃ schedule,
      g.units.toList.foldlM Schedule.addUnit {} = .ok schedule ∧ True :=
    Checked.exists_foldlM hround trivial
  exact ⟨_, by rw [Schedule.ofGraph, hunits]; rfl⟩

end Graph

/-! ## Blocks -/

section

variable {σ : Type} {program : Program} {basic : BasicBlock} {entrySlot : Nat}
  {options : SchedulingOptions} {now : Journaled σ}

open SlotScheduling.Graph

/-- A block whose numbers add up to less than 2^20 is scheduled, or an error says why it is not: no
number leaves its range on the way, and nothing is looked up that is not there. -/
theorem scheduleBlock_faultless (hknown : Lowering.Known program basic)
    (hload : program.load basic entrySlot < 2 ^ 20) :
    (∃ result last, scheduleBlock program basic entrySlot options now = .ok result last) ∨
      ∃ cause last, scheduleBlock program basic entrySlot options now =
        .error (.error cause) last := by
  have hensures :
      (scheduleBlock program basic entrySlot options).Ensures (fun _ _ => True) now := by
    have hbuilds : (Lowering.buildBlock program basic entrySlot).Ensures (fun _ _ => True) now :=
      Step.ensures_of_failsAs (Lowering.failsAs_buildBlock hknown) fun _ _ _ => trivial
    refine hbuilds.bind fun g built hbuild _ => ?_
    obtain ⟨exit, hg⟩ := Lowering.enclosed_buildBlock hbuild
    obtain ⟨distance, hladen⟩ := Lowering.laden_buildBlock hbuild
    obtain ⟨-, hexit⟩ := Lowering.ofBlock_buildBlock hbuild
    have hnone : g.interval? basic.id = none := by
      rw [interval?, Lowering.intervals_buildBlock hbuild]
      rfl
    have hapart : (scheduleApart options g).Ensures (fun _ _ => True) built :=
      ((ensures_schedule hg hexit hladen hload hnone rfl).apart fun _ _ _ => trivial).map
    refine hapart.bind fun scheduled apart hrun _ => ?_
    have halone := alone_of_eq_ok (Step.bind_eq_ok.mpr ⟨g, built, hbuild, hrun⟩)
    obtain ⟨schedule, hschedule⟩ := halone.exists_ofGraph
    exact (Step.ensures_lift_bind_of_eq_ok hschedule).mpr (Step.ensures_pure trivial)
  refine (Step.ensures_iff.mp hensures).imp_left fun h => ?_
  obtain ⟨result, last, hrun, -⟩ := h
  exact ⟨result, last, hrun⟩

/-- The numbers of the loop that accesses one memory twice are small. -/
theorem scheduleBlock_faultless_accessLoop :
    Lowering.Known accessLoop ⟨7, [0, 1, 2, 3]⟩ ∧ accessLoop.load ⟨7, [0, 1, 2, 3]⟩ 3 < 2 ^ 20 ∧
      ((∃ result last, scheduleBlock accessLoop ⟨7, [0, 1, 2, 3]⟩ 3 {}
          (⟨⟨⟩, {}⟩ : Journaled PUnit) = .ok result last) ∨
        ∃ cause last, scheduleBlock accessLoop ⟨7, [0, 1, 2, 3]⟩ 3 {}
          (⟨⟨⟩, {}⟩ : Journaled PUnit) = .error (.error cause) last) := by
  have hknown : Lowering.Known accessLoop ⟨7, [0, 1, 2, 3]⟩ := by decide
  have hload : accessLoop.load ⟨7, [0, 1, 2, 3]⟩ 3 < 2 ^ 20 := by decide
  exact ⟨hknown, hload, scheduleBlock_faultless hknown hload⟩

end

end SlotScheduling
