import Mathlib.Order.Bounds.Defs
import SlotScheduling.Proofs.Graph.Needed
import SlotScheduling.Proofs.Totality

/-!
# Dead units of the data path

Which units of the data path dangle after it was scheduled depends on the dependencies alone, not
on the flags and slots from before: just those do for which no control unit of their block waits,
directly or along a chain of units of that block.  They end up where the control path of their
block ends.
-/

namespace SlotScheduling

namespace Graph

variable {g g' : Graph} {id root : UnitId} {roots : List UnitId}

theorem NeededBy.exists_root (h : g.NeededBy roots id) :
    ∃ root ∈ roots, g.NeededBy [root] id := by
  induction h with
  | root hroot => exact ⟨_, hroot, .root List.mem_cons_self⟩
  | source _ hsupplies ih =>
      obtain ⟨root, hroot, hneeded⟩ := ih
      exact ⟨root, hroot, hneeded.source hsupplies⟩

theorem NeededBy.mono {roots' : List UnitId} (h : g.NeededBy roots id)
    (hsubset : ∀ root ∈ roots, root ∈ roots') : g.NeededBy roots' id := by
  induction h with
  | root hroot => exact .root (hsubset _ hroot)
  | source _ hsupplies ih => exact .source ih hsupplies

/-- What a root needs is of its block. -/
theorem NeededBy.exists_user (h : g.NeededBy [root] id) {unit : ScheduleUnit}
    (hunit : g.units[id]? = some unit) :
    ∃ user, g.units[root]? = some user ∧ user.block = unit.block := by
  induction h generalizing unit with
  | root hroot =>
      obtain rfl := List.mem_singleton.mp hroot
      exact ⟨unit, hunit, rfl⟩
  | source _ hsupplies ih =>
      obtain ⟨consumer, producer, hconsumer, _, hproducer, hblock⟩ := hsupplies
      obtain rfl := Option.some.inj (hunit.symm.trans hproducer)
      obtain ⟨user, huser, hsame⟩ := ih hconsumer
      exact ⟨user, huser, hsame.trans hblock.symm⟩

theorem not_isNeeded_iff {unit : ScheduleUnit} (hunit : g.units[id]? = some unit) :
    ¬g.IsNeeded id ↔ unit.dangling = true := by
  simp [IsNeeded, hunit]

end Graph

namespace DataPath

open ConstraintSystem SlotScheduling.Graph

variable {g g' : Graph} {options : SchedulingOptions} {id : UnitId}
  {now last : Journaled Graph} {result : PUnit}

/-! ## The flags -/

/-- Only control units keep their flags. -/
theorem isControl_of_resetData (hg : g.Listed) (h : g.resetData = .ok g')
    (hneeded : g'.IsNeeded id) : g.IsControl id := by
  obtain ⟨unit, hunit, hflag⟩ := hneeded
  obtain ⟨unit', hunit', hagree⟩ := exists_of_frame_eq (resetData_sound hg h).1 hunit
  by_contra hcontrol
  have hdata : g.IsData id :=
    (isControl_or_isData (lt_size_of_getElem? hunit')).resolve_left hcontrol
  have hget := getElem?_changeUnits_of_mem (hg.data.mpr hdata) h fun _ => rfl
  rw [hunit, hunit', Option.map_some, Option.some.injEq] at hget
  rw [hget] at hflag
  cases hflag

/-- On a cleared graph the flags can spread. -/
theorem exists_undangle_of_resetData {cleared : Graph} (hg : g.WellFormed)
    (hreset : g.resetData = .ok cleared) :
    ∃ undangled, cleared.controlUnits.foldlM undangle cleared = .ok undangled ∧
      ∀ {id}, undangled.IsNeeded id ↔ cleared.NeededBy cleared.controlUnits id := by
  have hframe := (resetData_sound hg.toListed hreset).1
  have hcleared : cleared.WellFormed :=
    hg.of_outline_eq (outline_eq_of_skeleton_eq (skeleton_eq_of_frame_eq hframe))
  exact exists_undangleAll hcleared
    (fun root (hroot : root ∈ cleared.controlUnits) => (hcleared.control.mp hroot).lt_size)
    (fun {id} hid => hcleared.control.mpr
      ((isControl_iff_of_frame_eq hframe).mpr (isControl_of_resetData hg.toListed hreset hid)))

/-- From whatever flags there were, it spreads from the control units to all that they need. -/
theorem isNeeded_reset_undangle {cleared undangled : Graph} (hg : g.WellFormed)
    (hreset : g.resetData = .ok cleared)
    (hundangle : cleared.controlUnits.foldlM undangle cleared = .ok undangled) :
    undangled.IsNeeded id ↔ g.NeededBy g.controlUnits id := by
  have hframe := (resetData_sound hg.toListed hreset).1
  have hroots : cleared.controlUnits = g.controlUnits :=
    controlUnits_eq_of_outline_eq (outline_eq_of_skeleton_eq (skeleton_eq_of_frame_eq hframe))
  obtain ⟨h, hrun, hneeded⟩ := exists_undangle_of_resetData hg hreset
  obtain rfl := Except.ok.inj (hrun.symm.trans hundangle)
  rw [hneeded, hroots]
  exact ⟨fun h => h.of_frame_eq hframe, fun h => h.of_frame_eq hframe.symm⟩

theorem isNeeded_of_placeDangling {placed : Bool} {other : UnitId}
    (h : placeDangling g id = .ok (g', placed)) (hneeded : g'.IsNeeded other) :
    g.IsNeeded other ∨ g.IsFrozen other := by
  obtain ⟨unit, hunit, hcases⟩ := placeDangling_cases h
  rcases hcases with ⟨hfixed, hset⟩ | ⟨_, _, rfl⟩ | ⟨_, _, slot, _, hplace⟩
  · rcases (isNeeded_setDangling hset).mp hneeded with rfl | hbefore
    · exact Or.inr ⟨unit, hunit, hfixed⟩
    · exact Or.inl hbefore
  · exact Or.inl hneeded
  · exact Or.inl ((isNeeded_changeUnit hplace fun _ => rfl).mp hneeded)

/-- While the units that dangle are placed, only frozen units stop doing so. -/
theorem isNeeded_of_placeAllDangling {ids : List UnitId} {count : Nat}
    (h : placeAllDangling ids now = .ok count last) (hneeded : last.state.IsNeeded id) :
    now.state.IsNeeded id ∨ now.state.IsFrozen id := by
  have hall := Step.foldlM_induction (P := fun _ g => g.frame = now.state.frame ∧
    (g.IsNeeded id → now.state.IsNeeded id ∨ now.state.IsFrozen id)) ?_ ⟨rfl, Or.inl⟩ h
  · exact hall.2 hneeded
  · intro other _ count count' before after ⟨hframe, hbefore⟩ hround
    simp only [Step.current_bind, Step.lift_bind_eq_ok] at hround
    obtain ⟨⟨g', placed⟩, hplace, hround⟩ := hround
    rw [Step.replace_bind, Step.pure_eq_ok] at hround
    obtain ⟨_, rfl⟩ := hround
    refine ⟨(frame_placeDangling hplace).trans hframe, fun hafter => ?_⟩
    rcases isNeeded_of_placeDangling hplace hafter with hneeded | hfrozen
    · exact hbefore hneeded
    · exact Or.inr ((isFrozen_of_frame_eq hframe).mp hfrozen)

/-! ## The slots -/

/-- Placing a solution moves no unit. -/
theorem slot?_eq_of_placeAll {sys : ConstraintSystem} {slots : List (UnitId × Nat)} {slot : Nat}
    (hsystem : build g options = .ok sys)
    (hslots : (if options.dataPathLate then sys.latest else sys.earliest) = .ok slots)
    (hplace : g.placeAll slots = .ok g') (hslot : g.slot? id = some slot) :
    g'.slot? id = some slot := by
  obtain ⟨base, hfree, hextends⟩ := exists_isFree hsystem
  have hclosed := hextends.closed hfree.closed
  have hunits : slots.map Prod.fst = base.unknowns.toList := by
    rw [← hextends.keepsUnits]
    split at hslots
    · exact (latest_eq_ok hclosed hslots).2.1
    · exact (earliest_eq_ok hclosed hslots).2.1
  have hplaces := places_placeAll (g := g) hfree.nodup hunits hplace
  rw [hplaces.slot?_eq (hfree.variableOf?_eq_none fun hmem => ?_), hslot]
  rw [hslot] at hmem
  cases hmem.2

/-- What the pass makes of a graph, as far as flags and the slots of dead units go. -/
structure Sorts (g g' : Graph) : Prop where
  frame : g'.frame = g.frame
  control : ∀ {id}, g.IsControl id → g'.slot? id = g.slot? id
  needed : ∀ {id}, g.NeededBy g.controlUnits id → g'.IsNeeded id
  only : ∀ {id}, g'.IsNeeded id → g.NeededBy g.controlUnits id ∨ g.IsFrozen id
  last : ∀ {id : UnitId} {unit : ScheduleUnit}, g.units[id]? = some unit →
    unit.control = false → ¬g'.IsNeeded id →
    ∃ slot, g.endSlot unit.block = .ok (some slot) ∧ g'.slot? id = some slot

/-- Once the units that dangle are placed, the others are sorted from them. -/
theorem sorts_of_placeAllDangling {cleared : Graph} {undangled placed : Journaled Graph}
    {count : Nat} (hg : g.WellFormed) (hreset : g.resetData = .ok cleared)
    (hundangle : cleared.controlUnits.foldlM undangle cleared = .ok undangled.state)
    (hplace : placeAllDangling undangled.state.dataUnits undangled = .ok count placed) :
    Sorts g placed.state := by
  obtain ⟨hframe, hkept, hfree, _⟩ := reset_undangle hg.toListed hreset hundangle
  have hspread : ∀ {id}, undangled.state.IsNeeded id ↔ g.NeededBy g.controlUnits id :=
    isNeeded_reset_undangle hg hreset hundangle
  have hundangled : undangled.state.Listed :=
    hg.toListed.of_outline_eq (outline_eq_of_skeleton_eq (skeleton_eq_of_frame_eq hframe))
  have hprepared : Prepared undangled.state placed.state := placeAllDangling_sound hundangled
    (fun hid => hfree ((isData_iff_of_frame_eq hframe).mp hid)) hplace
  refine ⟨hprepared.frame.trans hframe, fun {id} hid => ?_,
    fun hid => hprepared.needed (hspread.mpr hid), fun {id} hid => ?_,
    fun {id unit} hunit hdata hnot => ?_⟩
  · rw [hprepared.control ((isControl_iff_of_frame_eq hframe).mpr hid), hkept hid]
  · refine (isNeeded_of_placeAllDangling hplace hid).imp hspread.mp ?_
    exact (isFrozen_of_frame_eq hframe).mp
  · obtain ⟨unit', hunit', hagree⟩ := exists_of_frame_eq hframe.symm hunit
    obtain ⟨slot, hend, hslot⟩ := hprepared.dangling hunit' (hagree.control ▸ hdata) hnot
    refine ⟨slot, ?_, hslot⟩
    rwa [endSlot_eq_of_frame_eq hg.toListed hframe hkept, ← hagree.block] at hend

theorem schedule_sorts (hg : now.state.WellFormed) (h : schedule options now = .ok result last) :
    Sorts now.state last.state := by
  obtain ⟨hcontrol, _⟩ := schedule_slots hg.toListed h
  have hwhole : last.state.frame = now.state.frame := (keeps_schedule options).of_eq_ok h
  simp only [schedule, Step.updateChecked_bind_eq_ok] at h
  obtain ⟨cleared, hreset, undangled, hundangle, h⟩ := h
  rw [Step.current_bind] at h
  obtain ⟨count, placed, hplace, h⟩ := Step.bind_eq_ok.mp h
  simp only [Step.current_bind, Step.lift_bind_eq_ok, Step.note_bind] at h
  obtain ⟨system, hsystem, h⟩ := h
  have hsorts := sorts_of_placeAllDangling hg hreset hundangle hplace
  have hsolved : (∀ {id}, last.state.IsNeeded id ↔ placed.state.IsNeeded id) ∧
      ∀ {id slot}, placed.state.slot? id = some slot → last.state.slot? id = some slot := by
    split at h
    · simp only [Step.lift_bind_eq_ok, Step.updateChecked_bind_eq_ok,
        Step.updateChecked_eq_ok] at h
      obtain ⟨slots, hslots, solved, hsolution, final, hclassify, rfl⟩ := h
      obtain ⟨_, hsame, hneeded⟩ := classifyAll_sound hclassify
      exact ⟨(hneeded _).trans (isNeeded_placeAll hsolution), fun hslot => (hsame _).trans
        (slot?_eq_of_placeAll hsystem (Checked.orMalformed_eq_ok.mp hslots) hsolution hslot)⟩
    · obtain ⟨final, hclassify, rfl⟩ := Step.updateChecked_eq_ok.mp h
      obtain ⟨_, hsame, hneeded⟩ := classifyAll_sound hclassify
      exact ⟨hneeded _, fun hslot => (hsame _).trans hslot⟩
  obtain ⟨hneeded, hslots⟩ := hsolved
  refine ⟨hwhole, hcontrol, fun hid => hneeded.mpr (hsorts.needed hid),
    fun hid => hsorts.only (hneeded.mp hid), fun hunit hdata hnot => ?_⟩
  obtain ⟨slot, hend, hslot⟩ := hsorts.last hunit hdata fun hplaced => hnot (hneeded.mpr hplaced)
  exact ⟨slot, hend, hslots hslot⟩

/-! ## The pass -/

/-- Whatever flags and slots a reachable graph holds beforehand, a unit of its data path that is not
frozen dangles after the pass if and only if no chain of dependencies through units of its block
leads to it from a control unit of that block.  Each unit that dangles is in the last slot that a
control unit of its block has. -/
theorem schedule_dangling (hg : now.state.Reachable)
    (h : schedule options now = .ok result last) :
    (∀ {id : UnitId} {unit : ScheduleUnit}, last.state.units[id]? = some unit →
      unit.control = false → unit.fixedTiming = false →
      (unit.dangling = true ↔ ¬∃ root user, last.state.units[root]? = some user ∧
        user.control = true ∧ user.block = unit.block ∧ last.state.NeededBy [root] id)) ∧
    ∀ {id : UnitId} {unit : ScheduleUnit}, last.state.units[id]? = some unit →
      unit.dangling = true → ∃ slot, unit.slot = some slot ∧
        IsGreatest {taken | last.state.IsTaken unit.block taken} slot := by
  have hsorts := schedule_sorts hg.coherent.toWellFormed h
  have hbefore := hg.coherent.toListed
  have houtline := outline_eq_of_skeleton_eq (skeleton_eq_of_frame_eq hsorts.frame)
  have hafter : last.state.Listed := hbefore.of_outline_eq houtline
  have hroots : last.state.controlUnits = now.state.controlUnits :=
    controlUnits_eq_of_outline_eq houtline
  constructor
  · intro id unit hunit hdata hunfrozen
    have hfrozen : ¬now.state.IsFrozen id := by
      rw [← isFrozen_of_frame_eq hsorts.frame]
      simp [IsFrozen, hunit, hunfrozen]
    rw [← not_isNeeded_iff hunit, not_iff_not]
    constructor
    · intro hneeded
      have hneeds := ((hsorts.only hneeded).resolve_right hfrozen).of_frame_eq hsorts.frame.symm
      obtain ⟨root, hroot, hchain⟩ := hneeds.exists_root
      obtain ⟨user, huser, hcontrol⟩ := hafter.control.mp (hroots ▸ hroot)
      obtain ⟨user', huser', hblock⟩ := hchain.exists_user hunit
      obtain rfl := Option.some.inj (huser.symm.trans huser')
      exact ⟨root, user, huser, hcontrol, hblock, hchain⟩
    · rintro ⟨root, user, huser, hcontrol, _, hchain⟩
      have hroot : root ∈ now.state.controlUnits :=
        hroots ▸ hafter.control.mpr ⟨user, huser, hcontrol⟩
      refine hsorts.needed ((hchain.of_frame_eq hsorts.frame).mono fun other hother => ?_)
      exact List.mem_singleton.mp hother ▸ hroot
  · intro id unit hunit hdangling
    obtain ⟨start, hstart, hagree⟩ := exists_of_frame_eq hsorts.frame hunit
    have hdead : ¬last.state.IsNeeded id := (not_isNeeded_iff hunit).mpr hdangling
    have hdata : start.control = false := by
      by_contra hcontrol
      have hid : now.state.IsControl id := ⟨start, hstart, by simpa using hcontrol⟩
      exact hdead (hsorts.needed (.root (hbefore.control.mpr hid)))
    obtain ⟨slot, hend, hslot⟩ := hsorts.last hstart hdata hdead
    rw [← endSlot_eq_of_frame_eq hbefore hsorts.frame hsorts.control, ← hagree.block,
      endSlot_eq_some hafter] at hend
    exact ⟨slot, (slot?_eq hunit).symm.trans hslot, hend.1, fun _ htaken => hend.2 htaken⟩

/-- A control path with its slots and three results.  The branch waits for the first one.  The
others wait for the first one and for each other, and nothing waits for them, but the flags say
the opposite. -/
def unusedResults : Graph :=
  (start 0 1).after [
    .createUnit (.op 3) 0 .trivial false 2,
    .createUnit (.op 4) 0 .trivial true 0,
    .createUnit (.op 5) 0 .trivial false 1,
    .createUnit (.op 6) 0 .trivial false 1,
    .addDep 1 0 (.value 0),
    .addDep 2 1 (.value 2),
    .addDep 3 1 (.value 2),
    .addDep 4 3 (.value 1),
    .addDep 3 4 (.loopCarried 1 1),
    .setDangling 1 true,
    .setDangling 3 false,
    .place 0 1,
    .place 2 8]

theorem schedule_dangling_unusedResults :
    ∃ last, schedule {} ⟨unusedResults, {}⟩ = .ok ⟨⟩ last ∧
      last.state.units.toList.map (·.dangling) = [false, false, false, true, true] ∧
      last.state.slots = [some 1, some 6, some 8, some 8, some 8] ∧
      ∀ {id : UnitId} {unit : ScheduleUnit}, last.state.units[id]? = some unit →
        unit.dangling = true → ∃ slot, unit.slot = some slot ∧
          IsGreatest {taken | last.state.IsTaken unit.block taken} slot := by
  have hreachable : unusedResults.Reachable := (Reachable.start 0 1).after (by simp [Call.merged])
  have hsucceeds : (schedule {} >>= fun _ => Step.current).succeeds ⟨unusedResults, {}⟩
      (fun g => g.units.toList.map (·.dangling) == [false, false, false, true, true] &&
        g.slots == [some 1, some 6, some 8, some 8, some 8]) = true := by decide +kernel
  obtain ⟨last, hschedule, htest⟩ := Step.exists_last_of_succeeds hsucceeds
  rw [Bool.and_eq_true, beq_iff_eq, beq_iff_eq] at htest
  exact ⟨last, hschedule, htest.1, htest.2, (schedule_dangling (by exact hreachable) hschedule).2⟩

end DataPath

end SlotScheduling
