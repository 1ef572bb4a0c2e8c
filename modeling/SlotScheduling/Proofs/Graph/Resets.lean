import SlotScheduling.Proofs.Graph.Changes
import SlotScheduling.Proofs.Steps

/-!
# Cleared control paths

What is left of a control path once it is cleared: the entry has the entry slot,
the loop operation may have one, and no other control unit has a slot.
-/

namespace SlotScheduling

theorem ScheduleUnit.skeleton_widen (unit : ScheduleUnit) (source : UnitId) (latency : Nat) :
    { unit with deps := unit.deps.modify source (·.withLatency latency) }.skeleton =
      unit.skeleton := by
  have hentries : (unit.deps.modify source (·.withLatency latency)).entries.map
      (fun dep => (dep.1, dep.2.withLatency 0)) =
        unit.deps.entries.map fun dep => (dep.1, dep.2.withLatency 0) := by
    simp only [Table.modify, List.map_map]
    refine List.map_congr_left fun dep _ => ?_
    simp only [Function.comp]
    split <;> rfl
  simp only [skeleton, frame, hentries]

namespace Graph

variable {g g' : Graph} {id : UnitId} {now last : Journaled Graph}

/-- The dependencies of the exit get other latencies, and nothing else changes. -/
theorem widenExit_cases {interval : Nat} (h : g.widenExit interval = .ok g') :
    g'.skeleton = g.skeleton ∧ g'.intervals = g.intervals ∧
      ∀ id, g'.slot? id = g.slot? id := by
  unfold widenExit at h
  cases hexit : g.exitRoot with
  | none =>
      rw [hexit] at h
      obtain rfl := Checked.pure_eq_ok.mp h
      exact ⟨rfl, rfl, fun _ => rfl⟩
  | some exit =>
      rw [hexit] at h
      obtain ⟨_, _, h⟩ := Checked.bind_eq_ok.mp h
      obtain ⟨phis, _, h⟩ := Checked.bind_eq_ok.mp h
      refine Checked.foldlM_induction (P := fun g' => g'.skeleton = g.skeleton ∧
        g'.intervals = g.intervals ∧ ∀ id, g'.slot? id = g.slot? id)
        (fun phi _ before after hbefore hround => ?_) ⟨rfl, rfl, fun _ => rfl⟩ h
      obtain ⟨hskeleton, hintervals, hslots⟩ := hbefore
      have hroot : before.exitRoot = some exit := by
        rw [eq_of_skeleton_eq (·.exitRoot) hskeleton fun _ => rfl, hexit]
      refine ⟨?_, ?_, fun id => ?_⟩
      · rw [← hskeleton]
        exact skeleton_changeUnit hroot hround fun unit => unit.skeleton_widen phi interval
      · obtain ⟨_, rfl⟩ := changeUnit_eq_ok.mp hround
        exact hintervals
      · rw [← hslots id]
        simp only [slot?, getElem?_changeUnit hround]
        split
        · cases before.units[id]? <;> rfl
        · rfl

theorem slot?_changeUnit_place {slot : Nat} (h : g.changeUnit id (·.place slot) = .ok g')
    (other : UnitId) : g'.slot? other = if id = other then some slot else g.slot? other := by
  obtain ⟨hlt, _⟩ := changeUnit_eq_ok.mp h
  simp only [slot?, getElem?_changeUnit h]
  split
  next heq =>
    subst heq
    simp [Array.getElem?_eq_getElem hlt, ScheduleUnit.place]
  next => rfl

theorem slot?_changeUnits_unplace {ids : List UnitId}
    (h : g.changeUnits ids (·.unplace) = .ok g') (id : UnitId) :
    g'.slot? id = if id ∈ ids then none else g.slot? id := by
  split
  next hmem =>
    rw [slot?, getElem?_changeUnits_of_mem hmem h fun _ => rfl]
    cases g.units[id]? <;> rfl
  next hmem => rw [slot?, getElem?_changeUnits_of_not_mem hmem h, slot?]

theorem clearControl_cases (h : g.clearControl = .ok g') :
    g'.frame = g.frame ∧ g'.slot? g.entryRoot = some g.entrySlot ∧
      (∀ id ∈ g.controlUnits, id ≠ g.entryRoot → g'.slot? id = none) := by
  obtain ⟨middle, hmiddle, h⟩ := Checked.bind_eq_ok.mp h
  have hframe : middle.frame = g.frame := frame_changeUnits hmiddle fun _ => rfl
  have hentry : middle.entrySlot = g.entrySlot := entrySlot_of_frame_eq hframe
  have hlast : g'.frame = middle.frame := frame_changeUnit h fun _ => rfl
  have hslot := slot?_changeUnit_place h
  have hroot : middle.entryRoot = g.entryRoot := rfl
  rw [hroot, hentry] at hslot
  refine ⟨hlast.trans hframe, ?_, fun id hid hne => ?_⟩
  · rw [hslot, if_pos rfl]
  · rw [hslot, if_neg (Ne.symm hne), slot?_changeUnits_unplace hmiddle, if_pos hid]

theorem slot?_clearControl (h : g.clearControl = .ok g') (hroot : id ≠ g.entryRoot)
    (hid : id ∉ g.controlUnits) : g'.slot? id = g.slot? id := by
  obtain ⟨middle, hmiddle, h⟩ := Checked.bind_eq_ok.mp h
  have hsame : middle.entryRoot = g.entryRoot := rfl
  rw [slot?_changeUnit_place h, hsame, if_neg (Ne.symm hroot), slot?_changeUnits_unplace hmiddle,
    if_neg hid]

theorem keeps_resetControl (interval : Nat) :
    (resetControl interval).Keeps fun g => (g.skeleton, g.intervals) := by
  have hclear : (Step.updateChecked clearControl).Keeps fun g => (g.skeleton, g.intervals) := by
    refine Step.keeps_updateChecked fun g g' h => ?_
    have hframe := (clearControl_cases h).1
    rw [skeleton_eq_of_frame_eq hframe, intervals_of_frame_eq hframe]
  have hplace : ∀ id slot, (Step.updateChecked fun g : Graph =>
      g.changeUnit id (·.place slot)).Keeps fun g => (g.skeleton, g.intervals) := by
    intro id slot
    refine Step.keeps_updateChecked fun g g' h => ?_
    have hframe : g'.frame = g.frame := frame_changeUnit h fun _ => rfl
    rw [skeleton_eq_of_frame_eq hframe, intervals_of_frame_eq hframe]
  have hwiden : (Step.updateChecked (widenExit · interval)).Keeps
      fun g => (g.skeleton, g.intervals) := by
    refine Step.keeps_updateChecked fun g g' h => ?_
    obtain ⟨hskeleton, hintervals, _⟩ := widenExit_cases h
    rw [hskeleton, hintervals]
  unfold resetControl
  refine hclear.bind fun _ => ?_
  by_cases hpos : 0 < interval
  · simp only [hpos, if_true]
    refine Step.keeps_current.bind fun g => ?_
    cases g.loopOp with
    | none => exact (Step.keeps_fail _).bind fun _ => hwiden
    | some loopOp =>
        exact (Step.keeps_lift _).bind fun slot => (hplace loopOp slot).bind fun _ => hwiden
  · simp only [hpos, if_false]
    exact hwiden

/-- What a reset does: it clears the control path, puts the loop operation one interval after
the entry if there is an interval, and widens the exit. -/
theorem resetControl_cases {interval : Nat} {result : PUnit}
    (h : resetControl interval now = .ok result last) :
    ∃ cleared placed, now.state.clearControl = .ok cleared ∧
      (interval = 0 ∧ placed = cleared ∨ 0 < interval ∧ ∃ loopOp,
        now.state.loopOp = some loopOp ∧ now.state.entrySlot + interval < Word.count ∧
          cleared.changeUnit loopOp (·.place (now.state.entrySlot + interval)) = .ok placed) ∧
      placed.widenExit interval = .ok last.state := by
  obtain ⟨_, now₁, hfirst, h⟩ := Step.bind_eq_ok.mp h
  obtain ⟨cleared, hclear, rfl⟩ := Step.updateChecked_eq_ok.mp hfirst
  have hframe := (clearControl_cases hclear).1
  by_cases hpos : 0 < interval
  · rw [if_pos hpos, Step.current_bind] at h
    cases hloop : cleared.loopOp with
    | none =>
        rw [hloop] at h
        obtain ⟨_, _, hfail, _⟩ := Step.bind_eq_ok.mp h
        exact absurd hfail Step.fail_ne_ok
    | some loopOp =>
        rw [hloop] at h
        obtain ⟨target, htarget, h⟩ := Step.lift_bind_eq_ok.mp h
        obtain ⟨hword, rfl⟩ := Word.add_eq_ok.mp htarget
        obtain ⟨placed, hplace, h⟩ := Step.updateChecked_bind_eq_ok.mp h
        obtain ⟨widened, hwiden, rfl⟩ := Step.updateChecked_eq_ok.mp h
        rw [entrySlot_of_frame_eq hframe] at hword hplace
        rw [loopOp_of_frame_eq hframe] at hloop
        exact ⟨cleared, placed, hclear, Or.inr ⟨hpos, loopOp, hloop, hword, hplace⟩, hwiden⟩
  · rw [if_neg hpos] at h
    obtain ⟨widened, hwiden, rfl⟩ := Step.updateChecked_eq_ok.mp h
    exact ⟨cleared, cleared, hclear, Or.inl ⟨Nat.eq_zero_of_not_pos hpos, rfl⟩, hwiden⟩

theorem resetControl_zero_cases {result : PUnit} (h : resetControl 0 now = .ok result last) :
    ∃ cleared, now.state.clearControl = .ok cleared ∧
      cleared.widenExit 0 = .ok last.state := by
  obtain ⟨cleared, placed, hclear, ⟨_, rfl⟩ | ⟨hpos, _⟩, hwiden⟩ := resetControl_cases h
  · exact ⟨placed, hclear, hwiden⟩
  · exact absurd hpos (Nat.lt_irrefl 0)

/-- What is not on the control path keeps its slot. -/
theorem slot?_resetControl_zero {result : PUnit} (h : resetControl 0 now = .ok result last)
    (hroot : id ≠ now.state.entryRoot) (hid : id ∉ now.state.controlUnits) :
    last.state.slot? id = now.state.slot? id := by
  obtain ⟨cleared, hclear, hwiden⟩ := resetControl_zero_cases h
  rw [(widenExit_cases hwiden).2.2, slot?_clearControl hclear hroot hid]

/-- With no interval, only the entry has a slot. -/
theorem resetControl_zero_eq_ok {result : PUnit}
    (h : resetControl 0 now = .ok result last) :
    last.state.skeleton = now.state.skeleton ∧
      last.state.slot? now.state.entryRoot = some now.state.entrySlot ∧
      ∀ id ∈ now.state.controlUnits, id ≠ now.state.entryRoot →
        last.state.slot? id = none := by
  obtain ⟨cleared, hclear, hwiden⟩ := resetControl_zero_cases h
  obtain ⟨hframe, hentry, hcleared⟩ := clearControl_cases hclear
  obtain ⟨hskeleton, _, hslots⟩ := widenExit_cases hwiden
  refine ⟨hskeleton.trans (skeleton_eq_of_frame_eq hframe), ?_, fun id hid hne => ?_⟩
  · rw [← hentry]
    exact hslots _
  · rw [← hcleared id hid hne]
    exact hslots id

theorem slot_eq_of_clearControl (h : g.clearControl = .ok g') (hid : id ∈ g.controlUnits)
    {slot : Nat} (hslot : g'.slot? id = some slot) : slot = g.entrySlot := by
  obtain ⟨_, hentry, hcleared⟩ := clearControl_cases h
  by_cases hroot : id = g.entryRoot
  · rw [hroot, hentry] at hslot
    exact (Option.some.inj hslot).symm
  · rw [hcleared id hid hroot] at hslot
    cases hslot

/-- No unit starts out before the entry or later than the loop operation. -/
theorem slot_mem_of_resetControl {interval : Nat} {result : PUnit}
    (h : resetControl interval now = .ok result last) (hid : id ∈ now.state.controlUnits)
    {slot : Nat} (hslot : last.state.slot? id = some slot) :
    now.state.entrySlot ≤ slot ∧ slot ≤ now.state.entrySlot + interval := by
  obtain ⟨cleared, placed, hclear, hplaced, hwiden⟩ := resetControl_cases h
  rw [(widenExit_cases hwiden).2.2] at hslot
  rcases hplaced with ⟨rfl, rfl⟩ | ⟨_, loopOp, _, _, hplace⟩
  · have := slot_eq_of_clearControl hclear hid hslot
    omega
  · rw [slot?_changeUnit_place hplace] at hslot
    split at hslot
    · have := Option.some.inj hslot
      omega
    · have := slot_eq_of_clearControl hclear hid hslot
      omega

/-- The entry starts out in the entry slot, unless it is the loop operation. -/
theorem slot?_entryRoot_of_resetControl {interval : Nat} {result : PUnit}
    (h : resetControl interval now = .ok result last)
    (hloop : now.state.loopOp ≠ some now.state.entryRoot) :
    last.state.slot? now.state.entryRoot = some now.state.entrySlot := by
  obtain ⟨cleared, placed, hclear, hplaced, hwiden⟩ := resetControl_cases h
  have hentry := (clearControl_cases hclear).2.1
  rw [(widenExit_cases hwiden).2.2]
  rcases hplaced with ⟨_, rfl⟩ | ⟨_, loopOp, hloopOp, _, hplace⟩
  · exact hentry
  · rw [slot?_changeUnit_place hplace, if_neg, hentry]
    rintro rfl
    exact hloop hloopOp

end Graph

end SlotScheduling
