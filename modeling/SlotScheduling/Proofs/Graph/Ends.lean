import SlotScheduling.Proofs.Graph.WellFormed

/-!
# Ends of blocks

A block ends with the last slot of its control units, so that a change which keeps the slots of
the control path keeps the ends of all blocks.
-/

namespace SlotScheduling.Graph

variable {g g' : Graph} {id : UnitId} {block : BlockId} {unit : ScheduleUnit} {slot : Nat}

/-- A control unit of the block has the slot. -/
def IsTaken (g : Graph) (block : BlockId) (slot : Nat) : Prop :=
  ∃ (id : UnitId) (unit : ScheduleUnit), g.units[id]? = some unit ∧ unit.control = true ∧
    unit.block = block ∧ unit.slot = some slot

theorem exists_unit_of_endSlot (h : g.endSlot block = .ok (some slot)) :
    ∃ id ∈ g.controlUnits, ∃ unit, g.units[id]? = some unit ∧ unit.block = block ∧
      unit.slot = some slot := by
  obtain ⟨units, hunits, hmax⟩ := Checked.bind_eq_ok.mp h
  obtain ⟨unit, hunit, hslot⟩ :=
    List.mem_filterMap.mp (List.max?_mem (Checked.pure_eq_ok.mp hmax).symm)
  obtain ⟨hunit, hblock⟩ := List.mem_filter.mp hunit
  obtain ⟨id, hid, hget⟩ := Checked.exists_of_mem_mapM hunits hunit
  exact ⟨id, hid, unit, unit_eq_ok.mp hget, of_decide_eq_true hblock, hslot⟩

/-- The end of a block is the last one of the slots that its control units have. -/
theorem exists_slots_of_block (hg : g.Listed) (block : BlockId) : ∃ slots : List Nat,
    g.endSlot block = .ok slots.max? ∧ ∀ {slot}, slot ∈ slots ↔ g.IsTaken block slot := by
  have hlisted : ∀ id ∈ g.controlUnits, ∃ unit, g.unit id = .ok unit := by
    intro id hid
    obtain ⟨unit, hunit, _⟩ := hg.control.mp hid
    exact ⟨unit, unit_eq_ok.mpr hunit⟩
  obtain ⟨units, hunits⟩ := Checked.exists_mapM_eq_ok hlisted
  refine ⟨_, by rw [endSlot, hunits]; rfl, fun {slot} => ?_⟩
  simp only [List.mem_filterMap, List.mem_filter, decide_eq_true_eq]
  constructor
  · rintro ⟨unit, ⟨hmem, hblock⟩, hslot⟩
    obtain ⟨id, hid, hget⟩ := Checked.exists_of_mem_mapM hunits hmem
    obtain ⟨unit', hunit', hcontrol⟩ := hg.control.mp hid
    obtain rfl := Option.some.inj ((unit_eq_ok.mp hget).symm.trans hunit')
    exact ⟨id, unit, hunit', hcontrol, hblock, hslot⟩
  · rintro ⟨id, unit, hunit, hcontrol, hblock, hslot⟩
    obtain ⟨unit', hmem, hget⟩ :=
      Checked.exists_mem_mapM hunits (hg.control.mpr ⟨unit, hunit, hcontrol⟩)
    obtain rfl := Option.some.inj (hunit.symm.trans (unit_eq_ok.mp hget))
    exact ⟨unit, ⟨hmem, hblock⟩, hslot⟩

theorem endSlot_eq_some (hg : g.Listed) : g.endSlot block = .ok (some slot) ↔
    g.IsTaken block slot ∧ ∀ {slot'}, g.IsTaken block slot' → slot' ≤ slot := by
  obtain ⟨slots, hend, hmem⟩ := exists_slots_of_block hg block
  rw [hend, Except.ok.injEq, List.max?_eq_some_iff, hmem]
  exact and_congr_right fun _ =>
    ⟨fun h _ htaken => h _ (hmem.mpr htaken), fun h _ hslot => h (hmem.mp hslot)⟩

/-- A block ends no earlier than any of its control units. -/
theorem IsTaken.exists_endSlot (h : g.IsTaken block slot) (hg : g.Listed) :
    ∃ end_, g.endSlot block = .ok (some end_) ∧ slot ≤ end_ := by
  obtain ⟨slots, hend, hmem⟩ := exists_slots_of_block hg block
  cases hmax : slots.max? with
  | none =>
      have hslot := hmem.mpr h
      rw [List.max?_eq_none_iff.mp hmax] at hslot
      exact absurd hslot List.not_mem_nil
  | some end_ =>
      exact ⟨end_, hmax ▸ hend, (List.max?_eq_some_iff.mp hmax).2 slot (hmem.mpr h)⟩

theorem IsTaken.of_frame_eq (h : g.IsTaken block slot) (hframe : g'.frame = g.frame)
    (hslots : ∀ {id}, g.IsControl id → g'.slot? id = g.slot? id) : g'.IsTaken block slot := by
  obtain ⟨id, unit, hunit, hcontrol, hblock, hslot⟩ := h
  obtain ⟨unit', hunit', hagree⟩ := exists_of_frame_eq hframe.symm hunit
  have hsame := hslots ⟨unit, hunit, hcontrol⟩
  rw [slot?_eq hunit, slot?_eq hunit', hslot] at hsame
  exact ⟨id, unit', hunit', hagree.control ▸ hcontrol, hagree.block ▸ hblock, hsame⟩

/-- The control path alone decides where blocks end. -/
theorem endSlot_eq_of_frame_eq (hg : g.Listed) (hframe : g'.frame = g.frame)
    (hslots : ∀ {id}, g.IsControl id → g'.slot? id = g.slot? id) :
    g'.endSlot block = g.endSlot block := by
  have hg' : g'.Listed :=
    hg.of_outline_eq (outline_eq_of_skeleton_eq (skeleton_eq_of_frame_eq hframe))
  obtain ⟨slots, hend, hmem⟩ := exists_slots_of_block hg block
  obtain ⟨slots', hend', hmem'⟩ := exists_slots_of_block hg' block
  have hsame : ∀ {slot}, slot ∈ slots' ↔ slot ∈ slots := fun {slot} => by
    rw [hmem, hmem']
    exact ⟨fun h => h.of_frame_eq hframe.symm fun hid =>
      (hslots ((isControl_iff_of_frame_eq hframe).mp hid)).symm,
      fun h => h.of_frame_eq hframe hslots⟩
  rw [hend, hend']
  congr 1
  refine Option.ext fun slot => ?_
  rw [List.max?_eq_some_iff, List.max?_eq_some_iff, hsame]
  exact and_congr_right fun _ =>
    ⟨fun h _ hslot => h _ (hsame.mpr hslot), fun h _ hslot => h _ (hsame.mp hslot)⟩

end SlotScheduling.Graph
