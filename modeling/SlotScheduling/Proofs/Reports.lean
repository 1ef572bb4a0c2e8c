import SlotScheduling.Proofs.Graph.Growth
import SlotScheduling.Proofs.Steps
import SlotScheduling.Schedule

/-!
# Reported schedules

The schedule of a graph tells the slots and classes of operations.  Of all units that
were made for one operation, the last one counts.
-/

namespace SlotScheduling

variable {α : Type}

/-! ## The last that is known -/

/-- The value is the last one that is read off a list of units. -/
def LastRead (read : ScheduleUnit → Option α) (units : List ScheduleUnit) (value : α) : Prop :=
  ∃ index : Nat, units[index]?.bind read = some value ∧
    ∀ later, index < later → units[later]?.bind read = none

theorem lastRead_cons {read : ScheduleUnit → Option α} {first : ScheduleUnit}
    {rest : List ScheduleUnit} {value : α} :
    LastRead read (first :: rest) value ↔
      LastRead read rest value ∨ (∀ index : Nat, rest[index]?.bind read = none) ∧
        read first = some value := by
  constructor
  · rintro ⟨index, hvalue, hlast⟩
    cases index with
    | zero => exact Or.inr ⟨fun index => hlast (index + 1) (Nat.succ_pos index), hvalue⟩
    | succ index =>
        exact Or.inl ⟨index, hvalue,
          fun later hlater => hlast (later + 1) (Nat.succ_lt_succ hlater)⟩
  · rintro (⟨index, hvalue, hlast⟩ | ⟨hnone, hvalue⟩)
    · refine ⟨index + 1, hvalue, fun later hlater => ?_⟩
      obtain ⟨later, rfl⟩ := Nat.exists_eq_succ_of_ne_zero (Nat.ne_zero_of_lt hlater)
      exact hlast later (Nat.lt_of_succ_lt_succ hlater)
    · refine ⟨0, hvalue, fun later hlater => ?_⟩
      obtain ⟨later, rfl⟩ := Nat.exists_eq_succ_of_ne_zero (Nat.ne_of_gt hlater)
      exact hnone later

/-- What is known after a list of units was read, and what had been known before. -/
def Learned (read : ScheduleUnit → Option α) (units : List ScheduleUnit)
    (before after : Option α) : Prop :=
  ∀ value, after = some value ↔ LastRead read units value ∨
    (∀ index : Nat, units[index]?.bind read = none) ∧ before = some value

theorem learned_nil (read : ScheduleUnit → Option α) (known : Option α) :
    Learned read [] known known := by
  intro value
  simp [LastRead]

theorem Learned.cons {read : ScheduleUnit → Option α} {first : ScheduleUnit}
    {rest : List ScheduleUnit} {before after : Option α}
    (h : Learned read rest ((read first).or before) after) :
    Learned read (first :: rest) before after := by
  intro value
  have hnone : (∀ index : Nat, (first :: rest)[index]?.bind read = none) ↔
      read first = none ∧ ∀ index : Nat, rest[index]?.bind read = none := by
    refine ⟨fun h => ⟨h 0, fun index => h (index + 1)⟩, fun h index => ?_⟩
    cases index with
    | zero => exact h.1
    | succ index => exact h.2 index
  rw [h value, lastRead_cons, hnone]
  cases read first with
  | none => simp
  | some found => simp

/-- What a unit tells about an operation: nothing, unless it was made for it. -/
def ScheduleUnit.tells (unit : ScheduleUnit) (op : OpId) (part : ScheduleUnit → Option α) :
    Option α :=
  if unit.lead = .op op then part unit else none

/-! ## Reports -/

theorem IndexMap.get?_ofList {ν : Type} {entries : List (Nat × ν)}
    (hnodup : (entries.map Prod.fst).Nodup) (index : Nat) :
    (IndexMap.ofList entries).get? index = (entries.find? (·.1 = index)).map Prod.snd := by
  have hfold : ∀ map : IndexMap ν,
      (entries.foldl (fun map entry => map.insert entry.1 entry.2) map).get? index =
        ((entries.find? (·.1 = index)).map Prod.snd).or (map.get? index) := by
    induction entries with
    | nil => simp
    | cons entry rest ih =>
        intro map
        rw [List.map_cons, List.nodup_cons] at hnodup
        rw [List.foldl_cons, ih hnodup.2, get?_insert, List.find?_cons]
        by_cases hkey : entry.1 = index
        · have hnone : rest.find? (·.1 = index) = none := by
            rw [List.find?_eq_none]
            intro other hother
            have hmem : other.1 ∈ rest.map Prod.fst := List.mem_map_of_mem hother
            have hne : other.1 ≠ index := fun heq => hnodup.1 (by rwa [hkey, ← heq])
            simpa using hne
          simp [hkey, hnone]
        · simp [hkey]
  rw [ofList, hfold]
  simp [get?]

namespace Schedule

variable {unit : ScheduleUnit} {schedule schedule' : Schedule} {op : OpId}

theorem exists_addUnit (hunfused : unit.fused = []) {slot : Nat} (hslot : unit.slot = some slot)
    (hword : slot < Word.count) (schedule : Schedule) :
    ∃ schedule', schedule.addUnit unit = .ok schedule' := by
  have hissue : Word.add slot 0 = .ok slot := Word.add_eq_ok.mpr ⟨hword, rfl⟩
  have hinstr : ∃ schedule', addInstr unit slot schedule (unit.lead, 0) = .ok schedule' := by
    unfold addInstr
    cases unit.lead with
    | op op => exact ⟨_, Checked.bind_eq_ok.mpr ⟨slot, hissue, rfl⟩⟩
    | entry block => exact ⟨schedule, rfl⟩
    | exit block => exact ⟨schedule, rfl⟩
  obtain ⟨schedule', hinstr⟩ := hinstr
  refine ⟨schedule', ?_⟩
  rw [addUnit, hslot, ScheduleUnit.instrs, hunfused]
  exact Checked.bind_eq_ok.mpr ⟨schedule', hinstr, rfl⟩

theorem addUnit_eq_ok (hunfused : unit.fused = []) (h : schedule.addUnit unit = .ok schedule')
    (op : OpId) : schedule'.slot? op = (unit.tells op (·.slot)).or (schedule.slot? op) ∧
      schedule'.class? op = (unit.tells op (·.valueClass)).or (schedule.class? op) := by
  unfold addUnit at h
  split at h
  · cases h
  next slot hslot =>
    rw [ScheduleUnit.instrs, hunfused, List.foldlM_cons] at h
    obtain ⟨added, hadd, h⟩ := Checked.bind_eq_ok.mp h
    obtain rfl := Checked.pure_eq_ok.mp h
    unfold addInstr at hadd
    dsimp only at hadd
    split at hadd
    next op' hlead =>
      obtain ⟨issue, hissue, hadd⟩ := Checked.bind_eq_ok.mp hadd
      obtain rfl := Checked.pure_eq_ok.mp hadd
      obtain rfl : issue = slot := (Word.add_eq_ok.mp hissue).2
      by_cases hop : op' = op
      · subst hop
        refine ⟨by simp [slot?, IndexMap.get?_insert, ScheduleUnit.tells, hlead, hslot], ?_⟩
        simp only [class?, ScheduleUnit.tells, hlead, if_pos]
        cases unit.valueClass with
        | none => rfl
        | some valueClass => simp [IndexMap.get?_insert]
      · have hother : unit.lead ≠ .op op := by
          rw [hlead]
          exact fun heq => hop (Instr.op.inj heq)
        refine ⟨by simp [slot?, IndexMap.get?_insert, ScheduleUnit.tells, hother, hop], ?_⟩
        simp only [class?, ScheduleUnit.tells, hother, if_neg, not_false_eq_true, Option.none_or]
        cases unit.valueClass with
        | none => rfl
        | some valueClass => simp [IndexMap.get?_insert, hop]
    next hlead =>
      obtain rfl := Checked.pure_eq_ok.mp hadd
      have hother : unit.lead ≠ .op op := fun heq => hlead op heq
      simp [ScheduleUnit.tells, hother]

theorem foldlM_addUnit_eq_ok {units : List ScheduleUnit}
    (hunfused : ∀ unit ∈ units, unit.fused = [])
    (h : units.foldlM addUnit schedule = .ok schedule') (op : OpId) :
    Learned (·.tells op (·.slot)) units (schedule.slot? op) (schedule'.slot? op) ∧
      Learned (·.tells op (·.valueClass)) units (schedule.class? op) (schedule'.class? op) := by
  induction units generalizing schedule with
  | nil =>
      obtain rfl := Checked.pure_eq_ok.mp h
      exact ⟨learned_nil _ _, learned_nil _ _⟩
  | cons unit rest ih =>
      rw [List.foldlM_cons] at h
      obtain ⟨added, hadd, h⟩ := Checked.bind_eq_ok.mp h
      obtain ⟨hunit, hrest⟩ := List.forall_mem_cons.mp hunfused
      obtain ⟨hslots, hclasses⟩ := ih hrest h
      obtain ⟨hslot, hclass⟩ := addUnit_eq_ok hunit hadd op
      rw [hslot] at hslots
      rw [hclass] at hclasses
      exact ⟨hslots.cons, hclasses.cons⟩

end Schedule

namespace Graph

variable {g : Graph} {schedule : Schedule} {op : OpId}

/-- The last unit that was made for the operation and has a part has this one. -/
def Latest (g : Graph) (op : OpId) (part : UnitId → Option α) (value : α) : Prop :=
  ∃ id, g.Leads (.op op) id ∧ part id = some value ∧
    ∀ later, g.Leads (.op op) later → id < later → part later = none

theorem lastRead_iff_latest {part : ScheduleUnit → Option α} {value : α} :
    LastRead (·.tells op part) g.units.toList value ↔
      g.Latest op (fun id => g.units[id]?.bind part) value := by
  have htells : ∀ id : Nat, g.units.toList[id]?.bind (·.tells op part) = none ↔
      (g.Leads (.op op) id → g.units[id]?.bind part = none) := by
    intro id
    rw [Array.getElem?_toList, Leads]
    cases g.units[id]? with
    | none => simp
    | some unit => simp [ScheduleUnit.tells]
  have hvalue : ∀ id : Nat, g.units.toList[id]?.bind (·.tells op part) = some value ↔
      g.Leads (.op op) id ∧ g.units[id]?.bind part = some value := by
    intro id
    rw [Array.getElem?_toList, Leads]
    cases g.units[id]? with
    | none => simp
    | some unit => simp [ScheduleUnit.tells]
  simp only [LastRead, Latest, htells, hvalue, and_assoc]
  refine exists_congr fun id => and_congr_right fun _ => and_congr_right fun _ => ?_
  exact forall_congr' fun later => forall_comm

section

variable (hunfused : ∀ {id : UnitId} {unit : ScheduleUnit}, g.units[id]? = some unit →
  unit.fused = []) (h : Schedule.ofGraph g = .ok schedule)

include hunfused h

theorem learned_ofGraph (op : OpId) :
    (∀ slot, schedule.slot? op = some slot ↔ g.Latest op g.slot? slot) ∧
      ∀ valueClass, schedule.class? op = some valueClass ↔ g.Latest op g.class? valueClass := by
  obtain ⟨told, htold, h⟩ := Checked.bind_eq_ok.mp h
  obtain rfl := Checked.pure_eq_ok.mp h
  have hfused : ∀ unit ∈ g.units.toList, unit.fused = [] := by
    intro unit hunit
    obtain ⟨id, hid⟩ := List.getElem?_of_mem hunit
    exact hunfused (by rwa [Array.getElem?_toList] at hid)
  obtain ⟨hslots, hclasses⟩ := Schedule.foldlM_addUnit_eq_ok hfused htold op
  refine ⟨fun slot => ?_, fun valueClass => ?_⟩
  · have hslot := hslots slot
    rw [lastRead_iff_latest] at hslot
    exact hslot.trans (or_iff_left (by simp [Schedule.slot?, IndexMap.get?]))
  · have hclass := hclasses valueClass
    rw [lastRead_iff_latest] at hclass
    exact hclass.trans (or_iff_left (by simp [Schedule.class?, IndexMap.get?]))

theorem slot?_ofGraph {id : UnitId} (hlast : g.IsLast (.op op) id) {slot : Nat}
    (hslot : g.slot? id = some slot) : schedule.slot? op = some slot :=
  ((learned_ofGraph hunfused h op).1 slot).mpr ⟨id, hlast.leads, hslot, fun _ hlater hlt =>
    absurd (hlast.last hlater) (Nat.not_le.mpr hlt)⟩

theorem class?_ofGraph (op : OpId) (valueClass : ValueClass) :
    schedule.class? op = some valueClass ↔ g.Latest op g.class? valueClass :=
  (learned_ofGraph hunfused h op).2 valueClass

end

theorem interval?_ofGraph (h : Schedule.ofGraph g = .ok schedule) (hnodup : g.intervals.keys.Nodup)
    (block : BlockId) : schedule.interval? block = g.interval? block := by
  obtain ⟨told, _, h⟩ := Checked.bind_eq_ok.mp h
  obtain rfl := Checked.pure_eq_ok.mp h
  exact IndexMap.get?_ofList hnodup block

/-- A graph is reported once every unit has a slot. -/
theorem exists_ofGraph (hunfused : ∀ {id : UnitId} {unit : ScheduleUnit},
      g.units[id]? = some unit → unit.fused = [])
    (hplaced : ∀ {id}, id < g.units.size → ∃ slot, g.slot? id = some slot ∧ slot < Word.count) :
    ∃ schedule, Schedule.ofGraph g = .ok schedule := by
  have hfold : ∀ (units : List ScheduleUnit) (start : Schedule),
      (∀ unit ∈ units, unit.fused = [] ∧ ∃ slot, unit.slot = some slot ∧ slot < Word.count) →
      ∃ schedule, units.foldlM Schedule.addUnit start = .ok schedule := by
    intro units
    induction units with
    | nil => exact fun start _ => ⟨start, rfl⟩
    | cons unit rest ih =>
        intro start hall
        obtain ⟨⟨hfused, slot, hslot, hword⟩, hrest⟩ := List.forall_mem_cons.mp hall
        obtain ⟨added, hadd⟩ := Schedule.exists_addUnit hfused hslot hword start
        obtain ⟨schedule, hschedule⟩ := ih added hrest
        exact ⟨schedule, Checked.bind_eq_ok.mpr ⟨added, hadd, hschedule⟩⟩
  obtain ⟨told, htold⟩ := hfold g.units.toList {} fun unit hunit => by
    obtain ⟨id, hid⟩ := List.getElem?_of_mem hunit
    rw [Array.getElem?_toList] at hid
    obtain ⟨slot, hslot, hword⟩ := hplaced (lt_size_of_getElem? hid)
    exact ⟨hunfused hid, slot, (slot?_eq hid).symm.trans hslot, hword⟩
  exact ⟨_, Checked.bind_eq_ok.mpr ⟨told, htold, rfl⟩⟩

end Graph

end SlotScheduling
