import Mathlib.Data.List.Nodup
import SlotScheduling.Table

/-!
# Keys and entries of tables

Which keys and entries a table has after a change.
-/

namespace SlotScheduling.Table

variable {κ ν : Type} {table : Table κ ν} {key other : κ} {value : ν}

theorem mem_keys_of_mem_entries (h : (key, value) ∈ table.entries) : key ∈ table.keys :=
  List.mem_map_of_mem h

/-- The values of all keys with a property are changed, and stay in place. -/
def modifyIf (table : Table κ ν) (p : κ → Prop) [DecidablePred p] (change : ν → ν) : Table κ ν :=
  ⟨table.entries.map fun entry => if p entry.1 then (entry.1, change entry.2) else entry⟩

section

variable {p q : κ → Prop} [DecidablePred p] [DecidablePred q] {change change' : ν → ν}

theorem keys_modifyIf : (table.modifyIf p change).keys = table.keys := by
  simp only [keys, modifyIf, List.map_map]
  refine List.map_congr_left fun entry _ => ?_
  simp only [Function.comp]
  split <;> rfl

/-- Of two changes the later one counts, if it does not depend on the earlier one. -/
theorem modifyIf_modifyIf (h : ∀ value, change (change' value) = change value) :
    (table.modifyIf p change').modifyIf p change = table.modifyIf p change := by
  simp only [modifyIf, List.map_map]
  congr 1
  refine List.map_congr_left fun entry _ => ?_
  simp only [Function.comp]
  by_cases hp : p entry.1 <;> simp [hp, h]

theorem modifyIf_congr (h : ∀ key ∈ table.keys, p key ↔ q key) :
    table.modifyIf p change = table.modifyIf q change := by
  simp only [modifyIf]
  congr 1
  refine List.map_congr_left fun entry hentry => ?_
  simp only [h entry.1 (List.mem_map_of_mem hentry)]

end

variable [DecidableEq κ]

theorem mem_entries_of_get?_eq_some (h : table.get? key = some value) :
    (key, value) ∈ table.entries := by
  obtain ⟨entry, hfind, rfl⟩ := Option.map_eq_some_iff.mp h
  have hkey : entry.1 = key := by simpa using List.find?_some hfind
  exact hkey ▸ List.mem_of_find?_eq_some hfind

theorem erase_insert (table : Table κ ν) (key : κ) (value : ν) :
    (table.insert key value).erase key = table.erase key := by
  simp [insert, erase]

theorem exists_get?_of_mem_keys (h : key ∈ table.keys) : ∃ value, table.get? key = some value := by
  obtain ⟨entry, hmem, rfl⟩ := List.mem_map.mp h
  have hfound : (table.entries.find? (·.1 = entry.1)).isSome := by
    rw [List.find?_isSome]
    exact ⟨entry, hmem, by simp⟩
  obtain ⟨found, hfound⟩ := Option.isSome_iff_exists.mp hfound
  exact ⟨found.2, by simp [get?, hfound]⟩

theorem mem_keys_iff : key ∈ table.keys ↔ ∃ value, table.get? key = some value := by
  refine ⟨exists_get?_of_mem_keys, fun h => ?_⟩
  obtain ⟨value, hvalue⟩ := h
  exact mem_keys_of_mem_entries (mem_entries_of_get?_eq_some hvalue)

theorem mem_entries_insert {entry : κ × ν} :
    entry ∈ (table.insert key value).entries ↔
      entry = (key, value) ∨ (entry ∈ table.entries ∧ entry.1 ≠ key) := by
  simp only [insert, erase, List.mem_append, List.mem_filter, decide_eq_true_eq,
    List.mem_singleton]
  exact or_comm

theorem mem_keys_insert :
    other ∈ (table.insert key value).keys ↔ other = key ∨ other ∈ table.keys := by
  simp only [mem_keys_iff, get?_insert]
  by_cases h : key = other
  · simp [h]
  · simp [h, Ne.symm h]

theorem mem_entries_modify {change : ν → ν} {entry : κ × ν}
    (h : entry ∈ (table.modify key change).entries) :
    entry ∈ table.entries ∨ ∃ old, (key, old) ∈ table.entries ∧ entry = (key, change old) := by
  obtain ⟨old, hold, heq⟩ := List.mem_map.mp h
  split at heq
  next hkey => exact Or.inr ⟨old.2, hkey ▸ hold, hkey ▸ heq.symm⟩
  next => exact Or.inl (heq ▸ hold)

theorem get?_upsert (table : Table κ ν) (key other : κ) (value : ν) (change : ν → ν) :
    (table.upsert key value change).get? other =
      if key = other then some (((table.get? other).map change).getD value)
      else table.get? other := by
  unfold upsert contains
  split
  next hsome =>
    obtain ⟨old, hold⟩ := Option.isSome_iff_exists.mp hsome
    rw [get?_modify]
    split
    next heq => simp [← heq, hold]
    next => rfl
  next hnone =>
    rw [Bool.not_eq_true, Option.isSome_eq_false_iff, Option.isNone_iff_eq_none] at hnone
    rw [get?_insert]
    split
    next heq => simp [← heq, hnone]
    next => rfl

theorem mem_entries_insertAll {more : List (κ × ν)} {entry : κ × ν}
    (h : entry ∈ (table.insertAll more).entries) :
    entry ∈ more ∨ (entry ∈ table.entries ∧ ∀ other ∈ more, other.1 ≠ entry.1) := by
  unfold insertAll at h
  induction more generalizing table with
  | nil => exact Or.inr ⟨h, fun _ hmem => absurd hmem List.not_mem_nil⟩
  | cons first rest ih =>
      rcases ih h with hmem | ⟨hmem, hrest⟩
      · exact Or.inl (List.mem_cons_of_mem _ hmem)
      · rcases mem_entries_insert.mp hmem with rfl | ⟨hmem, hne⟩
        · exact Or.inl List.mem_cons_self
        · exact Or.inr ⟨hmem, List.forall_mem_cons.mpr ⟨Ne.symm hne, hrest⟩⟩

theorem get?_insertAll_of_forall_ne {more : List (κ × ν)} (h : ∀ entry ∈ more, entry.1 ≠ key) :
    (table.insertAll more).get? key = table.get? key := by
  unfold insertAll
  induction more generalizing table with
  | nil => rfl
  | cons first rest ih =>
      obtain ⟨hfirst, hrest⟩ := List.forall_mem_cons.mp h
      rw [List.foldl_cons, ih hrest, get?_insert, if_neg hfirst]

/-- A key that is inserted gets one of the values it is inserted with. -/
theorem exists_get?_insertAll {more : List (κ × ν)} (h : (key, value) ∈ more) :
    ∃ value', (key, value') ∈ more ∧ (table.insertAll more).get? key = some value' := by
  unfold insertAll
  induction more generalizing table value with
  | nil => exact absurd h List.not_mem_nil
  | cons first rest ih =>
      by_cases hlater : ∃ value, (key, value) ∈ rest
      · obtain ⟨value, hvalue⟩ := hlater
        obtain ⟨value', hmem, hget⟩ := ih hvalue
        exact ⟨value', List.mem_cons_of_mem _ hmem, hget⟩
      · have hfirst : (key, value) = first :=
          (List.mem_cons.mp h).resolve_right fun hmem => hlater ⟨value, hmem⟩
        refine ⟨value, hfirst ▸ List.mem_cons_self, ?_⟩
        have hnone : ((table.insert first.1 first.2).insertAll rest).get? key = _ :=
          get?_insertAll_of_forall_ne fun entry hmem heq => hlater ⟨entry.2, heq ▸ hmem⟩
        unfold insertAll at hnone
        rw [List.foldl_cons, hnone, get?_insert, ← hfirst, if_pos rfl]

theorem nodup_keys_insert (h : table.keys.Nodup) : (table.insert key value).keys.Nodup := by
  have herased : (table.erase key).keys.Nodup :=
    h.sublist (List.filter_sublist.map Prod.fst)
  have hfresh : key ∉ (table.erase key).keys := by
    simp [mem_keys_iff, get?_erase]
  have hkeys : (table.insert key value).keys = (table.erase key).keys ++ [key] := by
    simp [insert, keys]
  rw [hkeys]
  exact herased.append (List.nodup_singleton key) (by simpa using hfresh)

theorem nodup_keys_insertAll {more : List (κ × ν)} (h : table.keys.Nodup) :
    (table.insertAll more).keys.Nodup := by
  unfold insertAll
  induction more generalizing table with
  | nil => exact h
  | cons first rest ih => exact ih (nodup_keys_insert h)

theorem get?_modifyIf {p : κ → Prop} [DecidablePred p] {change : ν → ν} :
    (table.modifyIf p change).get? key =
      if p key then (table.get? key).map change else table.get? key := by
  have hkeys : ∀ entry : κ × ν,
      (if p entry.1 then (entry.1, change entry.2) else entry).1 = entry.1 := by
    intro entry
    split <;> rfl
  simp only [get?, modifyIf, List.find?_map, Function.comp_def, hkeys, Option.map_map]
  cases hfind : table.entries.find? (·.1 = key) with
  | none => simp
  | some entry =>
      have hkey : entry.1 = key := by simpa using List.find?_some hfind
      simp only [Option.map_some, hkey]
      split <;> rfl

/-- Changing the values of a list of keys one after the other. -/
theorem foldl_modify {change : ν → ν} (h : ∀ value, change (change value) = change value)
    (keys : List κ) :
    keys.foldl (fun table key => table.modify key change) table =
      table.modifyIf (· ∈ keys) change := by
  induction keys generalizing table with
  | nil => simp [modifyIf]
  | cons key rest ih =>
      rw [List.foldl_cons, ih]
      simp only [modifyIf, modify, List.map_map]
      congr 1
      refine List.map_congr_left fun entry _ => ?_
      simp only [Function.comp, List.mem_cons]
      by_cases hkey : entry.1 = key <;> by_cases hrest : entry.1 ∈ rest <;>
        simp [hkey, hrest, h]

end SlotScheduling.Table
