/-!
# Tables in insertion order

A table remembers the order in which its keys arrived.  Inserting a key that is already there
moves it to the back; modifying a value leaves its key in place.
-/

namespace SlotScheduling

structure Table (κ ν : Type) where
  entries : List (κ × ν) := []
  deriving DecidableEq, Repr

namespace Table

variable {κ ν : Type}

def empty : Table κ ν := {}

def keys (table : Table κ ν) : List κ := table.entries.map Prod.fst

def values (table : Table κ ν) : List ν := table.entries.map Prod.snd

def size (table : Table κ ν) : Nat := table.entries.length

variable [DecidableEq κ]

def get? (table : Table κ ν) (key : κ) : Option ν :=
  (table.entries.find? (·.1 = key)).map Prod.snd

def contains (table : Table κ ν) (key : κ) : Bool := (table.get? key).isSome

def erase (table : Table κ ν) (key : κ) : Table κ ν :=
  ⟨table.entries.filter (·.1 ≠ key)⟩

/-- The new entry goes to the back, whether or not the key was there. -/
def insert (table : Table κ ν) (key : κ) (value : ν) : Table κ ν :=
  ⟨(table.erase key).entries ++ [(key, value)]⟩

def modify (table : Table κ ν) (key : κ) (change : ν → ν) : Table κ ν :=
  ⟨table.entries.map fun entry => if entry.1 = key then (entry.1, change entry.2) else entry⟩

def insertAll (table : Table κ ν) (more : List (κ × ν)) : Table κ ν :=
  more.foldl (fun table entry => table.insert entry.1 entry.2) table

/-- Change the value of a key in place if it is there, else put `value` to the back. -/
def upsert (table : Table κ ν) (key : κ) (value : ν) (change : ν → ν) : Table κ ν :=
  if table.contains key then table.modify key change else table.insert key value

theorem get?_erase (table : Table κ ν) (key other : κ) :
    (table.erase key).get? other = if key = other then none else table.get? other := by
  simp only [get?, erase, List.find?_filter]
  split
  · next h => subst h; simp
  · next h =>
    congr 2
    funext entry
    by_cases he : entry.1 = other
    · subst he; simp [Ne.symm h]
    · simp [he]

theorem get?_insert (table : Table κ ν) (key other : κ) (value : ν) :
    (table.insert key value).get? other = if key = other then some value else table.get? other := by
  have herase := table.get?_erase key other
  simp only [get?, insert, List.find?_append] at herase ⊢
  by_cases h : key = other
  · subst h
    have hnone : (table.entries.find? fun _ => false) = none := by simp
    simp [erase, List.find?_filter, hnone]
  · simp only [h, if_false] at herase ⊢
    rw [← herase]
    simp [h]

theorem get?_modify (table : Table κ ν) (key other : κ) (change : ν → ν) :
    (table.modify key change).get? other =
      if key = other then (table.get? other).map change else table.get? other := by
  rcases table with ⟨entries⟩
  simp only [get?, modify]
  induction entries with
  | nil => simp
  | cons entry rest ih =>
    by_cases hk : entry.1 = key <;> by_cases ho : entry.1 = other <;>
      by_cases h : key = other <;> simp_all

theorem keys_modify (table : Table κ ν) (key : κ) (change : ν → ν) :
    (table.modify key change).keys = table.keys := by
  simp only [keys, modify, List.map_map]
  congr 1
  funext entry
  simp only [Function.comp]
  split <;> rfl

end Table

end SlotScheduling
