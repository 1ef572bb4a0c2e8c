/-!
# Collections in ascending order

Sets of indices, and maps from indices to values, that list their members from the smallest index
to the largest.
-/

namespace SlotScheduling

structure IndexSet where
  toList : List Nat := []
  deriving DecidableEq, Repr

namespace IndexSet

def insertList (index : Nat) : List Nat → List Nat
  | [] => [index]
  | head :: tail =>
    if index < head then index :: head :: tail
    else if index = head then head :: tail
    else head :: insertList index tail

def insert (set : IndexSet) (index : Nat) : IndexSet := ⟨insertList index set.toList⟩

def erase (set : IndexSet) (index : Nat) : IndexSet := ⟨set.toList.filter (· ≠ index)⟩

def size (set : IndexSet) : Nat := set.toList.length

instance : Membership Nat IndexSet := ⟨fun set index => index ∈ set.toList⟩

theorem mem_insertList {index other : Nat} {list : List Nat} :
    other ∈ insertList index list ↔ other = index ∨ other ∈ list := by
  induction list with
  | nil => simp [insertList]
  | cons head tail ih =>
    unfold insertList
    split
    · simp
    · split
      · next h => subst h; simp
      · simp only [List.mem_cons, ih]
        constructor <;> rintro (h | h | h) <;> simp [h]

theorem mem_insert {set : IndexSet} {index other : Nat} :
    other ∈ set.insert index ↔ other = index ∨ other ∈ set :=
  mem_insertList

theorem mem_erase {set : IndexSet} {index other : Nat} :
    other ∈ set.erase index ↔ other ∈ set ∧ other ≠ index := by
  show other ∈ set.toList.filter (· ≠ index) ↔ other ∈ set.toList ∧ other ≠ index
  simp

end IndexSet

structure IndexMap (ν : Type) where
  entries : List (Nat × ν) := []
  deriving DecidableEq, Repr

namespace IndexMap

variable {ν : Type}

def insertList (index : Nat) (value : ν) : List (Nat × ν) → List (Nat × ν)
  | [] => [(index, value)]
  | head :: tail =>
    if index < head.1 then (index, value) :: head :: tail
    else if index = head.1 then (index, value) :: tail
    else head :: insertList index value tail

/-- The last value inserted under an index stands. -/
def insert (map : IndexMap ν) (index : Nat) (value : ν) : IndexMap ν :=
  ⟨insertList index value map.entries⟩

def get? (map : IndexMap ν) (index : Nat) : Option ν :=
  (map.entries.find? (·.1 = index)).map Prod.snd

def ofList (entries : List (Nat × ν)) : IndexMap ν :=
  entries.foldl (fun map entry => map.insert entry.1 entry.2) {}

theorem get?_insert (map : IndexMap ν) (index other : Nat) (value : ν) :
    (map.insert index value).get? other = if index = other then some value else map.get? other := by
  rcases map with ⟨entries⟩
  simp only [get?, insert]
  induction entries with
  | nil => by_cases h : index = other <;> simp [insertList, h]
  | cons head tail ih =>
    unfold insertList
    split
    · by_cases h : index = other <;> simp [List.find?_cons, h]
    · split
      · next h =>
        by_cases ho : index = other
        · simp [ho]
        · have : head.1 ≠ other := h ▸ ho
          simp [ho, this]
      · next h =>
        by_cases ho : head.1 = other
        · have : index ≠ other := ho ▸ h
          simp [ho, this]
        · simpa [List.find?_cons, ho] using ih

end IndexMap

end SlotScheduling
