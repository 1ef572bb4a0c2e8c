import SlotScheduling.Word

/-!
# Tables with dense keys

A table hands out its keys in increasing order, one for each value that is pushed.  Keys are kept
to a fixed number of bits, so that the keys of a table that outgrows them repeat.
-/

namespace SlotScheduling

structure IndexedTable (width : Nat) (α : Type) where
  items : Array α := #[]

namespace IndexedTable

variable {width : Nat} {α : Type}

/-- The key that stands for position `n`: its lowest `width` bits. -/
def keyOf (width n : Nat) : Nat := n % (1 <<< width)

/-- The key that stands for an integer: the lowest `width` bits of its two's complement. -/
def keyOfInt (width : Nat) (n : Int) : Nat := (n % (1 <<< width : Nat)).toNat

theorem keyOfInt_natCast (width n : Nat) : keyOfInt width n = keyOf width n := by
  unfold keyOfInt keyOf
  rw [← Int.natCast_emod, Int.toNat_natCast]

def size (table : IndexedTable width α) : Nat := table.items.size

def isEmpty (table : IndexedTable width α) : Bool := table.items.isEmpty

def nextKey (table : IndexedTable width α) : Nat := keyOf width table.size

def push (table : IndexedTable width α) (item : α) : IndexedTable width α :=
  ⟨table.items.push item⟩

def get? (table : IndexedTable width α) (key : Nat) : Option α := table.items[key]?

def contains (table : IndexedTable width α) (key : Nat) : Bool := decide (key < table.size)

def lookup (table : IndexedTable width α) (key : Nat) : Checked α :=
  match table.get? key with
  | some item => .ok item
  | none => faulty (.noSuchKey key)

def set (table : IndexedTable width α) (key : Nat) (item : α) : IndexedTable width α :=
  ⟨table.items.setIfInBounds key item⟩

def keys (table : IndexedTable width α) : List Nat := (List.range table.size).map (keyOf width)

def values (table : IndexedTable width α) : List α := table.items.toList

def entries (table : IndexedTable width α) : List (Nat × α) := table.keys.zip table.values

end IndexedTable

end SlotScheduling
