import SlotScheduling.Graph.Basic

/-!
# Issue orders

Control units of one block that share a function unit that is not trivial have to issue in different
slots.  A chain puts them in an order: by the slots they have now, and by position where these are
equal.
-/

namespace SlotScheduling

/-- Units of one block on one function unit, in the order in which they issue. -/
structure IssueChain where
  block : BlockId
  units : List UnitId
  deriving DecidableEq, Repr

structure IssueOrder where
  chains : List IssueChain
  deriving DecidableEq, Repr

namespace IssueOrder

/-- Slot and position; a unit without a slot counts as in slot 0. -/
abbrev Key := Nat × UnitId

def comesFirst (a b : Key) : Bool :=
  decide (a.1 < b.1) || (decide (a.1 = b.1) && decide (a.2 ≤ b.2))

def insertKey (key : Key) : List Key → List Key
  | [] => [key]
  | head :: tail => if comesFirst key head then key :: head :: tail else head :: insertKey key tail

def sortKeys (keys : List Key) : List Key := keys.foldr insertKey []

/-- The control units of each block and function unit that is not trivial, in order of position. -/
def groups (g : Graph) : Checked (Table (BlockId × FuncUnit) (List UnitId)) :=
  g.controlUnits.foldlM (fun table id => do
    let unit ← g.unit id
    if unit.funcUnit.isTrivial then return table
    else return table.upsert (unit.block, unit.funcUnit) [id] (· ++ [id])) .empty

def chainOf (g : Graph) (block : BlockId) (units : List UnitId) : Checked IssueChain := do
  let keys ← units.mapM fun id => return ((← g.unit id).slot.getD 0, id)
  return { block, units := (sortKeys keys).map Prod.snd }

/-- The chains of all groups of more than one unit, for the slots of now. -/
def build (g : Graph) : Checked IssueOrder := do
  let shared := (← groups g).entries.filter fun entry => decide (1 < entry.2.length)
  let chains ← shared.mapM fun entry => chainOf g entry.1.1 entry.2
  return { chains }

def isEmpty (order : IssueOrder) : Bool := order.chains.isEmpty

def edgeCount (order : IssueOrder) : Nat :=
  order.chains.foldl (fun count chain => count + (chain.units.length - 1)) 0

end IssueOrder

end SlotScheduling
