import SlotScheduling.Graph.Basic
import SlotScheduling.Journal

/-!
# Freezing a scheduled graph

A block that was scheduled on its own joins an enclosing graph with its schedule frozen: every unit
gets an edge of fixed timing to or from the terminator of the block, of the distance between their
slots, and keeps its value class.  The enclosing graph can move the block as a whole, but not
within itself.  The exit of the block does not come along, and its entry can be folded into an
entry that the enclosing graph already has.
-/

namespace SlotScheduling

/-- A scheduled block is left without slots, dependencies and uses, and does not dangle. -/
def ScheduleUnit.frozen (unit : ScheduleUnit) : ScheduleUnit :=
  { unit with deps := {}, uses := {}, slot := none, dangling := false, fixedTiming := true }

namespace Graph

/-- A graph that can be frozen, with the positions of its terminator and its exit. -/
structure Completed where
  graph : Graph
  terminator : UnitId
  exit : UnitId

/-- A graph can be frozen if it ends with the terminator of its entry block and its exit, and all
units but the exit have slots. -/
def completed (sub : Graph) : Checked Completed := do
  let block := sub.entryBlock
  match sub.exitRoot, sub.terminator? block with
  | none, _ => broken .indexMismatch s!"sub-graph of block#{block} has no exit root"
  | _, none => broken .missingTerminator s!"sub-graph of block#{block}"
  | some exit, some terminator =>
    let count := sub.units.size
    if exit + 1 ≠ count ∨ terminator + 1 ≠ exit then
      let ends := s!"found [{terminator}] and [{exit}] out of {count}"
      broken .indexMismatch
        (s!"sub-graph of block#{block} must end with its terminator and exit, " ++ ends)
    match sub.units.toList.find? fun unit => unit.id ≠ exit ∧ unit.slot = none with
    | some unit => broken .unscheduledUnit s!"[{unit.id}] of block#{block} cannot be frozen"
    | none => return { graph := sub, terminator, exit }

/-- The pair of units and the distance that freeze one unit: a unit issued after the terminator
hangs off it, any other feeds it. -/
def freezingEdge (terminator terminatorSlot position slot : Nat) : UnitId × UnitId × Nat :=
  if slot ≤ terminatorSlot then (terminator, position, terminatorSlot - slot)
  else (position, terminator, slot - terminatorSlot)

/-- Where the units of a frozen graph go: behind the `base` units that are there, one position
earlier if the entry is folded into `anchor`. -/
def relocate (base : Nat) (anchor : Option UnitId) (id : UnitId) : UnitId :=
  match anchor with
  | none => id + base
  | some anchor => if id = 0 then anchor else id + base - 1

namespace Completed

def migrants (sub : Completed) : List ScheduleUnit :=
  sub.graph.units.toList.dropLast.map (·.frozen)

def migrantSlots (sub : Completed) : List Nat :=
  sub.graph.units.toList.dropLast.map fun unit => unit.slot.getD 0

/-- The edges that freeze the block, one for each unit that comes along but the terminator. -/
def freezingEdges (sub : Completed) : List (UnitId × UnitId × Nat) :=
  let slots := sub.migrantSlots
  let terminatorSlot := slots.getD sub.terminator 0
  (slots.zipIdx.filter (·.2 ≠ sub.terminator)).map fun (slot, position) =>
    freezingEdge sub.terminator terminatorSlot position slot

def attach (units : Array ScheduleUnit) (target source : UnitId) (distance : Nat) :
    Checked (Array ScheduleUnit) :=
  match units[target]?, units[source]? with
  | some consumer, some producer => do
    let (consumer, _) ← consumer.addDep source producer.block (.fixedTiming distance)
    return units.setIfInBounds target consumer
  | none, _ => faulty (.noSuchUnit target)
  | _, none => faulty (.noSuchUnit source)

/-- The units that come along, frozen against the terminator, at their old positions. -/
def frozenUnits (sub : Completed) : Checked (List ScheduleUnit) := do
  let units ← sub.freezingEdges.foldlM (fun units (target, source, distance) =>
    attach units target source distance) sub.migrants.toArray
  return units.toList

end Completed

def renameUnit (rename : UnitId → UnitId) (unit : ScheduleUnit) : ScheduleUnit :=
  { unit with
    id := rename unit.id
    deps := ⟨unit.deps.entries.map fun dep => (rename dep.1, dep.2)⟩ }

/-- Put a unit that carries its own position behind the units of the graph. -/
def adopt (g : Graph) (unit : ScheduleUnit) : Graph :=
  { g with
    units := g.units.push unit
    controlUnits := if unit.control then g.controlUnits ++ [unit.id] else g.controlUnits
    dataUnits := if unit.control then g.dataUnits else g.dataUnits ++ [unit.id] }

/-- Make every unit from position `base` on a use of the units it depends on. -/
def registerUses (g : Graph) (base : Nat) : Checked Graph :=
  (List.range' base (g.units.size - base)).foldlM (fun g id => do
    g.changeUnits (← g.unit id).deps.keys (·.addUse id)) g

/-- Take over the tables of a frozen graph, less the keys of its exit and of a folded entry. -/
def adoptTables (g sub : Graph) (folded : Bool) (rename : UnitId → UnitId) : Graph :=
  let block := sub.entryBlock
  let holders := sub.holders.erase (.exit block)
  let holders := if folded then holders.erase (.entry block) else holders
  { g with
    holders := g.holders.insertAll (holders.entries.map fun entry => (entry.1, rename entry.2))
    intervals := g.intervals.insertAll sub.intervals.entries
    terminators :=
      g.terminators.insertAll (sub.terminators.entries.map fun entry => (entry.1, rename entry.2)) }

def absorb (g : Graph) (sub : Completed) (anchor : Option UnitId) : Checked Graph := do
  let base := g.units.size
  let rename := relocate base anchor
  let units ← sub.frozenUnits
  let units := if anchor.isSome then units.drop 1 else units
  let g := (units.map (renameUnit rename)).foldl adopt g
  let g ← g.registerUses base
  return g.adoptTables sub.graph anchor.isSome rename

/-- Freeze a graph into the current one, its entry folded into `anchor` if there is one.  Yields the
position of its entry. -/
def freezeInto (sub : Graph) (anchor : Option UnitId) : Step Graph UnitId := do
  let sub ← sub.completed
  let rename := relocate (← Step.current).units.size anchor
  Step.updateChecked (·.absorb sub anchor)
  let block := sub.graph.entryBlock
  let terminator := rename sub.terminator
  let next := (← Step.current).nextId
  if next ≠ terminator + 1 then
    Step.fail (.broken .indexMismatch
      s!"terminator of block#{block} landed on [{terminator}], next index is {next}")
  let entry := rename 0
  Step.note .debug fun _ =>
    s!"merged block#{block} at [{entry}] with {sub.freezingEdges.length} fixed-timing edges"
  return entry

def merge (sub : Graph) : Step Graph UnitId := freezeInto sub none

/-- Freeze a graph into the current one, with its entry folded into a unit that enters the same
block and depends on nothing. -/
def mergeOnto (sub : Graph) (entry : UnitId) : Step Graph UnitId := do
  let g ← Step.current
  let block := sub.entryBlock
  let refuse : Step Graph UnitId :=
    Step.fail (.broken .indexMismatch s!"[{entry}] is not a free entry of block#{block}")
  if g.holder? (.entry block) = some entry then
    if (← g.unit entry).deps.size ≠ 0 then refuse else freezeInto sub (some entry)
  else refuse

end Graph

end SlotScheduling
