import SlotScheduling.Placement.IssueOrder

/-!
# Looking through the data path

Only control units have slots while the control path is scheduled.  What a data-path unit waits for
is said by its control sources: the control units from which it is reached through data-path units
alone, each with the largest sum of offsets on the way.
-/

namespace SlotScheduling

/-- The bounds under which control units are placed. -/
structure ControlBounds where
  /-- The entry block is being pipelined, with an interval of its own. -/
  pipelining : Bool := false
  loopInterval : Option Nat := none
  /-- The largest number of slots between the entry slot and the exit. -/
  criticalPathEnd : Option Nat := none
  order : Option IssueOrder := none
  /-- Every chain of the order has to fit into one interval. -/
  moduloWindow : Bool := false

namespace ControlBounds

/-- The interval at which a block repeats, if it is known. -/
def interval? (bounds : ControlBounds) (g : Graph) (block : BlockId) : Option Nat :=
  if bounds.pipelining ∧ block = g.entryBlock then bounds.loopInterval else g.interval? block

/-- The least slot difference that an edge to a unit of `block` asks for. -/
def offset? (bounds : ControlBounds) (g : Graph) (block : BlockId) (edge : DepEdge) :
    Checked (Option Int) :=
  edge.offset? (bounds.interval? g block)

end ControlBounds

/-- Control units with the largest offset from each. -/
abbrev ControlSources := Table UnitId Int

def ControlSources.raise (sources : ControlSources) (control : UnitId) (offset : Int) :
    ControlSources :=
  sources.upsert control offset (max · offset)

/-- The control sources of the data-path units that were looked through so far. -/
abbrev LookThrough := Array (Option ControlSources)

namespace LookThrough

def start (g : Graph) : LookThrough := Array.replicate g.units.size none

def sources? (found : LookThrough) (id : UnitId) : Option ControlSources := found.getD id none

def addDep (g : Graph) (bounds : ControlBounds) (found : LookThrough) (unit : ScheduleUnit)
    (sources : ControlSources) (dep : UnitId × EdgeBundle) : Checked ControlSources := do
  match ← bounds.offset? g unit.block dep.2.edge with
  | none => return sources
  | some offset =>
    if (← g.unit dep.1).control then return sources.raise dep.1 offset
    else
      match found.sources? dep.1 with
      | none => return sources
      | some inner =>
        inner.entries.foldlM (fun sources source =>
          return ControlSources.raise sources source.1 (← Offset.add source.2 offset)) sources

/-- A frozen unit that feeds a control unit at a fixed distance issues that much ahead of it. -/
def addUse (g : Graph) (id : UnitId) (sources : ControlSources) (user : UnitId) :
    Checked ControlSources := do
  let consumer ← g.unit user
  match consumer.dep? id with
  | none => return sources
  | some bundle =>
    if consumer.control && bundle.edge.isFixedTiming then
      return sources.raise user (-(bundle.edge.latency : Int))
    else return sources

/-- The control sources of a unit, from those found for the units it depends on. -/
def combine (g : Graph) (bounds : ControlBounds) (found : LookThrough) (id : UnitId) :
    Checked ControlSources := do
  let unit ← g.unit id
  let sources ← unit.deps.entries.foldlM (addDep g bounds found unit) .empty
  if unit.fixedTiming then unit.uses.toList.foldlM (addUse g id) sources else return sources

/-- Look through a unit and the units it depends on, the last dependency first.  A unit that is met
again on its own path closes a cycle and contributes nothing there; the path never repeats a unit,
so that the number of units bounds the depth. -/
def resolve (g : Graph) (bounds : ControlBounds) : Nat → List UnitId → LookThrough → UnitId →
    Checked LookThrough
  | 0, _, found, _ => .ok found
  | depth + 1, path, found, id => do
    if (found.sources? id).isSome ∨ id ∈ path then return found
    else
      let unit ← g.unit id
      let found ← unit.deps.keys.reverse.foldlM (fun found source => do
        if (← g.unit source).isData then resolve g bounds depth (id :: path) found source
        else return found) found
      let sources ← combine g bounds found id
      return found.setIfInBounds id (some sources)

def sourcesOf (g : Graph) (bounds : ControlBounds) (found : LookThrough) (id : UnitId) :
    Checked (ControlSources × LookThrough) := do
  let found ← resolve g bounds (g.units.size + 1) [] found id
  return ((found.sources? id).getD .empty, found)

end LookThrough

end SlotScheduling
