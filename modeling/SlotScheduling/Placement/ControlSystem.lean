import SlotScheduling.Difference.System
import SlotScheduling.Placement.LookThrough

/-!
# The constraints of the control path

The slots of the control units that have none are variables, those of the others are constants.
Every dependency of a control unit is a constraint, where a data-path unit stands for its control
sources; an issue order and a bound on the length of the schedule can be added.
-/

namespace SlotScheduling

/-- A system under construction, and what was looked through for it. -/
structure ControlAssembly where
  system : ConstraintSystem := {}
  found : LookThrough

namespace ControlAssembly

def addDataDep (g : Graph) (bounds : ControlBounds) (target : Term) (offset : Int)
    (assembly : ControlAssembly) (source : UnitId) : Checked ControlAssembly := do
  let (sources, found) ← LookThrough.sourcesOf g bounds assembly.found source
  let system ← sources.entries.foldlM (fun system (control, distance) => do
    match ← system.term? g control with
    | none => return system
    | some term => system.addGeq target term (← Offset.add distance offset)) assembly.system
  return { system, found }

def addControlDep (g : Graph) (target : Term) (offset : Int) (assembly : ControlAssembly)
    (source : UnitId) (edge : DepEdge) : Checked ControlAssembly := do
  match ← assembly.system.term? g source with
  | none => return assembly
  | some term =>
    return { assembly with system := ← assembly.system.addEdge target term edge offset }

def addDep (g : Graph) (bounds : ControlBounds) (unit : ScheduleUnit) (target : Term)
    (assembly : ControlAssembly) (dep : UnitId × EdgeBundle) : Checked ControlAssembly := do
  let producer ← g.unit dep.1
  match ← bounds.offset? g unit.block dep.2.edge with
  | none => return assembly
  | some offset =>
    if producer.isData then addDataDep g bounds target offset assembly dep.1
    else addControlDep g target offset assembly dep.1 dep.2.edge

/-- The constraints of one control unit.  A free unit issues no earlier than the entry slot. -/
def addUnit (g : Graph) (bounds : ControlBounds) (assembly : ControlAssembly) (id : UnitId) :
    Checked ControlAssembly := do
  let unit ← g.unit id
  match ← assembly.system.term? g id with
  | none => return assembly
  | some target =>
    let system ←
      match target with
      | .var _ => assembly.system.lowerBound target g.entrySlot
      | .const _ => pure assembly.system
    unit.deps.entries.foldlM (addDep g bounds unit target) { assembly with system }

end ControlAssembly

namespace ControlSystem

/-- The exit issues no later than the end of the critical path. -/
def addEnd (g : Graph) (bounds : ControlBounds) (system : ConstraintSystem) :
    Checked ConstraintSystem := do
  match bounds.criticalPathEnd, g.exitRoot with
  | some last, some exit =>
    match ← system.term? g exit with
    | none => return system
    | some term => system.upperBound term (g.entrySlot + last)
  | _, _ => return system

/-- Neighbours of a chain issue in different slots, the first one first. -/
def addNeighbours : List Term → ConstraintSystem → Checked ConstraintSystem
  | first :: second :: rest, system => do
    addNeighbours (second :: rest) (← system.addGeq second first 1)
  | _, system => .ok system

/-- The first unit of a chain issues again only after the last one. -/
def addWindow (terms : List Term) (interval : Nat) (system : ConstraintSystem) :
    Checked ConstraintSystem :=
  match terms.head?, terms.getLast? with
  | some first, some last => system.addGeq first last (1 - interval)
  | _, _ => .ok system

def addChain (g : Graph) (bounds : ControlBounds) (system : ConstraintSystem) (chain : IssueChain) :
    Checked ConstraintSystem := do
  let terms ← chain.units.filterMapM fun id => system.term? g id
  let system ← addNeighbours terms system
  match bounds.interval? g chain.block with
  | some interval => if bounds.moduloWindow then addWindow terms interval system else return system
  | none => return system

def build (g : Graph) (bounds : ControlBounds) : Checked ConstraintSystem := do
  let start : ControlAssembly :=
    { system := ← ConstraintSystem.ofFree g g.controlUnits, found := .start g }
  let assembly ← g.controlUnits.foldlM (ControlAssembly.addUnit g bounds) start
  let system ← addEnd g bounds assembly.system
  match bounds.order with
  | none => return system
  | some order => order.chains.foldlM (addChain g bounds) system

end ControlSystem

end SlotScheduling
