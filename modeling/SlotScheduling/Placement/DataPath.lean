import SlotScheduling.Graph.Slots
import SlotScheduling.Options
import SlotScheduling.Placement.ControlPath

/-!
# Scheduling the data path

Data-path units are placed around a control path that has its slots.  Units that dangle go to the
last slot of their block.  The others are placed as late or as early as possible, between the start
and the end of their block.  Then it is decided which results need a register.
-/

namespace SlotScheduling.DataPath

def name : String := "data-path"

def description : String := "Timing-only scheduling of data-path units and register/wire selection"

/-- The last slot of the block of a unit, which has to be known. -/
def lastSlot (g : Graph) (id : UnitId) (block : BlockId) : Checked Nat := do
  match ← g.endSlot block with
  | some slot => return slot
  | none =>
    broken .unscheduledUnit
      s!"[{id}] needs the end of block#{block}, whose control path is not scheduled"

/-- A frozen unit does not dangle, and any other unit that does goes to the last slot of its block.
Yields whether it does. -/
def placeDangling (g : Graph) (id : UnitId) : Checked (Graph × Bool) := do
  let unit ← g.unit id
  let g ← if unit.fixedTiming then g.setDangling id false else pure g
  if unit.dangling && !unit.fixedTiming then
    let last ← lastSlot g id unit.block
    return (← g.changeUnit id (·.place last), true)
  else return (g, false)

def placeAllDangling (ids : List UnitId) : Step Graph Nat :=
  ids.foldlM (fun count id => do
    let (g, placed) ← placeDangling (← Step.current) id
    Step.replace g
    return if placed then count + 1 else count) 0

/-- A unit lies within its block; its end only counts when units are placed late. -/
def addWindow (g : Graph) (options : SchedulingOptions) (id : UnitId) (unit : ScheduleUnit)
    (term : Term) (system : ConstraintSystem) : Checked ConstraintSystem := do
  let first := (← g.startSlot unit.block).getD g.entrySlot
  let system ← system.lowerBound term first
  if options.dataPathLate then
    let last ← lastSlot g id unit.block
    system.upperBound term last
  else return system

def addDep (g : Graph) (unit : ScheduleUnit) (term : Term) (system : ConstraintSystem)
    (dep : UnitId × EdgeBundle) : Checked ConstraintSystem := do
  match ← dep.2.edge.offset? (g.interval? unit.block) with
  | none => return system
  | some offset =>
    match ← system.term? g dep.1 with
    | none => return system
    | some source => system.addEdge term source dep.2.edge offset

/-- The constraint of one use of a unit, if the user has a slot. -/
def addUse (g : Graph) (id : UnitId) (term : Term) (system : ConstraintSystem) (user : UnitId) :
    Checked ConstraintSystem := do
  let consumer ← g.unit user
  match consumer.slot, consumer.dep? id with
  | some _, some bundle =>
    match ← bundle.edge.offset? (g.interval? consumer.block) with
    | none => return system
    | some offset =>
      match ← system.term? g user with
      | none => return system
      | some target => system.addEdge target term bundle.edge offset
  | _, _ => return system

/-- The constraints of one unit that has no slot.  A frozen unit is placed by its edge alone. -/
def addUnit (g : Graph) (options : SchedulingOptions) (system : ConstraintSystem) (id : UnitId) :
    Checked ConstraintSystem := do
  let unit ← g.unit id
  match unit.slot, ← system.term? g id with
  | none, some term =>
    let system ←
      if unit.fixedTiming then pure system else addWindow g options id unit term system
    let system ← unit.deps.entries.foldlM (addDep g unit term) system
    unit.uses.toList.foldlM (addUse g id term) system
  | _, _ => return system

def build (g : Graph) (options : SchedulingOptions) : Checked ConstraintSystem := do
  g.dataUnits.foldlM (addUnit g options) (← ConstraintSystem.ofFree g g.dataUnits)

/-- One of the units that a unit of `block` in slot `slot` depends on is a real operation of that
block whose result is not there yet. -/
def waitsForProducer (g : Graph) (block : BlockId) (slot : Nat) : List UnitId → Checked Bool
  | [] => .ok false
  | source :: rest => do
    let producer ← g.unit source
    if producer.block = block ∧ producer.funcUnit.isTrivial = false ∧
        producer.lead.op?.isSome then
      match ← producer.finalSlot with
      | none => waitsForProducer g block slot rest
      | some final =>
        let copy ← if producer.writeUntilFinish then Word.add final 1 else pure final
        if slot < copy then return true else waitsForProducer g block slot rest
    else waitsForProducer g block slot rest

/-- A single operation that has a slot can stay a wire if its operands are there in time and not all
results are to be registered; anything else needs a register. -/
def classOf (g : Graph) (options : SchedulingOptions) (unit : ScheduleUnit) :
    Checked ValueClass := do
  match unit.slot, unit.fused with
  | some slot, [] =>
    let waits ← waitsForProducer g unit.block slot unit.deps.keys
    return if waits || options.registerAll then .register else .wire
  | _, _ => return .register

/-- Decide the class of a unit.  A frozen unit keeps the class it has. -/
def classify (options : SchedulingOptions) (g : Graph) (id : UnitId) : Checked Graph := do
  let unit ← g.unit id
  if unit.fixedTiming && unit.valueClass.isSome then return g
  else
    let valueClass ← classOf g options unit
    g.changeUnit id fun unit => { unit with valueClass := some valueClass }

def schedule (options : SchedulingOptions) : Step Graph PUnit := do
  Step.updateChecked Graph.resetData
  Step.updateChecked fun g => g.controlUnits.foldlM Graph.undangle g
  let g ← Step.current
  let dangling ← placeAllDangling g.dataUnits
  let g ← Step.current
  let system ← build g options
  let free := system.unknowns.size
  Step.note .debug fun _ =>
    s!"{name}: block#{g.entryBlock} with {free} free units, {dangling} dangling"
  if 0 < free then
    let slots ← (if options.dataPathLate then system.latest else system.earliest).orMalformed
    Step.updateChecked (·.placeAll slots)
  Step.updateChecked fun g => g.dataUnits.foldlM (classify options) g

end SlotScheduling.DataPath
