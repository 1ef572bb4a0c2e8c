import SlotScheduling.ScheduleUnit

/-!
# Dependency graphs

The dependency graph of one basic block, or of a region of several blocks.  Units name each other
by their positions.  The first unit is the entry of the entry block; in a complete graph the last
unit is the exit.  The uses of a unit are the units that depend on it, and every operation here
keeps the two in step.
-/

namespace SlotScheduling

structure Graph where
  entryBlock : BlockId
  entrySlot : Nat
  units : Array ScheduleUnit
  controlUnits : List UnitId
  dataUnits : List UnitId
  /-- The unit that holds an instruction. -/
  holders : Table Instr UnitId
  /-- The initiation intervals of the pipelined blocks. -/
  intervals : Table BlockId Nat
  terminators : Table BlockId UnitId
  /-- The terminator that branches back to the entry block. -/
  loopOp : Option UnitId
  exitRoot : Option UnitId

namespace Graph

def nextId (g : Graph) : UnitId := g.units.size

/-- The unit at a position that is known to be taken. -/
def unit (g : Graph) (id : UnitId) : Checked ScheduleUnit :=
  match g.units[id]? with
  | some unit => .ok unit
  | none => faulty (.noSuchUnit id)

def changeUnit (g : Graph) (id : UnitId) (change : ScheduleUnit → ScheduleUnit) : Checked Graph :=
  if id < g.units.size then .ok { g with units := g.units.modify id change }
  else faulty (.noSuchUnit id)

def changeUnits (g : Graph) (ids : List UnitId) (change : ScheduleUnit → ScheduleUnit) :
    Checked Graph :=
  ids.foldlM (fun g id => g.changeUnit id change) g

def holder? (g : Graph) (instr : Instr) : Option UnitId := g.holders.get? instr

def terminator? (g : Graph) (block : BlockId) : Option UnitId := g.terminators.get? block

def interval? (g : Graph) (block : BlockId) : Option Nat := g.intervals.get? block

def slots (g : Graph) : List (Option Nat) := g.units.toList.map (·.slot)

/-- The entry block branches back to itself, and is to be pipelined. -/
def isPipelined (g : Graph) : Bool := g.loopOp.isSome

/-- From now on the loop is scheduled as straight-line code. -/
def disablePipeline (g : Graph) : Graph := { g with loopOp := none }

/-- The entry unit of the entry block. -/
def entryRoot (_ : Graph) : UnitId := 0

def createUnit (g : Graph) (lead : Instr) (block : BlockId) (funcUnit : FuncUnit) (control : Bool)
    (latency : Nat) : Graph :=
  let id := g.nextId
  { g with
    units := g.units.push { id, lead, block, funcUnit, control, latency }
    holders := g.holders.insert lead id
    controlUnits := if control then g.controlUnits ++ [id] else g.controlUnits
    dataUnits := if control then g.dataUnits else g.dataUnits ++ [id] }

def createEntry (g : Graph) (block : BlockId) : Graph :=
  g.createUnit (.entry block) block .trivial true 0

def createExit (g : Graph) (block : BlockId) : Graph :=
  { g.createUnit (.exit block) block .trivial true 0 with exitRoot := some g.nextId }

def start (entryBlock : BlockId) (entrySlot : Nat) : Graph :=
  let bare : Graph :=
    { entryBlock, entrySlot
      units := #[]
      controlUnits := []
      dataUnits := []
      holders := {}
      intervals := {}
      terminators := {}
      loopOp := none
      exitRoot := none }
  bare.createEntry entryBlock

def checkUnit (g : Graph) (id : UnitId) : Checked PUnit :=
  if id < g.units.size then .ok ⟨⟩
  else broken .unknownUnit s!"[{id}] is not part of the graph"

/-- Fuse an operation into a unit; it issues `offset` slots after the unit. -/
def fuse (g : Graph) (id : UnitId) (op : OpId) (offset : Nat) : Checked Graph := do
  g.checkUnit id
  let g ← g.changeUnit id (·.fuse (.op op) offset)
  return { g with holders := g.holders.insert (.op op) id }

def addDep (g : Graph) (target source : UnitId) (edge : DepEdge) : Checked Graph := do
  g.checkUnit target
  g.checkUnit source
  let producer ← g.unit source
  let consumer ← g.unit target
  let (consumer, isFirst) ← consumer.addDep source producer.block edge
  let g ← g.changeUnit target fun _ => consumer
  if isFirst then g.changeUnit source (·.addUse target) else return g

def removeDep (g : Graph) (target source : UnitId) : Checked Graph := do
  let consumer ← g.unit target
  if (consumer.dep? source).isSome then
    let g ← g.changeUnit target (·.removeDep source)
    g.changeUnit source (·.removeUse target)
  else return g

/-- Detach a unit from everything that it depends on and that depends on it. -/
def detach (g : Graph) (id : UnitId) : Checked Graph := do
  let unit ← g.unit id
  let g ← g.changeUnits unit.deps.keys (·.removeUse id)
  let g ← g.changeUnits unit.uses.toList (·.removeDep id)
  g.changeUnit id fun unit => { unit with deps := {}, uses := {} }

def setTerminator (g : Graph) (block : BlockId) (id : UnitId) : Checked Graph := do
  let g ← g.changeUnit id fun unit => { unit with terminator := true }
  return { g with terminators := g.terminators.insert block id }

def setPhi (g : Graph) (id : UnitId) : Checked Graph :=
  g.changeUnit id fun unit => { unit with phi := true }

/-- A unit can be the loop operation if it is a terminator of the entry block that branches back to
the entry block. -/
def canLoop (g : Graph) (unit : ScheduleUnit) (target : Option BlockId) : Bool :=
  unit.terminator && decide (unit.block = g.entryBlock) && decide (target = some g.entryBlock)

def trySetLoopOp (g : Graph) (id : UnitId) (target : Option BlockId) : Checked (Bool × Graph) := do
  let unit ← g.unit id
  if g.canLoop unit target then return (true, { g with loopOp := some id }) else return (false, g)

def setInterval (g : Graph) (block : BlockId) (interval : Nat) : Graph :=
  { g with intervals := g.intervals.insert block interval }

def placeAll (g : Graph) (placements : List (UnitId × Nat)) : Checked Graph :=
  placements.foldlM (fun g placement => g.changeUnit placement.1 (·.place placement.2)) g

end Graph

end SlotScheduling
