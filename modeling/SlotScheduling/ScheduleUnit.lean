import SlotScheduling.Ascending
import SlotScheduling.Edge
import SlotScheduling.Operation
import SlotScheduling.Table

/-!
# Schedule units

A unit is what receives a slot: the entry or the exit of a block, or an operation together with
the operations that are fused into it.
-/

namespace SlotScheduling

/-- A unit, by its position in its graph. -/
abbrev UnitId := Nat

/-- Whether a data-path result is latched or passed on within its slot. -/
inductive ValueClass
  | register
  | wire
  deriving DecidableEq, Repr

structure ScheduleUnit where
  id : UnitId
  /-- What the unit was made for. -/
  lead : Instr
  /-- What was fused into the unit, with the slots after the unit at which it issues. -/
  fused : List (Instr × Nat) := []
  block : BlockId
  funcUnit : FuncUnit := .trivial
  /-- A unit of the control path rather than of the data path. -/
  control : Bool
  /-- Steps until the result is final. -/
  latency : Nat := 0
  terminator : Bool := false
  phi : Bool := false
  writeUntilFinish : Bool := false
  deps : Table UnitId EdgeBundle := {}
  uses : IndexSet := {}
  slot : Option Nat := none
  /-- No control unit of the block needs the result. -/
  dangling : Bool := true
  /-- The unit comes from a block whose schedule is frozen. -/
  fixedTiming : Bool := false
  valueClass : Option ValueClass := none
  deriving DecidableEq, Repr

namespace ScheduleUnit

def isData (unit : ScheduleUnit) : Bool := !unit.control

def isScheduled (unit : ScheduleUnit) : Bool := unit.slot.isSome

def instrs (unit : ScheduleUnit) : List (Instr × Nat) := (unit.lead, 0) :: unit.fused

def fuse (unit : ScheduleUnit) (instr : Instr) (offset : Nat) : ScheduleUnit :=
  { unit with fused := unit.fused ++ [(instr, offset)] }

def dep? (unit : ScheduleUnit) (source : UnitId) : Option EdgeBundle := unit.deps.get? source

def place (unit : ScheduleUnit) (slot : Nat) : ScheduleUnit := { unit with slot := some slot }

def unplace (unit : ScheduleUnit) : ScheduleUnit := { unit with slot := none }

/-- The slot in which the result is final. -/
def finalSlot (unit : ScheduleUnit) : Checked (Option Nat) :=
  match unit.slot with
  | none => .ok none
  | some slot => some <$> Word.add slot unit.latency

/-- Add an edge from `source`.  The flag tells whether it is the first one from there, which makes
this unit a use of the source. -/
def addDep (unit : ScheduleUnit) (source : UnitId) (sourceBlock : BlockId) (edge : DepEdge) :
    Checked (ScheduleUnit × Bool) :=
  if source = unit.id then broken .selfDependency s!"[{unit.id}] cannot depend on itself"
  else
    match unit.dep? source with
    | some bundle =>
      match bundle.addEdge edge with
      | .ok bundle => .ok ({ unit with deps := unit.deps.modify source fun _ => bundle }, false)
      | .error contract =>
        broken contract s!"[{source}] -> [{unit.id}]: {bundle.refusal edge}"
    | none =>
      let bundle := { edge, crossBlock := decide (sourceBlock ≠ unit.block) }
      .ok ({ unit with deps := unit.deps.insert source bundle }, true)

def removeDep (unit : ScheduleUnit) (source : UnitId) : ScheduleUnit :=
  { unit with deps := unit.deps.erase source }

def addUse (unit : ScheduleUnit) (user : UnitId) : ScheduleUnit :=
  { unit with uses := unit.uses.insert user }

def removeUse (unit : ScheduleUnit) (user : UnitId) : ScheduleUnit :=
  { unit with uses := unit.uses.erase user }

end ScheduleUnit

end SlotScheduling
