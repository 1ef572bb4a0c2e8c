import SlotScheduling.Graph.Basic

/-!
# Schedules

What the scheduler hands on: the slot of every operation, the interval of every pipelined block, and
the class of every result that has one.
-/

namespace SlotScheduling

structure Schedule where
  slots : IndexMap Nat := {}
  intervals : IndexMap Nat := {}
  classes : IndexMap ValueClass := {}
  deriving DecidableEq, Repr

namespace Schedule

def addInstr (unit : ScheduleUnit) (slot : Nat) (schedule : Schedule) (instr : Instr × Nat) :
    Checked Schedule := do
  match instr.1 with
  | .op op =>
    let issue ← Word.add slot instr.2
    let classes := match unit.valueClass with
      | some valueClass => schedule.classes.insert op valueClass
      | none => schedule.classes
    return { schedule with slots := schedule.slots.insert op issue, classes }
  | _ => return schedule

def addUnit (schedule : Schedule) (unit : ScheduleUnit) : Checked Schedule :=
  match unit.slot with
  | none => broken .unscheduledUnit s!"[{unit.id}] of block#{unit.block}"
  | some slot => unit.instrs.foldlM (addInstr unit slot) schedule

/-- The schedule of a graph in which every unit has a slot. -/
def ofGraph (g : Graph) : Checked Schedule := do
  let schedule ← g.units.toList.foldlM addUnit {}
  return { schedule with intervals := .ofList g.intervals.entries }

def slot? (schedule : Schedule) (op : OpId) : Option Nat := schedule.slots.get? op

def interval? (schedule : Schedule) (block : BlockId) : Option Nat := schedule.intervals.get? block

def class? (schedule : Schedule) (op : OpId) : Option ValueClass := schedule.classes.get? op

end Schedule

end SlotScheduling
