import SlotScheduling.Graph.Lowering
import SlotScheduling.Schedule
import SlotScheduling.Strategy

/-!
# Scheduling blocks and regions

A block is lowered, scheduled and reported.  A region is a sequence of blocks that is scheduled as
one graph, in which a block that loops back to itself takes part with the schedule it has on its
own.
-/

namespace SlotScheduling

variable {σ : Type}

def scheduleApart (options : SchedulingOptions) (g : Graph) : Step σ Graph :=
  Prod.snd <$> Step.apart g (Graph.schedule options)

def scheduleBlock (program : Program) (block : BasicBlock) (entrySlot : Nat)
    (options : SchedulingOptions) : Step σ (Graph × Schedule) := do
  let g ← Lowering.buildBlock program block entrySlot
  let g ← scheduleApart options g
  return (g, ← Schedule.ofGraph g)

namespace Region

def isSelfLoop (program : Program) (block : BasicBlock) : Checked Bool :=
  block.ops.anyM fun op => do
    let operation ← program.ops.operation op
    return operation.terminator && decide (operation.branchTarget = some block.id)

def addBlock (program : Program) (entrySlot : Nat) (options : SchedulingOptions) (l : Lowering)
    (block : BasicBlock) : Step σ Lowering := do
  if ← isSelfLoop program block then
    let sub ← Lowering.buildBlock program block entrySlot
    let sub ← scheduleApart options sub
    l.mergeBlock sub
  else Lowering.lowerBlock program l block

def span (g : Graph) (entrySlot : Nat) : Checked Nat := do
  match g.exitRoot with
  | none => return 0
  | some exit => return (← g.unit exit).slot.getD entrySlot - entrySlot

def schedule (program : Program) (blocks : List BasicBlock) (entrySlot : Nat)
    (options : SchedulingOptions) : Step σ (Graph × Schedule) := do
  match blocks with
  | [] => Step.fail (.broken .unknownUnit "cannot schedule an empty region")
  | first :: _ =>
    let l ← blocks.foldlM (addBlock program entrySlot options) (Lowering.start first.id entrySlot)
    let g ← scheduleApart options (← l.finish)
    let schedule ← Schedule.ofGraph g
    let slots ← span g entrySlot
    let names := blocks.map fun block => s!"block#{block.id}"
    Step.note .info fun _ =>
      "scheduled region " ++ String.intercalate ", " names ++ s!" in {slots} slots"
    return (g, schedule)

end Region

end SlotScheduling
