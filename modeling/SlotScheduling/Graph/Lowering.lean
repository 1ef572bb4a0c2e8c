import SlotScheduling.Graph.Freezing
import SlotScheduling.Graph.Verify
import SlotScheduling.Latency

/-!
# Lowering

A graph is built from blocks in order.  A block is lowered, operation by operation, or is a graph
that was scheduled before and joins with its schedule frozen.  The entry of every block but the
first waits for the terminator of the block before it.
-/

namespace SlotScheduling

/-- The operations of a function, and what is known about their timing. -/
structure Program where
  ops : OpTable
  oracle : LatencyOracle

structure Lowering where
  graph : Graph
  /-- The terminator of the block that came last. -/
  lastTerminator : Option UnitId := none
  lastBlock : BlockId
  /-- A block has taken over the entry of the graph. -/
  entryTaken : Bool := false

namespace Lowering

def start (entryBlock : BlockId) (entrySlot : Nat) : Lowering where
  graph := Graph.start entryBlock entrySlot
  lastBlock := entryBlock

/-- The first block takes over the entry of the graph if it is the entry block. -/
def takesEntry (l : Lowering) (block : BlockId) : Bool :=
  !l.entryTaken && decide (block = l.graph.entryBlock)

/-- Make the entry of a block wait for the terminator of the block before it. -/
def chain (l : Lowering) (g : Graph) (entry : UnitId) : Checked Graph :=
  match l.lastTerminator with
  | none => .ok g
  | some last => g.addDep entry last (.value 0)

def enter (l : Lowering) (block : BlockId) : Checked (Graph × UnitId) := do
  if l.takesEntry block then return (l.graph, l.graph.entryRoot)
  else
    let entry := l.graph.nextId
    return (← l.chain (l.graph.createEntry block) entry, entry)

/-- The operations of a block in the order of their units: terminators come last. -/
def unitOrder (program : Program) (block : BasicBlock) : Checked (List OpId) := do
  let ends ← block.ops.mapM fun op => return (op, (← program.ops.operation op).terminator)
  return ((ends.filter (!·.2)) ++ ends.filter (·.2)).map Prod.fst

def createOp (program : Program) (block : BlockId) (op : OpId) (g : Graph) :
    Checked (Graph × Bool) := do
  let operation ← program.ops.operation op
  let id := g.nextId
  let steps := program.oracle.stepsToFinish op
  let g := g.createUnit (.op op) block operation.funcUnit operation.isControl steps
  let g ← g.changeUnit id fun unit =>
    { unit with phi := operation.phi, writeUntilFinish := operation.writeUntilFinish }
  if operation.terminator then
    let g ← g.setTerminator block id
    let (loops, g) ← g.trySetLoopOp id operation.branchTarget
    return (g, loops)
  else return (g, false)

def createNext {σ : Type} (program : Program) (block : BlockId)
    (sofar : Graph × List (OpId × UnitId)) (op : OpId) : Step σ (Graph × List (OpId × UnitId)) := do
  let (g, created) := sofar
  let id := g.nextId
  let (g, loops) ← createOp program block op g
  if loops then Step.note .debug fun _ => s!"block#{block} loops back on itself"
  return (g, created ++ [(op, id)])

def createOps {σ : Type} (program : Program) (block : BlockId) (ops : List OpId) (g : Graph) :
    Step σ (Graph × List (OpId × UnitId)) :=
  ops.foldlM (createNext program block) (g, [])

def edgeOf (dependence : Dependence) : DepEdge :=
  if dependence.memory then .memory dependence.latency dependence.distance
  else if 0 < dependence.distance then .loopCarried dependence.latency dependence.distance
  else .value dependence.latency

/-- Attach one operand.  What no unit of the graph produces is there when the block is entered. -/
def attachOperand (entry id : UnitId) (g : Graph) (dependence : Dependence) : Checked Graph :=
  match dependence.source.bind fun source => g.holder? (.op source) with
  | some source => g.addDep id source (edgeOf dependence)
  | none => g.addDep id entry (.value 0)

def attachOperands (program : Program) (entry : UnitId) (g : Graph) (created : OpId × UnitId) :
    Checked Graph :=
  match program.oracle.dependences created.1 with
  | none =>
    broken .missingLatencyInfo s!"no dependencies recorded for OpRef({created.1})"
  | some dependences => dependences.foldlM (attachOperand entry created.2) g

/-- An edge from the block of the unit that orders the two within one iteration. -/
def isLocalDep (g : Graph) (block : BlockId) (dep : UnitId × EdgeBundle) : Checked Bool := do
  return decide ((← g.unit dep.1).block = block) && !dep.2.edge.isLoopCarried

/-- A unit that nothing orders within its block follows the entry of the block. -/
def anchorUnit (entry : UnitId) (block : BlockId) (g : Graph) (id : UnitId) : Checked Graph := do
  let deps := (← g.unit id).deps.entries
  if ← deps.anyM (isLocalDep g block) then return g else g.addDep id entry (.value 0)

/-- Attach the units of a block to what they depend on, and to the entry of the block. -/
def attachUnits (program : Program) (entry : UnitId) (block : BlockId)
    (created : List (OpId × UnitId)) (g : Graph) : Checked Graph := do
  let g ← created.foldlM (attachOperands program entry) g
  (created.map Prod.snd).foldlM (anchorUnit entry block) g

def lowerBlock {σ : Type} (program : Program) (l : Lowering) (block : BasicBlock) :
    Step σ Lowering := do
  let (g, entry) ← l.enter block.id
  let ops ← unitOrder program block
  let (g, created) ← createOps program block.id ops g
  let g ← attachUnits program entry block.id created g
  Step.note .trace fun _ =>
    s!"lowered block#{block.id}: " ++
      String.intercalate ", " (created.map fun (_, id) => toString id)
  return { graph := g
           lastTerminator := g.terminator? block.id
           lastBlock := block.id
           entryTaken := true }

def mergeBlock {σ : Type} (l : Lowering) (sub : Graph) : Step σ Lowering := do
  let block := sub.entryBlock
  let g ←
    if l.takesEntry block then
      Prod.snd <$> Step.apart l.graph (Graph.mergeOnto sub l.graph.entryRoot)
    else do
      let (entry, g) ← Step.apart l.graph (Graph.merge sub)
      l.chain g entry
  return { graph := g
           lastTerminator := g.terminator? block
           lastBlock := block
           entryTaken := true }

/-- The control units for which the exit waits: those that nothing else waits for, and all moves. -/
def sinks (g : Graph) : Checked (List UnitId) :=
  g.controlUnits.filterM fun id => do
    let unit ← g.unit id
    return decide (unit.uses.size = 0) || unit.phi

/-- Make the exit wait for one control unit.  A unit that nothing else waits for has to finish. -/
def attachExit (exit : UnitId) (g : Graph) (sink : UnitId) : Checked Graph := do
  let unit ← g.unit sink
  g.addDep exit sink (.value (if unit.uses.size = 0 then unit.latency else 0))

def finish (l : Lowering) : Checked Graph := do
  let sinks ← sinks l.graph
  let exit := l.graph.nextId
  let g ← sinks.foldlM (attachExit exit) (l.graph.createExit l.lastBlock)
  g.verify
  return g

def buildBlock {σ : Type} (program : Program) (block : BasicBlock) (entrySlot : Nat) :
    Step σ Graph := do
  let l ← lowerBlock program (start block.id entrySlot) block
  l.finish

end Lowering

end SlotScheduling
