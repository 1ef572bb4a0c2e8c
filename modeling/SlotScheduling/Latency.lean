import SlotScheduling.Operation
import SlotScheduling.Table

/-!
# Latencies

What is known about the timing of operations: on which operations each one depends, how many slots
lie between them, and how long each one takes to finish.
-/

namespace SlotScheduling

structure Dependence where
  /-- The operation that produces the operand; without one it is live at the entry of the block. -/
  source : Option OpId
  /-- Slots from production to use. -/
  latency : Nat := 0
  /-- Iterations of the loop that the dependence spans. -/
  distance : Nat := 0
  /-- An ordering through memory rather than through a value. -/
  memory : Bool := false
  deriving DecidableEq, Repr

namespace Dependence

def value (source : OpId) (latency : Nat) : Dependence := { source := some source, latency }

def liveIn : Dependence := { source := none }

def throughMemory (source : OpId) (latency : Nat) : Dependence :=
  { source := some source, latency, memory := true }

def loopCarried (source : OpId) (latency distance : Nat) : Dependence :=
  { source := some source, latency, distance }

end Dependence

structure LatencyOracle where
  /-- Every operand of an operation, if anything is known about it. -/
  dependences : OpId → Option (List Dependence)
  /-- Slots until the result of an operation is final. -/
  stepsToFinish : OpId → Nat

structure LatencyTable where
  dependences : Table OpId (List Dependence) := {}
  steps : Table OpId Nat := {}

namespace LatencyTable

/-- Every operation of the table is known, without operands. -/
def ofOps (ops : OpTable) : LatencyTable where
  dependences := ⟨ops.keys.map fun op => (op, [])⟩
  steps := ⟨ops.entries.map fun entry => (entry.1, entry.2.stepsToFinish)⟩

def addDependence (table : LatencyTable) (op : OpId) (dependence : Dependence) : LatencyTable :=
  { table with dependences := table.dependences.upsert op [dependence] (· ++ [dependence]) }

def setSteps (table : LatencyTable) (op : OpId) (steps : Nat) : LatencyTable :=
  { table with steps := table.steps.insert op steps }

/-- An operation without a record of its steps finishes at once. -/
def oracle (table : LatencyTable) : LatencyOracle where
  dependences op := table.dependences.get? op
  stepsToFinish op := (table.steps.get? op).getD 0

end LatencyTable

end SlotScheduling
