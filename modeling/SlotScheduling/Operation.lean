import SlotScheduling.IndexedTable

/-!
# Operations

The primitive hardware operations of a function, the function units they occupy, and the basic
blocks that list them in program order.
-/

namespace SlotScheduling

/-- An operation, by its position in the table of operations. -/
abbrev OpId := Nat

/-- A basic block, by its number. -/
abbrev BlockId := Nat

inductive FuncUnitKind
  /-- Wires, constants and moves, of which there are always enough. -/
  | trivial
  | memoryBus
  | blockRam
  | addSub
  | shift
  | mult
  | compare
  | mux
  | callee
  deriving DecidableEq, Repr

namespace FuncUnitKind

def label : FuncUnitKind → String
  | .trivial => "trivial"
  | .memoryBus => "membus"
  | .blockRam => "bram"
  | .addSub => "addsub"
  | .shift => "shift"
  | .mult => "mult"
  | .compare => "icmp"
  | .mux => "mux"
  | .callee => "callee"

def all : List FuncUnitKind :=
  [.trivial, .memoryBus, .blockRam, .addSub, .shift, .mult, .compare, .mux, .callee]

end FuncUnitKind

/-- One instance of a function unit.  Two operations on the same instance that is not trivial never
issue in the same slot. -/
structure FuncUnit where
  kind : FuncUnitKind := .trivial
  number : Nat := 0
  deriving DecidableEq, Repr

namespace FuncUnit

def trivial : FuncUnit := {}

def isTrivial (unit : FuncUnit) : Bool := decide (unit.kind = .trivial)

def text (unit : FuncUnit) : String :=
  if unit.isTrivial then unit.kind.label else s!"{unit.kind.label}#{unit.number}"

end FuncUnit

structure Operation where
  opcode : String
  operand : Option String := none
  block : BlockId
  funcUnit : FuncUnit := .trivial
  /-- Purely combinational, and free to chain. -/
  dataPath : Bool := false
  terminator : Bool := false
  /-- The block to which a branch transfers control. -/
  branchTarget : Option BlockId := none
  /-- A loop move whose copy is made one interval later. -/
  phi : Bool := false
  /-- The function unit keeps its result only until the operation finishes. -/
  writeUntilFinish : Bool := false
  stepsToFinish : Nat := 0
  deriving DecidableEq, Repr

namespace Operation

def control (opcode : String) (block : BlockId) (funcUnit : FuncUnit) : Operation :=
  { opcode, block, funcUnit }

def data (opcode : String) (block : BlockId) (funcUnit : FuncUnit) : Operation :=
  { opcode, block, funcUnit, dataPath := true }

def branch (block target : BlockId) : Operation :=
  { opcode := "brcnd", block, terminator := true, branchTarget := some target }

def isControl (operation : Operation) : Bool :=
  !operation.dataPath || operation.terminator || operation.phi

end Operation

abbrev OpTable := IndexedTable 32 Operation

def OpTable.operation (ops : OpTable) (op : OpId) : Checked Operation :=
  match ops.get? op with
  | some operation => .ok operation
  | none => faulty (.noSuchOperation op)

structure BasicBlock where
  id : BlockId
  ops : List OpId
  deriving DecidableEq, Repr

/-- What a unit of a graph stands for. -/
inductive Instr
  | entry (block : BlockId)
  | op (op : OpId)
  | exit (block : BlockId)
  deriving DecidableEq, Repr

namespace Instr

def op? : Instr → Option OpId
  | Instr.op id => some id
  | _ => none

def isEntry : Instr → Bool
  | .entry _ => true
  | _ => false

end Instr

end SlotScheduling
