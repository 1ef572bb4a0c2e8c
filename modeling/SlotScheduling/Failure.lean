/-!
# Failures

Two kinds of failure are told apart.  A scheduling error belongs to the domain: a graph breaks a
structural contract, a constraint system has no solution, or a search ran past its ceiling.  A
fault is a broken promise of the caller: a number leaves its range, or an index names nothing.
-/

namespace SlotScheduling

/-- The structural contracts of a dependency graph. -/
inductive Contract
  | selfDependency
  | fixedTimingOverride
  | conflictingDistance
  | entryRootHasDeps
  | exitRootHasUses
  | floatingUnit
  | detachedUnit
  | badValueEdge
  | badInterBlockEdge
  | indexMismatch
  | unscheduledUnit
  | infeasibleSystem
  | missingTerminator
  | loopOpSlot
  | phiSlot
  | unknownUnit
  | missingLatencyInfo
  deriving DecidableEq, Repr

def Contract.title : Contract → String
  | .selfDependency => "self dependency"
  | .fixedTimingOverride => "fixed timing override"
  | .conflictingDistance => "conflicting loop distance"
  | .entryRootHasDeps => "entry root has dependencies"
  | .exitRootHasUses => "exit root has uses"
  | .floatingUnit => "unconstrained unit"
  | .detachedUnit => "detached unit"
  | .badValueEdge => "bad value dependency"
  | .badInterBlockEdge => "bad inter-block dependency"
  | .indexMismatch => "index mismatch"
  | .unscheduledUnit => "unscheduled unit"
  | .infeasibleSystem => "infeasible constraint system"
  | .missingTerminator => "missing terminator"
  | .loopOpSlot => "loop terminator slot"
  | .phiSlot => "PHI slot"
  | .unknownUnit => "unknown unit"
  | .missingLatencyInfo => "missing latency information"

/-- What can go wrong while a graph is built or scheduled. -/
inductive SchedulingError
  | broken (contract : Contract) (detail : String)
  | infeasible (reason : String)
  | searchExhausted (block interval criticalPath : Nat)
  deriving DecidableEq, Repr

namespace SchedulingError

def message : SchedulingError → String
  | .broken contract detail => s!"[{contract.title}] {detail}"
  | .infeasible reason => s!"infeasible: {reason}"
  | .searchExhausted block interval criticalPath =>
    s!"no feasible pipelined schedule found for block#{block} " ++
      s!"(II {interval}, critical path {criticalPath})"

def contract? : SchedulingError → Option Contract
  | .broken contract _ => some contract
  | _ => none

/-- A caller can answer every error but a broken contract by relaxing a bound. -/
def isRecoverable (error : SchedulingError) : Bool :=
  error.contract?.isNone

/-- Outside of a search, a system without solution means that the graph itself is malformed. -/
def asContract : SchedulingError → SchedulingError
  | .infeasible reason => .broken .infeasibleSystem reason
  | error => error

end SchedulingError

/-- A number that leaves its range, or a name for something that does not exist. -/
inductive Fault
  | overflow
  | noSuchUnit (index : Nat)
  | noSuchOperation (index : Nat)
  | noSuchKey (index : Nat)
  | noSuchVariable (index : Nat)
  deriving DecidableEq, Repr

inductive Failure
  | error (cause : SchedulingError)
  | fault (cause : Fault)
  deriving DecidableEq, Repr

/-- A computation that changes nothing but can fail. -/
abbrev Checked (α : Type) := Except Failure α

def broken {α : Type} (contract : Contract) (detail : String) : Checked α :=
  .error (.error (.broken contract detail))

def faulty {α : Type} (cause : Fault) : Checked α :=
  .error (.fault cause)

theorem Checked.bind_eq_ok {α β : Type} {first : Checked α} {next : α → Checked β} {value : β} :
    (first >>= next) = .ok value ↔ ∃ middle, first = .ok middle ∧ next middle = .ok value := by
  cases first with
  | error failure => simp [bind, Except.bind]
  | ok middle => simp [bind, Except.bind]

end SlotScheduling
