import SlotScheduling.Journal
import SlotScheduling.Pipeline.Recurrence

/-!
# Lower bounds on the interval

The interval of a loop is at least the number of control units that share one function unit, and at
least what its recurrences need.
-/

namespace SlotScheduling

structure MinInterval where
  resource : Nat
  recurrence : Nat
  deriving DecidableEq, Repr

namespace MinInterval

/-- An interval is at least one. -/
def value (bound : MinInterval) : Nat := max (max bound.resource bound.recurrence) 1

/-- The function units, other than trivial ones, of the control units of a block. -/
def sharedFuncUnits (g : Graph) (block : BlockId) : Checked (List FuncUnit) := do
  let units ← g.controlUnits.mapM g.unit
  return (units.filter fun unit => unit.block = block ∧ unit.funcUnit.isTrivial = false).map
    (·.funcUnit)

def resourceBound (g : Graph) (block : BlockId) : Checked Nat := do
  let shared ← sharedFuncUnits g block
  let counts ← shared.mapM fun funcUnit => Word.check (shared.count funcUnit)
  return counts.foldl max 0

def recurrences (g : Graph) (block : BlockId) : List Component :=
  let units := g.units.toList.filter (·.block = block)
  (Component.all units.length (LoopArc.ofUnits units)).filter (·.isRecurrence)

/-- The interval that one recurrence needs.  One that no interval satisfies counts with the bound of
the search. -/
def recurrenceInterval {σ : Type} (component : Component) : Step σ Nat := do
  let bound ← component.intervalBound
  match ← component.firstInterval bound 1 with
  | some interval => return interval
  | none =>
    Step.note .warn fun _ =>
      s!"recurrence through {component.members.length} units has no feasible II"
    return bound

def recurrenceBound {σ : Type} (g : Graph) (block : BlockId) : Step σ Nat :=
  (recurrences g block).foldlM (fun largest component =>
    return max largest (← recurrenceInterval component)) 0

def compute {σ : Type} (g : Graph) (block : BlockId) : Step σ MinInterval := do
  let resource ← resourceBound g block
  let recurrence ← recurrenceBound g block
  Step.note .debug fun _ => s!"block#{block}: ResMII {resource} RecMII {recurrence}"
  return { resource, recurrence }

end MinInterval

end SlotScheduling
