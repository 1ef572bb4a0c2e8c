import SlotScheduling.Graph.Basic
import SlotScheduling.Journal

/-!
# Anchoring dependencies between blocks

When a graph is scheduled, a dependency on a unit of an earlier block is replaced by one on the
terminator of that block that keeps the same slot distance.
-/

namespace SlotScheduling

/-- A dependency of `target` on `source` that moves to `terminator`. -/
structure Reanchoring where
  target : UnitId
  source : UnitId
  terminator : UnitId
  latency : Nat
  deriving DecidableEq, Repr

namespace Reanchoring

/-- The new anchor of one dependency.  Only a dependency between blocks moves, and only if it is not
of fixed timing, both ends and the terminator have slots, and the target does not issue before the
terminator. -/
def ofDep? (g : Graph) (unit : ScheduleUnit) (slot : Nat) (dep : UnitId × EdgeBundle) :
    Checked (Option Reanchoring) := do
  let (source, bundle) := dep
  if bundle.crossBlock = false ∨ bundle.edge.isFixedTiming then return none
  let producer ← g.unit source
  match g.terminator? producer.block with
  | none => return none
  | some terminator =>
    match producer.slot, (← g.unit terminator).slot with
    | some sourceSlot, some terminatorSlot =>
      if terminator = source ∨ terminator = unit.id ∨ slot < terminatorSlot then return none
      else
        let ready ← Word.add sourceSlot bundle.edge.latency
        return some { target := unit.id, source, terminator, latency := ready - terminatorSlot }
    | _, _ => return none

def ofUnit (g : Graph) (unit : ScheduleUnit) : Checked (List Reanchoring) :=
  match unit.slot with
  | none => .ok []
  | some slot => unit.deps.entries.filterMapM (ofDep? g unit slot)

def all (g : Graph) : Checked (List Reanchoring) :=
  List.flatten <$> g.units.toList.mapM (ofUnit g)

def apply (move : Reanchoring) : Step Graph PUnit := do
  Step.note .trace fun _ =>
    s!"[{move.source}] -> [{move.target}] re-anchored on [{move.terminator}] +{move.latency}"
  Step.updateChecked (·.removeDep move.target move.source)
  Step.updateChecked (·.addDep move.target move.terminator (.value move.latency))

end Reanchoring

/-- Move every dependency between blocks to the terminator of the block it comes from. -/
def Graph.reanchor : Step Graph PUnit := do
  let moves ← Reanchoring.all (← Step.current)
  moves.forM Reanchoring.apply

end SlotScheduling
