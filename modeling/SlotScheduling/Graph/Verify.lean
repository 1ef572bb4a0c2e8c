import SlotScheduling.Graph.Basic

/-!
# Structural checks

The contracts that a graph keeps before it is scheduled: nothing precedes its entry and nothing
follows its exit, every unit is where it says it is, and every control unit is tied to its block.
-/

namespace SlotScheduling.Graph

def edgeText (source target : UnitId) (edge : DepEdge) : String :=
  s!"[{source}] -> [{target}] {edge.text}"

/-- Check one edge of a control unit; yields whether its source lies in the block of the unit. -/
def verifyDep (g : Graph) (unit : ScheduleUnit) (id source : UnitId) (bundle : EdgeBundle) :
    Checked Bool := do
  let edge := bundle.edge
  if edge.kind = .value ∧ bundle.crossBlock = false ∧ id ≤ source then
    broken .badValueEdge (edgeText source id edge)
  let producer ← g.unit source
  if unit.lead.isEntry ∧ (producer.terminator = false ∨ edge.latency ≠ 0) then
    broken .badInterBlockEdge (edgeText source id edge)
  return decide (producer.block = unit.block)

def verifyUnit (g : Graph) (id : UnitId) : Checked PUnit := do
  let unit ← g.unit id
  let anchored ← unit.deps.entries.foldlM (fun anchored dep => do
    return (← g.verifyDep unit id dep.1 dep.2) || anchored) unit.lead.isEntry
  if unit.slot = none ∧ unit.uses.size = 0 ∧ some id ≠ g.exitRoot then
    broken .detachedUnit s!"[{id}] has no uses"
  if unit.slot = none ∧ unit.fixedTiming = false ∧ anchored = false then
    broken .floatingUnit s!"[{id}] is not constrained by block#{unit.block}"

def verifyEntry (g : Graph) : Checked PUnit := do
  let unit ← g.unit g.entryRoot
  if unit.deps.size ≠ 0 then
    broken .entryRootHasDeps s!"[{g.entryRoot}] depends on {unit.deps.size} units"

def verifyExit (g : Graph) : Checked PUnit := do
  match g.exitRoot with
  | none => return
  | some exit =>
    let unit ← g.unit exit
    if unit.uses.size ≠ 0 then
      broken .exitRootHasUses s!"[{exit}] is used by {unit.uses.size} units"

def verifyPositions (g : Graph) : Checked PUnit :=
  g.units.toList.zipIdx.forM fun (unit, position) =>
    if unit.id ≠ position then
      broken .indexMismatch s!"unit [{unit.id}] stored at position {position}"
    else .ok ⟨⟩

def verify (g : Graph) : Checked PUnit := do
  g.verifyEntry
  g.verifyExit
  g.verifyPositions
  g.controlUnits.forM g.verifyUnit

end SlotScheduling.Graph
