import SlotScheduling.Graph.Basic
import SlotScheduling.Journal

/-!
# Slots of a graph

Where the blocks of a graph start and end, how a schedule is cleared before the next one is made,
and which changes follow a schedule: moves of a pipelined loop are made one interval later, and
data-path units that a control unit needs are told from those that dangle.
-/

namespace SlotScheduling.Graph

def startSlot (g : Graph) (block : BlockId) : Checked (Option Nat) :=
  match g.holder? (.entry block) with
  | none => .ok none
  | some entry => return (← g.unit entry).slot

def endSlot (g : Graph) (block : BlockId) : Checked (Option Nat) := do
  let units ← g.controlUnits.mapM g.unit
  let slots := (units.filter (·.block = block)).filterMap (·.slot)
  return slots.max?

def totalSlot (g : Graph) (block : BlockId) : Checked (Option Nat) := do
  match ← g.endSlot block, ← g.startSlot block with
  | some last, some first => some <$> Word.sub last first
  | _, _ => return none

/-- The moves on which the exit waits wait for the whole interval. -/
def widenExit (g : Graph) (interval : Nat) : Checked Graph := do
  match g.exitRoot with
  | none => return g
  | some exit =>
    let sources := (← g.unit exit).deps.keys
    let phis ← sources.filterM fun source => return (← g.unit source).phi
    phis.foldlM (fun g phi => g.changeUnit exit fun unit =>
      { unit with deps := unit.deps.modify phi (·.withLatency interval) }) g

/-- Clear the slots of the control units, and put the entry at the entry slot. -/
def clearControl (g : Graph) : Checked Graph := do
  let g ← g.changeUnits g.controlUnits (·.unplace)
  g.changeUnit g.entryRoot (·.place g.entrySlot)

/-- Start the control schedule over.  With an interval above zero, the loop operation is put that
many slots after the entry. -/
def resetControl (interval : Nat) : Step Graph PUnit := do
  Step.updateChecked clearControl
  if 0 < interval then
    let g ← Step.current
    match g.loopOp with
    | none =>
      Step.fail (.broken .missingTerminator
        s!"II {interval} given but block#{g.entryBlock} has no loop operation")
    | some loopOp =>
      let slot ← Word.add g.entrySlot interval
      Step.updateChecked (·.changeUnit loopOp (·.place slot))
  Step.updateChecked (·.widenExit interval)

def resetData (g : Graph) : Checked Graph :=
  g.changeUnits g.dataUnits fun unit => { unit.unplace with dangling := true }

def setDangling (g : Graph) (id : UnitId) (dangling : Bool) : Checked Graph :=
  g.changeUnit id fun unit => { unit with dangling }

/-- One unit that does not dangle passes this on to the units of its block that it depends on; those
that did dangle are added to the work. -/
def undangleSources (block : BlockId) (g : Graph) (work : List UnitId) (sources : List UnitId) :
    Checked (Graph × List UnitId) :=
  sources.foldlM (fun (g, work) source => do
    let unit ← g.unit source
    if unit.dangling && decide (unit.block = block) then
      return (← g.setDangling source false, source :: work)
    else return (g, work)) (g, work)

/-- Work through the units that are known not to dangle.  Every unit joins the work at most once, so
that the number of units bounds the rounds. -/
def undangleFrom (block : BlockId) : Nat → Graph → List UnitId → Checked Graph
  | 0, g, _ => .ok g
  | _ + 1, g, [] => .ok g
  | rounds + 1, g, id :: work => do
    let unit ← g.unit id
    let (g, work) ← undangleSources block g work unit.deps.keys
    undangleFrom block rounds g work

/-- Nothing that a unit needs within its block dangles. -/
def undangle (g : Graph) (root : UnitId) : Checked Graph := do
  let block := (← g.unit root).block
  let g ← g.setDangling root false
  undangleFrom block (g.units.size + 1) g [root]

/-- Move one control unit by the interval of its block if it is a move of a pipelined block. -/
def delayPhi (ends : List (BlockId × Option Nat)) (id : UnitId) : Step Graph PUnit := do
  let g ← Step.current
  let unit ← g.unit id
  if unit.phi then
    match g.interval? unit.block with
    | none => return
    | some interval =>
      match unit.slot with
      | none => Step.fail (.broken .unscheduledUnit s!"PHI [{id}] is not scheduled")
      | some slot =>
        let last := ((ends.find? (·.1 = unit.block)).bind Prod.snd).getD 0
        let moved ← Word.add slot interval
        if last < moved then
          Step.fail (.broken .phiSlot
            s!"PHI [{id}] would move to {moved} past the end of block#{unit.block} ({last})")
        else Step.updateChecked (·.changeUnit id (·.place moved))

/-- Move the moves of every pipelined block one interval later, where the next iteration reads them.
None may go past the end that its block had before. -/
def delayPhis : Step Graph PUnit := do
  let g ← Step.current
  let ends ← g.intervals.keys.mapM fun block => return (block, ← g.endSlot block)
  g.controlUnits.forM (delayPhi ends)

end SlotScheduling.Graph
