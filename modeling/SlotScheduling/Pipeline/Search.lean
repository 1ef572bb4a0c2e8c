import SlotScheduling.Graph.Slots
import SlotScheduling.Pipeline.MinInterval
import SlotScheduling.Placement.ControlPath

/-!
# Searching for a pipelined schedule

A self-looping block is scheduled so that a new iteration starts every interval.  The search tries
one pair of bounds after the other, an interval and a number of slots for one iteration, and raises
one of them whenever there is no schedule, until the slots pass a ceiling.
-/

namespace SlotScheduling

/-- The graph being pipelined, and the bounds of the search. -/
structure PipelineSearch where
  graph : Graph
  interval : Nat := 0
  criticalPathEnd : Nat
  /-- The largest end of the critical path that is tried. -/
  ceiling : Nat

namespace PipelineSearch

def name : String := "modulo"

def description : String := "Iterative modulo scheduling of self-looping blocks"

def onGraph {α : Type} (work : Step Graph α) : Step PipelineSearch α :=
  Step.focus (·.graph) (fun search graph => { search with graph }) work

def totalLatency (g : Graph) : Checked Nat :=
  Word.sum (g.units.toList.flatMap fun unit => unit.deps.values.map (·.edge.latency))

/-- Find the end of the critical path of a loop, from its dependencies alone, and the ceiling that
follows from it. -/
def start : Step Graph PipelineSearch := do
  let g ← Step.current
  let block := g.entryBlock
  if g.isPipelined = false then
    Step.fail (.broken .missingTerminator s!"block#{block} does not loop back on itself")
  match g.exitRoot with
  | none => Step.fail (.broken .indexMismatch s!"graph of block#{block} has no exit root")
  | some exit =>
    Graph.resetControl 0
    let g ← Step.current
    let system ← ControlSystem.build g { pipelining := true }
    let slots ← system.earliest.orMalformed
    let exitSlot := ((slots.find? (·.1 = exit)).map Prod.snd).getD g.entrySlot
    let criticalPathEnd := exitSlot - g.entrySlot
    let latencies ← totalLatency g
    let ceiling ← Word.add (← Word.add criticalPathEnd latencies) g.controlUnits.length
    let ceiling ← Word.add ceiling 1
    Step.note .debug fun _ =>
      s!"{name}: block#{block} critical path {criticalPathEnd}, ceiling {ceiling}"
    return { graph := g, criticalPathEnd, ceiling }

def computeInterval : Step PipelineSearch PUnit := do
  let g := (← Step.current).graph
  let interval := (← MinInterval.compute g g.entryBlock).value
  Step.update fun search => { search with interval }
  Step.note .debug fun _ => s!"MII: {interval}"

def increaseInterval : Step PipelineSearch PUnit := do
  let interval ← Word.add (← Step.current).interval 1
  Step.update fun search => { search with interval }
  Step.note .debug fun _ => s!"increase II to {interval}"

def giveUp : Step PipelineSearch PUnit := do
  let search ← Step.current
  Step.fail (.searchExhausted search.graph.entryBlock search.interval search.criticalPathEnd)

def lengthenCriticalPath : Step PipelineSearch PUnit := do
  let criticalPathEnd ← Word.add (← Step.current).criticalPathEnd 1
  Step.update fun search => { search with criticalPathEnd }
  if (← Step.current).ceiling < criticalPathEnd then giveUp
  Step.note .debug fun _ => s!"lengthen critical path to {criticalPathEnd}"

def tryPlace (bounds : ControlBounds) : Step PipelineSearch Bool := do
  let search ← Step.current
  let system ← ControlSystem.build search.graph bounds
  match system.earliest with
  | .ok slots =>
    onGraph (Step.updateChecked (·.placeAll slots))
    return true
  | .error (.error cause) =>
    if cause.isRecoverable then
      Step.note .trace fun _ =>
        s!"II {search.interval} critical path {search.criticalPathEnd}: {cause.message}"
      return false
    else Step.fail cause
  | .error (.fault cause) => (faulty cause : Checked Bool)

/-- Try to place the control units under their dependencies alone.  Once an interval is known, the
loop operation issues that long after the entry. -/
def placeCriticalPath : Step PipelineSearch Bool := do
  let search ← Step.current
  onGraph (Graph.resetControl search.interval)
  tryPlace
    { pipelining := true
      loopInterval := if 0 < search.interval then some search.interval else none
      criticalPathEnd := some search.criticalPathEnd }

/-- Try to place the control units so that function units are shared modulo the interval. -/
def placeState : Step PipelineSearch Bool := do
  if ← placeCriticalPath then
    let search ← Step.current
    let order ← IssueOrder.build search.graph
    onGraph (Graph.resetControl search.interval)
    tryPlace
      { pipelining := true
        loopInterval := some search.interval
        criticalPathEnd := some search.criticalPathEnd
        order := some order
        moduloWindow := true }
  else return false

/-- Lengthen the critical path until the dependencies can be met.  Every round comes closer to the
ceiling, which bounds the rounds. -/
def reachCriticalPath : Nat → Step PipelineSearch PUnit
  | 0 => giveUp
  | rounds + 1 => do
    if ← placeCriticalPath then return
    else
      lengthenCriticalPath
      reachCriticalPath rounds

/-- No schedule was found for the dependencies: raise the interval while it is less than half of the
critical path, else lengthen the critical path. -/
def relaxDependencies : Step PipelineSearch PUnit := do
  let search ← Step.current
  if (← Word.mul 2 search.interval) < search.criticalPathEnd then increaseInterval
  else lengthenCriticalPath

/-- No schedule was found for the function units: raise the interval while it is less than the
critical path, else lengthen the critical path. -/
def relaxSharing : Step PipelineSearch PUnit := do
  let search ← Step.current
  if search.interval < search.criticalPathEnd then increaseInterval else lengthenCriticalPath

/-- Relax one bound after the other until function units can be shared modulo the interval.  Every
round raises one bound, and neither bound is raised past the ceiling, which bounds the rounds. -/
def reachState : Nat → Step PipelineSearch PUnit
  | 0 => giveUp
  | rounds + 1 => do
    if ← placeCriticalPath then
      if ← placeState then return
      else
        relaxSharing
        reachState rounds
    else
      relaxDependencies
      reachState rounds

/-- The interval found is recorded, and the moves of the loop are made one interval later. -/
def commit : Step PipelineSearch Nat := do
  let search ← Step.current
  let g := search.graph
  let block := g.entryBlock
  let interval := search.interval
  let expected ← Word.add g.entrySlot interval
  let slot ← match g.loopOp with
    | none => pure none
    | some loopOp => ScheduleUnit.slot <$> g.unit loopOp
  let last := (← g.endSlot block).getD 0
  if slot ≠ some expected ∨ last < expected then
    let found := match slot with
      | some slot => s!"Some({slot})"
      | none => "None"
    Step.fail (.broken .loopOpSlot
      s!"loop terminator of block#{block} at {found}, expected {expected} within {last}")
  onGraph do
    Step.update (·.setInterval block interval)
    Graph.delayPhis
  if ← Step.records .info then
    let total := (← (← Step.current).graph.totalSlot block).getD 0
    Step.note .info fun _ => s!"block#{block} pipelined: II {interval}, {total} slots"
  return interval

def complete : Step PipelineSearch Nat := do
  let search ← Step.current
  reachCriticalPath (search.ceiling + 1 - search.criticalPathEnd)
  computeInterval
  let search ← Step.current
  let ceiling := search.ceiling + 1
  reachState ((ceiling - search.criticalPathEnd) + (ceiling - search.interval))
  commit

/-- Pipeline the entry block of the graph.  Yields its interval. -/
def run : Step Graph Nat := do
  let search ← start
  Step.focus (fun graph => { search with graph }) (fun _ search => search.graph) complete

end PipelineSearch

end SlotScheduling
