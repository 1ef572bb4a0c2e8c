import SlotScheduling.Graph.Verify
import SlotScheduling.Pipeline.Search
import SlotScheduling.Placement.DataPath

/-!
# Strategies

A graph is scheduled by one strategy for its control path and another for its data path.  A loop is
pipelined; when no pipelined schedule is found, it is scheduled as straight-line code.
-/

namespace SlotScheduling

inductive Strategy
  | controlPath
  | dataPath
  | pipeline
  deriving DecidableEq, Repr

namespace Strategy

def all : List Strategy := [.controlPath, .dataPath, .pipeline]

def name : Strategy → String
  | .controlPath => ControlPath.name
  | .dataPath => DataPath.name
  | .pipeline => PipelineSearch.name

def description : Strategy → String
  | .controlPath => ControlPath.description
  | .dataPath => DataPath.description
  | .pipeline => PipelineSearch.description

def ofName? (name : String) : Option Strategy := all.find? (·.name = name)

def forControl (g : Graph) : Strategy := if g.isPipelined then .pipeline else .controlPath

/-- The strategies that schedule a fresh graph, in order. -/
def plan (g : Graph) : List Strategy := [forControl g, .dataPath]

def run (strategy : Strategy) (options : SchedulingOptions) : Step Graph PUnit := do
  Step.note .debug fun _ => s!"running {strategy.name}"
  match strategy with
  | .controlPath => ControlPath.schedule
  | .dataPath => DataPath.schedule options
  | .pipeline =>
    let _ ← PipelineSearch.run
    return

end Strategy

namespace Graph

def scheduleStraight (options : SchedulingOptions) : Step Graph PUnit := do
  resetControl 0
  Strategy.run .controlPath options

/-- Pipeline the loop; if the search gives up, schedule it as straight-line code. -/
def schedulePipelined (options : SchedulingOptions) : Step Graph PUnit := fun now =>
  match Strategy.run .pipeline options now with
  | .error (.error (.searchExhausted block interval criticalPath)) now =>
    let cause := SchedulingError.searchExhausted block interval criticalPath
    let fallBack : Step Graph PUnit := do
      Step.note .warn fun _ => s!"{cause.message}; scheduling the loop without pipelining"
      Step.update disablePipeline
      scheduleStraight options
    fallBack now
  | result => result

def schedule (options : SchedulingOptions) : Step Graph PUnit := do
  let g ← Step.current
  g.verify
  match Strategy.forControl g with
  | .pipeline => schedulePipelined options
  | _ => scheduleStraight options
  Strategy.run .dataPath options

end Graph

end SlotScheduling
