import SlotScheduling.Difference.LongestPath
import SlotScheduling.Graph.Basic

/-!
# Recurrences

The dependencies among the units of a block form a graph, and its cycles lie within its components:
sets of units that reach each other.  A component that spans iterations is a recurrence.  It limits
how soon the next iteration can start: around every cycle the latencies must not exceed the
distances times the interval.
-/

namespace SlotScheduling

/-- A dependency between two units of a block, which are named by their places in the block. -/
structure LoopArc where
  source : Nat
  target : Nat
  edge : DepEdge
  deriving DecidableEq, Repr

namespace LoopArc

def ofUnits (units : List ScheduleUnit) : List LoopArc :=
  let ids := units.map (·.id)
  units.zipIdx.flatMap fun (unit, target) =>
    unit.deps.entries.filterMap fun dep =>
      (ids.idxOf? dep.1).map fun source => { source, target, edge := dep.2.edge }

/-- The nodes that depend on a node, the latest one first. -/
def successors (arcs : List LoopArc) (node : Nat) : List Nat :=
  ((arcs.filter (·.source = node)).map (·.target)).reverse

/-- For each node, whether a walk along the arcs leads to it; every node reaches itself. -/
def reachedFrom (nodes : Nat) (arcs : List LoopArc) (node : Nat) : List Bool :=
  let steps := arcs.map fun arc => Arc.mk (arc.source + 1) (arc.target + 1) 0
  match longestPaths? id (nodes + 1) (⟨0, node + 1, 0⟩ :: steps) with
  | none => []
  | some lengths => (lengths.toList.drop 1).map (·.isSome)

def reachTable (nodes : Nat) (arcs : List LoopArc) : Array (Array Bool) :=
  ((List.range nodes).map fun node => (reachedFrom nodes arcs node).toArray).toArray

end LoopArc

/-- The nodes that a walk has entered, and those that it has left, in the order of leaving. -/
structure Walk where
  entered : List Nat := []
  left : List Nat := []

namespace Walk

/-- Enter a node and its successors that were not entered before, then leave it.  Nodes on the way
differ from each other, so that their number bounds the depth. -/
def visit (arcs : List LoopArc) : Nat → Walk → Nat → Walk
  | 0, walk, _ => walk
  | depth + 1, walk, node =>
    if node ∈ walk.entered then walk
    else
      let inner := (LoopArc.successors arcs node).foldl (visit arcs depth)
        { walk with entered := node :: walk.entered }
      { inner with left := inner.left ++ [node] }

/-- Visit all nodes in order, and list them in the order of leaving. -/
def finishOrder (nodes : Nat) (arcs : List LoopArc) : List Nat :=
  ((List.range nodes).foldl (visit arcs (nodes + 1)) {}).left

end Walk

/-- A set of nodes that reach each other, and the arcs among them. -/
structure Component where
  members : List Nat
  arcs : List LoopArc
  deriving DecidableEq, Repr

namespace Component

def areTogether (reach : Array (Array Bool)) (a b : Nat) : Bool :=
  (reach.getD a #[]).getD b false && (reach.getD b #[]).getD a false

/-- Of the nodes that are together, the one that is listed last. -/
def lastOfEach (together : Nat → Nat → Bool) : List Nat → List Nat
  | [] => []
  | node :: later =>
    if later.any (together node) then lastOfEach together later
    else node :: lastOfEach together later

def ofNode (nodes : Nat) (arcs : List LoopArc) (together : Nat → Nat → Bool) (node : Nat) :
    Component :=
  let members := (List.range nodes).filter (together node)
  { members
    arcs := arcs.filter fun arc => members.contains arc.source && members.contains arc.target }

/-- The components of a graph; each one comes where the last of its nodes is left. -/
def all (nodes : Nat) (arcs : List LoopArc) : List Component :=
  let together := areTogether (LoopArc.reachTable nodes arcs)
  (lastOfEach together (Walk.finishOrder nodes arcs)).map (ofNode nodes arcs together)

def isRecurrence (component : Component) : Bool := component.arcs.any (·.edge.isLoopCarried)

/-- At this interval, some cycle has more latency than its distance makes up for. -/
def hasPositiveCycle (component : Component) (interval : Nat) : Checked Bool := do
  let node (member : Nat) : Nat := component.members.idxOf member + 1
  let starts := component.members.map fun member => Arc.mk 0 (node member) 0
  let steps ← component.arcs.mapM fun arc =>
    return Arc.mk (node arc.source) (node arc.target) (← arc.edge.minOffset interval)
  -- Nothing is rounded: lengths start at zero, and an offset too far below it to be exact in a
  -- significand never makes one longer.
  return (longestPaths? id (component.members.length + 1) (starts ++ steps)).isNone

/-- The first of `rounds` intervals, counted from `interval`, without a positive cycle. -/
def firstInterval (component : Component) : Nat → Nat → Checked (Option Nat)
  | 0, _ => return none
  | rounds + 1, interval => do
    if ← component.hasPositiveCycle interval then firstInterval component rounds (interval + 1)
    else return some interval

/-- No recurrence needs a longer interval than the sum of its latencies. -/
def intervalBound (component : Component) : Checked Nat :=
  return max (← Word.sum (component.arcs.map (·.edge.latency))) 1

end Component

end SlotScheduling
