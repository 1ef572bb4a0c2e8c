/-!
# Longest paths

Lengths of longest paths from one node of a weighted graph, found by relaxing all arcs until none of
them improves a length.  When as many sweeps as a path can have arcs do not settle the lengths, a
cycle of positive weight is among the arcs, and there are no longest paths.  Sums of lengths are
kept to a precision that the caller chooses.
-/

namespace SlotScheduling

structure Arc where
  source : Nat
  target : Nat
  weight : Int
  deriving DecidableEq, Repr

namespace Arc

def reverse (arc : Arc) : Arc :=
  { source := arc.target, target := arc.source, weight := arc.weight }

/-- Nodes in ascending order, and of the arcs that leave a node the first one listed first. -/
def sweepOrder (nodes : Nat) (arcs : List Arc) : List Arc :=
  (List.range nodes).flatMap fun node => arcs.filter (·.source = node)

end Arc

/-- The length of the longest path found to each node, if any was found. -/
abbrev Lengths := Array (Option Int)

namespace Lengths

/-- Only the first node is reached, by the empty path. -/
def start (nodes : Nat) : Lengths := (Array.replicate nodes none).setIfInBounds 0 (some 0)

def at? (lengths : Lengths) (node : Nat) : Option Int := lengths.getD node none

/-- The length that an arc gives its target, if it is longer than the one known. -/
def improvement? (keep : Int → Int) (lengths : Lengths) (arc : Arc) : Option Int :=
  match lengths.at? arc.source with
  | none => none
  | some length =>
    let longer := keep (length + arc.weight)
    match lengths.at? arc.target with
    | none => some longer
    | some known => if known < longer then some longer else none

def relax (keep : Int → Int) (lengths : Lengths) (arc : Arc) : Lengths :=
  match lengths.improvement? keep arc with
  | none => lengths
  | some longer => lengths.setIfInBounds arc.target (some longer)

def sweep (keep : Int → Int) (arcs : List Arc) (lengths : Lengths) : Lengths :=
  arcs.foldl (relax keep) lengths

def isSettled (keep : Int → Int) (arcs : List Arc) (lengths : Lengths) : Bool :=
  arcs.all fun arc => (lengths.improvement? keep arc).isNone

/-- Sweep until the lengths are settled, but not more often than `rounds` times. -/
def settle (keep : Int → Int) (arcs : List Arc) : Nat → Lengths → Lengths
  | 0, lengths => lengths
  | rounds + 1, lengths =>
    if lengths.isSettled keep arcs then lengths
    else settle keep arcs rounds (sweep keep arcs lengths)

end Lengths

/-- The lengths of the longest paths from node 0 to all `nodes` nodes; nothing if a cycle of
positive weight can be reached. -/
def longestPaths? (keep : Int → Int) (nodes : Nat) (arcs : List Arc) : Option Lengths :=
  let arcs := Arc.sweepOrder nodes arcs
  let lengths := Lengths.settle keep arcs (nodes - 1) (Lengths.start nodes)
  if lengths.isSettled keep arcs then some lengths else none

end SlotScheduling
