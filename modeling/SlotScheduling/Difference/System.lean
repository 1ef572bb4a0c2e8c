import SlotScheduling.Difference.LongestPath
import SlotScheduling.Graph.Basic
import SlotScheduling.Significand

/-!
# Systems of difference constraints

Constraints `x - y ≥ w` between the slots of units.  Node 0 of the constraint graph stands for the
constant zero and carries every constant; the variable number `v` is node `v + 1`.  The earliest
slots are the longest paths from node 0, and the latest ones are the negated longest paths back to
it.  `Satisfies` says what a solution is, without the solver.
-/

namespace SlotScheduling

/-- One side of a difference constraint. -/
inductive Term
  | var (index : Nat)
  | const (value : Int)
  deriving DecidableEq, Repr

namespace Term

def text : Term → String
  | .var index => s!"Var({index})"
  | .const value => s!"Const({value})"

def node : Term → Nat
  | .var index => index + 1
  | .const _ => 0

/-- The number of a node has 64 bits. -/
def checkNode (term : Term) : Checked PUnit :=
  if term.node < 1 <<< 64 then .ok ⟨⟩ else faulty .overflow

/-- What the term adds to the value of its node. -/
def shift : Term → Int
  | .var _ => 0
  | .const value => value

def eval (values : Nat → Int) : Term → Int
  | .var index => values index
  | .const value => value

end Term

structure ConstraintSystem where
  /-- The units whose slots are variables, by the number of the variable. -/
  unknowns : Array UnitId := #[]
  /-- The constraints between different nodes, the latest one first. -/
  arcs : List Arc := []
  /-- The first constraint on a single node that does not hold. -/
  violated : Option String := none

@[deprecated ConstraintSystem.unknowns (since := "2026-11-20")]
def ConstraintSystem.variables (sys : ConstraintSystem) : Array UnitId := sys.unknowns

namespace ConstraintSystem

def variableOf? (sys : ConstraintSystem) (unit : UnitId) : Option Nat := sys.unknowns.idxOf? unit

/-- Make the slot of a unit a variable, unless it is one. -/
def addVariable (sys : ConstraintSystem) (unit : UnitId) : ConstraintSystem :=
  if (sys.variableOf? unit).isSome then sys
  else { sys with unknowns := sys.unknowns.push unit }

/-- A system in which the units without slots are variables. -/
def ofFree (g : Graph) (units : List UnitId) : Checked ConstraintSystem :=
  units.foldlM (fun sys id => do
    if (← g.unit id).slot = none then return sys.addVariable id else return sys) {}

def constraintCount (sys : ConstraintSystem) : Nat := sys.arcs.length

/-- The variable of a unit, or else its slot if it has one. -/
def term? (sys : ConstraintSystem) (g : Graph) (unit : UnitId) : Checked (Option Term) := do
  match sys.variableOf? unit with
  | some index => return some (.var index)
  | none => return (← g.unit unit).slot.map fun slot => .const slot

/-- Ask for `target - source ≥ weight`. -/
def addGeq (sys : ConstraintSystem) (target source : Term) (weight : Int) :
    Checked ConstraintSystem := do
  target.checkNode
  source.checkNode
  let raised ← Offset.add weight source.shift
  let weight ← Offset.sub raised target.shift
  if target.node = source.node then
    if 0 < weight ∧ sys.violated = none then
      return { sys with violated := some s!"{target.text} - {source.text} >= {weight}" }
    else return sys
  else
    return { sys with arcs := ⟨source.node, target.node, weight⟩ :: sys.arcs }

def addEq (sys : ConstraintSystem) (target source : Term) (weight : Int) :
    Checked ConstraintSystem := do
  let sys ← sys.addGeq target source weight
  sys.addGeq source target (← Offset.neg weight)

def lowerBound (sys : ConstraintSystem) (term : Term) (bound : Int) : Checked ConstraintSystem :=
  sys.addGeq term (.const 0) bound

def upperBound (sys : ConstraintSystem) (term : Term) (bound : Int) : Checked ConstraintSystem := do
  sys.addGeq (.const 0) term (← Offset.neg bound)

/-- Ask for the least difference of an edge, or for exactly that if the edge is of fixed timing. -/
def addEdge (sys : ConstraintSystem) (target source : Term) (edge : DepEdge) (offset : Int) :
    Checked ConstraintSystem :=
  if edge.isFixedTiming then sys.addEq target source offset else sys.addGeq target source offset

/-- The value of a node under an assignment to the variables. -/
def nodeValue (values : Nat → Int) : Nat → Int
  | 0 => 0
  | index + 1 => values index

/-- An assignment to the variables meets every constraint. -/
def Satisfies (sys : ConstraintSystem) (values : Nat → Int) : Prop :=
  sys.violated = none ∧
    ∀ arc ∈ sys.arcs, arc.weight ≤ nodeValue values arc.target - nodeValue values arc.source

/-- A node of the system stands for itself.  Any other number stands for the node that its lowest 32
bits name, which the system may have or not. -/
def solverNode (sys : ConstraintSystem) (node : Nat) : Nat :=
  if node ≤ sys.unknowns.size then node else node % Word.count

/-- The arcs of the system, in order, between the nodes that the solver takes their ends for, and
with weights of its precision. -/
def keptArcs (sys : ConstraintSystem) : List Arc :=
  sys.arcs.map fun arc =>
    { source := sys.solverNode arc.source
      target := sys.solverNode arc.target
      weight := Significand.keep arc.weight }

/-- Solve for longest paths over some arcs between the nodes of the system. -/
def pathLengths (sys : ConstraintSystem) (arcs : List Arc) : Checked Lengths :=
  match sys.violated with
  | some reason => .error (.error (.infeasible reason))
  | none =>
    let nodes := sys.unknowns.size + 1
    match arcs.find? fun arc => nodes ≤ arc.source ∨ nodes ≤ arc.target with
    | some arc => faulty (.noSuchVariable (max arc.source arc.target - 1))
    | none =>
      match longestPaths? Significand.keep nodes arcs with
      | some lengths => .ok lengths
      | none =>
        .error (.error (.infeasible s!"positive cycle among {sys.constraintCount} constraints"))

def slotOf? (value : Int) : Option Nat :=
  if 0 ≤ value ∧ value.toNat < Word.count then some value.toNat else none

/-- A path whose length leaves the range of offsets counts with the nearest offset. -/
def clampLength (length : Int) : Int := max (-Offset.bound) (min (Offset.bound - 1) length)

/-- Read the slots of all variables off their values. -/
def readSlots (sys : ConstraintSystem) (value? : Nat → Checked (Option Int)) :
    Checked (List (UnitId × Nat)) :=
  sys.unknowns.toList.zipIdx.mapM fun (unit, index) => do
    match (← value? (index + 1)).bind slotOf? with
    | some slot => return (unit, slot)
    | none => .error (.error (.infeasible s!"no valid slot for [{unit}]"))

/-- The earliest slots.  A variable without a lower bound has none. -/
def earliest (sys : ConstraintSystem) : Checked (List (UnitId × Nat)) := do
  let lengths ← sys.pathLengths sys.keptArcs
  sys.readSlots fun node => return (lengths.at? node).map clampLength

/-- The latest slots.  A variable without an upper bound has none. -/
def latest (sys : ConstraintSystem) : Checked (List (UnitId × Nat)) := do
  let lengths ← sys.pathLengths (sys.keptArcs.map Arc.reverse)
  sys.readSlots fun node => do
    match lengths.at? node with
    | none => return none
    | some length => some <$> Offset.neg (clampLength length)

theorem solverNode_of_le {sys : ConstraintSystem} {node : Nat} (h : node ≤ sys.unknowns.size) :
    sys.solverNode node = node :=
  if_pos h

theorem eval_eq_nodeValue (term : Term) (values : Nat → Int) :
    term.eval values = nodeValue values term.node + term.shift := by
  cases term <;> simp [Term.eval, Term.node, Term.shift, nodeValue]

theorem satisfies_addGeq {sys sys' : ConstraintSystem} {target source : Term} {weight : Int}
    {values : Nat → Int} (h : sys.addGeq target source weight = .ok sys') :
    sys'.Satisfies values ↔
      sys.Satisfies values ∧ weight ≤ target.eval values - source.eval values := by
  obtain ⟨_, _, h⟩ := Checked.bind_eq_ok.mp h
  obtain ⟨_, _, h⟩ := Checked.bind_eq_ok.mp h
  obtain ⟨raised, hraised, h⟩ := Checked.bind_eq_ok.mp h
  obtain ⟨folded, hfolded, h⟩ := Checked.bind_eq_ok.mp h
  have hsum := (Offset.check_eq_ok.mp hraised).2
  have hdiff := (Offset.check_eq_ok.mp hfolded).2
  rw [eval_eq_nodeValue, eval_eq_nodeValue]
  by_cases hnode : target.node = source.node
  · rw [if_pos hnode] at h
    rw [hnode]
    by_cases hbad : 0 < folded ∧ sys.violated = none
    · rw [if_pos hbad] at h
      cases h
      simp only [Satisfies, reduceCtorEq, false_and, false_iff]
      intro hall
      have := hall.2
      omega
    · rw [if_neg hbad] at h
      cases h
      refine ⟨fun hall => ⟨hall, ?_⟩, fun hall => hall.1⟩
      have : ¬ 0 < folded := fun hpos => hbad ⟨hpos, hall.1⟩
      omega
  · rw [if_neg hnode] at h
    cases h
    simp only [Satisfies, List.forall_mem_cons]
    constructor
    · rintro ⟨hnone, harc, hall⟩
      exact ⟨⟨hnone, hall⟩, by omega⟩
    · rintro ⟨⟨hnone, hall⟩, harc⟩
      exact ⟨hnone, by omega, hall⟩

end ConstraintSystem

end SlotScheduling
