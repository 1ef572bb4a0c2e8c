import SlotScheduling.Word

/-!
# Dependency edges

An edge of latency `L` and distance `D` asks that the slots of its ends differ by at least
`L - D * II`, where `II` is the interval at which the loop repeats; an edge of fixed timing asks
for exactly `L`.  A bundle keeps the tightest of the edges between one ordered pair of units.
-/

namespace SlotScheduling

inductive EdgeKind
  /-- The target uses a value that the source produces. -/
  | value
  /-- The target is ordered after the source through memory. -/
  | memory
  /-- The distance between the slots of the two is decided. -/
  | fixedTiming
  /-- The source belongs to an earlier iteration. -/
  | loopCarried
  deriving DecidableEq, Repr

def EdgeKind.label : EdgeKind → String
  | .value => "val"
  | .memory => "mem"
  | .fixedTiming => "fixed"
  | .loopCarried => "carried"

structure DepEdge where
  kind : EdgeKind
  latency : Nat
  distance : Nat := 0
  deriving DecidableEq, Repr

namespace DepEdge

def value (latency : Nat) : DepEdge := { kind := .value, latency }

def memory (latency distance : Nat) : DepEdge := { kind := .memory, latency, distance }

def fixedTiming (latency : Nat) : DepEdge := { kind := .fixedTiming, latency }

def loopCarried (latency distance : Nat) : DepEdge := { kind := .loopCarried, latency, distance }

def isFixedTiming (edge : DepEdge) : Bool := decide (edge.kind = .fixedTiming)

/-- The edge spans iterations, whatever its kind. -/
def isLoopCarried (edge : DepEdge) : Bool := decide (0 < edge.distance)

/-- The least slot difference that the edge allows when the loop repeats every `interval` slots. -/
def offsetAt (edge : DepEdge) (interval : Nat) : Int :=
  (edge.latency : Int) - (edge.distance : Int) * (interval : Int)

def minOffset (edge : DepEdge) (interval : Nat) : Checked Int := do
  let span ← Offset.mul edge.distance interval
  Offset.sub edge.latency span

/-- The least slot difference of an edge in a block whose interval may not be known.  Until it is,
an edge that spans iterations asks for nothing. -/
def offset? (edge : DepEdge) (interval : Option Nat) : Checked (Option Int) :=
  if edge.isLoopCarried then
    match interval with
    | none => .ok none
    | some interval => some <$> edge.minOffset interval
  else .ok (some edge.latency)

def text (edge : DepEdge) : String :=
  let distance := if 0 < edge.distance then s!", d={edge.distance}" else ""
  s!"{edge.kind.label}({edge.latency}{distance})"

theorem minOffset_eq_ok {edge : DepEdge} {interval : Nat} {offset : Int}
    (h : edge.minOffset interval = .ok offset) : offset = edge.offsetAt interval := by
  obtain ⟨span, hspan, hoffset⟩ := Checked.bind_eq_ok.mp h
  rw [(Offset.check_eq_ok.mp hoffset).2, (Offset.check_eq_ok.mp hspan).2, offsetAt]

/-- At this interval, the edge spans more slots than an offset can count. -/
def Outreaches (edge : DepEdge) (interval : Nat) : Prop :=
  Offset.bound ≤ (edge.distance : Int) * (interval : Int)

theorem Outreaches.mono {edge : DepEdge} {interval longer : Nat} (h : edge.Outreaches interval)
    (hle : interval ≤ longer) : edge.Outreaches longer :=
  Int.le_trans h (Int.mul_le_mul_of_nonneg_left (Int.ofNat_le.mpr hle) (Int.natCast_nonneg _))

theorem not_outreaches_of_lt {edge : DepEdge} {interval : Nat}
    (h : edge.distance * interval < 9223372036854775808) : ¬edge.Outreaches interval := by
  have hbound : Offset.bound = 9223372036854775808 := rfl
  rw [Outreaches, ← Int.natCast_mul]
  omega

/-- The offset is exact if the edge does not span too many slots. -/
theorem minOffset_of_not_outreaches {edge : DepEdge} {interval : Nat}
    (hlatency : (edge.latency : Int) < Offset.bound) (h : ¬edge.Outreaches interval) :
    edge.minOffset interval = .ok (edge.offsetAt interval) := by
  have hbound : 0 < Offset.bound := by decide
  have hspan : (edge.distance : Int) * interval < Offset.bound := Int.not_le.mp h
  have hnonneg : (0 : Int) ≤ edge.distance * interval :=
    Int.mul_nonneg (Int.natCast_nonneg _) (Int.natCast_nonneg _)
  refine Checked.bind_eq_ok.mpr ⟨_, Offset.check_eq_ok.mpr ⟨?_, rfl⟩,
    Offset.check_eq_ok.mpr ⟨?_, rfl⟩⟩ <;> omega

theorem minOffset_of_outreaches {edge : DepEdge} {interval : Nat} (h : edge.Outreaches interval) :
    edge.minOffset interval = faulty .overflow := by
  have hspan : Offset.mul edge.distance interval = faulty .overflow := Offset.check_of_bound_le h
  rw [minOffset, hspan]
  rfl

theorem offset?_of_distance_eq_zero {edge : DepEdge} (h : edge.distance = 0)
    (interval : Option Nat) : edge.offset? interval = .ok (some (edge.latency : Int)) := by
  simp [offset?, isLoopCarried, h]

end DepEdge

/-- All edges of an ordered pair of units, as the tightest one. -/
structure EdgeBundle where
  edge : DepEdge
  /-- The ends of the pair lie in different blocks. -/
  crossBlock : Bool
  deriving DecidableEq, Repr

namespace EdgeBundle

def withLatency (bundle : EdgeBundle) (latency : Nat) : EdgeBundle :=
  { bundle with edge := { bundle.edge with latency } }

/-- The pair has an edge of fixed timing, which stands alone, or two edges that span different
numbers of iterations. -/
def conflict? (current new : DepEdge) : Option Contract :=
  if current.isFixedTiming || new.isFixedTiming then some .fixedTimingOverride
  else if current.distance ≠ 0 ∧ new.distance ≠ 0 ∧ current.distance ≠ new.distance then
    some .conflictingDistance
  else none

/-- A new edge takes over if its latency is larger and its distance is not.  The same edge once more
changes nothing, and edges that conflict are refused. -/
def addEdge (bundle : EdgeBundle) (new : DepEdge) : Except Contract EdgeBundle :=
  if bundle.edge = new then .ok bundle
  else
    match conflict? bundle.edge new with
    | some contract => .error contract
    | none =>
      if new.distance ≤ bundle.edge.distance ∧ bundle.edge.latency < new.latency then
        .ok { bundle with edge := new }
      else .ok bundle

def refusal (bundle : EdgeBundle) (new : DepEdge) : String :=
  s!"cannot merge {new.text} into {bundle.edge.text}"

def add (bundle : EdgeBundle) (new : DepEdge) : Checked EdgeBundle :=
  match bundle.addEdge new with
  | .ok bundle => .ok bundle
  | .error contract => broken contract (bundle.refusal new)

end EdgeBundle

end SlotScheduling
