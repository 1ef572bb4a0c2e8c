import SlotScheduling.Failure

/-!
# Words and offsets

Slots, latencies and intervals are natural numbers below `2 ^ 32`; distances between slots are
integers of 64 bits.  Arithmetic is exact: a result that leaves its range is a fault, never a
wrapped number.
-/

namespace SlotScheduling

namespace Word

def count : Nat := 4294967296

def check (n : Nat) : Checked Nat :=
  if n < count then .ok n else faulty .overflow

def add (a b : Nat) : Checked Nat := check (a + b)

def mul (a b : Nat) : Checked Nat := check (a * b)

def sub (a b : Nat) : Checked Nat :=
  if b ≤ a then .ok (a - b) else faulty .overflow

def sum (terms : List Nat) : Checked Nat := terms.foldlM add 0

theorem check_eq_ok {n m : Nat} : check n = .ok m ↔ n < count ∧ m = n := by
  unfold check
  by_cases h : n < count <;> simp [h, faulty, eq_comm]

theorem check_eq_error {n : Nat} {failure : Failure} :
    check n = .error failure ↔ count ≤ n ∧ failure = .fault .overflow := by
  unfold check
  by_cases h : n < count
  · simp [h, Nat.not_le.mpr h]
  · simp [h, Nat.le_of_not_lt h, faulty, eq_comm]

theorem add_eq_ok {a b c : Nat} : add a b = .ok c ↔ a + b < count ∧ c = a + b :=
  check_eq_ok

theorem mul_eq_ok {a b c : Nat} : mul a b = .ok c ↔ a * b < count ∧ c = a * b :=
  check_eq_ok

theorem sub_eq_ok {a b c : Nat} : sub a b = .ok c ↔ b ≤ a ∧ c = a - b := by
  unfold sub
  by_cases h : b ≤ a <;> simp [h, faulty, eq_comm]

end Word

namespace Offset

/-- One past the largest offset; the smallest offset is its negation. -/
def bound : Int := 9223372036854775808

def check (x : Int) : Checked Int :=
  if -bound ≤ x ∧ x < bound then .ok x else faulty .overflow

def add (x y : Int) : Checked Int := check (x + y)

def sub (x y : Int) : Checked Int := check (x - y)

def neg (x : Int) : Checked Int := check (-x)

def mul (x y : Int) : Checked Int := check (x * y)

theorem check_eq_ok {x y : Int} : check x = .ok y ↔ (-bound ≤ x ∧ x < bound) ∧ y = x := by
  unfold check
  by_cases h : -bound ≤ x ∧ x < bound <;> simp [h, faulty, eq_comm]

theorem check_of_bound_le {x : Int} (h : bound ≤ x) : check x = faulty .overflow := by
  unfold check
  exact if_neg fun hrange => Int.not_lt.mpr h hrange.2

end Offset

end SlotScheduling
