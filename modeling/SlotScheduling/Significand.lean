/-!
# Rounding to 53 significant bits

Path lengths are kept to 53 significant bits.  A longer number goes to the nearest one that fits,
and to the one with the even last bit when two are equally near.  Numbers up to `2 ^ 53` are kept
as they are, so that rounding is felt only by weights far outside of the range of slots.
-/

namespace SlotScheduling.Significand

/-- The multiple of `step` nearest to `n`, on a tie the even multiple. -/
def nearestMultiple (step n : Nat) : Nat :=
  let quotient := n / step
  let twice := 2 * (n % step)
  if step < twice ∨ (twice = step ∧ quotient % 2 = 1) then (quotient + 1) * step
  else quotient * step

/-- A magnitude of at most 53 significant bits. -/
def keepNat (n : Nat) : Nat :=
  if n ≤ 1 <<< 53 then n else nearestMultiple (1 <<< (n.log2 - 52)) n

/-- The magnitude is rounded and the sign is kept. -/
def keep (x : Int) : Int :=
  if x < 0 then -(keepNat x.natAbs) else keepNat x.natAbs

theorem keep_neg (x : Int) : keep (-x) = -keep x := by
  unfold keep
  rw [Int.natAbs_neg]
  rcases Int.lt_trichotomy x 0 with h | h | h
  · rw [if_neg (by omega), if_pos h]
    omega
  · subst h
    simp [keepNat]
  · rw [if_pos (by omega), if_neg (by omega)]

end SlotScheduling.Significand
