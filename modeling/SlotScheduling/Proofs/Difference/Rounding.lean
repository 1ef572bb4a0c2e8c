import Mathlib.Tactic.Linarith
import SlotScheduling.Proofs.Difference.Relaxation
import SlotScheduling.Significand

/-!
# Rounding to 53 significant bits keeps small numbers apart

A number of more than 53 bits is rounded to one that has more than 53 bits as
well, so that rounding never crosses an integer up to `2 ^ 53`.
-/

namespace SlotScheduling.Significand

theorem keepNat_eq (n : Nat) :
    keepNat n = if n ≤ 2 ^ 53 then n else nearestMultiple (2 ^ (n.log2 - 52)) n := by
  simp only [keepNat, Nat.one_shiftLeft]

theorem keep_of_natAbs_le {x : Int} (h : x.natAbs ≤ 2 ^ 53) : keep x = x := by
  unfold keep
  rw [keepNat_eq, if_pos h]
  split <;> omega

theorem le_nearestMultiple (step n : Nat) :
    n / step * step ≤ nearestMultiple step n := by
  unfold nearestMultiple
  simp only
  split
  · exact Nat.mul_le_mul_right step (Nat.le_succ _)
  · exact le_rfl

theorem le_keepNat {n : Nat} (h : 2 ^ 53 ≤ n) : 2 ^ 53 ≤ keepNat n := by
  rw [keepNat_eq]
  split
  · exact h
  · have hlog : 53 ≤ n.log2 := (Nat.le_log2 (by omega)).mpr h
    have hquotient : 2 ^ 52 ≤ n / 2 ^ (n.log2 - 52) := by
      rw [Nat.le_div_iff_mul_le (by positivity), ← pow_add,
        show 52 + (n.log2 - 52) = n.log2 by omega]
      exact Nat.log2_self_le (by omega)
    have hstep : 2 ≤ 2 ^ (n.log2 - 52) := by
      calc 2 = 2 ^ 1 := rfl
        _ ≤ 2 ^ (n.log2 - 52) := Nat.pow_le_pow_right (by omega) (by omega)
    calc 2 ^ 53 = 2 ^ 52 * 2 := rfl
      _ ≤ n / 2 ^ (n.log2 - 52) * 2 ^ (n.log2 - 52) := Nat.mul_le_mul hquotient hstep
      _ ≤ nearestMultiple (2 ^ (n.log2 - 52)) n := le_nearestMultiple _ n

theorem le_keep {x : Int} (h : 2 ^ 53 ≤ x) : 2 ^ 53 ≤ keep x := by
  have hnat : 2 ^ 53 ≤ keepNat x.natAbs := le_keepNat (by omega)
  unfold keep
  rw [if_neg (by omega)]
  omega

theorem keepsUpTo_keep : KeepsUpTo keep (2 ^ 53) where
  le_keep := by
    intro m x hlow hhigh hle
    rcases lt_or_ge (2 ^ 53) x with hlarge | hsmall
    · exact hhigh.trans (le_keep hlarge.le)
    · rwa [keep_of_natAbs_le (by omega)]
  keep_le := by
    intro m x hlow hhigh hle
    rcases lt_or_ge x (-2 ^ 53) with hlarge | hsmall
    · have hneg := le_keep (x := -x) (by omega)
      rw [keep_neg] at hneg
      omega
    · rwa [keep_of_natAbs_le (by omega)]

end SlotScheduling.Significand
