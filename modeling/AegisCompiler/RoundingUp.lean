import Mathlib.Algebra.Group.Nat.Defs
import Mathlib.Data.Nat.Log

/-!
# Rounding up with masks

The least multiple of a power of two that is not below a number, and the words that the usual
sum with a mask computes for it.
-/

namespace RoundingUp

def roundUp (n unit : Nat) : Nat := (n + (unit - 1)) / unit * unit

theorem le_roundUp (n : Nat) {unit : Nat} (positive : 0 < unit) : n ≤ roundUp n unit := by
  have parts := Nat.div_add_mod (n + (unit - 1)) unit
  have rest := Nat.mod_lt (n + (unit - 1)) positive
  rw [Nat.mul_comm] at parts
  unfold roundUp
  omega

variable {w k : Nat} {x mask unit : BitVec w}

/-- Clearing the low bits leaves a multiple. -/
theorem toNat_and_not_mask (low : mask.toNat = 2 ^ k - 1) :
    (x &&& ~~~mask).toNat = x.toNat / 2 ^ k * 2 ^ k := by
  apply Nat.eq_of_testBit_eq
  intro i
  have bit : mask.toNat.testBit i = decide (i < k) := by rw [low, Nat.testBit_two_pow_sub_one]
  change (x &&& ~~~mask).getLsbD i = _
  rw [BitVec.getLsbD_and, BitVec.getLsbD_not, Nat.mul_comm, Nat.testBit_two_pow_mul]
  change (x.toNat.testBit i && (decide (i < w) && !mask.toNat.testBit i)) = _
  rw [bit]
  by_cases high : k ≤ i
  · rw [Nat.testBit_div_two_pow, Nat.sub_add_cancel high, decide_eq_true high,
      decide_eq_false (Nat.not_lt_of_le high)]
    by_cases inside : i < w
    · rw [decide_eq_true inside]
      simp
    · have unset : x.toNat.testBit i = false := BitVec.getLsbD_of_ge x i (Nat.le_of_not_lt inside)
      rw [unset]
      simp
  · rw [decide_eq_false high, decide_eq_true (Nat.lt_of_not_le high)]
    simp

/-- The word is the rounded number, or zero if the sum wraps around. -/
theorem toNat_add_and_not (width : k < w) (power : unit.toNat = 2 ^ k) :
    ((x + unit - 1#w) &&& ~~~(unit - 1#w)).toNat =
      if x.toNat + (2 ^ k - 1) < 2 ^ w then roundUp x.toNat (2 ^ k) else 0 := by
  have positive : 0 < 2 ^ k := Nat.two_pow_pos k
  have less : 2 ^ k < 2 ^ w := Nat.pow_lt_pow_right (by decide) width
  have bound := x.isLt
  have single : (1#w).toNat = 1 := by
    rw [BitVec.toNat_ofNat]
    exact Nat.mod_eq_of_lt (by omega)
  have low : (unit - 1#w).toNat = 2 ^ k - 1 := by
    have one : 1#w ≤ unit := by
      rw [BitVec.le_def, single, power]
      exact positive
    rw [BitVec.toNat_sub_of_le one, single, power]
  have sum : (x + unit - 1#w).toNat = (x.toNat + (2 ^ k - 1)) % 2 ^ w := by
    rw [BitVec.sub_eq_add_neg, BitVec.add_assoc, ← BitVec.sub_eq_add_neg, BitVec.toNat_add, low]
  rw [toNat_and_not_mask low, sum]
  split
  case isTrue small => rw [Nat.mod_eq_of_lt small, roundUp]
  case isFalse large =>
    have wrapped : (x.toNat + (2 ^ k - 1)) % 2 ^ w < 2 ^ k := by
      rw [Nat.mod_eq_sub_mod (Nat.le_of_not_lt large), Nat.mod_eq_of_lt (by omega)]
      omega
    rw [Nat.div_eq_of_lt wrapped, Nat.zero_mul]

end RoundingUp
