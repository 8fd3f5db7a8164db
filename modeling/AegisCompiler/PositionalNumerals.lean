import Mathlib.Data.List.Basic
import Mathlib.Data.List.Induction
import Mathlib.Data.Nat.Digits.Defs

/-!
# Numbers written with digits

The value of a list of digits with the most significant one first, when it determines the
digits, and what is read by someone who leaves out the digits that are too large for them.
-/

namespace PositionalNumerals

/-- The value of digits, the most significant one first. -/
def value (base : Nat) (digits : List Nat) : Nat := Nat.ofDigits base digits.reverse

theorem value_concat (base : Nat) (digits : List Nat) (d : Nat) :
    value base (digits ++ [d]) = d + base * value base digits := by
  rw [value, List.reverse_append, List.reverse_singleton, List.singleton_append,
    Nat.ofDigits_cons, value]

theorem value_zero_cons (base : Nat) (digits : List Nat) :
    value base (0 :: digits) = value base digits := by
  rw [value, List.reverse_cons, Nat.ofDigits_append, Nat.ofDigits_singleton, Nat.mul_zero,
    Nat.add_zero, value]

/-- The first digit is not zero, unless it is the only one. -/
def NoLeadingZeros (digits : List Nat) : Prop := digits = [0] ∨ digits.head? ≠ some 0

/-- Digits without leading zeros are those of their value. -/
theorem digits_value {base : Nat} (large : 1 < base) {digits : List Nat}
    (small : ∀ d ∈ digits, d < base) (leading : digits.head? ≠ some 0) :
    base.digits (value base digits) = digits.reverse := by
  refine Nat.digits_ofDigits base large _ (fun d member => small d (List.mem_reverse.mp member))
    fun nonempty zero => leading ?_
  rw [List.getLast_reverse] at zero
  rw [← zero]
  exact List.head?_eq_some_head _

theorem value_eq_zero_iff {base : Nat} (large : 1 < base) {digits : List Nat}
    (small : ∀ d ∈ digits, d < base) (leading : digits.head? ≠ some 0) :
    value base digits = 0 ↔ digits = [] := by
  have same := digits_value large small leading
  constructor
  · intro zero
    rw [zero, Nat.digits_zero] at same
    exact List.reverse_eq_nil_iff.mp same.symm
  · rintro rfl
    rfl

/-- Different digits without leading zeros have different values. -/
theorem value_injective {base : Nat} (large : 1 < base) {digits digits' : List Nat}
    (nonempty : digits ≠ []) (nonempty' : digits' ≠ [])
    (small : ∀ d ∈ digits, d < base) (small' : ∀ d ∈ digits', d < base)
    (leading : NoLeadingZeros digits) (leading' : NoLeadingZeros digits')
    (same : value base digits = value base digits') : digits = digits' := by
  rcases leading with rfl | leading
  · rcases leading' with rfl | leading'
    · rfl
    · exact absurd ((value_eq_zero_iff large small' leading').mp same.symm) nonempty'
  · rcases leading' with rfl | leading'
    · exact absurd ((value_eq_zero_iff large small leading).mp same) nonempty
    · have reversed := digits_value large small leading
      rw [same, digits_value large small' leading'] at reversed
      exact (List.reverse_inj.mp reversed).symm

/-- Whoever reads digits in a smaller base, and leaves out those that are too large for it,
reads too little, unless the value is a digit of theirs. -/
theorem value_filter {base larger : Nat} (positive : 0 < base) (less : base < larger)
    (digits : List Nat) :
    value base (digits.filter (· < base)) ≤ value larger digits ∧
      (value base (digits.filter (· < base)) = value larger digits ↔
        value larger digits < base) := by
  induction digits using List.reverseRecOn with
  | nil => exact ⟨Nat.le_refl 0, fun _ => positive, fun _ => rfl⟩
  | append_singleton digits d ih =>
      obtain ⟨below, exact_⟩ := ih
      rw [List.filter_append, value_concat]
      generalize value larger digits = all at below exact_ ⊢
      have grows : all ≤ larger * all := Nat.le_mul_of_pos_left all (by omega)
      by_cases known : d < base
      · rw [List.filter_singleton, decide_eq_true known, cond_true, value_concat]
        generalize value base _ = read at below exact_ ⊢
        have scaled : base * read ≤ base * all := Nat.mul_le_mul_left base below
        rcases Nat.eq_zero_or_pos all with rfl | some_
        · obtain rfl := Nat.le_zero.mp below
          simp only [Nat.mul_zero, Nat.add_zero, true_iff]
          exact ⟨Nat.le_refl d, known⟩
        · have more : base * all < larger * all := Nat.mul_lt_mul_of_pos_right less some_
          have large : larger ≤ larger * all := Nat.le_mul_of_pos_right larger some_
          exact ⟨by omega, by omega, by omega⟩
      · rw [List.filter_singleton, decide_eq_false known, cond_false, List.append_nil]
        exact ⟨by omega, by omega, by omega⟩

end PositionalNumerals
