import Mathlib.Data.List.Nodup
import Mathlib.Data.List.Perm.Basic

/-!
# Removal by moving the last element

An element of a list is removed in constant time by writing the last element over it and
dropping the end.  Up to their order the others stay.
-/

namespace SwapRemoval

variable {α : Type*} {front xs : List α} {last : α} {i : Nat}

/-- The end is dropped after its element has been written to another place. -/
theorem dropLast_set (inside : i ≤ front.length) :
    ((front ++ [last]).set i last).dropLast = front.set i last := by
  rcases Nat.lt_or_eq_of_le inside with before | rfl
  · rw [List.set_append_left i last before, List.dropLast_concat]
  · rw [List.set_append_right _ _ Nat.le.refl, Nat.sub_self, List.set_cons_zero,
      List.dropLast_concat, List.set_eq_of_length_le Nat.le.refl]

theorem set_perm_eraseIdx (inside : i ≤ front.length) :
    (front.set i last).Perm ((front ++ [last]).eraseIdx i) := by
  rcases Nat.lt_or_eq_of_le inside with before | rfl
  · rw [List.eraseIdx_append_of_lt_length before]
    calc
      (front.set i last).Perm (last :: front.eraseIdx i) :=
        List.set_perm_cons_eraseIdx before last
      List.Perm _ (front.eraseIdx i ++ [last]) := (List.perm_append_singleton _ _).symm
  · rw [List.set_eq_of_length_le Nat.le.refl, List.eraseIdx_append_of_length_le Nat.le.refl,
      Nat.sub_self, List.eraseIdx_cons_zero, List.append_nil]

/-- A list without duplicates loses the element at the place. -/
theorem set_perm_erase [DecidableEq α] (nodup : (front ++ [last]).Nodup) {x : α}
    (found : (front ++ [last])[i]? = some x) :
    (front.set i last).Perm ((front ++ [last]).erase x) := by
  obtain ⟨within, rfl⟩ := List.getElem?_eq_some_iff.mp found
  have inside : i ≤ front.length := by
    rw [List.length_append, List.length_singleton] at within
    exact Nat.le_of_lt_succ within
  rw [nodup.erase_getElem i within]
  exact set_perm_eraseIdx inside

end SwapRemoval
