import Mathlib.Data.List.Perm.Basic

/-!
# Orders that respect a relation

Some elements have to come before others.  A list of elements can be put in order
exactly when none of its subsets is blocked: when each has an element that can come
first.
-/

namespace TopologicalOrders

variable {α : Type} (precedes : α → α → Prop)

/-- No element stands behind one that it has to precede. -/
def Ordered (order : List α) : Prop :=
  order.Pairwise fun early late => ¬ precedes late early

/-- None of these elements can come first: each has to wait for another. -/
def Blocked (waiting : List α) : Prop :=
  waiting ≠ [] ∧ ∀ x ∈ waiting, ∃ y ∈ waiting, precedes y x

variable {precedes}

theorem exists_first {waiting : List α} (some_ : waiting ≠ [])
    (free : ¬ Blocked precedes waiting) : ∃ x ∈ waiting, ∀ y ∈ waiting, ¬ precedes y x := by
  by_contra none
  push Not at none
  exact free ⟨some_, none⟩

/-- Elements without a blocked subset can be put in order. -/
theorem exists_ordered {elements : List α}
    (free : ∀ waiting ⊆ elements, ¬ Blocked precedes waiting) :
    ∃ order, order.Perm elements ∧ Ordered precedes order := by
  classical
  induction size : elements.length generalizing elements with
  | zero =>
      rw [List.length_eq_zero_iff] at size
      exact ⟨[], size ▸ List.Perm.refl _, List.Pairwise.nil⟩
  | succ n ih =>
      have nonempty : elements ≠ [] := by
        rintro rfl
        cases size
      obtain ⟨first, inside, least⟩ := exists_first nonempty (free _ (List.Subset.refl _))
      have shorter : (elements.erase first).length = n := by
        rw [List.length_erase_of_mem inside, size, Nat.add_sub_cancel]
      have fewer : elements.erase first ⊆ elements := List.erase_subset
      obtain ⟨order, perm, ordered⟩ := ih (fun waiting within =>
        free waiting (List.Subset.trans within fewer)) shorter
      refine ⟨first :: order, (perm.cons first).trans (List.perm_cons_erase inside).symm, ?_⟩
      apply List.Pairwise.cons _ ordered
      intro late member
      exact least late (fewer (perm.subset member))

/-- The member of a subset that stands first in an order can come first. -/
theorem not_blocked_of_ordered (irrefl : ∀ x, ¬ precedes x x) {order waiting : List α}
    (ordered : Ordered precedes order) (inside : waiting ⊆ order) :
    ¬ Blocked precedes waiting := by
  classical
  rintro ⟨nonempty, waits⟩
  obtain ⟨some_, member⟩ := List.exists_mem_of_ne_nil waiting nonempty
  obtain ⟨first, found⟩ : ∃ first, order.find? (· ∈ waiting) = some first := by
    rw [← Option.isSome_iff_exists, List.find?_isSome]
    exact ⟨some_, inside member, decide_eq_true member⟩
  obtain ⟨here, front, back, rfl, before⟩ := List.find?_eq_some_iff_append.mp found
  obtain ⟨y, yMember, precedes⟩ := waits first (of_decide_eq_true here)
  rw [Ordered, List.pairwise_append] at ordered
  rcases List.mem_append.mp (inside yMember) with early | late
  · have outside := before y early
    simp [yMember] at outside
  · rcases List.mem_cons.mp late with rfl | late
    · exact irrefl y precedes
    · exact List.rel_of_pairwise_cons ordered.2.1 late precedes

/-- A list can be put in order exactly when no subset is blocked. -/
theorem exists_ordered_iff (irrefl : ∀ x, ¬ precedes x x) {elements : List α} :
    (∃ order, order.Perm elements ∧ Ordered precedes order) ↔
      ∀ waiting ⊆ elements, ¬ Blocked precedes waiting := by
  constructor
  · rintro ⟨order, perm, ordered⟩ waiting inside
    exact not_blocked_of_ordered irrefl ordered fun x member => perm.symm.subset (inside member)
  · exact exists_ordered

end TopologicalOrders
