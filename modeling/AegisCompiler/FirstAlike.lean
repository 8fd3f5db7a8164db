import Mathlib.Data.List.Nodup

/-!
# First elements of keys

A scan over the numbers that records the first number of every key redirects the
later ones to it.
-/

namespace Aegis

namespace FirstAlike

section

variable {κ : Type} [DecidableEq κ]

/-- The first number below a bound with a key. -/
def firstWith (key : Nat → Option κ) (bound : Nat) (k : κ) : Option Nat :=
  (List.range bound).find? fun n => decide (key n = some k)

/-- The first number with the key of a larger one. -/
def earlier (key : Nat → Option κ) (n : Nat) : Option Nat :=
  (key n).bind (firstWith key n)

variable {key : Nat → Option κ}

theorem firstWith_succ (bound : Nat) (k : κ) :
    firstWith key (bound + 1) k =
      (firstWith key bound k).or (if key bound = some k then some bound else none) := by
  rw [firstWith, List.range_succ, List.find?_append, List.find?_singleton]
  simp only [firstWith, decide_eq_true_eq]

theorem firstWith_eq_some {bound n : Nat} {k : κ} (found : firstWith key bound k = some n) :
    n < bound ∧ key n = some k ∧ ∀ m < n, key m ≠ some k := by
  rw [firstWith, List.find?_range_eq_some] at found
  obtain ⟨same, inside, none⟩ := found
  refine ⟨List.mem_range.mp inside, of_decide_eq_true same, fun m below same => ?_⟩
  have absent := none m below
  rw [same] at absent
  simp at absent

theorem firstWith_isSome {bound n : Nat} {k : κ} (below : n < bound)
    (same : key n = some k) : ∃ m, m ≤ n ∧ firstWith key bound k = some m := by
  cases found : firstWith key bound k with
  | none =>
      have absent := List.find?_eq_none.mp found n (List.mem_range.mpr below)
      simp [same] at absent
  | some m =>
      obtain ⟨-, -, none⟩ := firstWith_eq_some found
      exact ⟨m, Nat.le_of_not_lt fun less => none n less same, rfl⟩

/-- The first number with a key. -/
def IsFirst (key : Nat → Option κ) (k : κ) (n : Nat) : Prop :=
  key n = some k ∧ ∀ m < n, key m ≠ some k

omit [DecidableEq κ] in
theorem IsFirst.unique {k : κ} {n m : Nat} (first : IsFirst key k n)
    (second : IsFirst key k m) : n = m := by
  rcases Nat.lt_trichotomy n m with less | equal | more
  · exact absurd first.1 (second.2 n less)
  · exact equal
  · exact absurd second.1 (first.2 m more)

theorem earlier_eq_some {n m : Nat} :
    earlier key n = some m ↔ ∃ k, key n = some k ∧ m < n ∧ IsFirst key k m := by
  constructor
  · intro found
    obtain ⟨k, same, found⟩ := Option.bind_eq_some_iff.mp found
    exact ⟨k, same, (firstWith_eq_some found).1, (firstWith_eq_some found).2⟩
  · rintro ⟨k, same, below, first⟩
    obtain ⟨m', -, found⟩ := firstWith_isSome below first.1
    rw [earlier, same, first.unique (firstWith_eq_some found).2]
    exact found

/-- Only the keys up to a number matter. -/
theorem earlier_congr {key' : Nat → Option κ} {n : Nat}
    (same : ∀ m, m ≤ n → key m = key' m) : earlier key n = earlier key' n := by
  have upTo (bound : Nat) (le : bound ≤ n) (k : κ) :
      firstWith key bound k = firstWith key' bound k := by
    induction bound with
    | zero => rfl
    | succ bound ih =>
        rw [firstWith_succ, firstWith_succ, ih (Nat.le_of_succ_le le),
          same bound (Nat.le_of_succ_le le)]
  rw [earlier, earlier, same n (Nat.le_refl n)]
  exact congrArg _ (funext (upTo n (Nat.le_refl n)))

/-- Every number with a key is the first one, or redirected to it. -/
theorem exists_first {n : Nat} {k : κ} (same : key n = some k) :
    ∃ f, IsFirst key k f ∧ (f = n ∨ earlier key n = some f) := by
  obtain ⟨f, le, found⟩ := firstWith_isSome (Nat.lt_succ_self n) same
  have first : IsFirst key k f := (firstWith_eq_some found).2
  refine ⟨f, first, ?_⟩
  rcases Nat.lt_or_eq_of_le le with less | equal
  · exact .inr (earlier_eq_some.mpr ⟨k, same, less, first⟩)
  · exact .inl equal

/-- The first number with the same key, or the number itself. -/
def canonical (key : Nat → Option κ) (n : Nat) : Nat := (earlier key n).getD n

theorem canonical_of_key {n : Nat} {k : κ} (same : key n = some k) :
    IsFirst key k (canonical key n) := by
  obtain ⟨f, first, rfl | redirected⟩ := exists_first same
  · cases found : earlier key f with
    | none => rwa [canonical, found]
    | some m =>
        obtain ⟨k', same', below, first'⟩ := earlier_eq_some.mp found
        rw [same] at same'
        cases same'
        exact absurd first'.1 (first.2 m below)
  · rwa [canonical, redirected]

theorem canonical_of_none {n : Nat} (none : key n = none) : canonical key n = n := by
  rw [canonical, earlier, none]
  rfl

theorem canonical_le (n : Nat) : canonical key n ≤ n := by
  cases same : key n with
  | none => exact Nat.le_of_eq (canonical_of_none same)
  | some k =>
      have first := canonical_of_key same
      exact Nat.le_of_not_lt fun less => first.2 n less same

theorem canonical_canonical (n : Nat) :
    canonical key (canonical key n) = canonical key n := by
  cases same : key n with
  | none => rw [canonical_of_none same, canonical_of_none same]
  | some k =>
      have first := canonical_of_key same
      exact (canonical_of_key first.1).unique first

theorem canonical_eq_iff {n m : Nat} :
    canonical key n = canonical key m ↔ n = m ∨ ∃ k, key n = some k ∧ key m = some k := by
  have itself {n m : Nat} (none : key n = none) (same : canonical key n = canonical key m) :
      n = m := by
    rw [canonical_of_none none] at same
    cases other : key m with
    | none => exact same.trans (canonical_of_none other)
    | some k =>
        have first := canonical_of_key other
        rw [← same] at first
        exact absurd first.1 (none ▸ (Option.some_ne_none k).symm)
  constructor
  · intro same
    cases keyN : key n with
    | none => exact .inl (itself keyN same)
    | some k =>
        cases keyM : key m with
        | none => exact .inl (itself keyM same.symm).symm
        | some k' =>
            have first := (canonical_of_key keyN).1
            rw [same, (canonical_of_key keyM).1] at first
            exact .inr ⟨k, rfl, first⟩
  · rintro (rfl | ⟨k, keyN, keyM⟩)
    · rfl
    · exact (canonical_of_key keyN).unique (canonical_of_key keyM)

theorem earlier_isSome_iff {n : Nat} : (earlier key n).isSome ↔ canonical key n ≠ n := by
  cases found : earlier key n with
  | none => simp [canonical, found]
  | some m =>
      obtain ⟨-, -, below, -⟩ := earlier_eq_some.mp found
      simp [canonical, found, Nat.ne_of_lt below]

/-- Everything agrees with the first element of its key exactly when elements with
one key agree. -/
theorem earlier_iff {Same : Nat → Nat → Prop} (same : Equivalence Same) :
    (∀ n m, earlier key n = some m → Same n m) ↔
      ∀ n m k, key n = some k → key m = some k → Same n m := by
  constructor
  · intro each n m k keyN keyM
    have agrees {n f : Nat} (first : f = n ∨ earlier key n = some f) : Same n f := by
      rcases first with rfl | redirected
      · exact same.refl f
      · exact each n f redirected
    obtain ⟨f, firstN, toN⟩ := exists_first keyN
    obtain ⟨f', firstM, toM⟩ := exists_first keyM
    cases firstN.unique firstM
    exact same.trans (agrees toN) (same.symm (agrees toM))
  · intro agree n m redirected
    obtain ⟨k, keyN, -, first⟩ := earlier_eq_some.mp redirected
    exact agree n m k keyN first.1

end

end FirstAlike

end Aegis
