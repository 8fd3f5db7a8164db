import Mathlib.Data.List.Forall2
import Mathlib.Data.Option.Basic

/-!
# Levels of equal expressions

Nodes are equal down to a level when they are one node, or have one label and their
arguments are equal down to the level below.  Rounds that identify the nodes with one
label and identified arguments reach one level each.
-/

namespace Aegis

namespace Expressions

section

variable {Λ : Type} (label : Nat → Option Λ) (args : Nat → List (Option Nat))

/-- Equality down to a level. -/
def Level : Nat → Nat → Nat → Prop
  | 0, n, m => n = m
  | k + 1, n, m => n = m ∨ ∃ l, label n = some l ∧ label m = some l ∧
      List.Forall₂ (Option.Rel (Level k)) (args n) (args m)

variable {label args}

theorem Level.refl (k n : Nat) : Level label args k n n := by
  cases k with
  | zero => rfl
  | succ k => exact .inl rfl

theorem level_succ_mono {k k' : Nat}
    (below : ∀ n m, Level label args k n m → Level label args k' n m) {n m : Nat}
    (level : Level label args (k + 1) n m) : Level label args (k' + 1) n m := by
  rcases level with rfl | ⟨l, labelN, labelM, each⟩
  · exact .inl rfl
  · refine .inr ⟨l, labelN, labelM, each.imp fun _ _ related => ?_⟩
    cases related with
    | some related => exact .some (below _ _ related)
    | none => exact .none

theorem Level.succ {k n m : Nat} (level : Level label args k n m) :
    Level label args (k + 1) n m := by
  induction k generalizing n m with
  | zero => exact .inl level
  | succ k ih => exact level_succ_mono (fun _ _ below => ih below) level

theorem Level.mono {k k' n m : Nat} (le : k ≤ k') (level : Level label args k n m) :
    Level label args k' n m := by
  induction le with
  | refl => exact level
  | step _ ih => exact ih.succ

/-- A level that finds nothing more is the last one. -/
theorem level_stable {k : Nat}
    (stable : ∀ n m, Level label args (k + 1) n m → Level label args k n m) (more : Nat)
    {n m : Nat} (level : Level label args (k + more) n m) : Level label args k n m := by
  induction more generalizing n m with
  | zero => exact level
  | succ more ih => exact stable n m (level_succ_mono (fun _ _ below => ih below) level)

/-- Rounds of identifications: the representatives after some rounds, and what one round
identifies among the representatives. -/
structure Rounds (label : Nat → Option Λ) (args : Nat → List (Option Nat)) (bound : Nat)
    (rep : Nat → Nat → Nat) (identify : Nat → Nat → Nat) : Prop where
  start : ∀ n, rep 0 n = n
  next : ∀ k n, rep (k + 1) n = identify k (rep k n)
  live : ∀ k n, rep k (identify k (rep k n)) = identify k (rep k n)
  again : ∀ k n, identify k (identify k n) = identify k n
  identifies : ∀ k < bound, ∀ n m, rep k n = n → rep k m = m →
    (identify k n = identify k m ↔ n = m ∨ ∃ l, label n = some l ∧ label m = some l ∧
      (args n).map (Option.map (rep k)) = (args m).map (Option.map (rep k)))

namespace Rounds

variable {bound : Nat} {rep : Nat → Nat → Nat} {identify : Nat → Nat → Nat}

theorem rep_rep (rounds : Rounds label args bound rep identify) (k n : Nat) :
    rep k (rep k n) = rep k n := by
  cases k with
  | zero => rw [rounds.start, rounds.start]
  | succ k => rw [rounds.next, rounds.next, rounds.live, rounds.again]

/-- Lists have the same representatives when they are related. -/
theorem map_rep_iff {k : Nat}
    (same : ∀ n m, rep k n = rep k m ↔ Level label args k n m) (xs ys : List (Option Nat)) :
    xs.map (Option.map (rep k)) = ys.map (Option.map (rep k)) ↔
      List.Forall₂ (Option.Rel (Level label args k)) xs ys := by
  have slot (x y : Option Nat) : x.map (rep k) = y.map (rep k) ↔
      Option.Rel (Level label args k) x y := by
    cases x <;> cases y <;> simp [same]
  rw [← List.forall₂_eq_eq_eq, List.forall₂_map_left_iff, List.forall₂_map_right_iff]
  simp only [slot]

/-- A node and its representative have one label and the same representatives of
arguments. -/
theorem represented (rounds : Rounds label args bound rep identify) {k : Nat}
    (same : ∀ n m, rep k n = rep k m ↔ Level label args k n m) (n : Nat) :
    label (rep k n) = label n ∧
      (args (rep k n)).map (Option.map (rep k)) = (args n).map (Option.map (rep k)) := by
  rcases ((same _ _).mp (rounds.rep_rep k n)).succ with equal | ⟨l, labelN, labelM, each⟩
  · rw [equal]
    exact ⟨rfl, rfl⟩
  · exact ⟨labelN.trans labelM.symm, (map_rep_iff same _ _).mpr each⟩

/-- The round after identifies exactly the nodes that are equal one level deeper. -/
theorem succ_iff (rounds : Rounds label args bound rep identify) {k : Nat}
    (inside : k < bound) (same : ∀ n m, rep k n = rep k m ↔ Level label args k n m)
    (n m : Nat) : rep (k + 1) n = rep (k + 1) m ↔ Level label args (k + 1) n m := by
  obtain ⟨labelN, argsN⟩ := rounds.represented same n
  obtain ⟨labelM, argsM⟩ := rounds.represented same m
  rw [rounds.next, rounds.next, rounds.identifies k inside _ _ (rounds.rep_rep k n)
    (rounds.rep_rep k m), labelN, argsN, labelM, argsM]
  simp only [map_rep_iff same]
  constructor
  · rintro (equal | related)
    · exact ((same n m).mp equal).succ
    · exact .inr related
  · rintro (rfl | related)
    · exact .inl rfl
    · exact .inr related

/-- After every round, exactly the nodes that are equal down to its level are identified. -/
theorem rep_eq_iff (rounds : Rounds label args bound rep identify) {k : Nat}
    (inside : k ≤ bound) (n m : Nat) : rep k n = rep k m ↔ Level label args k n m := by
  induction k generalizing n m with
  | zero =>
      rw [rounds.start, rounds.start]
      exact Iff.rfl
  | succ k ih =>
      exact rounds.succ_iff inside (ih (Nat.le_of_succ_le inside)) n m

/-- No two representatives agree in label and arguments exactly when the next level finds
nothing more. -/
theorem apart_iff (rounds : Rounds label args bound rep identify) {k : Nat}
    (inside : k ≤ bound) :
    (∀ n m l, rep k n = n → rep k m = m → label n = some l → label m = some l →
      (args n).map (Option.map (rep k)) = (args m).map (Option.map (rep k)) → n = m) ↔
        ∀ n m, Level label args (k + 1) n m → Level label args k n m := by
  have same := rounds.rep_eq_iff inside
  constructor
  · rintro apart n m (rfl | ⟨l, labelN, labelM, each⟩)
    · exact .refl k n
    · obtain ⟨labelN', argsN⟩ := rounds.represented same n
      obtain ⟨labelM', argsM⟩ := rounds.represented same m
      have equal := apart (rep k n) (rep k m) l (rounds.rep_rep k n) (rounds.rep_rep k m)
        (labelN'.trans labelN) (labelM'.trans labelM)
        (argsN.trans (((map_rep_iff same _ _).mpr each).trans argsM.symm))
      exact (same n m).mp equal
  · intro stable n m l liveN liveM labelN labelM equal
    have level := stable n m (.inr ⟨l, labelN, labelM, (map_rep_iff same _ _).mp equal⟩)
    rw [← liveN, ← liveM]
    exact (same n m).mpr level

end Rounds

end

end Expressions

end Aegis
