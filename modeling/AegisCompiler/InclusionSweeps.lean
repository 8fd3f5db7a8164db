import Mathlib.Data.List.Basic

/-!
# Sweeps until nothing changes

A loop visits all places in order, again and again, until a sweep changes nothing or a limit is
reached.  If the visits tell honestly whether they changed something, no visit changes the state
in which the loop has settled.
-/

namespace InclusionSweeps

section Sets

variable {τ : Type} [DecidableEq τ]

/-- Add an element, and tell whether it is new. -/
def add (set : List τ) (x : τ) : List τ × Bool :=
  if x ∈ set then (set, false) else (set ++ [x], true)

/-- Add all elements of a list, and tell whether one of them is new. -/
def addAll (set : List τ) : List τ → List τ × Bool
  | [] => (set, false)
  | x :: xs =>
      let (set, isNew) := add set x
      let (set, more) := addAll set xs
      (set, isNew || more)

theorem add_old {set : List τ} {x : τ} (old : (add set x).2 = false) :
    (add set x).1 = set ∧ x ∈ set := by
  by_cases known : x ∈ set
  · exact ⟨congrArg Prod.fst (if_pos known), known⟩
  · rw [add, if_neg known] at old
    cases old

theorem addAll_old {set xs : List τ} (old : (addAll set xs).2 = false) :
    (addAll set xs).1 = set ∧ xs ⊆ set := by
  induction xs with
  | nil => exact ⟨rfl, List.nil_subset _⟩
  | cons x xs ih =>
      obtain ⟨first, rest⟩ := Bool.or_eq_false_iff.mp old
      obtain ⟨same, known⟩ := add_old first
      change (addAll (add set x).1 xs).2 = false at rest
      rw [same] at rest
      obtain ⟨same', known'⟩ := ih rest
      refine ⟨?_, List.cons_subset.mpr ⟨known, known'⟩⟩
      change (addAll (add set x).1 xs).1 = set
      rw [same, same']

end Sets

section Sweeps

variable {ι σ : Type}

/-- How a loop of sweeps ends: nothing changes any more, or a limit is reached. -/
inductive Ending (σ : Type) where
  | settled (s : σ)
  | sweepLimit (s : σ)
  | visitLimit

variable (visit : ι → σ → σ × Bool) (limit : Option Nat)

/-- Visit all places, unless there have been too many visits. -/
def sweep : List ι → Nat → σ → Option (Nat × σ × Bool)
  | [], visits, s => some (visits, s, false)
  | place :: places, visits, s =>
      if limit.any (· < visits + 1) then none
      else
        let (s, changed) := visit place s
        (sweep places (visits + 1) s).map fun (visits, s, more) => (visits, s, changed || more)

/-- Sweep until nothing changes, as often as there are sweeps left. -/
def iterate (places : List ι) : Nat → Nat → σ → Ending σ
  | 0, _, s => .sweepLimit s
  | sweeps + 1, visits, s =>
      match sweep visit limit places visits s with
      | none => .visitLimit
      | some (visits, s, changed) =>
          if changed then iterate places sweeps visits s else .settled s

/-- A visit that says that it changed nothing has changed nothing. -/
def Honest : Prop := ∀ place s, (visit place s).2 = false → (visit place s).1 = s

variable {visit limit}

theorem sweep_quiet (honest : Honest visit) {places : List ι} {visits visits' : Nat} {s s' : σ}
    (swept : sweep visit limit places visits s = some (visits', s', false)) :
    s' = s ∧ ∀ place ∈ places, (visit place s).2 = false := by
  induction places generalizing visits s with
  | nil =>
      cases swept
      exact ⟨rfl, nofun⟩
  | cons place places ih =>
      rw [sweep] at swept
      split at swept
      case isTrue => cases swept
      case isFalse =>
        obtain ⟨⟨_, t, more⟩, rest, equal⟩ := Option.map_eq_some_iff.mp swept
        injection equal with counted equal
        injection equal with same changed
        obtain ⟨first, quiet⟩ := Bool.or_eq_false_iff.mp changed
        subst counted same quiet
        rw [honest place s first] at rest
        obtain ⟨rfl, others⟩ := ih rest
        refine ⟨rfl, fun other listed => ?_⟩
        rcases List.mem_cons.mp listed with rfl | behind
        · exact first
        · exact others other behind

/-- No visit changes the state in which the loop has settled. -/
theorem settled_quiet (honest : Honest visit) {places : List ι} {sweeps visits : Nat} {s s' : σ}
    (ended : iterate visit limit places sweeps visits s = .settled s') :
    ∀ place ∈ places, (visit place s').2 = false := by
  induction sweeps generalizing visits s with
  | zero => cases ended
  | succ sweeps ih =>
      rw [iterate] at ended
      split at ended
      · cases ended
      · rename_i visits' t changed swept
        cases changed with
        | true => exact ih ended
        | false =>
            cases ended
            obtain ⟨same, quiet⟩ := sweep_quiet honest swept
            rw [same]
            exact quiet

end Sweeps

end InclusionSweeps
