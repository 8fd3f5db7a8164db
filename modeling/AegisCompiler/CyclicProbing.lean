import Mathlib.Data.Nat.Find
import Mathlib.Data.Nat.ModEq
import Mathlib.Data.List.Perm.Basic

/-!
# Probing around a cycle

Open addressing looks for a key from its home, one place after the other, around the
cycle of all places.  A place is reached from a home when the walk to it meets no place
where it would stop.
-/

namespace Aegis

namespace Probing

/-- The place after a number of steps from a home, among `n` places in a cycle. -/
def place (n home steps : Nat) : Nat := (home + steps) % n

theorem place_lt {n : Nat} (positive : 0 < n) (home steps : Nat) : place n home steps < n :=
  Nat.mod_lt _ positive

theorem place_zero {n home : Nat} (small : home < n) : place n home 0 = home :=
  Nat.mod_eq_of_lt small

theorem place_succ (n home steps : Nat) :
    place n home (steps + 1) = (place n home steps + 1) % n := by
  unfold place
  rw [Nat.mod_add_mod, Nat.add_assoc]

/-- A walk of `n` steps visits every place. -/
theorem exists_place {n home i : Nat} (homeSmall : home < n) (small : i < n) :
    ∃ steps < n, place n home steps = i := by
  by_cases before : home ≤ i
  · refine ⟨i - home, by omega, ?_⟩
    unfold place
    rw [Nat.add_sub_cancel' before]
    exact Nat.mod_eq_of_lt small
  · refine ⟨i + n - home, by omega, ?_⟩
    unfold place
    rw [Nat.add_sub_cancel' (by omega : home ≤ i + n), Nat.add_mod_right]
    exact Nat.mod_eq_of_lt small

/-- The walk from a home comes to a place without a stop before it. -/
def Reached (n : Nat) (stops : Nat → Prop) (home i : Nat) : Prop :=
  ∃ steps < n, place n home steps = i ∧ ∀ earlier < steps, ¬stops (place n home earlier)

/-- With fewer stops, the walk goes at least as far. -/
theorem Reached.mono {n home i : Nat} {stops stops' : Nat → Prop}
    (reached : Reached n stops home i)
    (fewer : ∀ p < n, stops' p → stops p) : Reached n stops' home i := by
  obtain ⟨steps, small, there, free⟩ := reached
  refine ⟨steps, small, there, ?_⟩
  intro earlier before stopped
  exact free earlier before
    (fewer _ (place_lt (by omega) home earlier) stopped)

/-- From every home, the walk comes to a first stop when there is a stop at all. -/
theorem exists_first {n home i : Nat} {stops : Nat → Prop} (homeSmall : home < n)
    (small : i < n) (stopped : stops i) :
    ∃ steps < n, stops (place n home steps) ∧
      ∀ earlier < steps, ¬stops (place n home earlier) := by
  classical
  obtain ⟨steps, stepsSmall, there⟩ := exists_place homeSmall small
  have some : ∃ steps, stops (place n home steps) := ⟨steps, by rwa [there]⟩
  refine ⟨Nat.find some, ?_, Nat.find_spec some, fun earlier before => Nat.find_min some before⟩
  exact lt_of_le_of_lt (Nat.find_le (by rwa [there])) stepsSmall

end Probing

section Listing

variable {α : Type*}

/-- What a listing by places finds at one place, and what it finds elsewhere. -/
theorem listing_perm (entry : Nat → Option α) {n i : Nat} (small : i < n) :
    ((List.range n).filterMap entry).Perm
      ((entry i).toList ++ ((List.range n).erase i).filterMap entry) := by
  have split := List.perm_cons_erase (List.mem_range.mpr small)
  refine (split.filterMap entry).trans ?_
  cases here : entry i <;> simp [here]

/-- A change at one place leaves what is listed elsewhere. -/
theorem listing_elsewhere {entry entry' : Nat → Option α} {n i : Nat}
    (same : ∀ j < n, j ≠ i → entry' j = entry j) :
    ((List.range n).erase i).filterMap entry' = ((List.range n).erase i).filterMap entry := by
  apply List.filterMap_congr
  intro j listed
  have elsewhere := (List.nodup_range.mem_erase_iff).mp listed
  exact same j (List.mem_range.mp elsewhere.2) elsewhere.1

/-- A listing by places up to `n` holds at most `n` entries, and fewer when a place is
vacant. -/
theorem listing_length_le (entry : Nat → Option α) (n : Nat) :
    ((List.range n).filterMap entry).length ≤ n := by
  simpa using List.length_filterMap_le entry (List.range n)

end Listing

end Aegis
