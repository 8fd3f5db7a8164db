import Mathlib.Algebra.Group.Nat.Defs
import Mathlib.Data.List.Pairwise
import Mathlib.Order.Basic
import Mathlib.Order.Lattice

/-!
# Regions of addresses

Ranges of consecutive addresses, when two of them meet, and lists of regions that do not.
-/

/-- The addresses from a start on. -/
structure Region where
  start : Nat
  size : Nat
  deriving DecidableEq, Repr

namespace Region

def stop (r : Region) : Nat := r.start + r.size

def Contains (r : Region) (address : Nat) : Prop := r.start ≤ address ∧ address < r.stop

/-- Two regions have an address in common. -/
def Meets (r s : Region) : Prop := max r.start s.start < min r.stop s.stop

instance (r s : Region) : Decidable (r.Meets s) := inferInstanceAs (Decidable (_ < _))

/-- One region lies in another one. -/
def Inside (r s : Region) : Prop := s.start ≤ r.start ∧ r.stop ≤ s.stop

variable {r s t : Region}

theorem meets_iff : r.Meets s ↔ ∃ address, r.Contains address ∧ s.Contains address := by
  unfold Meets Contains
  constructor
  · intro common
    exact ⟨max r.start s.start, by omega, by omega⟩
  · rintro ⟨address, first, second⟩
    omega

theorem Meets.symm (meets : r.Meets s) : s.Meets r := by
  unfold Meets at *
  omega

theorem meets_self (nonempty : 0 < r.size) : r.Meets r := by
  unfold Meets stop
  omega

theorem Meets.of_inside (meets : r.Meets s) (inside : r.Inside t) : t.Meets s := by
  unfold Meets Inside at *
  omega

theorem not_meets_of_stop_le (apart : r.stop ≤ s.start) : ¬r.Meets s := by
  unfold Meets
  omega

end Region
