import AegisCompiler.SwapRemoval
import Mathlib.Algebra.Group.Nat.Defs
import Mathlib.Data.Finset.Card
import Mathlib.Data.Finset.Image
import Mathlib.Data.Finset.Range

/-!
# Sparse sets

A set of small numbers: a dense array of the members and, for each number of the universe,
its place in the dense array with the epoch in which it was put there.  Clearing the set
starts a new epoch, which hides the old entries.
-/

namespace Aegis

/-- The place of a number in the dense array, and the epoch in which it was inserted. -/
structure SparseEntry where
  idx : BitVec 32 := 0xFFFFFFFF#32
  epoch : BitVec 32 := 0
  deriving DecidableEq, Repr

structure SparseSet where
  sparse : List SparseEntry := []
  dense : List (BitVec 32) := []
  epoch : BitVec 32 := 1
  deriving DecidableEq, Repr

namespace SparseSet

def kSentinel : BitVec 32 := 0xFFFFFFFF#32

/-- An empty set over the numbers below a bound. -/
def resize (universeSize : BitVec 32) : SparseSet where
  sparse := List.replicate universeSize.toNat ⟨kSentinel, 0⟩
  dense := []
  epoch := 1

/-- Insert a number of the universe; otherwise the behaviour is undefined. -/
def insert (s : SparseSet) (v : BitVec 32) : Option (SparseSet × Bool) := do
  let e ← s.sparse[v.toNat]?
  if e.epoch = s.epoch ∧ e.idx ≠ kSentinel then
    return (s, false)
  else
    let placed : SparseEntry := ⟨BitVec.ofNat 32 s.dense.length, s.epoch⟩
    return ({ s with sparse := s.sparse.set v.toNat placed, dense := s.dense ++ [v] }, true)

def contains (s : SparseSet) (v : BitVec 32) : Bool :=
  match s.sparse[v.toNat]? with
  | none => false
  | some e => decide (e.epoch = s.epoch ∧ e.idx ≠ kSentinel)

/-- Remove a number; the last member takes its place.  Accesses outside of the arrays would
be undefined. -/
def erase (s : SparseSet) (v : BitVec 32) : Option (SparseSet × Bool) :=
  if s.contains v = false then some (s, false)
  else do
    let e ← s.sparse[v.toNat]?
    let last ← s.dense.getLast?
    guard (e.idx.toNat < s.dense.length)
    let moved ← s.sparse[last.toNat]?
    let sparse := s.sparse.set last.toNat { moved with idx := e.idx }
    return ({ s with
      dense := (s.dense.set e.idx.toNat last).dropLast
      sparse := sparse.set v.toNat ⟨kSentinel, 0⟩ }, true)

/-- Start a new epoch.  When the counter overflows, all entries are reset. -/
def clear (s : SparseSet) : SparseSet :=
  if s.epoch + 1 = 0 then
    { sparse := s.sparse.map fun _ => ⟨kSentinel, 0⟩, dense := [], epoch := 1 }
  else
    { s with dense := [], epoch := s.epoch + 1 }

def size (s : SparseSet) : BitVec 32 := BitVec.ofNat 32 s.dense.length

/-- Members and their places correspond to each other, and no entry is from a later epoch. -/
structure WellFormed (s : SparseSet) : Prop where
  fits : s.sparse.length < 2 ^ 32
  started : s.epoch ≠ 0
  past : ∀ e ∈ s.sparse, e.epoch ≤ s.epoch
  nodup : s.dense.Nodup
  placed : ∀ i (v : BitVec 32), s.dense[i]? = some v →
    s.sparse[v.toNat]? = some ⟨BitVec.ofNat 32 i, s.epoch⟩
  current : ∀ (v : BitVec 32) e, s.sparse[v.toNat]? = some e → e.epoch = s.epoch → e.idx ≠ kSentinel →
    s.dense[e.idx.toNat]? = some v

/-- The numbers that a set stands for. -/
def members (s : SparseSet) : Finset (BitVec 32) := s.dense.toFinset

section Members

variable {s : SparseSet} {v : BitVec 32}

theorem mem_members : v ∈ s.members ↔ v ∈ s.dense := List.mem_toFinset

theorem WellFormed.inside (wf : s.WellFormed) (member : v ∈ s.dense) :
    v.toNat < s.sparse.length := by
  obtain ⟨i, found⟩ := List.mem_iff_getElem?.mp member
  exact (List.getElem?_eq_some_iff.mp (wf.placed i v found)).1

/-- A list of different numbers is not longer than the universe. -/
theorem length_le_of_inside {numbers : List (BitVec 32)} {n : Nat} (nodup : numbers.Nodup)
    (inside : ∀ v ∈ numbers, v.toNat < n) : numbers.length ≤ n := by
  have injective : Function.Injective (BitVec.toNat : BitVec 32 → Nat) := fun _ _ =>
    BitVec.eq_of_toNat_eq
  have subset : numbers.toFinset.image BitVec.toNat ⊆ Finset.range n := by
    intro m member
    obtain ⟨v, among, rfl⟩ := Finset.mem_image.mp member
    exact Finset.mem_range.mpr (inside v (List.mem_toFinset.mp among))
  calc
    numbers.length = numbers.toFinset.card := (List.toFinset_card_of_nodup nodup).symm
    _ = (numbers.toFinset.image BitVec.toNat).card :=
      (Finset.card_image_of_injective _ injective).symm
    _ ≤ (Finset.range n).card := Finset.card_le_card subset
    _ = n := Finset.card_range n

theorem WellFormed.length_lt (wf : s.WellFormed) : s.dense.length < 2 ^ 32 :=
  Nat.lt_of_le_of_lt (length_le_of_inside wf.nodup fun _ => wf.inside) wf.fits

/-- A place in the dense array is not the sentinel. -/
theorem WellFormed.place_ne_sentinel (wf : s.WellFormed) {i : Nat} (place : i < s.dense.length) :
    BitVec.ofNat 32 i ≠ kSentinel := by
  intro same
  have few := length_le_of_inside wf.nodup fun _ => wf.inside
  have fits := wf.fits
  have value := congrArg BitVec.toNat same
  rw [BitVec.toNat_ofNat, Nat.mod_eq_of_lt (by omega)] at value
  have sentinel : kSentinel.toNat = 2 ^ 32 - 1 := rfl
  omega

/-- The test reads membership off the entry. -/
theorem WellFormed.contains_eq (wf : s.WellFormed) (v : BitVec 32) :
    s.contains v = decide (v ∈ s.members) := by
  rw [Bool.eq_iff_iff, decide_eq_true_iff, mem_members]
  unfold contains
  constructor
  · intro found
    split at found
    case h_1 => cases found
    case h_2 e entry =>
      obtain ⟨epoch, idx⟩ := of_decide_eq_true found
      exact List.mem_of_getElem? (wf.current v e entry epoch idx)
  · intro member
    obtain ⟨i, found⟩ := List.mem_iff_getElem?.mp member
    have place := (List.getElem?_eq_some_iff.mp found).1
    rw [wf.placed i v found]
    exact decide_eq_true ⟨rfl, wf.place_ne_sentinel place⟩

theorem WellFormed.size_eq (wf : s.WellFormed) : s.size.toNat = s.members.card := by
  rw [size, BitVec.toNat_ofNat, Nat.mod_eq_of_lt wf.length_lt, members,
    List.toFinset_card_of_nodup wf.nodup]

end Members

end SparseSet

end Aegis
