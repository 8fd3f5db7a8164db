import AegisCompiler.AddressRegions
import AegisCompiler.RoundingUp

/-!
# The bump allocator

Blocks are cut off from one region by moving an offset.  The sums for the new offset are taken
modulo 2^64: a request that is too large for them can seem to fit.
-/

namespace Aegis

open RoundingUp (roundUp)

/-- The memory comes from the system: there is an address behind it. -/
structure BumpAllocator where
  base : BitVec 64
  capacity : BitVec 64
  offset : BitVec 64 := 0
  fits : base.toNat + capacity.toNat < 2 ^ 64

namespace BumpAllocator

def allocate (a : BumpAllocator) (bytes align : BitVec 64) : Option (BitVec 64) × BumpAllocator :=
  let current := a.offset
  let aligned := (current + align - 1#64) &&& ~~~(align - 1#64)
  let newOffset := aligned + bytes
  if a.capacity < newOffset then (none, a)
  else (some (a.base + aligned), { a with offset := newOffset })

def reset (a : BumpAllocator) : BumpAllocator := { a with offset := 0 }

inductive Operation where
  | allocate (bytes align : BitVec 64)
  | reset
  deriving DecidableEq, Repr

/-- Alignments are powers of two. -/
def Legal : Operation → Prop
  | .allocate _ align => ∃ k < 64, align.toNat = 2 ^ k
  | .reset => True

/-- The allocator, and the blocks that it has returned since the last reset. -/
structure World where
  allocator : BumpAllocator
  blocks : List Region := []

def step (w : World) : Operation → World
  | .allocate bytes align =>
      { allocator := (w.allocator.allocate bytes align).2
        blocks := w.blocks ++ ((w.allocator.allocate bytes align).1.map fun p =>
          (⟨p.toNat, bytes.toNat⟩ : Region)).toList }
  | .reset => { allocator := w.allocator.reset, blocks := [] }

/-- All the memory of an allocator. -/
def region (a : BumpAllocator) : Region := ⟨a.base.toNat, a.capacity.toNat⟩

/-- The blocks lie in the memory and have no addresses in common. -/
structure Separate (w : World) : Prop where
  inside : ∀ block ∈ w.blocks, block.Inside w.allocator.region
  apart : w.blocks.Pairwise fun block block' => ¬block.Meets block'

/-- In every state the blocks are separate, and only a reset decreases the offset. -/
def Sound (w : World) : List Operation → Prop
  | [] => Separate w
  | op :: ops => Separate w ∧ (Legal op →
      (op ≠ .reset → w.allocator.offset ≤ (step w op).allocator.offset) ∧ Sound (step w op) ops)

/-- The sums stay below 2^64, or what is left of them is more than the capacity. -/
def Fits (a : BumpAllocator) : Operation → Prop
  | .allocate bytes align =>
      if a.offset.toNat + (align.toNat - 1) < 2 ^ 64 then
        roundUp a.offset.toNat align.toNat + bytes.toNat < 2 ^ 64 ∨
          a.capacity.toNat + 2 ^ 64 < roundUp a.offset.toNat align.toNat + bytes.toNat
      else a.capacity.toNat < bytes.toNat
  | .reset => True

def AllFit (w : World) : List Operation → Prop
  | [] => True
  | op :: ops => Legal op → Fits w.allocator op ∧ AllFit (step w op) ops

variable {a : BumpAllocator} {w : World} {op : Operation} {bytes align : BitVec 64}

/-- What a request returns, in terms of unbounded numbers. -/
theorem allocate_eq {k : Nat} (small : k < 64) (power : align.toNat = 2 ^ k) :
    ∃ aligned : BitVec 64, aligned.toNat =
        (if a.offset.toNat + (align.toNat - 1) < 2 ^ 64 then
          roundUp a.offset.toNat align.toNat else 0) ∧
      a.allocate bytes align =
        if a.capacity.toNat < (aligned.toNat + bytes.toNat) % 2 ^ 64 then (none, a)
        else (some (a.base + aligned), { a with offset := aligned + bytes }) := by
  refine ⟨(a.offset + align - 1#64) &&& ~~~(align - 1#64), ?_, ?_⟩
  · rw [RoundingUp.toNat_add_and_not small power, power]
  · rw [← BitVec.toNat_add]
    rfl

/-- The blocks end at the offset, which is moved by a block that is not empty. -/
structure Filled (w : World) : Prop where
  separate : Separate w
  within : w.allocator.offset ≤ w.allocator.capacity
  below : ∀ block ∈ w.blocks,
    block.stop ≤ w.allocator.base.toNat + w.allocator.offset.toNat
  moved : w.allocator.offset ≠ 0 → ∃ block ∈ w.blocks, 0 < block.size

theorem filled_reset (a : BumpAllocator) : Filled { allocator := a.reset } := by
  refine ⟨⟨?_, List.Pairwise.nil⟩, Nat.zero_le _, ?_, fun moved => absurd rfl moved⟩
  · exact fun block member => absurd member List.not_mem_nil
  · exact fun block member => absurd member List.not_mem_nil

/-- A request whose sums do not wrap around is cut off behind the other blocks. -/
theorem Filled.cut (filled : Filled w) {aligned bytes : BitVec 64}
    (behind : w.allocator.offset.toNat ≤ aligned.toNat)
    (start : w.allocator.offset = 0 → aligned = 0)
    (enough : aligned.toNat + bytes.toNat ≤ w.allocator.capacity.toNat) :
    Filled
      { allocator := { w.allocator with offset := aligned + bytes }
        blocks := w.blocks ++ [⟨(w.allocator.base + aligned).toNat, bytes.toNat⟩] } := by
  have fits := w.allocator.fits
  have address : (w.allocator.base + aligned).toNat = w.allocator.base.toNat + aligned.toNat := by
    rw [BitVec.toNat_add, Nat.mod_eq_of_lt (by omega)]
  have moved : (aligned + bytes).toNat = aligned.toNat + bytes.toNat := by
    rw [BitVec.toNat_add, Nat.mod_eq_of_lt (by omega)]
  constructor
  · constructor
    · intro block member
      rcases List.mem_append.mp member with old | new
      · exact filled.separate.inside block old
      · obtain rfl := List.mem_singleton.mp new
        rw [address]
        unfold Region.Inside Region.stop region
        simp only
        omega
    · refine List.pairwise_append.mpr
        ⟨filled.separate.apart, List.pairwise_singleton _ _, fun block old block' new => ?_⟩
      obtain rfl := List.mem_singleton.mp new
      have before := filled.below block old
      apply Region.not_meets_of_stop_le
      rw [address]
      dsimp only
      omega
  · rw [BitVec.le_def, moved]
    exact enough
  · intro block member
    dsimp only
    rw [moved]
    rcases List.mem_append.mp member with old | new
    · have before := filled.below block old
      omega
    · obtain rfl := List.mem_singleton.mp new
      rw [address, Region.stop]
      dsimp only
      omega
  · intro nonzero
    by_cases empty : bytes.toNat = 0
    · have before : w.allocator.offset ≠ 0 := by
        intro initial
        apply nonzero
        apply BitVec.eq_of_toNat_eq
        rw [moved, empty, start initial]
        rfl
      obtain ⟨block, member, positive⟩ := filled.moved before
      exact ⟨block, List.mem_append_left _ member, positive⟩
    · exact ⟨_, List.mem_append_right _ (List.mem_singleton.mpr rfl), Nat.pos_of_ne_zero empty⟩

theorem roundUp_eq_zero {unit : Nat} (positive : 0 < unit) : roundUp 0 unit = 0 := by
  rw [roundUp, Nat.zero_add, Nat.div_eq_of_lt (by omega), Nat.zero_mul]

/-- A step keeps the property exactly if its sums do not wrap around into the memory. -/
theorem step_spec (filled : Filled w) (legal : Legal op) :
    (Separate (step w op) ∧ (op ≠ .reset → w.allocator.offset ≤ (step w op).allocator.offset) ↔
      Fits w.allocator op) ∧ (Fits w.allocator op → Filled (step w op)) := by
  cases op with
  | reset =>
      have empty := filled_reset w.allocator
      exact ⟨iff_of_true ⟨empty.separate, fun other => absurd rfl other⟩ trivial, fun _ => empty⟩
  | allocate bytes align =>
      obtain ⟨k, small, power⟩ := legal
      obtain ⟨aligned, value, result⟩ := @allocate_eq w.allocator bytes align k small power
      have unit : 0 < align.toNat := by
        rw [power]
        exact Nat.two_pow_pos k
      have alignBound : align.toNat ≤ 2 ^ 63 := by
        rw [power]
        exact Nat.pow_le_pow_right (by decide) (by omega)
      have offsetBound := w.allocator.offset.isLt
      have bytesBound := bytes.isLt
      have alignedBound := aligned.isLt
      have fits := w.allocator.fits
      by_cases null : w.allocator.capacity.toNat < (aligned.toNat + bytes.toNat) % 2 ^ 64
      · -- no block is returned
        have same : step w (.allocate bytes align) = w := by
          rw [step, result, if_pos null]
          simp
        have allowed : Fits w.allocator (.allocate bytes align) := by
          rw [Fits]
          split at value
          case isTrue room =>
            rw [if_pos room]
            omega
          case isFalse room =>
            rw [if_neg room]
            omega
        rw [same]
        exact ⟨iff_of_true ⟨filled.separate, fun _ => Nat.le_refl _⟩ allowed, fun _ => filled⟩
      have after : step w (.allocate bytes align) =
          { allocator := { w.allocator with offset := aligned + bytes }
            blocks := w.blocks ++ [⟨(w.allocator.base + aligned).toNat, bytes.toNat⟩] } := by
        rw [step, result, if_neg null]
        rfl
      have newOffset : (aligned + bytes).toNat = (aligned.toNat + bytes.toNat) % 2 ^ 64 :=
        BitVec.toNat_add aligned bytes
      rw [after]
      by_cases room : w.allocator.offset.toNat + (align.toNat - 1) < 2 ^ 64
      · rw [if_pos room] at value
        have behind : w.allocator.offset.toNat ≤ aligned.toNat := by
          rw [value]
          exact RoundingUp.le_roundUp _ unit
        by_cases sum : aligned.toNat + bytes.toNat < 2 ^ 64
        · -- both sums are as over the integers
          have allowed : Fits w.allocator (.allocate bytes align) := by
            rw [Fits, if_pos room, ← value]
            exact Or.inl sum
          have cut := filled.cut behind (fun initial => by
            apply BitVec.eq_of_toNat_eq
            rw [value, initial]
            exact roundUp_eq_zero unit) (by rwa [Nat.mod_eq_of_lt sum, Nat.not_lt] at null)
          refine ⟨iff_of_true ⟨cut.separate, fun _ => ?_⟩ allowed, fun _ => cut⟩
          rw [BitVec.le_def, newOffset, Nat.mod_eq_of_lt sum]
          exact behind.trans (Nat.le_add_right _ _)
        · -- the block is longer than what follows in the address space
          have forbidden : ¬Fits w.allocator (.allocate bytes align) := by
            rw [Fits, if_pos room, ← value]
            omega
          refine ⟨iff_of_false ?_ forbidden, fun allowed => absurd allowed forbidden⟩
          rintro ⟨separate, _⟩
          have inside := separate.inside _
            (List.mem_append_right _ (List.mem_singleton.mpr rfl))
          unfold Region.Inside Region.stop region at inside
          rw [BitVec.toNat_add] at inside
          simp only at inside
          omega
      · -- the offset wraps around to the beginning, where a block is already
        rw [if_neg room] at value
        have forbidden : ¬Fits w.allocator (.allocate bytes align) := by
          rw [Fits, if_neg room]
          omega
        refine ⟨iff_of_false ?_ forbidden, fun allowed => absurd allowed forbidden⟩
        rintro ⟨separate, monotone⟩
        have further := BitVec.le_def.mp (monotone (by simp))
        rw [newOffset] at further
        obtain ⟨block, member, positive⟩ := filled.moved fun initial => by
          have zero : w.allocator.offset.toNat = 0 := congrArg BitVec.toNat initial
          omega
        have within := filled.separate.inside block member
        have below := filled.below block member
        refine (List.pairwise_append.mp separate.apart).2.2 block member _
          (List.mem_singleton.mpr rfl) ?_
        unfold Region.Inside Region.stop region at within
        unfold Region.stop at below
        unfold Region.Meets Region.stop
        rw [BitVec.toNat_add]
        simp only at within ⊢
        omega

theorem Sound.separate {ops : List Operation} (sound : Sound w ops) : Separate w := by
  cases ops with
  | nil => exact sound
  | cons op ops => exact sound.1

theorem sound_iff (filled : Filled w) (ops : List Operation) : Sound w ops ↔ AllFit w ops := by
  induction ops generalizing w with
  | nil => exact iff_of_true filled.separate trivial
  | cons op ops ih =>
      constructor
      · rintro ⟨_, step⟩ legal
        obtain ⟨same, next⟩ := step_spec filled legal
        obtain ⟨monotone, rest⟩ := step legal
        have allowed := same.mp ⟨rest.separate, monotone⟩
        exact ⟨allowed, (ih (next allowed)).mp rest⟩
      · intro all
        refine ⟨filled.separate, fun legal => ?_⟩
        obtain ⟨same, next⟩ := step_spec filled legal
        obtain ⟨allowed, rest⟩ := all legal
        exact ⟨(same.mpr allowed).2, (ih (next allowed)).mpr rest⟩

/-- For a new allocator, the blocks of all states are separate exactly if no request wraps
around into the memory. -/
theorem sound_reset_iff (a : BumpAllocator) (ops : List Operation) :
    Sound { allocator := a.reset } ops ↔ AllFit { allocator := a.reset } ops :=
  sound_iff (filled_reset a) ops

/-- The second block would need 2^64 - 1 bytes: the offset moves back by one. -/
theorem unsound_wrap : ¬∀ a ops, Sound { allocator := reset a } ops := by
  intro sound
  let a : BumpAllocator := { base := 64, capacity := 100, fits := by decide }
  have all := (sound_iff (filled_reset a) [.allocate 16 1, .allocate (-1) 1]).mp (sound _ _)
  have one : Legal (.allocate 16 1) := ⟨0, by decide, by decide⟩
  have huge : Legal (.allocate (-1) 1) := ⟨0, by decide, by decide⟩
  have allowed := ((all one).2 huge).1
  exact absurd allowed (by unfold Fits; decide)

end BumpAllocator

end Aegis
