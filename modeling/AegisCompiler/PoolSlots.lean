import AegisCompiler.PoolAllocator
import Mathlib.Data.List.Perm.Basic

/-!
# The slots of a pool

Free and live slots together have no addresses in common and lie in the chunks.  Requests and
releases move slots from one list to the other; a new chunk adds slots apart from the others.
-/

namespace Aegis.PoolAllocator

open RoundingUp (roundUp)

variable {w : World} {op : Operation} {p : PoolAllocator} {bytes align count chunk ptr : BitVec 64}

/-- Slots of one size that are different and have no addresses in common. -/
def Apart (size : Nat) (first second : BitVec 64) : Prop :=
  first ≠ second ∧ ¬(⟨first.toNat, size⟩ : Region).Meets ⟨second.toNat, size⟩

theorem Apart.symm {size : Nat} {first second : BitVec 64} (apart : Apart size first second) :
    Apart size second first :=
  ⟨apart.1.symm, fun meets => apart.2 meets.symm⟩

def chunkSlots (objectSize count chunk : BitVec 64) : List (BitVec 64) :=
  (List.range count.toNat).map fun i => chunk + BitVec.ofNat 64 i * objectSize

section Chunk

variable {objectSize : BitVec 64}

/-- The place of a slot, as long as the bytes of the chunk can be counted. -/
theorem toNat_slot {i : Nat} (inside : i < count.toNat) (countable : Countable objectSize count)
    (fits : (chunkRegion objectSize count chunk).stop < 2 ^ 64) :
    (chunk + BitVec.ofNat 64 i * objectSize).toNat = chunk.toNat + i * objectSize.toNat ∧
      chunk.toNat + i * objectSize.toNat + objectSize.toNat ≤
        (chunkRegion objectSize count chunk).stop := by
  unfold Countable at countable
  have total : (objectSize * count).toNat = objectSize.toNat * count.toNat := by
    rw [BitVec.toNat_mul, Nat.mod_eq_of_lt countable]
  have behind : i * objectSize.toNat + objectSize.toNat ≤ objectSize.toNat * count.toNat := by
    have := Nat.mul_le_mul_right objectSize.toNat (Nat.succ_le_of_lt inside)
    rwa [Nat.succ_mul, Nat.mul_comm count.toNat] at this
  have index : (BitVec.ofNat 64 i).toNat = i := by
    rw [BitVec.toNat_ofNat]
    exact Nat.mod_eq_of_lt (inside.trans count.isLt)
  unfold chunkRegion Region.stop at fits ⊢
  simp only [total] at fits ⊢
  refine ⟨?_, by omega⟩
  rw [BitVec.toNat_add, BitVec.toNat_mul, index, Nat.mod_eq_of_lt (a := i * objectSize.toNat)
    (by omega), Nat.mod_eq_of_lt (by omega)]

theorem inside_chunk (countable : Countable objectSize count)
    (fits : (chunkRegion objectSize count chunk).stop < 2 ^ 64)
    (member : ptr ∈ chunkSlots objectSize count chunk) :
    (⟨ptr.toNat, objectSize.toNat⟩ : Region).Inside (chunkRegion objectSize count chunk) := by
  obtain ⟨i, inside, rfl⟩ := List.mem_map.mp member
  obtain ⟨place, within⟩ := toNat_slot (List.mem_range.mp inside) countable fits
  refine ⟨?_, ?_⟩
  · change chunk.toNat ≤ (chunk + BitVec.ofNat 64 i * objectSize).toNat
    omega
  · change (chunk + BitVec.ofNat 64 i * objectSize).toNat + objectSize.toNat ≤ _
    omega

/-- Slots follow each other; without bytes there is only one. -/
theorem pairwise_chunkSlots (countable : Countable objectSize count)
    (fits : (chunkRegion objectSize count chunk).stop < 2 ^ 64)
    (different : 0 < objectSize.toNat ∨ count.toNat ≤ 1) :
    (chunkSlots objectSize count chunk).Pairwise (Apart objectSize.toNat) := by
  refine List.pairwise_map.mpr (List.pairwise_lt_range.imp_of_mem ?_)
  intro i j member member' before
  have inside := List.mem_range.mp member
  have inside' := List.mem_range.mp member'
  obtain ⟨place, _⟩ := toNat_slot inside countable fits
  obtain ⟨place', _⟩ := toNat_slot inside' countable fits
  have positive : 0 < objectSize.toNat := different.resolve_right (by omega)
  have further : i * objectSize.toNat + objectSize.toNat ≤ j * objectSize.toNat := by
    rw [← Nat.succ_mul]
    exact Nat.mul_le_mul_right _ before
  constructor
  · intro same
    have := congrArg BitVec.toNat same
    omega
  · apply Region.not_meets_of_stop_le
    rw [Region.stop, place, place']
    dsimp only
    omega

end Chunk

structure Partitioned (w : World) : Prop where
  apart : (w.pool.freeList ++ w.live).Pairwise (Apart w.pool.objectSize.toNat)
  inside : ∀ ptr ∈ w.pool.freeList ++ w.live, ∃ region ∈ w.memory, (w.slot ptr).Inside region

theorem Partitioned.nodup (partitioned : Partitioned w) : w.pool.freeList.Nodup :=
  (List.pairwise_append.mp partitioned.apart).1.imp And.left

/-- The lists may be changed as long as they have the same slots together. -/
theorem Partitioned.perm (partitioned : Partitioned w) {w' : World}
    (size : w'.pool.objectSize = w.pool.objectSize) (memory : w.memory ⊆ w'.memory)
    (same : (w'.pool.freeList ++ w'.live).Perm (w.pool.freeList ++ w.live)) :
    Partitioned w' := by
  constructor
  · rw [size]
    exact (same.pairwise_iff Apart.symm).mpr partitioned.apart
  · intro ptr member
    obtain ⟨region, among, inside⟩ := partitioned.inside ptr (same.mem_iff.mp member)
    refine ⟨region, memory among, ?_⟩
    rw [World.slot, size]
    exact inside

/-- The slots of a new chunk join the free ones. -/
theorem Partitioned.grow (partitioned : Partitioned w)
    (countable : Countable w.pool.objectSize count)
    (different : 0 < w.pool.objectSize.toNat ∨
      count.toNat ≤ 1 ∧ w.pool.freeList ++ w.live = [])
    (new : NewChunk w.memory (chunkRegion w.pool.objectSize count chunk)) :
    Partitioned
      { w with
        pool := w.pool.grow count chunk
        memory := w.memory ++ [chunkRegion w.pool.objectSize count chunk] } := by
  have slots := @pairwise_chunkSlots count chunk _ countable new.fits
    (different.imp_right And.left)
  have within (ptr : BitVec 64) (member : ptr ∈ chunkSlots w.pool.objectSize count chunk) :=
    inside_chunk countable new.fits member
  have order : (w.pool.freeList ++ chunkSlots w.pool.objectSize count chunk ++ w.live).Perm
      (chunkSlots w.pool.objectSize count chunk ++ (w.pool.freeList ++ w.live)) := by
    rw [List.append_assoc, ← List.append_assoc (chunkSlots _ _ _)]
    exact (List.perm_append_comm_assoc _ _ _).trans (by rw [List.append_assoc])
  constructor
  · refine (order.pairwise_iff Apart.symm).mpr
      (List.pairwise_append.mpr ⟨slots, partitioned.apart, ?_⟩)
    intro ptr member other member'
    have positive : 0 < w.pool.objectSize.toNat := different.resolve_right fun only =>
      absurd (only.2 ▸ member') List.not_mem_nil
    obtain ⟨region, among, inside⟩ := partitioned.inside other member'
    have separate : ¬(⟨ptr.toNat, w.pool.objectSize.toNat⟩ : Region).Meets (w.slot other) := by
      intro meets
      exact new.apart region among
        ((meets.of_inside (within ptr member)).symm.of_inside inside)
    refine ⟨?_, separate⟩
    rintro rfl
    exact separate (Region.meets_self positive)
  · intro ptr member
    rcases List.mem_append.mp (order.mem_iff.mp member) with cut | old
    · exact ⟨_, List.mem_append_right _ (List.mem_singleton.mpr rfl), within ptr cut⟩
    · obtain ⟨region, among, inside⟩ := partitioned.inside ptr old
      exact ⟨region, List.mem_append_left _ among, inside⟩

/-- The last free slot becomes a live one. -/
theorem Partitioned.take (partitioned : Partitioned w) {free : List (BitVec 64)}
    (last : w.pool.freeList = free ++ [ptr]) :
    Partitioned { w with pool := { w.pool with freeList := free }, live := w.live ++ [ptr] } := by
  refine partitioned.perm rfl (List.Subset.refl _) ?_
  rw [last]
  change (free ++ (w.live ++ [ptr])).Perm (free ++ [ptr] ++ w.live)
  rw [List.append_assoc]
  exact List.perm_append_comm.append_left free

/-- A live slot becomes the last free one. -/
theorem Partitioned.release (partitioned : Partitioned w) (member : ptr ∈ w.live) :
    Partitioned
      { w with
        pool := { w.pool with freeList := w.pool.freeList ++ [ptr] }
        live := w.live.erase ptr } := by
  refine partitioned.perm rfl (List.Subset.refl _) ?_
  change (w.pool.freeList ++ [ptr] ++ w.live.erase ptr).Perm (w.pool.freeList ++ w.live)
  rw [List.append_assoc]
  exact (List.perm_cons_erase member).symm.append_left w.pool.freeList

theorem pop_concat {free : List (BitVec 64)} (last : p.freeList = free ++ [ptr]) :
    p.pop = (some ptr, { p with freeList := free }) := by
  rw [pop, last, List.getLast?_concat, List.dropLast_concat]

/-- What a request does: nothing, taking the last free slot, or taking the last slot of a new
chunk. -/
theorem allocate_cases (w : World) (bytes align : BitVec 64) (chunk : Option (BitVec 64)) :
    (w.pool.allocate bytes align chunk = (none, w.pool) ∧
      (w.pool.objectSize < bytes ∨ w.pool.freeList = [] ∧ chunk = none)) ∨
    (∃ free ptr, bytes ≤ w.pool.objectSize ∧ w.pool.freeList = free ++ [ptr] ∧
      w.pool.allocate bytes align chunk = (some ptr, { w.pool with freeList := free })) ∨
    (∃ address free ptr, bytes ≤ w.pool.objectSize ∧ w.pool.freeList = [] ∧
      chunk = some address ∧
      chunkSlots w.pool.objectSize kPoolDefaultGrowSlots address = free ++ [ptr] ∧
      w.pool.allocate bytes align chunk =
        (some ptr, { w.pool.grow kPoolDefaultGrowSlots address with freeList := free })) := by
  unfold allocate
  by_cases large : w.pool.objectSize < bytes
  · exact Or.inl ⟨if_pos large, Or.inl large⟩
  rw [if_neg large]
  have small := BitVec.not_lt.mp large
  by_cases empty : w.pool.freeList = []
  · rw [if_pos empty]
    cases chunk with
    | none => exact Or.inl ⟨rfl, Or.inr ⟨empty, rfl⟩⟩
    | some address =>
        obtain ⟨free, ptr, slots⟩ :=
          List.eq_nil_or_concat (chunkSlots w.pool.objectSize kPoolDefaultGrowSlots address)
            |>.resolve_left (by simp [chunkSlots, kPoolDefaultGrowSlots])
        have filled : (w.pool.grow kPoolDefaultGrowSlots address).freeList = free ++ [ptr] := by
          change w.pool.freeList ++ chunkSlots _ _ _ = _
          rw [empty, slots, List.nil_append, List.concat_eq_append]
        exact Or.inr (Or.inr ⟨address, free, ptr, small, empty, rfl,
          slots.trans (List.concat_eq_append ..), pop_concat filled⟩)
  · rw [if_neg empty]
    obtain ⟨free, ptr, last⟩ := (List.eq_nil_or_concat w.pool.freeList).resolve_left empty
    rw [List.concat_eq_append] at last
    exact Or.inr (Or.inl ⟨free, ptr, small, last, pop_concat last⟩)

/-- A slot that is taken from the free ones is of no other request, and has room. -/
theorem Partitioned.served (partitioned : Partitioned w) {free : List (BitVec 64)}
    (last : w.pool.freeList = free ++ [ptr]) (small : bytes ≤ w.pool.objectSize) :
    ((∀ other ∈ w.live, ptr ≠ other ∧ ¬(w.slot ptr).Meets (w.slot other)) ∧
      ∃ region ∈ w.memory, (⟨ptr.toNat, bytes.toNat⟩ : Region).Inside region) := by
  have member : ptr ∈ w.pool.freeList := by
    rw [last]
    exact List.mem_append_right _ (List.mem_singleton.mpr rfl)
  constructor
  · intro other live
    exact (List.pairwise_append.mp partitioned.apart).2.2 ptr member other live
  · obtain ⟨region, among, inside⟩ := partitioned.inside ptr (List.mem_append_left _ member)
    refine ⟨region, among, inside.1, ?_⟩
    have within := inside.2
    rw [BitVec.le_def] at small
    unfold World.slot Region.stop at within
    unfold Region.stop
    dsimp only at within ⊢
    omega

/-- What slots are aligned to: whatever divides the alignment of chunks and the size of
slots. -/
def Natural (w : World) : Prop :=
  ∀ unit, unit ∣ kChunkAlignment → unit ∣ w.pool.objectSize.toNat →
    ∀ ptr ∈ w.pool.freeList ++ w.live, unit ∣ ptr.toNat

theorem natural_chunkSlots {objectSize count : BitVec 64} {memory : List Region} {unit : Nat}
    (countable : Countable objectSize count)
    (new : NewChunk memory (chunkRegion objectSize count chunk))
    (chunks : unit ∣ kChunkAlignment) (slots : unit ∣ objectSize.toNat)
    (member : ptr ∈ chunkSlots objectSize count chunk) : unit ∣ ptr.toNat := by
  obtain ⟨i, inside, rfl⟩ := List.mem_map.mp member
  rw [(toNat_slot (List.mem_range.mp inside) countable new.fits).1]
  exact Nat.dvd_add (Nat.dvd_trans chunks new.aligned) (Nat.dvd_trans slots (Nat.dvd_mul_left _ _))

/-- The slots are apart and aligned. -/
structure Kept (w : World) : Prop extends Partitioned w where
  natural : Natural w

/-- A release is sound and keeps the slots. -/
theorem Kept.deallocate (kept : Kept w) (legal : Legal w (.deallocate ptr)) :
    SoundStep w (.deallocate ptr) ∧ Kept (step w (.deallocate ptr)) := by
  by_cases null : ptr = 0
  · have same : step w (.deallocate ptr) = w := by
      rw [step, PoolAllocator.deallocate, if_pos null, if_pos null]
    rw [same, SoundStep, PoolAllocator.deallocate, if_pos null]
    exact ⟨⟨fun free member => member, fun other => absurd null other⟩, kept⟩
  · have live : ptr ∈ w.live := legal.resolve_left null
    have after : step w (.deallocate ptr) =
        { w with
          pool := { w.pool with freeList := w.pool.freeList ++ [ptr] }
          live := w.live.erase ptr } := by
      rw [step, PoolAllocator.deallocate, if_neg null, if_neg null]
    constructor
    · rw [SoundStep, PoolAllocator.deallocate, if_neg null]
      exact ⟨fun free member => List.mem_append_left _ member,
        fun _ => List.mem_append_right _ (List.mem_singleton.mpr rfl)⟩
    · rw [after]
      refine ⟨kept.release live, fun unit chunks slots other member => ?_⟩
      have old := kept.natural unit chunks slots
      rcases List.mem_append.mp member with free | stays
      · rcases List.mem_append.mp free with before | new
        · exact old other (List.mem_append_left _ before)
        · obtain rfl := List.mem_singleton.mp new
          exact old other (List.mem_append_right _ live)
      · exact old other (List.mem_append_right _ (List.mem_of_mem_erase stays))

/-- Taking the last free slot keeps the slots. -/
theorem Kept.take (kept : Kept w) {free : List (BitVec 64)}
    (last : w.pool.freeList = free ++ [ptr]) :
    Kept { w with pool := { w.pool with freeList := free }, live := w.live ++ [ptr] } := by
  refine ⟨kept.toPartitioned.take last, fun unit chunks slots other member => ?_⟩
  apply kept.natural unit chunks slots other
  rw [last]
  simp only [List.mem_append, List.mem_singleton] at member ⊢
  tauto

/-- A new chunk of slots with bytes keeps the slots. -/
theorem Kept.grow (kept : Kept w) (countable : Countable w.pool.objectSize count)
    (different : 0 < w.pool.objectSize.toNat ∨
      count.toNat ≤ 1 ∧ w.pool.freeList ++ w.live = [])
    (new : NewChunk w.memory (chunkRegion w.pool.objectSize count chunk)) :
    Kept
      { w with
        pool := w.pool.grow count chunk
        memory := w.memory ++ [chunkRegion w.pool.objectSize count chunk] } := by
  refine ⟨kept.toPartitioned.grow countable different new,
    fun unit chunks slots other member => ?_⟩
  have old := kept.natural unit chunks slots
  rcases List.mem_append.mp member with free | live
  · rcases List.mem_append.mp free with before | cut
    · exact old other (List.mem_append_left _ before)
    · exact natural_chunkSlots countable new chunks slots cut
  · exact old other (List.mem_append_right _ live)

/-- A request that suits is sound and keeps the slots. -/
theorem Kept.allocate (kept : Kept w) {chunk : Option (BitVec 64)}
    (legal : Legal w (.allocate bytes align chunk))
    (suits : Suits w (.allocate bytes align chunk)) :
    SoundStep w (.allocate bytes align chunk) ∧ Kept (step w (.allocate bytes align chunk)) := by
  rcases allocate_cases w bytes align chunk with
    ⟨result, cause⟩ | ⟨free, ptr, small, last, result⟩ |
    ⟨address, free, ptr, small, empty, rfl, slots, result⟩
  · -- nothing is returned
    have stays : w.pool.Grows bytes → chunk = none := by
      rintro ⟨small, empty⟩
      rcases cause with large | ⟨_, failed⟩
      · exact absurd small (BitVec.not_le.mpr large)
      · exact failed
    have after : step w (.allocate bytes align chunk) = w := by
      rw [step, result]
      by_cases grows : w.pool.Grows bytes
      · rw [if_pos grows, stays grows]
        simp
      · rw [if_neg grows]
        simp
    rw [after, SoundStep, result]
    refine ⟨⟨nofun, fun small filled => ?_, fun free member => Or.inl member⟩, kept⟩
    rcases cause with large | ⟨empty, _⟩
    · exact absurd small (BitVec.not_le.mpr large)
    · exact absurd empty filled
  · -- the last free slot is returned
    obtain ⟨⟨chunks, divides⟩, -⟩ := suits small
    have filled : w.pool.freeList ≠ [] := by
      rw [last]
      exact List.append_ne_nil_of_right_ne_nil _ (List.cons_ne_nil _ _)
    have member : ptr ∈ w.pool.freeList := by
      rw [last]
      exact List.mem_append_right _ (List.mem_singleton.mpr rfl)
    have after : step w (.allocate bytes align chunk) =
        { w with pool := { w.pool with freeList := free }, live := w.live ++ [ptr] } := by
      rw [step, result, if_neg fun grows => filled grows.2]
      rfl
    constructor
    · rw [SoundStep, result]
      refine ⟨fun other same => ?_, fun _ _ => ⟨ptr, member, rfl⟩, fun other among => ?_⟩
      · obtain rfl := Option.some.inj same
        obtain ⟨unused, room⟩ := kept.toPartitioned.served last small
        exact ⟨unused, after ▸ room,
          kept.natural _ chunks divides ptr (List.mem_append_left _ member)⟩
      · rw [last] at among
        rcases List.mem_append.mp among with stays | only
        · exact Or.inl stays
        · exact Or.inr (congrArg some (List.mem_singleton.mp only).symm)
    · rw [after]
      exact kept.take last
  · -- the pool grows
    obtain ⟨⟨chunks, divides⟩, growth⟩ := suits small
    obtain ⟨positive, countable⟩ := growth empty (Option.some_ne_none address)
    have grows : w.pool.Grows bytes := ⟨small, empty⟩
    have after : step w (.allocate bytes align (some address)) =
        { pool := { w.pool.grow kPoolDefaultGrowSlots address with freeList := free }
          memory := w.memory ++
            [chunkRegion w.pool.objectSize kPoolDefaultGrowSlots address]
          live := w.live ++ [ptr] } := by
      rw [step, result, if_pos grows]
      rfl
    have grown := kept.grow countable (Or.inl positive) (legal.2 grows address rfl)
    have last : (w.pool.grow kPoolDefaultGrowSlots address).freeList = free ++ [ptr] := by
      change w.pool.freeList ++ chunkSlots _ _ _ = _
      rw [empty, slots, List.nil_append]
    constructor
    · rw [SoundStep, result]
      refine ⟨fun other same => ?_, fun _ filled => absurd empty filled, ?_⟩
      · obtain rfl := Option.some.inj same
        obtain ⟨unused, room⟩ := grown.toPartitioned.served last small
        refine ⟨unused, after ▸ room, grown.natural _ chunks divides ptr ?_⟩
        apply List.mem_append_left
        rw [last]
        exact List.mem_append_right _ (List.mem_singleton.mpr rfl)
      · rw [empty]
        exact fun other among => absurd among List.not_mem_nil
    · rw [after]
      exact grown.take last

/-- A legal step that suits is sound and keeps the slots. -/
theorem Kept.step (kept : Kept w) (legal : Legal w op) (suits : Suits w op) :
    SoundStep w op ∧ Kept (step w op) := by
  cases op with
  | deallocate ptr => exact kept.deallocate legal
  | allocate bytes align chunk => exact kept.allocate legal suits

theorem Kept.sound (kept : Kept w) (ops : List Operation) (suit : AllSuit w ops) :
    Sound w ops := by
  induction ops generalizing w with
  | nil => exact kept.nodup
  | cons op ops ih =>
      refine ⟨kept.nodup, fun legal => ?_⟩
      obtain ⟨suits, rest⟩ := suit legal
      obtain ⟨sound, after⟩ := kept.step legal suits
      exact ⟨sound, ih after rest⟩

section Create

variable {objectSize initialCapacity : BitVec 64}

theorem kept_create (sized : Sized objectSize initialCapacity)
    (new : 0#64 < initialCapacity →
      NewChunk [] (chunkRegion (roundedSize objectSize) initialCapacity chunk)) :
    Kept (World.create objectSize initialCapacity chunk) := by
  have nothing : Kept { pool := { objectSize := roundedSize objectSize } } :=
    ⟨⟨List.Pairwise.nil, fun ptr member => absurd member List.not_mem_nil⟩,
      fun _ _ _ ptr member => absurd member List.not_mem_nil⟩
  by_cases slots : 0#64 < initialCapacity
  · obtain ⟨countable, different⟩ := sized slots
    rw [World.create, create, if_pos slots, if_pos slots]
    exact nothing.grow countable (different.imp_right fun few => ⟨few, rfl⟩) (new slots)
  · rw [World.create, create, if_neg slots, if_neg slots]
    exact nothing

/-- A pool is sound in every run whose requests suit: alignments divide those of chunks and
the size of slots, and the bytes of every chunk that is asked for can be counted. -/
theorem sound_create (objectSize initialCapacity chunk : BitVec 64) (ops : List Operation)
    (sized : Sized objectSize initialCapacity)
    (new : 0#64 < initialCapacity →
      NewChunk [] (chunkRegion (roundedSize objectSize) initialCapacity chunk))
    (suit : AllSuit (World.create objectSize initialCapacity chunk) ops) :
    Sound (World.create objectSize initialCapacity chunk) ops :=
  (kept_create sized new).sound ops suit

/-- A pool of two slots is used up, grows, and takes a slot back. -/
theorem sound_create_eight :
    Sound (World.create 8 2 4096) [.allocate 8 8 none, .allocate 5 4 none,
      .allocate 8 8 (some 8192), .deallocate 4096, .allocate 16 64 none] := by
  refine sound_create 8 2 4096 _ (fun _ => ⟨by unfold Countable; decide, by decide⟩)
    (fun _ => ⟨by decide, by decide, by decide, fun _ member => absurd member List.not_mem_nil⟩)
    ?_
  refine fun _ => ⟨fun _ => ⟨by decide, fun empty => absurd empty (by decide)⟩, ?_⟩
  refine fun _ => ⟨fun _ => ⟨by decide, fun empty => absurd empty (by decide)⟩, ?_⟩
  refine fun _ => ⟨fun _ => ⟨by decide, fun _ _ => ⟨by decide, by unfold Countable; decide⟩⟩, ?_⟩
  refine fun _ => ⟨trivial, ?_⟩
  exact fun _ => ⟨fun small => absurd small (by decide), trivial⟩

/-- The second of two slots of eight bytes is not aligned to sixteen. -/
theorem unsound_alignment : ¬∀ objectSize initialCapacity chunk ops,
    (0#64 < initialCapacity →
      NewChunk [] (chunkRegion (roundedSize objectSize) initialCapacity chunk)) →
    Sound (World.create objectSize initialCapacity chunk) ops := by
  intro sound
  have run := sound 8 2 4096 [.allocate 8 16 none] fun _ =>
    ⟨by decide, by decide, by decide, fun _ member => absurd member List.not_mem_nil⟩
  have legal : Legal (World.create 8 2 4096) (.allocate 8 16 none) :=
    ⟨⟨4, by decide, by decide⟩, fun _ _ => nofun⟩
  have served := (run.2 legal).1.1 4104 (by decide)
  exact absurd served.aligned (by decide)

end Create

end Aegis.PoolAllocator
