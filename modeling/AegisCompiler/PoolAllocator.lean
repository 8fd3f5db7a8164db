import AegisCompiler.AddressRegions
import AegisCompiler.RoundingUp

/-!
# The pool allocator

Slots of one size are cut from chunks and kept in a list of free slots.  The size is rounded up
to a multiple of eight; the alignment of a request is not looked at.
-/

namespace Aegis

structure PoolAllocator where
  objectSize : BitVec 64
  freeList : List (BitVec 64) := []
  chunks : List (BitVec 64) := []
  deriving DecidableEq, Repr

namespace PoolAllocator

def kPoolDefaultGrowSlots : BitVec 64 := 64

def kChunkAlignment : Nat := 64

def roundedSize (objectSize : BitVec 64) : BitVec 64 := (objectSize + 7#64) &&& ~~~7#64

/-- The slots of a chunk are put at the end of the free list. -/
def grow (p : PoolAllocator) (count chunk : BitVec 64) : PoolAllocator :=
  { p with
    chunks := p.chunks ++ [chunk]
    freeList := p.freeList ++ (List.range count.toNat).map fun i =>
      chunk + BitVec.ofNat 64 i * p.objectSize }

/-- The constructor; the last argument is the answer of `operator new[]` if it is called. -/
def create (objectSize initialCapacity chunk : BitVec 64) : PoolAllocator :=
  let p : PoolAllocator := { objectSize := roundedSize objectSize }
  if 0#64 < initialCapacity then p.grow initialCapacity chunk else p

/-- The last free slot is taken. -/
def pop (p : PoolAllocator) : Option (BitVec 64) × PoolAllocator :=
  match p.freeList.getLast? with
  | none => (none, p)
  | some slot => (some slot, { p with freeList := p.freeList.dropLast })

/-- A request; `operator new[]` can fail with an exception when a chunk is needed. -/
def allocate (p : PoolAllocator) (bytes _align : BitVec 64) (chunk : Option (BitVec 64)) :
    Option (BitVec 64) × PoolAllocator :=
  if p.objectSize < bytes then (none, p)
  else if p.freeList = [] then
    match chunk with
    | none => (none, p)
    | some chunk => (p.grow kPoolDefaultGrowSlots chunk).pop
  else p.pop

def deallocate (p : PoolAllocator) (ptr : BitVec 64) : PoolAllocator :=
  if ptr = 0 then p else { p with freeList := p.freeList ++ [ptr] }

inductive Operation where
  | allocate (bytes align : BitVec 64) (chunk : Option (BitVec 64))
  | deallocate (ptr : BitVec 64)
  deriving DecidableEq, Repr

/-- The pool, the memory of its chunks, and the slots that are in use. -/
structure World where
  pool : PoolAllocator
  memory : List Region := []
  live : List (BitVec 64) := []
  deriving DecidableEq, Repr

/-- A chunk for a number of slots, with the bytes that are requested for it. -/
def chunkRegion (objectSize count chunk : BitVec 64) : Region :=
  ⟨chunk.toNat, (objectSize * count).toNat⟩

/-- A request grows the pool. -/
def Grows (p : PoolAllocator) (bytes : BitVec 64) : Prop :=
  bytes ≤ p.objectSize ∧ p.freeList = []

instance (p : PoolAllocator) (bytes : BitVec 64) : Decidable (p.Grows bytes) :=
  inferInstanceAs (Decidable (_ ∧ _))

def World.create (objectSize initialCapacity chunk : BitVec 64) : World where
  pool := PoolAllocator.create objectSize initialCapacity chunk
  memory := if 0#64 < initialCapacity then
    [chunkRegion (roundedSize objectSize) initialCapacity chunk] else []

def step (w : World) : Operation → World
  | .allocate bytes align chunk =>
      { pool := (w.pool.allocate bytes align chunk).2
        memory := if w.pool.Grows bytes then
          w.memory ++ (chunk.map (chunkRegion w.pool.objectSize kPoolDefaultGrowSlots)).toList
          else w.memory
        live := w.live ++ (w.pool.allocate bytes align chunk).1.toList }
  | .deallocate ptr =>
      { w with
        pool := w.pool.deallocate ptr
        live := if ptr = 0 then w.live else w.live.erase ptr }

/-- New memory is aligned, does not wrap around and is apart from the other chunks. -/
structure NewChunk (memory : List Region) (region : Region) : Prop where
  positive : 0 < region.start
  aligned : kChunkAlignment ∣ region.start
  fits : region.stop < 2 ^ 64
  apart : ∀ other ∈ memory, ¬other.Meets region

/-- Alignments are powers of two, chunks are new, and live slots only are given back. -/
def Legal (w : World) : Operation → Prop
  | .allocate bytes align chunk => (∃ k < 64, align.toNat = 2 ^ k) ∧
      (w.pool.Grows bytes → ∀ address ∈ chunk,
        NewChunk w.memory (chunkRegion w.pool.objectSize kPoolDefaultGrowSlots address))
  | .deallocate ptr => ptr = 0 ∨ ptr ∈ w.live

def World.slot (w : World) (ptr : BitVec 64) : Region := ⟨ptr.toNat, w.pool.objectSize.toNat⟩

/-- The result of a request is a slot of its own, with room and aligned. -/
structure Served (w : World) (bytes align : BitVec 64) (chunk : Option (BitVec 64))
    (ptr : BitVec 64) : Prop where
  unused : ∀ other ∈ w.live, ptr ≠ other ∧ ¬(w.slot ptr).Meets (w.slot other)
  room : ∃ region ∈ (step w (.allocate bytes align chunk)).memory,
    (⟨ptr.toNat, bytes.toNat⟩ : Region).Inside region
  aligned : align.toNat ∣ ptr.toNat

/-- Results are served; free slots are used before the pool grows and stay until they are
handed out; freed slots are among them. -/
def SoundStep (w : World) : Operation → Prop
  | .allocate bytes align chunk =>
      (∀ ptr ∈ (w.pool.allocate bytes align chunk).1, Served w bytes align chunk ptr) ∧
      (bytes ≤ w.pool.objectSize → w.pool.freeList ≠ [] →
        ∃ ptr ∈ w.pool.freeList, (w.pool.allocate bytes align chunk).1 = some ptr) ∧
      ∀ free ∈ w.pool.freeList, free ∈ (w.pool.allocate bytes align chunk).2.freeList ∨
        (w.pool.allocate bytes align chunk).1 = some free
  | .deallocate ptr =>
      (∀ free ∈ w.pool.freeList, free ∈ (w.pool.deallocate ptr).freeList) ∧
      (ptr ≠ 0 → ptr ∈ (w.pool.deallocate ptr).freeList)

/-- No slot is twice in the free list in any state, and all steps are sound. -/
def Sound (w : World) : List Operation → Prop
  | [] => w.pool.freeList.Nodup
  | op :: ops => w.pool.freeList.Nodup ∧
      (Legal w op → SoundStep w op ∧ Sound (step w op) ops)

/-- The bytes for a number of slots, without a wrap-around. -/
def Countable (objectSize count : BitVec 64) : Prop :=
  objectSize.toNat * count.toNat < 2 ^ 64

/-- A request that is not too large asks for an alignment that chunks and the size of slots
have, and the bytes of a chunk that it adds can be counted and are not zero. -/
def Suits (w : World) : Operation → Prop
  | .allocate bytes align chunk => bytes ≤ w.pool.objectSize →
      (align.toNat ∣ kChunkAlignment ∧ align.toNat ∣ w.pool.objectSize.toNat) ∧
      (w.pool.freeList = [] → chunk ≠ none →
        0 < w.pool.objectSize.toNat ∧ Countable w.pool.objectSize kPoolDefaultGrowSlots)
  | .deallocate _ => True

/-- The bytes of the first chunk can be counted, and several slots have bytes. -/
def Sized (objectSize initialCapacity : BitVec 64) : Prop :=
  0#64 < initialCapacity → Countable (roundedSize objectSize) initialCapacity ∧
    (0 < (roundedSize objectSize).toNat ∨ initialCapacity.toNat ≤ 1)

/-- All steps of a legal run suit the state they start from. -/
def AllSuit (w : World) : List Operation → Prop
  | [] => True
  | op :: ops => Legal w op → Suits w op ∧ AllSuit (step w op) ops

end PoolAllocator

end Aegis
