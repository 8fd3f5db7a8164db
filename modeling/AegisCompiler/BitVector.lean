import AegisCompiler.PackedBits

/-!
# Bit vectors

A set of numbers below a size, packed into 64-bit words.  Sizes and numbers are 32-bit values,
and the last word has bits for numbers from the size on.  They are in no number's place, but
the counts of whole words see them.
-/

namespace Aegis

/-- The words for a size, as the constructor and `resize` compute them. -/
def wordCount (size : BitVec 32) : Nat := ((size + 63#32) / 64#32).toNat

structure BitVector where
  size : BitVec 32
  words : List (BitVec 64)
  covered : words.length = wordCount size

namespace BitVector

open PackedBits

def ofSize (size : BitVec 32) : BitVector where
  size := size
  words := List.replicate (wordCount size) 0#64
  covered := List.length_replicate

def resize (v : BitVector) (size : BitVec 32) : BitVector where
  size := size
  words := v.words.takeD (wordCount size) 0#64
  covered := List.takeD_length _ _ _

def clearBits (v : BitVector) : BitVector where
  size := v.size
  words := List.replicate v.words.length 0#64
  covered := List.length_replicate.trans v.covered

/-- One word is changed; an index outside of the words has no defined meaning. -/
def modifyWord (v : BitVector) (k : Nat) (f : BitVec 64 → BitVec 64) : Option BitVector :=
  if k < v.words.length then
    some ⟨v.size, v.words.modify k f, (List.length_modify _ _ _).trans v.covered⟩
  else none

def mask (i : BitVec 32) : BitVec 64 := 1#64 <<< (i &&& 63#32).toNat

/-- Numbers from the size on are excluded by an assumption of the code. -/
def set (v : BitVector) (i : BitVec 32) : Option BitVector :=
  if i < v.size then v.modifyWord (i >>> 6).toNat (· ||| mask i) else none

def clear (v : BitVector) (i : BitVec 32) : Option BitVector :=
  if i < v.size then v.modifyWord (i >>> 6).toNat (· &&& ~~~mask i) else none

def test (v : BitVector) (i : BitVec 32) : Option Bool :=
  if i < v.size then
    v.words[(i >>> 6).toNat]?.map fun word : BitVec 64 =>
      decide ((word >>> (i &&& 63#32).toNat) &&& 1#64 ≠ 0#64)
  else none

/-- A bulk operation on the words both operands have. -/
def bulk (f : BitVec 64 → BitVec 64 → BitVec 64) (v o : BitVector) : BitVector where
  size := v.size
  words := overCommon f v.words o.words
  covered := (length_overCommon f v.words o.words).trans v.covered

def orAssign (v o : BitVector) : BitVector := bulk (· ||| ·) v o
def andAssign (v o : BitVector) : BitVector := bulk (· &&& ·) v o
def xorAssign (v o : BitVector) : BitVector := bulk (· ^^^ ·) v o
def subtract (v o : BitVector) : BitVector := bulk (fun x y => x &&& ~~~y) v o

def popcount (v : BitVector) : BitVec 32 :=
  v.words.foldl (fun c word => c + word.cpop.setWidth 32) 0#32

def any (v : BitVector) : Bool := v.words.any fun word => decide (word ≠ 0#64)

def none (v : BitVector) : Bool := !v.any

/-- The numbers the callback of `for_each_set` is called with, in this order. -/
def forEachSet (v : BitVector) : List (BitVec 32) :=
  v.words.zipIdx.flatMap fun entry =>
    ((setBits entry.1).map fun off =>
      (BitVec.ofNat 32 entry.2 <<< 6) + BitVec.ofNat 32 off).filter fun idx => decide (idx < v.size)

inductive Operation where
  | resize (size : BitVec 32)
  | clearBits
  | set (i : BitVec 32)
  | clear (i : BitVec 32)
  | orAssign (o : BitVector)
  | andAssign (o : BitVector)
  | xorAssign (o : BitVector)
  | subtract (o : BitVector)

/-- Callers set and clear numbers below the size only. -/
def Legal (v : BitVector) : Operation → Prop
  | .set i | .clear i => i < v.size
  | _ => True

def apply (v : BitVector) : Operation → Option BitVector
  | .resize size => some (v.resize size)
  | .clearBits => some v.clearBits
  | .set i => v.set i
  | .clear i => v.clear i
  | .orAssign o => some (v.orAssign o)
  | .andAssign o => some (v.andAssign o)
  | .xorAssign o => some (v.xorAssign o)
  | .subtract o => some (v.subtract o)

/-- The number is in the set, as `test` reads it. -/
def Reads (v : BitVector) (i : Nat) : Prop := i < 2 ^ 32 ∧ v.test (BitVec.ofNat 32 i) = some true

/-- An operation puts the number into the set. -/
def Operation.Sets : Operation → Nat → Prop
  | .set j, i => i = j.toNat
  | .orAssign o, i | .xorAssign o, i => o.Reads i
  | _, _ => False

open Classical in
/-- The numbers that read as set, in order. -/
noncomputable def members (v : BitVector) : List Nat :=
  (List.range v.size.toNat).filter fun i => decide (v.Reads i)

/-- No bits stand beyond the size, and all observations agree with `test`. -/
structure Agrees (v : BitVector) : Prop where
  within : ∀ i, bit v.words i = true → i < v.size.toNat
  defined : ∀ i < v.size, ∃ value, v.test i = some value
  popcount : v.popcount.toNat = v.members.length
  any : v.any = true ↔ ∃ i, v.Reads i
  none : v.none = true ↔ ¬∃ i, v.Reads i
  forEachSet : v.forEachSet.map BitVec.toNat = v.members

/-- What reads as set afterwards has been set by the operation or was so before: numbers that
come into range read as unset. -/
def Frame (v : BitVector) (op : Operation) (v' : BitVector) : Prop :=
  ∀ i, v'.Reads i → v.Reads i ∨ op.Sets i

/-- The claims about all states and steps of a run; illegal calls end what is promised. -/
def Sound (v : BitVector) : List Operation → Prop
  | [] => v.Agrees
  | op :: ops => v.Agrees ∧
      (v.Legal op → ∃ v', v.apply op = some v' ∧ Frame v op v' ∧ Sound v' ops)

/-- Adding 63 to the size does not wrap around. -/
def Countable (size : BitVec 32) : Prop := size.toNat ≤ 2 ^ 32 - 64

/-- The bits of an operand among the words are in range, and the operand reads them as set
or they are set already. -/
def Operand (v o : BitVector) : Prop :=
  ∀ i < 64 * wordCount v.size, bit o.words i = true →
    i < v.size.toNat ∧ (i < o.size.toNat ∨ bit v.words i = true)

/-- The steps that leave no bits beyond the size. -/
def Fits (v : BitVector) : Operation → Prop
  | .resize size => Countable size ∧
      ∀ i, size.toNat ≤ i → i < 64 * wordCount size → bit v.words i = false
  | .orAssign o | .xorAssign o => Operand v o
  | _ => True

def AllFit (v : BitVector) : List Operation → Prop
  | [] => True
  | op :: ops => v.Legal op → v.Fits op ∧ ∀ v' ∈ v.apply op, AllFit v' ops

end BitVector

end Aegis
