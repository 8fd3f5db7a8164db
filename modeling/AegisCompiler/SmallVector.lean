import Mathlib.Algebra.Group.Nat.Even
import Mathlib.Data.List.Basic
import Mathlib.Logic.Function.Basic

/-!
# Vectors with inline storage

The first elements of a vector are kept inline.  A vector that grows moves its elements to
a remote buffer and stays there.  A slot holds an element, or none when no element lives
there; reading such a slot has no result, and neither has writing outside of a buffer.
-/

namespace Aegis

/-- The inline storage, the remote buffer, its capacity, and the number of elements.  A
remote buffer has one owner. -/
structure SmallVector (T : Type) where
  inlineSlots : List (Option T)
  remoteSlots : List (Option T) := []
  remoteCap : Nat := 0
  size : Nat := 0
  deriving DecidableEq, Repr

/-- An element that is passed by reference: a value from elsewhere, or an element of the
vector itself. -/
inductive ElementRef (T : Type) where
  | value (x : T)
  | own (i : Nat)
  deriving DecidableEq, Repr

/-- Read a slot, if an element lives there. -/
def readSlot {T : Type} (slots : List (Option T)) (i : Nat) : Option T := (slots[i]?).join

/-- Read what a reference refers to, with the storage that its vector had when it was made. -/
def ElementRef.read {T : Type} (slots : List (Option T)) : ElementRef T → Option T
  | .value x => some x
  | .own i => readSlot slots i

namespace SmallVector

variable {T : Type}

/-- A vector without elements, with room for `kInlineCapacity` inline. -/
def empty (kInlineCapacity : Nat) : SmallVector T where
  inlineSlots := List.replicate kInlineCapacity none

def isInline (v : SmallVector T) : Bool := v.remoteCap = 0

/-- The capacity, which is a 32-bit number. -/
def capacity (v : SmallVector T) : Nat :=
  if v.isInline then v.inlineSlots.length % 2 ^ 32 else v.remoteCap

def data (v : SmallVector T) : List (Option T) :=
  if v.isInline then v.inlineSlots else v.remoteSlots

def setData (v : SmallVector T) (slots : List (Option T)) : SmallVector T :=
  if v.isInline then { v with inlineSlots := slots } else { v with remoteSlots := slots }

/-- Construct an element at `data() + i`. -/
def construct (v : SmallVector T) (i : Nat) (x : T) : Option (SmallVector T) :=
  if i < v.data.length then some (v.setData (v.data.set i (some x))) else none

/-- Construct an element at `inline_ptr() + i`. -/
def constructInline (v : SmallVector T) (i : Nat) (x : T) : Option (SmallVector T) :=
  if i < v.inlineSlots.length then
    some { v with inlineSlots := v.inlineSlots.set i (some x) }
  else none

/-- Slots whose first `n` elements have been destroyed. -/
def destroyed (slots : List (Option T)) (n : Nat) : List (Option T) :=
  (slots.take n).map (fun _ => none) ++ slots.drop n

def destroyAll (v : SmallVector T) : SmallVector T := v.setData (destroyed v.data v.size)

/-- Move to a larger buffer, and leave the old storage: inline slots without elements, or a
remote buffer that has been freed. -/
def grow (v : SmallVector T) (newCap : Nat) : SmallVector T × List (Option T) :=
  if newCap ≤ v.capacity then (v, v.data)
  else
    let newBuf := v.data.take v.size ++ List.replicate (newCap - v.size) none
    if v.isInline then
      let left := destroyed v.inlineSlots v.size
      ({ v with inlineSlots := left, remoteSlots := newBuf, remoteCap := newCap }, left)
    else ({ v with remoteSlots := newBuf, remoteCap := newCap }, [])

def growForOne (v : SmallVector T) : SmallVector T × List (Option T) :=
  v.grow (max (v.capacity * 2 % 2 ^ 32) ((v.capacity + 4) % 2 ^ 32))

/-- Append an element.  A reference to an own element is read after the vector has grown. -/
def emplaceBack (v : SmallVector T) (arg : ElementRef T) : Option (SmallVector T) := do
  let (v, storage) := if v.size = v.capacity then v.growForOne else (v, v.data)
  let x ← arg.read storage
  let v ← v.construct v.size x
  return { v with size := v.size + 1 }

def popBack (v : SmallVector T) : Option (SmallVector T) :=
  if v.size = 0 then none
  else some { v.setData (v.data.set (v.size - 1) none) with size := v.size - 1 }

def clear (v : SmallVector T) : SmallVector T := { v.destroyAll with size := 0 }

def reserve (v : SmallVector T) (n : Nat) : SmallVector T × List (Option T) :=
  if v.capacity < n then v.grow n else (v, v.data)

/-- Construct copies of an element at `count` places. -/
def fill (x : T) : Nat → Nat → SmallVector T → Option (SmallVector T)
  | _, 0, v => some v
  | i, count + 1, v => (v.construct i x).bind (fill x (i + 1) count)

/-- Drop elements without destroying them, or append copies of an element. -/
def resizeTo (v : SmallVector T) (n : Nat) (arg : ElementRef T) : Option (SmallVector T) :=
  if n < v.size then some { v with size := n }
  else do
    let (v, storage) := v.reserve n
    if n = v.size then return v
    let x ← arg.read storage
    let v ← fill x v.size (n - v.size) v
    return { v with size := n }

/-- `resize(n)`, which appends value-initialized elements. -/
def resize [Inhabited T] (v : SmallVector T) (n : Nat) : Option (SmallVector T) :=
  v.resizeTo n (.value default)

def eraseUnordered (v : SmallVector T) (i : Nat) : Option (SmallVector T) :=
  if v.size ≤ i then none
  else if i + 1 = v.size then v.popBack
  else do
    let last ← readSlot v.data (v.size - 1)
    (v.setData (v.data.set i (some last))).popBack

/-- The first place from `i` on with an element that is equal, among `left` places. -/
def findFirst [BEq T] (slots : List (Option T)) (x : T) : Nat → Nat → Option (Option Nat)
  | _, 0 => some none
  | i, left + 1 => do
      let y ← readSlot slots i
      if y == x then return some i else findFirst slots x (i + 1) left

/-- Erase the first element that is equal, and tell whether there is one. -/
def removeFirst [BEq T] (v : SmallVector T) (arg : ElementRef T) :
    Option (SmallVector T × Bool) := do
  -- The loop compares and moves on, so it reads nothing when there are no elements.
  if v.size = 0 then return (v, false)
  let x ← arg.read v.data
  match ← findFirst v.data x 0 v.size with
  | none => return (v, false)
  | some i =>
      let v ← v.eraseUnordered i
      return (v, true)

/-- The elements in front of the size, where they live. -/
def visible (v : SmallVector T) : List (Option T) :=
  (List.range v.size).map (readSlot v.data)

/-- Append copies of the elements of a list of slots. -/
def appendAll (v : SmallVector T) : List (Option T) → Option (SmallVector T)
  | [] => some v
  | slot :: slots => do
      let x ← slot
      let v ← v.emplaceBack (.value x)
      v.appendAll slots

/-- Make room for a number of elements, and append copies of elements. -/
def appendCopies (v : SmallVector T) (slots : List (Option T)) : Option (SmallVector T) :=
  let v := if v.capacity < slots.length then (v.grow (slots.length % 2 ^ 32)).1 else v
  v.appendAll slots

/-- Move elements into the inline storage, from place `i` on. -/
def moveInline (v : SmallVector T) (i : Nat) : List (Option T) → Option (SmallVector T)
  | [] => some v
  | slot :: slots => do
      let x ← slot
      let v ← v.constructInline i x
      v.moveInline (i + 1) slots

/-- What is left of a vector whose buffer has been taken. -/
def robbed (o : SmallVector T) : SmallVector T :=
  { o with remoteSlots := [], remoteCap := 0, size := 0 }

/-- The constructor that copies: the new vector. -/
def copyConstruct (kInlineCapacity : Nat) (o : SmallVector T) : Option (SmallVector T) :=
  (empty kInlineCapacity).appendCopies o.visible

/-- The constructor that moves: the new vector, and what is left of the other. -/
def moveConstruct (kInlineCapacity : Nat) (o : SmallVector T) :
    Option (SmallVector T × SmallVector T) :=
  if o.isInline then do
    let v ← (empty kInlineCapacity).moveInline 0 (o.inlineSlots.take o.size)
    return ({ v with size := o.size }, { o with size := 0 })
  else
    some ({ empty kInlineCapacity with
      remoteSlots := o.remoteSlots, remoteCap := o.remoteCap, size := o.size }, o.robbed)

/-- The assignment that copies, from another vector. -/
def copyAssign (v o : SmallVector T) : Option (SmallVector T) :=
  v.clear.appendCopies o.visible

/-- The assignment that moves, from another vector: the vector, and what is left of the
other. -/
def moveAssign (v o : SmallVector T) : Option (SmallVector T × SmallVector T) :=
  let v := v.destroyAll
  if o.isInline then do
    -- The elements go to the inline storage, also when the vector has a remote buffer.
    let v ← v.moveInline 0 (o.inlineSlots.take o.size)
    return ({ v with size := o.size }, { o with size := 0 })
  else
    some ({ v with
      remoteSlots := o.remoteSlots, remoteCap := o.remoteCap, size := o.size }, o.robbed)

end SmallVector

/-- The operations of a program on vectors with names. -/
inductive VectorOp (T Var : Type) where
  | construct (a : Var)
  | constructSized (a : Var) (n : UInt32)
  | constructFilled (a : Var) (n : UInt32) (x : T)
  | constructListed (a : Var) (il : List T)
  | copyConstruct (a b : Var)
  | moveConstruct (a b : Var)
  | pushBack (a : Var) (arg : ElementRef T)
  | popBack (a : Var)
  | resize (a : Var) (n : UInt32)
  | resizeFilled (a : Var) (n : UInt32) (arg : ElementRef T)
  | reserve (a : Var) (n : UInt32)
  | clear (a : Var)
  | eraseUnordered (a : Var) (i : UInt32)
  | removeFirst (a : Var) (arg : ElementRef T)
  | copyAssign (a b : Var)
  | moveAssign (a b : Var)
  deriving Repr

namespace SmallVector

variable {T Var : Type} [Inhabited T] [BEq T] [DecidableEq Var]

/-- Replace two vectors, the first one last. -/
def update₂ {α : Type} (store : Var → α) (a b : Var) (new : α × α) : Var → α :=
  Function.update (Function.update store b new.2) a new.1

/-- One operation of a program, on vectors with `kInlineCapacity` inline slots. -/
def step (kInlineCapacity : Nat) (store : Var → SmallVector T) :
    VectorOp T Var → Option (Var → SmallVector T)
  | .construct a => some (Function.update store a (empty kInlineCapacity))
  | .constructSized a n =>
      ((empty kInlineCapacity).resize n.toNat).map (Function.update store a)
  | .constructFilled a n x =>
      ((empty kInlineCapacity).resizeTo n.toNat (.value x)).map (Function.update store a)
  | .constructListed a il =>
      ((empty kInlineCapacity).appendCopies (il.map some)).map (Function.update store a)
  | .copyConstruct a b =>
      ((store b).copyConstruct kInlineCapacity).map (Function.update store a)
  | .moveConstruct a b =>
      ((store b).moveConstruct kInlineCapacity).map (update₂ store a b)
  | .pushBack a arg => ((store a).emplaceBack arg).map (Function.update store a)
  | .popBack a => (store a).popBack.map (Function.update store a)
  | .resize a n => ((store a).resize n.toNat).map (Function.update store a)
  | .resizeFilled a n arg => ((store a).resizeTo n.toNat arg).map (Function.update store a)
  | .reserve a n => some (Function.update store a ((store a).reserve n.toNat).1)
  | .clear a => some (Function.update store a (store a).clear)
  | .eraseUnordered a i => ((store a).eraseUnordered i.toNat).map (Function.update store a)
  | .removeFirst a arg =>
      ((store a).removeFirst arg).map fun result => Function.update store a result.1
  | .copyAssign a b =>
      if a = b then some store
      else ((store a).copyAssign (store b)).map (Function.update store a)
  | .moveAssign a b =>
      if a = b then some store
      else ((store a).moveAssign (store b)).map (update₂ store a b)

/-- A program. -/
def run (kInlineCapacity : Nat) (store : Var → SmallVector T) (program : List (VectorOp T Var)) :
    Option (Var → SmallVector T) :=
  program.foldlM (step kInlineCapacity) store

end SmallVector

end Aegis
