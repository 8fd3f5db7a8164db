import AegisCompiler.CyclicProbing
import Mathlib.Data.Nat.Log
import Mathlib.Data.Nat.Bitwise

/-!
# The open-addressing hash table

A table holds a control byte and a slot for each place.  Control bytes are empty,
deleted, or the low seven bits of the hash of a live key.  Searching and inserting walk
from the home of a key to the first empty place, and inserting takes the first deleted
place it met.
-/

namespace Aegis

def kCtrlEmpty : UInt8 := 0b10000000

def kCtrlDeleted : UInt8 := 0b11111110

def kCtrlLiveMask : UInt8 := 0b10000000

/-- The control byte of a live key with a given hash. -/
def ctrlForHash (h : UInt64) : UInt8 :=
  let b := (h &&& 0x7F).toUInt8
  if b = 0 then 1 else b

/-- The hash function of the keys, and an equality of keys that it respects. -/
structure Hashing (K : Type) where
  hash : K → UInt64
  keyEq : K → K → Bool
  equivalence : Equivalence fun a b => keyEq a b = true
  respects : ∀ a b, keyEq a b = true → hash a = hash b

structure Slot (K V : Type) where
  key : K
  val : V
  deriving DecidableEq, Repr, Inhabited

/-- The two buffers, their capacity, and the number of live entries. -/
structure SwissTable (K V : Type) where
  ctrl : List UInt8 := []
  slots : List (Slot K V) := []
  capacity : Nat := 0
  size : Nat := 0
  deriving Repr

/-- The least power of two that is not smaller. -/
def bitCeil (n : Nat) : Nat := 2 ^ Nat.clog 2 n

/-- Whether a control byte is neither empty nor deleted. -/
def isLive (c : UInt8) : Bool := c &&& kCtrlLiveMask = 0

namespace SwissTable

variable {K V : Type} [Inhabited K] [Inhabited V]

def ctrlAt (t : SwissTable K V) (i : Nat) : UInt8 := t.ctrl.getD i kCtrlEmpty

def slotAt (t : SwissTable K V) (i : Nat) : Slot K V := t.slots.getD i default

/-- The place where the walk for a key starts. -/
def home (hashing : Hashing K) (t : SwissTable K V) (k : K) : Nat :=
  (hashing.hash k).toNat &&& (t.capacity - 1)

/-- A live slot with the control byte of a key that holds the key. -/
def holdsKey (hashing : Hashing K) (t : SwissTable K V) (k : K) (i : Nat) : Bool :=
  t.ctrlAt i = ctrlForHash (hashing.hash k) && hashing.keyEq (t.slotAt i).key k

/-- The rest of a search, with the number of probes that are left. -/
def findFrom (hashing : Hashing K) (t : SwissTable K V) (k : K) : Nat → Nat → Option Nat
  | 0, _ => none
  | left + 1, pos =>
      if t.ctrlAt pos = kCtrlEmpty then none
      else if t.holdsKey hashing k pos then some pos
      else findFrom hashing t k left ((pos + 1) &&& (t.capacity - 1))

def find (hashing : Hashing K) (t : SwissTable K V) (k : K) : Option Nat :=
  if t.capacity = 0 then none else findFrom hashing t k t.capacity (t.home hashing k)

def get (hashing : Hashing K) (t : SwissTable K V) (k : K) : Option V :=
  (t.find hashing k).map fun i => (t.slotAt i).val

def contains (hashing : Hashing K) (t : SwissTable K V) (k : K) : Bool :=
  (t.find hashing k).isSome

/-- The rest of the probe loop: the place of the key, and whether it is new.  There is no
result when the loop has examined all slots. -/
def findOrInsertFrom (hashing : Hashing K) (t : SwissTable K V) (k : K) :
    Nat → Nat → Option Nat → Option (Nat × Bool)
  | 0, _, _ => none
  | left + 1, pos, firstDeleted =>
      let next := (pos + 1) &&& (t.capacity - 1)
      if t.ctrlAt pos = kCtrlEmpty then some (firstDeleted.getD pos, true)
      else if t.ctrlAt pos = kCtrlDeleted then
        findOrInsertFrom hashing t k left next (some (firstDeleted.getD pos))
      else if t.holdsKey hashing k pos then some (pos, false)
      else findOrInsertFrom hashing t k left next firstDeleted

def setCtrl (t : SwissTable K V) (i : Nat) (c : UInt8) : SwissTable K V :=
  { t with ctrl := t.ctrl.set i c }

def setSlot (t : SwissTable K V) (i : Nat) (s : Slot K V) : SwissTable K V :=
  { t with slots := t.slots.set i s }

/-- The slot of a key, which becomes live when the key is new. -/
def findOrInsert (hashing : Hashing K) (t : SwissTable K V) (k : K) :
    Option (SwissTable K V × Nat × Bool) :=
  (findOrInsertFrom hashing t k t.capacity (t.home hashing k) none).map fun (pos, isNew) =>
    if isNew then (t.setCtrl pos (ctrlForHash (hashing.hash k)), pos, true) else (t, pos, false)

/-- Put a live entry of the old buffers into the new ones. -/
def reinsert (hashing : Hashing K) (t : SwissTable K V) (s : Slot K V) :
    Option (SwissTable K V) :=
  (t.findOrInsert hashing s.key).map fun (t, pos, _) =>
    { t.setSlot pos s with size := t.size + 1 }

/-- Buffers of a capacity without entries. -/
def fresh (newCap : Nat) : SwissTable K V where
  ctrl := List.replicate newCap kCtrlEmpty
  slots := List.replicate newCap default
  capacity := newCap
  size := 0

/-- The live entries, from the first place to the last. -/
def entryAt (t : SwissTable K V) (i : Nat) : Option (Slot K V) :=
  if isLive (t.ctrlAt i) then some (t.slotAt i) else none

def entries (t : SwissTable K V) : List (Slot K V) :=
  (List.range t.capacity).filterMap t.entryAt

/-- Call a function on every live entry. -/
def forEach {State : Type} (t : SwissTable K V) (f : State → K → V → State) (s : State) :
    State :=
  (List.range t.capacity).foldl
    (fun s i => if isLive (t.ctrlAt i) then f s (t.slotAt i).key (t.slotAt i).val else s) s

def rehash (hashing : Hashing K) (t : SwissTable K V) (newCap : Nat) :
    Option (SwissTable K V) :=
  (List.range t.capacity).foldlM
    (fun fresh i => if isLive (t.ctrlAt i) then fresh.reinsert hashing (t.slotAt i)
      else some fresh)
    (fresh newCap)

def reserve (hashing : Hashing K) (t : SwissTable K V) (n : Nat) : Option (SwissTable K V) :=
  let newCap := max 16 (bitCeil ((n * 8 + 6) % 2 ^ 64 / 7))
  if t.capacity < newCap then t.rehash hashing newCap else some t

/-- The load check in front of an insertion, which counts live entries only. -/
def overloaded (t : SwissTable K V) : Bool :=
  t.capacity * 7 % 2 ^ 64 ≤ (t.size + 1) * 8 % 2 ^ 64

/-- The capacity after the load check has failed. -/
def grownCapacity (t : SwissTable K V) : Nat :=
  if t.capacity = 0 then 16 else t.capacity * 2 % 2 ^ 64

/-- The table behind the load check. -/
def makeRoom (hashing : Hashing K) (t : SwissTable K V) : Option (SwissTable K V) :=
  if t.overloaded then t.rehash hashing t.grownCapacity else some t

/-- Insert a key, or replace its value: the table, the slot, and whether the key is new. -/
def emplace (hashing : Hashing K) (t : SwissTable K V) (k : K) (v : V) :
    Option (SwissTable K V × Nat × Bool) := do
  let t ← t.makeRoom hashing
  let (t, pos, isNew) ← t.findOrInsert hashing k
  if isNew then
    return ({ t.setSlot pos ⟨k, v⟩ with size := t.size + 1 }, pos, true)
  else
    return (t.setSlot pos { t.slotAt pos with val := v }, pos, false)

def insert (hashing : Hashing K) (t : SwissTable K V) (k : K) (v : V) :
    Option (SwissTable K V × Bool) :=
  (t.emplace hashing k v).map fun (t, _, isNew) => (t, isNew)

def erase (hashing : Hashing K) (t : SwissTable K V) (k : K) : SwissTable K V :=
  match t.find hashing k with
  | none => t
  | some i => { t.setCtrl i kCtrlDeleted with size := t.size - 1 }

def clear (t : SwissTable K V) : SwissTable K V :=
  if t.capacity = 0 then t
  else { t with ctrl := List.replicate t.capacity kCtrlEmpty, size := 0 }

end SwissTable

/-- What a program does to a table. -/
inductive TableOp (K V : Type) where
  | emplace (k : K) (v : V)
  | insert (k : K) (v : V)
  | erase (k : K)
  | clear
  | reserve (n : Nat)
  deriving Repr

namespace SwissTable

variable {K V : Type} [Inhabited K] [Inhabited V]

/-- One operation.  There is no result when an insertion exhausts its probe loop. -/
def step (hashing : Hashing K) (t : SwissTable K V) : TableOp K V → Option (SwissTable K V)
  | .emplace k v => (t.emplace hashing k v).map Prod.fst
  | .insert k v => (t.insert hashing k v).map Prod.fst
  | .erase k => some (t.erase hashing k)
  | .clear => some t.clear
  | .reserve n => t.reserve hashing n

/-- A sequence of operations. -/
def run (hashing : Hashing K) (t : SwissTable K V) (ops : List (TableOp K V)) :
    Option (SwissTable K V) :=
  ops.foldlM (step hashing) t

end SwissTable

end Aegis
