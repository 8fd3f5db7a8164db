import AegisCompiler.AddressRegions
import Mathlib.Data.BitVec

/-!
# Pages for compiled code

The manager keeps a record for each buffer that it has mapped.  Released buffers are stamped
with an epoch, and unmapped when the global epoch has passed it.
-/

namespace Aegis

abbrev Address := BitVec 64

/-- The record of a mapped buffer. -/
structure Page where
  base : Address
  size : BitVec 64
  epoch : BitVec 64
  inUse : Bool
  deriving DecidableEq, Repr

structure MemManager where
  pages : List Page := []
  globalEpoch : BitVec 64 := 1
  deriving DecidableEq, Repr

namespace MemManager

def kDefaultPageSize : BitVec 64 := 4096

/-- The size of pages, from what the system says about it. -/
def pageSize (sysconf : BitVec 64) : BitVec 64 :=
  if sysconf.toInt ≤ 0 then kDefaultPageSize else sysconf

def alignedSize (sysconf size : BitVec 64) : BitVec 64 :=
  (size + pageSize sysconf - 1) &&& ~~~(pageSize sysconf - 1)

/-- The answer of `mmap` is an address, or that it failed. -/
def allocate (m : MemManager) (sysconf size epoch : BitVec 64) (mmap : Option Address) :
    Option Address × MemManager :=
  match mmap with
  | none => (none, m)
  | some mem =>
      (some mem,
        { m with pages := m.pages ++ [⟨mem, alignedSize sysconf size, epoch, true⟩] })

/-- The first record of the address is stamped. -/
def releaseFirst (ptr : Address) (epoch : BitVec 64) : List Page → List Page
  | [] => []
  | p :: pages =>
      if p.base = ptr then { p with inUse := false, epoch } :: pages
      else p :: releaseFirst ptr epoch pages

def release (m : MemManager) (ptr : Address) (epoch : BitVec 64) : MemManager :=
  { m with pages := releaseFirst ptr epoch m.pages }

def advanceEpoch (m : MemManager) : MemManager :=
  { m with globalEpoch := m.globalEpoch + 1 }

/-- The predicate of `remove_if`. -/
def reclaims (m : MemManager) (p : Page) : Bool :=
  if p.inUse then false else if m.globalEpoch ≤ p.epoch then false else true

/-- The arguments of the calls of `munmap`, in their order. -/
def munmapCalls (m : MemManager) : List (Address × BitVec 64) :=
  (m.pages.filter m.reclaims).map fun p => (p.base, p.size)

def reclaimOldPages (m : MemManager) : MemManager :=
  { m with pages := m.pages.filter fun p => !m.reclaims p }

/-- A buffer that has been handed out, when it was released, and whether it is still mapped. -/
structure Allocation where
  base : Address
  size : BitVec 64
  stamp : BitVec 64
  released : Option (BitVec 64) := none
  mapped : Bool := true
  deriving DecidableEq, Repr

def regionOf (base : Address) (size : BitVec 64) : Region := ⟨base.toNat, size.toNat⟩

def Allocation.region (a : Allocation) : Region := regionOf a.base a.size

/-- The manager, all buffers that were ever handed out, and the number of epoch advances. -/
structure World where
  manager : MemManager := {}
  ledger : List Allocation := []
  advances : Nat := 0
  deriving DecidableEq, Repr

/-- `munmap` unmaps whatever is mapped in a range. -/
def munmap (ledger : List Allocation) (call : Address × BitVec 64) : List Allocation :=
  ledger.map fun a =>
    if a.mapped = true ∧ a.region.Meets (regionOf call.1 call.2) then { a with mapped := false }
    else a

inductive Operation where
  | allocate (size epoch : BitVec 64) (mmap : Option Address)
  | release (ptr : Address) (epoch : BitVec 64)
  | advanceEpoch
  | reclaimOldPages
  deriving DecidableEq, Repr

/-- `mmap` fails for no bytes and never gives addresses that are mapped; callers release a
buffer once. -/
def Legal (sysconf : BitVec 64) (w : World) : Operation → Prop
  | .allocate size _ (some mem) => alignedSize sysconf size ≠ 0 ∧
      ∀ a ∈ w.ledger, a.mapped = true →
        ¬a.region.Meets (regionOf mem (alignedSize sysconf size))
  | .release ptr _ => ∀ a ∈ w.ledger, a.mapped = true → a.base = ptr → a.released = none
  | _ => True

def step (sysconf : BitVec 64) (w : World) : Operation → World
  | .allocate size epoch mmap =>
      { w with
        manager := (w.manager.allocate sysconf size epoch mmap).2
        ledger := w.ledger ++
          (mmap.map fun mem =>
            ({ base := mem, size := alignedSize sysconf size, stamp := epoch } :
              Allocation)).toList }
  | .release ptr epoch =>
      { w with
        manager := w.manager.release ptr epoch
        ledger := w.ledger.map fun a =>
          if a.mapped = true ∧ a.base = ptr then { a with released := some epoch } else a }
  | .advanceEpoch =>
      { w with manager := w.manager.advanceEpoch, advances := w.advances + 1 }
  | .reclaimOldPages =>
      { w with
        manager := w.manager.reclaimOldPages
        ledger := w.manager.munmapCalls.foldl munmap w.ledger }

/-- The buffer was released with an epoch below the global one. -/
def World.Old (w : World) (a : Allocation) : Prop :=
  ∃ epoch, a.released = some epoch ∧ epoch < w.manager.globalEpoch

/-- What holds of a step of a run. -/
structure SafeStep (sysconf : BitVec 64) (w : World) (op : Operation) : Prop where
  /-- Nothing else than old buffers is ever unmapped. -/
  spared : ∀ (i : Nat) (a : Allocation), w.ledger[i]? = some a → a.mapped = true →
    ¬w.Old a → ∃ a' : Allocation, (step sysconf w op).ledger[i]? = some a' ∧ a'.mapped = true
  /-- Each call unmaps one buffer, which is mapped and old, and nothing besides. -/
  once : op = .reclaimOldPages → ∀ before call after,
    w.manager.munmapCalls = before ++ call :: after →
      ∃ (i : Nat) (a : Allocation), (before.foldl munmap w.ledger)[i]? = some a ∧
        a.mapped = true ∧ w.Old a ∧ (a.base, a.size) = call ∧
        ∀ (j : Nat) (b : Allocation), (before.foldl munmap w.ledger)[j]? = some b →
          b.mapped = true → b.region.Meets (regionOf call.1 call.2) → j = i
  /-- Afterwards the old buffers are unmapped, and no others that were mapped. -/
  exact : op = .reclaimOldPages → ∀ (i : Nat) (a : Allocation), w.ledger[i]? = some a →
    ∃ a' : Allocation, (step sysconf w op).ledger[i]? = some a' ∧ a'.released = a.released ∧
      (a'.mapped = false ↔ a.mapped = false ∨ w.Old a)
  /-- Before the epochs wrap around these are all buffers that were ever unmapped. -/
  total : op = .reclaimOldPages → w.advances < 2 ^ 64 - 1 →
    ∀ (i : Nat) (a' : Allocation), (step sysconf w op).ledger[i]? = some a' →
      (a'.mapped = false ↔ (step sysconf w op).Old a')
  /-- The records describe mapped buffers. -/
  records : ∀ p ∈ (step sysconf w op).manager.pages, ∃ a ∈ (step sysconf w op).ledger,
    a.mapped = true ∧ a.base = p.base ∧ a.size = p.size

/-- All steps of a run are safe, as long as the calls are legal. -/
def Safe (sysconf : BitVec 64) (w : World) : List Operation → Prop
  | [] => True
  | op :: ops => Legal sysconf w op →
      SafeStep sysconf w op ∧ Safe sysconf (step sysconf w op) ops

end MemManager

end Aegis
