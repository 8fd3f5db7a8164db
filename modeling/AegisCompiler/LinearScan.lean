import AegisCompiler.MachineIR
import Mathlib.Data.List.Pairwise
import Mathlib.Data.List.Sort
import Mathlib.Logic.Function.Basic

/-!
# Linear-scan register allocation

Every virtual register gets one interval from its first to its last mention,
widened to the back edges of the loops it lives through.  The scan visits the
intervals by their starts and hands out physical registers; when none is free
it spills the interval that ends last.
-/

namespace Aegis

namespace LinearScan

/-- The index of a physical register. -/
abbrev PRegId := Nat

/-- The length of the table of used registers. -/
def kLinearScanMaxPRegs : Nat := 256

/-- The register of an interval that was spilled at once, -1 in 16 bits. -/
def kNoPReg : PRegId := 0xFFFF

/-- The positions `start ≤ i < stop` a register occupies. -/
structure LiveInterval where
  vreg : VRegId
  rc : RegClass
  start : Nat
  stop : Nat
  spansCall : Bool
  deriving DecidableEq, Repr

/-- Both intervals contain a common position. -/
def LiveInterval.Overlaps (a b : LiveInterval) : Prop :=
  a.start < b.stop ∧ b.start < a.stop

/-- The first and the last mention of a register, and the class of the last
instruction that mentions it. -/
structure Extent where
  first : Nat
  last : Nat
  rc : RegClass
  deriving DecidableEq, Repr

abbrev Extents := VRegId → Option Extent

/-- Record that a register is mentioned at a position. -/
def touch (i : Nat) (rc : RegClass) (extents : Extents) (v : VRegId) :
    Extents :=
  Function.update extents v
    (some ⟨((extents v).map Extent.first).getD i, i, rc⟩)

/-- Record the definitions and then the uses of an instruction. -/
def touchInstr (extents : Extents) (entry : MachineInstr × Nat) : Extents :=
  entry.1.reads.foldl (touch entry.2 entry.1.rc)
    (entry.1.defs.foldl (touch entry.2 entry.1.rc) extents)

def firstLast (instrs : List MachineInstr) : Extents :=
  instrs.zipIdx.foldl touchInstr fun _ => none

/-- The largest register an instruction mentions. -/
def maxVReg (instrs : List MachineInstr) : VRegId :=
  instrs.foldl (fun top mi =>
    mi.reads.foldl max (mi.defs.foldl max top)) 0

/-- A jump to a label that is not conditional. -/
def isJmpTo (label : Int) (mi : MachineInstr) : Bool :=
  decide (mi.op = .jmp ∧ mi.imm = some label)

/-- The first jump to a label after a position. -/
def backJump (instrs : List MachineInstr) (head : Nat) (label : Int) :
    Option Nat :=
  (List.range instrs.length).find? fun j =>
    decide (head < j) && (instrs[j]?).any (isJmpTo label)

/-- The loop that starts at a position. -/
def loopSpan (instrs : List MachineInstr) (head : Nat) : Option (Nat × Nat) := do
  let mi ← instrs[head]?
  let label ← mi.imm
  if mi.op = .label then
    let tail ← backJump instrs head label
    return (head, tail)
  else none

def loopSpans (instrs : List MachineInstr) : List (Nat × Nat) :=
  (List.range instrs.length).filterMap (loopSpan instrs)

/-- What is live across a loop head and still active at it survives to the
back edge. -/
def widen (first last : Nat) (span : Nat × Nat) : Nat :=
  if first < span.1 ∧ span.1 ≤ last ∧ last < span.2 then span.2 else last

def widenAll (spans : List (Nat × Nat)) (first last : Nat) : Nat :=
  spans.foldl (widen first) last

/-- A call lies strictly between two positions. -/
def callBetween (instrs : List MachineInstr) (first last : Nat) : Bool :=
  instrs.zipIdx.any fun entry =>
    decide (entry.1.op = .call ∧ first < entry.2 ∧ entry.2 < last)

/-- The interval of a register that is mentioned. -/
def intervalOf (instrs : List MachineInstr) (v : VRegId) :
    Option LiveInterval := do
  let extent ← firstLast instrs v
  let last := widenAll (loopSpans instrs) extent.first extent.last
  return ⟨v, extent.rc, extent.first, last + 1,
    callBetween instrs extent.first last⟩

def computeIntervals (mf : MachineFunction) : List LiveInterval :=
  (List.range (maxVReg mf.instrs + 1)).filterMap (intervalOf mf.instrs)

/-- The order in which the scan visits the intervals. -/
def LiveInterval.before (a b : LiveInterval) : Bool :=
  decide (a.start < b.start ∨ a.start = b.start ∧ a.stop < b.stop)

/-- A sorting of intervals.  The sort of the source is not stable, so that the
order of equal intervals is left open. -/
structure IntervalOrder where
  sort : List LiveInterval → List LiveInterval
  perm : ∀ intervals, (sort intervals).Perm intervals
  sorted : ∀ intervals,
    (sort intervals).Pairwise fun a b => b.before a = false

/-- Insert each interval in front of the intervals it does not follow. -/
def IntervalOrder.inserted : IntervalOrder where
  sort := List.insertionSort fun a b => b.before a = false
  perm := List.perm_insertionSort _
  sorted intervals := by
    have total : Std.Total fun a b : LiveInterval => b.before a = false := by
      constructor
      intro a b
      simp only [LiveInterval.before, decide_eq_false_iff_not]
      omega
    have trans : IsTrans LiveInterval fun a b => b.before a = false := by
      constructor
      intro a b c
      simp only [LiveInterval.before, decide_eq_false_iff_not]
      omega
    exact List.pairwise_insertionSort _ intervals

/-- The number of registers of each class, and the first register that a callee
saves. -/
structure Registers where
  numGpr : Nat
  numFpr : Nat
  calleeSavedFrom : Nat := 0
  deriving DecidableEq, Repr

structure ActiveEntry where
  vreg : VRegId
  stop : Nat
  preg : PRegId
  deriving DecidableEq, Repr

structure ScanState where
  active : List ActiveEntry := []
  assignment : VRegId → PRegId := fun _ => 0
  spilled : VRegId → Bool := fun _ => false
  spills : Nat := 0

/-- Drop the entries that ended before a position. -/
def expire (start : Nat) (active : List ActiveEntry) : List ActiveEntry :=
  active.filter fun e => decide (¬ e.stop ≤ start)

def used (active : List ActiveEntry) (p : PRegId) : Bool :=
  active.any fun e => decide (e.preg < kLinearScanMaxPRegs ∧ e.preg = p)

/-- The first unused register from the floor on. -/
def freePReg (active : List ActiveEntry) (floor num : Nat) : Option PRegId :=
  (List.range num).find? fun p => decide (floor ≤ p) && !used active p

/-- The first of the active entries that end last. -/
def furthest : List ActiveEntry → Option ActiveEntry
  | [] => none
  | e :: rest =>
      match furthest rest with
      | some m => if e.stop < m.stop then some m else some e
      | none => some e

/-- Spill the interval itself. -/
def spillSelf (s : ScanState) (iv : LiveInterval) : ScanState :=
  { s with
    assignment := Function.update s.assignment iv.vreg kNoPReg
    spilled := Function.update s.spilled iv.vreg true
    spills := s.spills + 1 }

/-- Spill an active entry and hand its register over. -/
def steal (s : ScanState) (iv : LiveInterval) (m : ActiveEntry) : ScanState where
  active := s.active.erase m ++ [⟨iv.vreg, iv.stop, m.preg⟩]
  assignment := Function.update s.assignment iv.vreg m.preg
  spilled := Function.update s.spilled m.vreg true
  spills := s.spills + 1

/-- Give the interval a free register. -/
def assign (s : ScanState) (iv : LiveInterval) (p : PRegId) : ScanState :=
  { s with
    active := s.active ++ [⟨iv.vreg, iv.stop, p⟩]
    assignment := Function.update s.assignment iv.vreg p }

/-- Visit one interval. -/
def scanStep (regs : Registers) (s : ScanState) (iv : LiveInterval) :
    ScanState :=
  let s := { s with active := expire iv.start s.active }
  let num := if iv.rc = .float then regs.numFpr else regs.numGpr
  -- What spans a call may only take a register the callee saves.
  let floor := if iv.spansCall then regs.calleeSavedFrom else 0
  match freePReg s.active floor num with
  | some p => assign s iv p
  | none =>
      match furthest s.active with
      | some m => if iv.stop < m.stop then steal s iv m else spillSelf s iv
      | none => spillSelf s iv

def scan (regs : Registers) (intervals : List LiveInterval) : ScanState :=
  intervals.foldl (scanStep regs) {}

def run (regs : Registers) (order : IntervalOrder) (mf : MachineFunction) :
    ScanState :=
  scan regs (order.sort (computeIntervals mf))

theorem mem_expire {start : Nat} {active : List ActiveEntry} {e : ActiveEntry} :
    e ∈ expire start active ↔ e ∈ active ∧ start < e.stop := by
  rw [expire, List.mem_filter, decide_eq_true_eq, Nat.not_le]

theorem freePReg_unused {active : List ActiveEntry} {floor num : Nat}
    {p : PRegId} (found : freePReg active floor num = some p) :
    p < num ∧ ∀ e ∈ active, e.preg < kLinearScanMaxPRegs → e.preg ≠ p := by
  have inside := List.mem_range.mp (List.mem_of_find?_eq_some found)
  have free := List.find?_some found
  simp only [Bool.and_eq_true, Bool.not_eq_true', used] at free
  refine ⟨inside, ?_⟩
  intro e member small same
  have unused := List.any_eq_false.mp free.2 e member
  exact unused (decide_eq_true ⟨small, same⟩)

theorem furthest_mem {active : List ActiveEntry} {m : ActiveEntry}
    (found : furthest active = some m) : m ∈ active := by
  induction active with
  | nil => cases found
  | cons e rest ih =>
      rw [furthest] at found
      cases latest : furthest rest with
      | none =>
          rw [latest] at found
          cases found
          exact List.mem_cons_self
      | some other =>
          rw [latest] at found
          dsimp only at found
          split at found
          · exact List.mem_cons_of_mem _ (ih (latest.trans found))
          · cases found
            exact List.mem_cons_self

/-- What a step does after the expiry. -/
theorem scanStep_cases (regs : Registers) (s : ScanState) (iv : LiveInterval)
    (gpr : regs.numGpr ≤ kLinearScanMaxPRegs)
    (fpr : regs.numFpr ≤ kLinearScanMaxPRegs) :
    let active := expire iv.start s.active
    let expired := { s with active := active }
    (∃ p, p < kLinearScanMaxPRegs ∧
        (∀ e ∈ active, e.preg < kLinearScanMaxPRegs → e.preg ≠ p) ∧
        scanStep regs s iv = assign expired iv p) ∨
      (∃ m ∈ active, scanStep regs s iv = steal expired iv m) ∨
      scanStep regs s iv = spillSelf expired iv := by
  intro active expired
  have bound : (if iv.rc = .float then regs.numFpr else regs.numGpr) ≤
      kLinearScanMaxPRegs := by
    split
    · exact fpr
    · exact gpr
  cases free : freePReg active (if iv.spansCall then regs.calleeSavedFrom else 0)
      (if iv.rc = .float then regs.numFpr else regs.numGpr) with
  | some p =>
      obtain ⟨inside, unused⟩ := freePReg_unused free
      left
      refine ⟨p, Nat.lt_of_lt_of_le inside bound, unused, ?_⟩
      unfold scanStep
      dsimp only
      rw [free]
  | none =>
      right
      cases latest : furthest active with
      | some m =>
          by_cases later : iv.stop < m.stop
          · left
            refine ⟨m, furthest_mem latest, ?_⟩
            unfold scanStep
            dsimp only
            rw [free, latest]
            exact if_pos later
          · right
            unfold scanStep
            dsimp only
            rw [free, latest]
            exact if_neg later
      | none =>
          right
          unfold scanStep
          dsimp only
          rw [free, latest]

theorem unspilled_before {spilled : VRegId → Bool} {v w : VRegId}
    (kept : Function.update spilled w true v = false) :
    v ≠ w ∧ spilled v = false := by
  by_cases same : v = w
  · rw [same, Function.update_self] at kept
    cases kept
  · rw [Function.update_of_ne same] at kept
    exact ⟨same, kept⟩

/-- The registers of unspilled overlapping intervals differ. -/
def NonInterfering (intervals : List LiveInterval) (s : ScanState) : Prop :=
  ∀ a ∈ intervals, ∀ b ∈ intervals, a.vreg ≠ b.vreg → a.Overlaps b →
    s.spilled a.vreg = false → s.spilled b.vreg = false →
      s.assignment a.vreg ≠ s.assignment b.vreg

/-- The entries hold pairwise different registers. -/
def DistinctRegisters (active : List ActiveEntry) : Prop :=
  active.Pairwise fun a b => a.preg ≠ b.preg

/-- What holds after the intervals that start up to `now` were visited. -/
structure ScanInvariant (visited : List LiveInterval) (now : Nat)
    (s : ScanState) : Prop where
  distinct : DistinctRegisters s.active
  bounded : ∀ e ∈ s.active, e.preg < kLinearScanMaxPRegs
  known : ∀ e ∈ s.active, ∃ iv ∈ visited, iv.vreg = e.vreg
  assigned : ∀ e ∈ s.active, s.assignment e.vreg = e.preg
  /-- An unspilled interval that did not end yet is active. -/
  covered : ∀ iv ∈ visited, s.spilled iv.vreg = false → now < iv.stop →
    ∃ e ∈ s.active, e.vreg = iv.vreg ∧ e.stop = iv.stop
  apart : NonInterfering visited s

theorem scanInvariant_nil : ScanInvariant [] 0 {} where
  distinct := List.Pairwise.nil
  bounded := nofun
  known := nofun
  assigned := nofun
  covered := nofun
  apart := nofun

section Step

variable {visited : List LiveInterval} {now : Nat} {s : ScanState}
variable {iv : LiveInterval}

/-- Expiry keeps the invariant and moves on to the start of the interval. -/
theorem ScanInvariant.expire (inv : ScanInvariant visited now s)
    (later : now ≤ iv.start) : ScanInvariant visited iv.start
      { s with active := LinearScan.expire iv.start s.active } where
  distinct := inv.distinct.filter _
  bounded e member := inv.bounded e (mem_expire.mp member).1
  known e member := inv.known e (mem_expire.mp member).1
  assigned e member := inv.assigned e (mem_expire.mp member).1
  covered other member unspilled runs := by
    obtain ⟨e, active, same, stop⟩ :=
      inv.covered other member unspilled (Nat.lt_of_le_of_lt later runs)
    exact ⟨e, mem_expire.mpr ⟨active, stop ▸ runs⟩, same, stop⟩
  apart := inv.apart

/-- The registers stay apart if the new interval is apart from all active
entries. -/
theorem ScanInvariant.apart_snoc {s' : ScanState} {p : PRegId}
    (inv : ScanInvariant visited iv.start s)
    (fresh : ∀ other ∈ visited, other.vreg ≠ iv.vreg)
    (assignment : s'.assignment = Function.update s.assignment iv.vreg p)
    (spilled : ∀ v, s'.spilled v = false → s.spilled v = false)
    (unused : s'.spilled iv.vreg = false → ∀ e ∈ s.active,
      s'.spilled e.vreg = false → e.preg ≠ p) :
    NonInterfering (visited ++ [iv]) s' := by
  have old {other : LiveInterval} (member : other ∈ visited) :
      s'.assignment other.vreg = s.assignment other.vreg := by
    rw [assignment, Function.update_of_ne (fresh other member)]
  have new : s'.assignment iv.vreg = p := by
    rw [assignment, Function.update_self]
  have differs {other : LiveInterval} (member : other ∈ visited)
      (runs : iv.start < other.stop) (unspilled : s'.spilled other.vreg = false)
      (kept : s'.spilled iv.vreg = false) :
      s'.assignment other.vreg ≠ s'.assignment iv.vreg := by
    obtain ⟨e, active, same, -⟩ :=
      inv.covered other member (spilled _ unspilled) runs
    rw [old member, new, ← same, inv.assigned e active]
    exact unused kept e active (same ▸ unspilled)
  intro a aMember b bMember distinct overlap aKept bKept
  rcases List.mem_append.mp aMember with aOld | aNew
  · rcases List.mem_append.mp bMember with bOld | bNew
    · rw [old aOld, old bOld]
      exact inv.apart a aOld b bOld distinct overlap (spilled _ aKept)
        (spilled _ bKept)
    · cases List.mem_singleton.mp bNew
      exact differs aOld overlap.2 aKept bKept
  · cases List.mem_singleton.mp aNew
    rcases List.mem_append.mp bMember with bOld | bNew
    · exact (differs bOld overlap.1 bKept aKept).symm
    · cases List.mem_singleton.mp bNew
      exact absurd rfl distinct

theorem distinct_snoc {active : List ActiveEntry} {e : ActiveEntry}
    (distinct : DistinctRegisters active)
    (unused : ∀ other ∈ active, other.preg ≠ e.preg) :
    DistinctRegisters (active ++ [e]) := by
  rw [DistinctRegisters, List.pairwise_append]
  refine ⟨distinct, List.pairwise_singleton _ _, ?_⟩
  intro other member last single
  cases List.mem_singleton.mp single
  exact unused other member

variable (fresh : ∀ other ∈ visited, other.vreg ≠ iv.vreg)
include fresh

theorem ScanInvariant.vreg_ne (inv : ScanInvariant visited now s)
    {e : ActiveEntry} (member : e ∈ s.active) : e.vreg ≠ iv.vreg := by
  obtain ⟨other, visited, same⟩ := inv.known e member
  rw [← same]
  exact fresh other visited

theorem ScanInvariant.assign {p : PRegId}
    (inv : ScanInvariant visited iv.start s) (small : p < kLinearScanMaxPRegs)
    (unused : ∀ e ∈ s.active, e.preg < kLinearScanMaxPRegs → e.preg ≠ p) :
    ScanInvariant (visited ++ [iv]) iv.start (LinearScan.assign s iv p) := by
  have free (e : ActiveEntry) (member : e ∈ s.active) : e.preg ≠ p :=
    unused e member (inv.bounded e member)
  constructor
  case distinct => exact distinct_snoc inv.distinct free
  case bounded =>
    intro e member
    rcases List.mem_append.mp member with old | new
    · exact inv.bounded e old
    · cases List.mem_singleton.mp new
      exact small
  case known =>
    intro e member
    rcases List.mem_append.mp member with old | new
    · obtain ⟨other, visited, same⟩ := inv.known e old
      exact ⟨other, List.mem_append_left _ visited, same⟩
    · cases List.mem_singleton.mp new
      exact ⟨iv, List.mem_append_right _ (List.mem_singleton_self iv), rfl⟩
  case assigned =>
    intro e member
    rcases List.mem_append.mp member with old | new
    · exact (Function.update_of_ne (inv.vreg_ne fresh old) ..).trans
        (inv.assigned e old)
    · cases List.mem_singleton.mp new
      exact Function.update_self ..
  case covered =>
    intro other member unspilled runs
    rcases List.mem_append.mp member with old | new
    · obtain ⟨e, active, rest⟩ := inv.covered other old unspilled runs
      exact ⟨e, List.mem_append_left _ active, rest⟩
    · cases List.mem_singleton.mp new
      exact ⟨_, List.mem_append_right _ (List.mem_singleton_self _), rfl, rfl⟩
  case apart =>
    exact inv.apart_snoc fresh rfl (fun _ kept => kept) fun _ e member _ =>
      free e member

theorem ScanInvariant.steal {m : ActiveEntry}
    (inv : ScanInvariant visited iv.start s) (active : m ∈ s.active) :
    ScanInvariant (visited ++ [iv]) iv.start (LinearScan.steal s iv m) := by
  have free (e : ActiveEntry) (member : e ∈ s.active) (other : e ≠ m) :
      e.preg ≠ m.preg := by
    have symmetric : Std.Symm fun a b : ActiveEntry => a.preg ≠ b.preg :=
      ⟨fun _ _ differ => differ.symm⟩
    exact inv.distinct.forall member active other
  have distinct : DistinctRegisters (s.active.erase m) :=
    inv.distinct.sublist List.erase_sublist
  constructor
  case distinct =>
    refine distinct_snoc distinct fun e member => ?_
    intro same
    -- Entries that share the register of `m` were erased with it.
    have count := (List.pairwise_cons.mp
      (List.Pairwise.perm inv.distinct (List.perm_cons_erase active)
        fun differ => differ.symm)).1 e member
    exact count same.symm
  case bounded =>
    intro e member
    rcases List.mem_append.mp member with old | new
    · exact inv.bounded e (List.mem_of_mem_erase old)
    · cases List.mem_singleton.mp new
      exact inv.bounded m active
  case known =>
    intro e member
    rcases List.mem_append.mp member with old | new
    · obtain ⟨other, visited, same⟩ := inv.known e (List.mem_of_mem_erase old)
      exact ⟨other, List.mem_append_left _ visited, same⟩
    · cases List.mem_singleton.mp new
      exact ⟨iv, List.mem_append_right _ (List.mem_singleton_self iv), rfl⟩
  case assigned =>
    intro e member
    rcases List.mem_append.mp member with old | new
    · have before := List.mem_of_mem_erase old
      exact (Function.update_of_ne (inv.vreg_ne fresh before) ..).trans
        (inv.assigned e before)
    · cases List.mem_singleton.mp new
      exact Function.update_self ..
  case covered =>
    intro other member kept runs
    obtain ⟨notStolen, before⟩ := unspilled_before kept
    rcases List.mem_append.mp member with old | new
    · obtain ⟨e, member, same, stop⟩ := inv.covered other old before runs
      have remains : e ≠ m := fun equal => notStolen (equal ▸ same.symm)
      exact ⟨e, List.mem_append_left _ ((List.mem_erase_of_ne remains).mpr member),
        same, stop⟩
    · cases List.mem_singleton.mp new
      exact ⟨_, List.mem_append_right _ (List.mem_singleton_self _), rfl, rfl⟩
  case apart =>
    refine inv.apart_snoc fresh rfl (fun _ kept => (unspilled_before kept).2) ?_
    intro _ e member kept
    exact free e member fun equal => (unspilled_before kept).1 (equal ▸ rfl)

theorem ScanInvariant.spillSelf (inv : ScanInvariant visited iv.start s) :
    ScanInvariant (visited ++ [iv]) iv.start (LinearScan.spillSelf s iv) := by
  constructor
  case distinct => exact inv.distinct
  case bounded => exact inv.bounded
  case known =>
    intro e member
    obtain ⟨other, visited, same⟩ := inv.known e member
    exact ⟨other, List.mem_append_left _ visited, same⟩
  case assigned =>
    intro e member
    exact (Function.update_of_ne (inv.vreg_ne fresh member) ..).trans
      (inv.assigned e member)
  case covered =>
    intro other member kept runs
    obtain ⟨notNew, before⟩ := unspilled_before kept
    rcases List.mem_append.mp member with old | new
    · exact inv.covered other old before runs
    · cases List.mem_singleton.mp new
      exact absurd rfl notNew
  case apart =>
    refine inv.apart_snoc fresh rfl (fun _ kept => (unspilled_before kept).2) ?_
    exact fun kept => absurd rfl (unspilled_before kept).1

theorem ScanInvariant.step {regs : Registers}
    (gpr : regs.numGpr ≤ kLinearScanMaxPRegs)
    (fpr : regs.numFpr ≤ kLinearScanMaxPRegs)
    (inv : ScanInvariant visited now s) (later : now ≤ iv.start) :
    ScanInvariant (visited ++ [iv]) iv.start (scanStep regs s iv) := by
  have expired := inv.expire later
  rcases scanStep_cases regs s iv gpr fpr with
    ⟨p, small, unused, step⟩ | ⟨m, active, step⟩ | step
  · rw [step]
    exact expired.assign fresh small unused
  · rw [step]
    exact expired.steal fresh active
  · rw [step]
    exact expired.spillSelf fresh

end Step

/-- Intervals in the order of their starts, one for each register. -/
structure Scannable (intervals : List LiveInterval) : Prop where
  sorted : intervals.Pairwise fun a b => a.start ≤ b.start
  single : intervals.Pairwise fun a b => a.vreg ≠ b.vreg

/-- The invariant holds after every prefix of the intervals. -/
theorem scan_invariant {regs : Registers}
    (gpr : regs.numGpr ≤ kLinearScanMaxPRegs)
    (fpr : regs.numFpr ≤ kLinearScanMaxPRegs) {intervals : List LiveInterval}
    (scannable : Scannable intervals) (steps : Nat) :
    ∃ now, ScanInvariant (intervals.take steps) now
        (scan regs (intervals.take steps)) ∧
      ∀ iv ∈ intervals.drop steps, now ≤ iv.start := by
  induction steps with
  | zero => exact ⟨0, scanInvariant_nil, fun iv _ => Nat.zero_le _⟩
  | succ steps ih =>
      obtain ⟨now, inv, later⟩ := ih
      by_cases inside : steps < intervals.length
      · have split : intervals.take (steps + 1) =
            intervals.take steps ++ [intervals[steps]] :=
          (List.take_concat_get' intervals steps inside).symm
        have drop := List.drop_eq_getElem_cons inside
        have whole : intervals =
            intervals.take steps ++ intervals.drop steps :=
          (List.take_append_drop steps intervals).symm
        have single := scannable.single
        rw [whole, drop, List.pairwise_append] at single
        have sorted := scannable.sorted
        rw [whole, drop, List.pairwise_append] at sorted
        have fresh (other : LiveInterval)
            (member : other ∈ intervals.take steps) :
            other.vreg ≠ intervals[steps].vreg :=
          single.2.2 other member _ List.mem_cons_self
        rw [split]
        refine ⟨intervals[steps].start, ?_, ?_⟩
        · have next := inv.step fresh gpr fpr (later _ (by
            rw [drop]
            exact List.mem_cons_self))
          rw [scan, List.foldl_append]
          exact next
        · exact (List.pairwise_cons.mp sorted.2.1).1
      · have past := Nat.not_lt.mp inside
        rw [List.take_of_length_le past] at inv
        rw [List.take_of_length_le (Nat.le_succ_of_le past),
          List.drop_of_length_le (Nat.le_succ_of_le past)]
        exact ⟨now, inv, nofun⟩

theorem intervalOf_vreg {instrs : List MachineInstr} {v : VRegId}
    {iv : LiveInterval} (found : intervalOf instrs v = some iv) : iv.vreg = v := by
  cases extent : firstLast instrs v with
  | none =>
      rw [intervalOf, extent] at found
      cases found
  | some e =>
      rw [intervalOf, extent] at found
      cases found
      rfl

theorem scannable_sort (order : IntervalOrder) (mf : MachineFunction) :
    Scannable (order.sort (computeIntervals mf)) where
  sorted := by
    refine (order.sorted _).imp ?_
    intro a b notBefore
    have := of_decide_eq_false notBefore
    omega
  single := by
    refine List.Pairwise.perm ?_ (order.perm _).symm fun differ => differ.symm
    rw [computeIntervals, List.pairwise_filterMap]
    refine List.nodup_range.imp ?_
    intro v w differ a aFound b bFound
    rw [intervalOf_vreg aFound, intervalOf_vreg bFound]
    exact differ

/-- Unspilled registers whose intervals overlap are kept apart. -/
theorem run_apart {regs : Registers} {order : IntervalOrder}
    {mf : MachineFunction} (gpr : regs.numGpr ≤ kLinearScanMaxPRegs)
    (fpr : regs.numFpr ≤ kLinearScanMaxPRegs) :
    NonInterfering (computeIntervals mf) (run regs order mf) := by
  obtain ⟨now, inv, -⟩ := scan_invariant gpr fpr (scannable_sort order mf)
    (order.sort (computeIntervals mf)).length
  rw [List.take_length] at inv
  intro a aMember b bMember
  exact inv.apart a ((order.perm _).mem_iff.mpr aMember) b
    ((order.perm _).mem_iff.mpr bMember)

/-- Unspilled registers whose intervals overlap get different physical
registers, and at every step of the scan the active entries hold pairwise
different ones. -/
theorem run_nonInterfering (regs : Registers) (order : IntervalOrder)
    (mf : MachineFunction) (gpr : regs.numGpr ≤ kLinearScanMaxPRegs)
    (fpr : regs.numFpr ≤ kLinearScanMaxPRegs) :
    NonInterfering (computeIntervals mf) (run regs order mf) ∧
      ∀ steps, DistinctRegisters
        (scan regs ((order.sort (computeIntervals mf)).take steps)).active := by
  refine ⟨run_apart gpr fpr, fun steps => ?_⟩
  obtain ⟨now, inv, -⟩ :=
    scan_invariant gpr fpr (scannable_sort order mf) steps
  exact inv.distinct

/-- Three values live at once. -/
def threeLive : MachineFunction where
  instrs := [
    { op := .movImm, result := some 0, imm := some 7 },
    { op := .movImm, result := some 1, imm := some 8 },
    { op := .movImm, result := some 2, imm := some 9 },
    { op := .add, result := some 3, uses := [some 1, some 2] },
    { op := .ret, uses := [some 0] }]

/-- With two registers the scan spills the first value, which ends last, and
hands its register to the third. -/
theorem run_nonInterfering_threeLive :
    (run ⟨2, 0, 0⟩ .inserted threeLive).spilled 0 = true ∧
      NonInterfering (computeIntervals threeLive)
        (run ⟨2, 0, 0⟩ .inserted threeLive) :=
  ⟨by decide, (run_nonInterfering ⟨2, 0, 0⟩ .inserted threeLive (by decide)
    (by decide)).1⟩

/-- A scan that reports no spills marked no register. -/
theorem unspilled_of_spills {regs : Registers} (intervals : List LiveInterval)
    (s : ScanState)
    (none : (intervals.foldl (scanStep regs) s).spills = 0) :
    s.spills = 0 ∧ (intervals.foldl (scanStep regs) s).spilled = s.spilled := by
  induction intervals generalizing s with
  | nil => exact ⟨none, rfl⟩
  | cons iv rest ih =>
      obtain ⟨noSpill, same⟩ := ih _ none
      rw [List.foldl_cons, same]
      unfold scanStep at noSpill ⊢
      dsimp only at noSpill ⊢
      split at noSpill
      case h_1 => exact ⟨noSpill, rfl⟩
      case h_2 =>
        split at noSpill
        · split at noSpill <;> cases noSpill
        · cases noSpill

end LinearScan

end Aegis
