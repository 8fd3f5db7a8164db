import AegisCompiler.CallSpanning
import AegisCompiler.EncodedInstructions
import AegisCompiler.LiveIntervals

/-!
# The homes of live registers

After an allocation without spills every mentioned register has a home.  Homes of
registers that are live together differ, and what is live across a call has a home
that the callee saves.
-/

namespace Aegis

namespace LinearScan

/-- The registers handed out so far lie below a bound. -/
structure Limited (bound : Nat) (visited : List LiveInterval) (s : ScanState) : Prop where
  active : ∀ e ∈ s.active, e.preg < bound
  assigned : ∀ iv ∈ visited, s.spilled iv.vreg = false → s.assignment iv.vreg < bound

section Step

variable {bound : Nat} {visited : List LiveInterval} {s s' : ScanState}
variable {iv : LiveInterval}

/-- A step that gives the interval a register below the bound, or spills it. -/
theorem Limited.snoc {p : PRegId} (limited : Limited bound visited s)
    (active : ∀ e ∈ s'.active, e.preg < bound)
    (assignment : s'.assignment = Function.update s.assignment iv.vreg p)
    (spilled : ∀ v, s'.spilled v = false → s.spilled v = false)
    (below : s'.spilled iv.vreg = false → p < bound) :
    Limited bound (visited ++ [iv]) s' := by
  refine ⟨active, fun other member kept => ?_⟩
  rw [assignment]
  by_cases same : other.vreg = iv.vreg
  · rw [same] at kept ⊢
    rw [Function.update_self]
    exact below kept
  · rw [Function.update_of_ne same]
    rcases List.mem_append.mp member with old | new
    · exact limited.assigned other old (spilled _ kept)
    · exact absurd (congrArg LiveInterval.vreg (List.mem_singleton.mp new)) same

theorem Limited.step {regs : Registers} (limited : Limited bound visited s)
    (gpr : regs.numGpr ≤ bound) (fpr : regs.numFpr ≤ bound) :
    Limited bound (visited ++ [iv]) (scanStep regs s iv) := by
  have kept : ∀ e ∈ expire iv.start s.active, e.preg < bound := fun e member =>
    limited.active e (mem_expire.mp member).1
  have num : (if iv.rc = .float then regs.numFpr else regs.numGpr) ≤ bound := by
    split
    · exact fpr
    · exact gpr
  have selfSpilled : Limited bound (visited ++ [iv])
      (spillSelf { s with active := expire iv.start s.active } iv) := by
    refine limited.snoc kept rfl (fun _ kept => (unspilled_before kept).2) fun unspilled => ?_
    exact absurd rfl (unspilled_before unspilled).1
  unfold scanStep
  dsimp only
  split
  case h_1 p free =>
    have small : p < bound := Nat.lt_of_lt_of_le (freePReg_unused free).1 num
    refine limited.snoc (fun e member => ?_) rfl (fun _ kept => kept) fun _ => small
    rcases List.mem_append.mp member with old | new
    · exact kept e old
    · rw [List.mem_singleton.mp new]
      exact small
  case h_2 =>
    split
    case h_2 => exact selfSpilled
    case h_1 m latest =>
      split
      case isFalse => exact selfSpilled
      case isTrue =>
        have small : m.preg < bound := kept m (furthest_mem latest)
        refine limited.snoc (fun e member => ?_) rfl
          (fun _ kept => (unspilled_before kept).2) fun _ => small
        rcases List.mem_append.mp member with old | new
        · exact kept e (List.mem_of_mem_erase old)
        · rw [List.mem_singleton.mp new]
          exact small

end Step

theorem scan_limited {regs : Registers} {bound : Nat} (gpr : regs.numGpr ≤ bound)
    (fpr : regs.numFpr ≤ bound) (rest visited : List LiveInterval) (s : ScanState)
    (limited : Limited bound visited s) :
    Limited bound (visited ++ rest) (rest.foldl (scanStep regs) s) := by
  induction rest generalizing visited s with
  | nil => rwa [List.append_nil]
  | cons iv rest ih =>
      rw [List.append_cons]
      exact ih _ _ (limited.step gpr fpr)

end LinearScan

namespace ExecEncoder

open LinearScan LiveIntervals FlowSpans
open X86 (Reg)

/-- The home of a register that has one. -/
def home (ra : ScanState) (v : VRegId) : Reg := kHomeRegs.getD (ra.assignment v) kRegRax

/-- The allocation that the encoder asks for: as many registers as there are homes,
the floor at the homes that survive a call, and no spills. -/
structure Allocated (mf : MachineFunction) (ra : ScanState) : Prop where
  ran : ∃ regs order, ra = run regs order mf ∧ regs.numGpr ≤ kExecHomeRegCount ∧
    regs.numFpr ≤ kExecHomeRegCount ∧ kFirstCalleeSavedHome ≤ regs.calleeSavedFrom
  noSpills : ra.spills = 0

section Homes

variable {mf : MachineFunction} {ra : ScanState}

theorem Allocated.unspilled (allocated : Allocated mf ra) (v : VRegId) :
    ra.spilled v = false := by
  obtain ⟨⟨regs, order, rfl, -⟩, noSpills⟩ := allocated
  exact congrFun (unspilled_of_spills _ _ noSpills).2 v

theorem Allocated.assignment_lt (allocated : Allocated mf ra) {iv : LiveInterval}
    (member : iv ∈ computeIntervals mf) : ra.assignment iv.vreg < kExecHomeRegCount := by
  have unspilled := allocated.unspilled iv.vreg
  obtain ⟨⟨regs, order, rfl, gpr, fpr, -⟩, -⟩ := allocated
  have limited := scan_limited gpr fpr (order.sort (computeIntervals mf)) [] {}
    ⟨nofun, nofun⟩
  exact limited.assigned iv ((order.perm _).mem_iff.mpr member) unspilled

theorem Allocated.homeOf_eq (allocated : Allocated mf ra) {iv : LiveInterval}
    (member : iv ∈ computeIntervals mf) (ctx : String) :
    homeOf ra (some iv.vreg) ctx = .ok (home ra iv.vreg) := by
  have small := allocated.assignment_lt member
  have noPReg : kExecHomeRegCount ≤ kNoPReg := by decide
  have homed : ¬ (ra.assignment iv.vreg = kNoPReg ∨
      kExecHomeRegCount ≤ ra.assignment iv.vreg) := by
    rintro (same | large)
    · rw [same] at small
      exact absurd small (Nat.not_lt.mpr noPReg)
    · exact absurd small (Nat.not_lt.mpr large)
  simp only [homeOf, allocated.unspilled, Bool.false_eq_true, if_false, if_neg homed]
  rfl

theorem home_injective {v w : VRegId} (small : ra.assignment v < kExecHomeRegCount)
    (small' : ra.assignment w < kExecHomeRegCount) (same : home ra v = home ra w) :
    ra.assignment v = ra.assignment w := by
  have nodup : kHomeRegs.Nodup := by decide
  unfold home at same
  rw [List.getD_eq_getElem?_getD, List.getD_eq_getElem?_getD,
    List.getElem?_eq_getElem (show ra.assignment v < kHomeRegs.length from small),
    List.getElem?_eq_getElem (show ra.assignment w < kHomeRegs.length from small'),
    Option.getD_some, Option.getD_some] at same
  exact (List.Nodup.getElem_inj_iff nodup).mp same

/-- Registers whose intervals cover a common position have different homes. -/
theorem Allocated.home_ne (allocated : Allocated mf ra) {a b : LiveInterval}
    (aMember : a ∈ computeIntervals mf) (bMember : b ∈ computeIntervals mf) {p : Nat}
    (aCovers : Covers a p) (bCovers : Covers b p) (differ : a.vreg ≠ b.vreg) :
    home ra a.vreg ≠ home ra b.vreg := by
  intro same
  have equal := home_injective (allocated.assignment_lt aMember)
    (allocated.assignment_lt bMember) same
  obtain ⟨⟨regs, order, rfl, gpr, fpr, -⟩, noSpills⟩ := allocated
  have small : kExecHomeRegCount ≤ kLinearScanMaxPRegs := by decide
  exact assignment_ne_of_covers (gpr.trans small) (fpr.trans small) noSpills aMember
    bMember aCovers bCovers differ equal

/-- What spans a call has a home that survives it. -/
theorem Allocated.home_saved (allocated : Allocated mf ra) {iv : LiveInterval}
    (member : iv ∈ computeIntervals mf) (spans : SpansCall mf.instrs iv) :
    home ra iv.vreg ∈ calleeSavedHomes := by
  have small := allocated.assignment_lt member
  have unspilled := allocated.unspilled iv.vreg
  obtain ⟨⟨regs, order, rfl, -, -, floor⟩, -⟩ := allocated
  have flags (other : LiveInterval) (inside : other ∈ order.sort (computeIntervals mf)) :
      other.spansCall = true ↔ SpansCall mf.instrs other := by
    obtain ⟨v, -, found⟩ := List.mem_filterMap.mp ((order.perm _).mem_iff.mp inside)
    exact spansCall_iff found
  have homed := scan_homed (order.sort (computeIntervals mf)) [] {}
    (scannable_sort order mf) flags (homed_nil mf.instrs regs.calleeSavedFrom) nofun
  have above : kFirstCalleeSavedHome ≤ (run regs order mf).assignment iv.vreg :=
    floor.trans (homed.homed iv ((order.perm _).mem_iff.mpr member) spans unspilled)
  have inside : (run regs order mf).assignment iv.vreg < kHomeRegs.length := small
  have drop : kHomeRegs[(run regs order mf).assignment iv.vreg] ∈ calleeSavedHomes := by
    rw [calleeSavedHomes, List.mem_drop_iff_getElem]
    have split := Nat.sub_add_cancel above
    refine ⟨(run regs order mf).assignment iv.vreg - kFirstCalleeSavedHome, ?_, ?_⟩
    · rwa [split]
    · simp only [Nat.add_sub_cancel' above]
  unfold home
  rwa [List.getD_eq_getElem?_getD, List.getElem?_eq_getElem inside, Option.getD_some]

end Homes

/-- Some path from before the instruction reads the register before it is written. -/
abbrev LiveIn (instrs : List MachineInstr) (v : VRegId) (p : Nat) : Prop :=
  LiveBefore (Flows instrs) (Defines instrs) (LiveIntervals.Reads instrs) v p

/-- The stream of a function: nested loops and selects, with every register defined
before it is used. -/
structure WellFormedFlow (mf : MachineFunction) : Prop where
  structured : Structured mf.instrs
  wellDefined :
    DefinedBeforeUse (Flows mf.instrs) (Defines mf.instrs) (LiveIntervals.Reads mf.instrs)

section Live

variable {mf : MachineFunction} {ra : ScanState} (allocated : Allocated mf ra)

include allocated

theorem Allocated.homeOf_mention {v : VRegId} {p : Nat}
    (mentions : Mentions mf.instrs p v) (ctx : String) :
    homeOf ra (some v) ctx = .ok (home ra v) := by
  obtain ⟨iv, member, rfl, -⟩ := interval_of_mention mentions
  exact allocated.homeOf_eq member ctx

/-- Registers that are mentioned before and behind a common position have different
homes. -/
theorem Allocated.home_ne_of_mentions {v w : VRegId} (differ : v ≠ w)
    {first last first' last' p : Nat} (opens : Mentions mf.instrs first v)
    (closes : Mentions mf.instrs last v) (opens' : Mentions mf.instrs first' w)
    (closes' : Mentions mf.instrs last' w) (above : first ≤ p ∧ first' ≤ p)
    (below : p ≤ last ∧ p ≤ last') : home ra v ≠ home ra w := by
  obtain ⟨a, aMember, rfl, aContains, -⟩ := interval_of_mention opens
  obtain ⟨b, bMember, rfl, bContains, -⟩ := interval_of_mention opens'
  have aFirst := aContains first opens
  have aLast := aContains last closes
  have bFirst := bContains first' opens'
  have bLast := bContains last' closes'
  refine allocated.home_ne (p := p) aMember bMember ?_ ?_ differ
  · exact ⟨by omega, by omega⟩
  · exact ⟨by omega, by omega⟩

variable (flow : WellFormedFlow mf) {p : Nat} (reachable : Reachable mf.instrs p)

include flow reachable

/-- What an instruction writes and what is live behind it have different homes. -/
theorem Allocated.home_ne_of_live {d v : VRegId} (isDef : Defines mf.instrs p d)
    (live : LiveAfter (Flows mf.instrs) (Defines mf.instrs) (LiveIntervals.Reads mf.instrs) v p)
    (differ : v ≠ d) : home ra v ≠ home ra d := by
  obtain ⟨a, aMember, rfl, contains, -⟩ := interval_of_mention (Or.inl isDef)
  obtain ⟨b, bMember, rfl, bCovers⟩ :=
    interval_of_live flow.structured flow.wellDefined reachable (Or.inr live)
  exact allocated.home_ne bMember aMember bCovers (contains p (Or.inl isDef)) differ

/-- What is live before and behind a call survives it. -/
theorem Allocated.home_saved_of_live {mi : MachineInstr}
    (found : mf.instrs[p]? = some mi) (isCall : mi.op = .call) {v : VRegId}
    (untouched : ¬ Defines mf.instrs p v) (live : LiveIn mf.instrs v (p + 1)) :
    home ra v ∈ calleeSavedHomes := by
  have next : Flows mf.instrs p (p + 1) := by
    refine Or.inl ⟨⟨mi, found, ?_, ?_⟩, rfl⟩ <;> simp [isCall]
  have before : LiveIn mf.instrs v p := .pass untouched next live
  obtain ⟨q, mentions⟩ := LiveBefore.mentioned live
  obtain ⟨iv, member, rfl, contains, spanned⟩ := interval_of_mention mentions
  have single := flow.structured.singleEntry
  have inside := contains q mentions
  have covered {r : Nat} (reached : Reachable mf.instrs r)
      (live : LiveIn mf.instrs iv.vreg r) : iv.start < r ∧ r ≤ iv.stop - 1 := by
    refine LiveBefore.covered single flow.wellDefined (fun d isDef => ?_)
      (fun d reads => ?_) (fun {head tail} span opens active => ?_) reached live
    · exact (contains d (Or.inl isDef)).1
    · have := contains d (Or.inr reads)
      omega
    · have := spanned span opens (by omega)
      omega
  have here := covered reachable before
  have behind := covered (reachable.step next) live
  exact allocated.home_saved member ⟨p, mi, found, isCall, here.1, by omega⟩

end Live

end ExecEncoder

end Aegis
