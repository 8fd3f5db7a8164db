import AegisCompiler.LinearScan

/-!
# Registers across calls

The scan gives what spans a call a register from the floor on.  It steals only from
entries that end later, and these span every call that the thief spans.
-/

namespace Aegis

namespace LinearScan

/-- A call lies strictly inside an interval. -/
def SpansCall (instrs : List MachineInstr) (iv : LiveInterval) : Prop :=
  ∃ i mi, instrs[i]? = some mi ∧ mi.op = .call ∧ iv.start < i ∧ i + 1 < iv.stop

theorem callBetween_iff {instrs : List MachineInstr} {first last : Nat} :
    callBetween instrs first last = true ↔
      ∃ i mi, instrs[i]? = some mi ∧ mi.op = .call ∧ first < i ∧ i < last := by
  simp only [callBetween, List.any_eq_true, decide_eq_true_eq]
  constructor
  · rintro ⟨⟨mi, i⟩, member, isCall, above, below⟩
    exact ⟨i, mi, List.mk_mem_zipIdx_iff_getElem?.mp member, isCall, above, below⟩
  · rintro ⟨i, mi, found, isCall, above, below⟩
    exact ⟨(mi, i), List.mk_mem_zipIdx_iff_getElem?.mpr found, isCall, above, below⟩

/-- The flag of a computed interval says whether it spans a call. -/
theorem spansCall_iff {instrs : List MachineInstr} {v : VRegId} {iv : LiveInterval}
    (found : intervalOf instrs v = some iv) :
    iv.spansCall = true ↔ SpansCall instrs iv := by
  cases extent : firstLast instrs v with
  | none =>
      rw [intervalOf, extent] at found
      cases found
  | some e =>
      rw [intervalOf, extent] at found
      cases found
      change callBetween _ _ _ = true ↔ _
      rw [callBetween_iff]
      simp only [SpansCall, Nat.add_lt_add_iff_right]

/-- What starts no later and ends later spans every call that an interval spans. -/
theorem SpansCall.mono {instrs : List MachineInstr} {a b : LiveInterval}
    (spans : SpansCall instrs b) (starts : a.start ≤ b.start) (stops : b.stop ≤ a.stop) :
    SpansCall instrs a := by
  obtain ⟨i, mi, found, isCall, above, below⟩ := spans
  exact ⟨i, mi, found, isCall, Nat.lt_of_le_of_lt starts above,
    Nat.lt_of_lt_of_le below stops⟩

/-- The visited intervals that span a call have registers from the floor on, while they
are not spilled. -/
structure Homed (instrs : List MachineInstr) (floor : PRegId) (visited : List LiveInterval)
    (s : ScanState) : Prop where
  known : ∀ e ∈ s.active, ∃ iv ∈ visited, iv.vreg = e.vreg ∧ iv.stop = e.stop ∧
    (SpansCall instrs iv → floor ≤ e.preg)
  homed : ∀ iv ∈ visited, SpansCall instrs iv → s.spilled iv.vreg = false →
    floor ≤ s.assignment iv.vreg

theorem homed_nil (instrs : List MachineInstr) (floor : PRegId) :
    Homed instrs floor [] {} where
  known := nofun
  homed := nofun

section Step

variable {instrs : List MachineInstr} {floor : PRegId} {visited : List LiveInterval}
variable {s : ScanState} {iv : LiveInterval}

theorem Homed.expire (homed : Homed instrs floor visited s) (start : Nat) :
    Homed instrs floor visited
      { s with active := LinearScan.expire start s.active } where
  known e member := homed.known e (mem_expire.mp member).1
  homed := homed.homed

/-- A new entry holds a register from the floor on, if its interval spans a call. -/
theorem Homed.snoc {s' : ScanState} {p : PRegId} (homed : Homed instrs floor visited s)
    (fresh : ∀ other ∈ visited, other.vreg ≠ iv.vreg)
    (above : SpansCall instrs iv → s'.spilled iv.vreg = false → floor ≤ p)
    (active : ∀ e ∈ s'.active, e ∈ s.active ∨
      e = ⟨iv.vreg, iv.stop, p⟩ ∧ s'.spilled iv.vreg = false)
    (assignment : s'.assignment = Function.update s.assignment iv.vreg p)
    (spilled : ∀ v, s'.spilled v = false → s.spilled v = false) :
    Homed instrs floor (visited ++ [iv]) s' := by
  constructor
  · intro e member
    rcases active e member with old | ⟨rfl, kept⟩
    · obtain ⟨other, inside, rest⟩ := homed.known e old
      exact ⟨other, List.mem_append_left _ inside, rest⟩
    · exact ⟨iv, List.mem_append_right _ (List.mem_singleton_self iv), rfl, rfl,
        fun spans => above spans kept⟩
  · intro other member spans kept
    rcases List.mem_append.mp member with old | new
    · rw [assignment, Function.update_of_ne (fresh other old)]
      exact homed.homed other old spans (spilled _ kept)
    · cases List.mem_singleton.mp new
      rw [assignment, Function.update_self]
      exact above spans kept

theorem freePReg_floor {active : List ActiveEntry} {floor num : Nat} {p : PRegId}
    (found : freePReg active floor num = some p) : floor ≤ p := by
  have free := List.find?_some found
  simp only [Bool.and_eq_true, decide_eq_true_eq] at free
  exact free.1

/-- Visiting an interval that starts after all others keeps the invariant. -/
theorem Homed.step {regs : Registers} (homed : Homed instrs regs.calleeSavedFrom visited s)
    (fresh : ∀ other ∈ visited, other.vreg ≠ iv.vreg)
    (sorted : ∀ other ∈ visited, other.start ≤ iv.start)
    (flag : iv.spansCall = true ↔ SpansCall instrs iv)
    (unspilled : s.spilled iv.vreg = false) :
    Homed instrs regs.calleeSavedFrom (visited ++ [iv]) (scanStep regs s iv) := by
  have expired := homed.expire iv.start
  unfold scanStep
  dsimp only
  split
  case h_1 p free =>
    refine expired.snoc fresh (fun spans _ => ?_) (fun e member => ?_) rfl fun _ kept => kept
    · rw [if_pos (flag.mpr spans)] at free
      exact freePReg_floor free
    · rcases List.mem_append.mp member with old | new
      · exact .inl old
      · exact .inr ⟨List.mem_singleton.mp new, unspilled⟩
  case h_2 =>
    have spillsSelf : Homed instrs regs.calleeSavedFrom (visited ++ [iv])
        (spillSelf { s with active := LinearScan.expire iv.start s.active } iv) := by
      have spilled : (spillSelf { s with active := LinearScan.expire iv.start s.active }
          iv).spilled iv.vreg = true := Function.update_self ..
      refine expired.snoc fresh (fun _ kept => ?_) (fun e member => .inl member) rfl
        fun _ kept => (unspilled_before kept).2
      rw [spilled] at kept
      cases kept
    split
    case h_1 m latest =>
      split
      case isTrue later =>
        obtain ⟨a, inside, vreg, stop, above⟩ := expired.known m (furthest_mem latest)
        refine expired.snoc fresh (fun spans _ => ?_) (fun e member => ?_) rfl
          fun _ kept => (unspilled_before kept).2
        · -- The entry that loses its register spans the same call.
          apply above
          apply spans.mono (sorted a inside)
          rw [stop]
          exact Nat.le_of_lt later
        · rcases List.mem_append.mp member with old | new
          · exact .inl (List.mem_of_mem_erase old)
          · refine .inr ⟨List.mem_singleton.mp new, ?_⟩
            have differs : iv.vreg ≠ m.vreg := vreg ▸ (fresh a inside).symm
            exact (Function.update_of_ne differs ..).trans unspilled
      case isFalse => exact spillsSelf
    case h_2 => exact spillsSelf

end Step

theorem scanStep_spilled {regs : Registers} {s : ScanState} {iv : LiveInterval}
    {v : VRegId} (now : (scanStep regs s iv).spilled v = true) :
    s.spilled v = true ∨ v = iv.vreg ∨ ∃ e ∈ s.active, e.vreg = v := by
  have marked {w : VRegId} (now : Function.update s.spilled w true v = true) :
      s.spilled v = true ∨ v = w := by
    by_cases same : v = w
    · exact .inr same
    · rw [Function.update_of_ne same] at now
      exact .inl now
  unfold scanStep at now
  dsimp only at now
  split at now
  · exact .inl now
  · split at now
    case h_1 m latest =>
      split at now
      · rcases marked now with before | rfl
        · exact .inl before
        · exact .inr (.inr ⟨m, (mem_expire.mp (furthest_mem latest)).1, rfl⟩)
      · exact (marked now).imp_right .inl
    · exact (marked now).imp_right .inl

/-- Only visited registers are spilled. -/
def SpillsVisited (visited : List LiveInterval) (s : ScanState) : Prop :=
  ∀ v, s.spilled v = true → ∃ iv ∈ visited, iv.vreg = v

/-- The rest of the intervals keeps the invariant. -/
theorem scan_homed {instrs : List MachineInstr} {regs : Registers}
    (rest visited : List LiveInterval) (s : ScanState)
    (scannable : Scannable (visited ++ rest))
    (flags : ∀ iv ∈ rest, iv.spansCall = true ↔ SpansCall instrs iv)
    (homed : Homed instrs regs.calleeSavedFrom visited s)
    (spills : SpillsVisited visited s) :
    Homed instrs regs.calleeSavedFrom (visited ++ rest)
      (rest.foldl (scanStep regs) s) := by
  induction rest generalizing visited s with
  | nil =>
      rw [List.append_nil]
      exact homed
  | cons iv rest ih =>
      obtain ⟨sorted, single⟩ := scannable
      have fresh (other : LiveInterval) (member : other ∈ visited) :
          other.vreg ≠ iv.vreg :=
        (List.pairwise_append.mp single).2.2 other member iv List.mem_cons_self
      have before (other : LiveInterval) (member : other ∈ visited) :
          other.start ≤ iv.start :=
        (List.pairwise_append.mp sorted).2.2 other member iv List.mem_cons_self
      have unspilled : s.spilled iv.vreg = false := by
        by_contra marked
        obtain ⟨other, member, same⟩ := spills iv.vreg (Bool.not_eq_false _ ▸ marked)
        exact fresh other member same
      have step := homed.step fresh before (flags iv List.mem_cons_self) unspilled
      rw [List.append_cons] at sorted single ⊢
      refine ih (visited ++ [iv]) (scanStep regs s iv) ⟨sorted, single⟩
        (fun other member => flags other (List.mem_cons_of_mem _ member)) step ?_
      intro v now
      rcases scanStep_spilled now with marked | rfl | ⟨e, active, rfl⟩
      · obtain ⟨other, member, same⟩ := spills v marked
        exact ⟨other, List.mem_append_left _ member, same⟩
      · exact ⟨iv, List.mem_append_right _ (List.mem_singleton_self iv), rfl⟩
      · obtain ⟨other, member, same, -⟩ := homed.known e active
        exact ⟨other, List.mem_append_left _ member, same⟩

/-- Unspilled registers that live across a call are homed from the floor on. -/
theorem run_homed (regs : Registers) (order : IntervalOrder) (mf : MachineFunction)
    {iv : LiveInterval} (member : iv ∈ computeIntervals mf)
    (spans : SpansCall mf.instrs iv)
    (unspilled : (run regs order mf).spilled iv.vreg = false) :
    regs.calleeSavedFrom ≤ (run regs order mf).assignment iv.vreg := by
  have flags (other : LiveInterval) (member : other ∈ order.sort (computeIntervals mf)) :
      other.spansCall = true ↔ SpansCall mf.instrs other := by
    obtain ⟨v, -, found⟩ := List.mem_filterMap.mp ((order.perm _).mem_iff.mp member)
    exact spansCall_iff found
  have homed := scan_homed (order.sort (computeIntervals mf)) [] {}
    (scannable_sort order mf) flags (homed_nil mf.instrs regs.calleeSavedFrom) nofun
  exact homed.homed iv ((order.perm _).mem_iff.mpr member) spans unspilled

/-- Two values live across a call, where only one register survives it. -/
def acrossCall : MachineFunction where
  instrs := [
    { op := .movImm, result := some 0, imm := some 7 },
    { op := .movImm, result := some 1, imm := some 8 },
    { op := .call, result := some 2, imm := some 0 },
    { op := .add, result := some 3, uses := [some 1, some 2] },
    { op := .ret, uses := [some 0] }]

/-- The second value steals the register of the first one, which the callee saves. -/
theorem run_homed_acrossCall :
    (run ⟨2, 0, 1⟩ .inserted acrossCall).spilled 0 = true ∧
      1 ≤ (run ⟨2, 0, 1⟩ .inserted acrossCall).assignment 1 := by
  have member : (⟨1, .general, 1, 4, true⟩ : LiveInterval) ∈ computeIntervals acrossCall := by
    decide
  exact ⟨by decide, run_homed ⟨2, 0, 1⟩ .inserted acrossCall member
    ⟨2, _, rfl, rfl, by decide, by decide⟩ (by decide)⟩

end LinearScan

end Aegis
