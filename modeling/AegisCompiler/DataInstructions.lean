import AegisCompiler.EncodedShape

/-!
# Computing instructions over homes

When the homes hold what a computing instruction reads, its bytes put the value
that it computes into the home of its result.
-/

namespace Aegis

namespace ExecEncoder

open X86 (Byte Reg Cpu Instr)

/-- The code of the instruction reads the operand after it wrote the result. -/
def readsLate (op : MachineOp) (slot : Nat) : Bool :=
  match op with
  | .add | .sub | .and | .or | .xor | .mul => decide (slot = 1)
  | .select => decide (slot < 2)
  | _ => false

theorem encodeSelect_runs {dst cond tv : Reg} (condApart : dst ≠ cond) (tvApart : dst ≠ tv)
    (fv : Reg) (cpu : Cpu) :
    ∃ after, Runs (encodeSelect dst cond tv fv) cpu after ∧
      Leaves dst (if cpu.regs cond ≠ 0 then cpu.regs tv else cpu.regs fv) cpu after := by
  let moved := cpu.set dst (cpu.regs fv)
  have condKept : moved.regs cond = cpu.regs cond := Cpu.set_other _ condApart.symm _
  have tvKept : moved.regs tv = cpu.regs tv := Cpu.set_other _ tvApart.symm _
  let tested : Cpu := { moved with
    flags := X86.flagsOf (moved.regs cond &&& moved.regs cond) (some false) }
  let holds := !(moved.regs cond == 0)
  have condition : X86.Cond.ne.holds tested.flags = some holds := by
    change some (!(moved.regs cond &&& moved.regs cond == 0)) = _
    rw [BitVec.and_self]
  let after := tested.set dst (tested.regs (if holds then tv else dst))
  have executed : (Instr.cmovcc .ne dst tv).exec tested = some after := by
    change (X86.Cond.ne.holds tested.flags).map (fun holds =>
      tested.set dst (tested.regs (if holds then tv else dst))) = some after
    rw [condition, Option.map_some]
  have runs : Runs (encodeSelect dst cond tv fv) cpu after :=
    .append (.append (.of_decodes (movRR_decodes dst fv) rfl)
      (.of_decodes (test_decodes cond cond) rfl))
        (.of_decodes (cmovne_decodes dst tv) executed)
  refine ⟨after, runs, ?_, fun r notDst _ _ => ?_⟩
  · have result : after.regs dst = moved.regs (if holds then tv else dst) :=
      Cpu.set_same _ _ _
    rw [result]
    by_cases zero : cpu.regs cond = 0
    · have off : holds = false := by simp [holds, condKept, zero]
      simp only [off, zero, Bool.false_eq_true, if_false, ne_eq, not_true_eq_false]
      exact Cpu.set_same _ _ _
    · have on : holds = true := by simpa [holds, condKept] using zero
      simp only [on, if_true, ne_eq, zero, not_false_eq_true]
      exact tvKept
  · exact (Cpu.set_other tested notDst _).trans (Cpu.set_other cpu notDst _)

theorem operands_eq {mi : MachineInstr} {regs : Regs} {values : List Word}
    (known : mi.operands regs = some values) :
    mi.uses = mi.reads.map some ∧ values = mi.reads.map regs := by
  have general : ∀ (uses : List (Option VRegId)) values,
      uses.mapM (fun use => use.map regs) = some values →
        uses = (uses.filterMap id).map some ∧ values = (uses.filterMap id).map regs := by
    intro uses
    induction uses with
    | nil =>
        intro values known
        cases known
        exact ⟨rfl, rfl⟩
    | cons use uses ih =>
        intro values known
        rw [List.mapM_cons] at known
        obtain ⟨first, here, known⟩ := Option.bind_eq_some_iff.mp known
        obtain ⟨rest, later, same⟩ := Option.bind_eq_some_iff.mp known
        cases same
        obtain ⟨v, rfl, rfl⟩ := Option.map_eq_some_iff.mp here
        obtain ⟨uses', values'⟩ := ih rest later
        have reads : (some v :: uses).filterMap id = v :: uses.filterMap id := rfl
        rw [reads, List.map_cons, List.map_cons, ← uses', ← values']
        exact ⟨rfl, rfl⟩
  exact general mi.uses values known

theorem useAt_eq {mi : MachineInstr} (full : mi.uses = mi.reads.map some) (slot : Nat) :
    useAt mi slot = mi.reads[slot]? := by
  rw [useAt, full, List.getD_eq_getElem?_getD, List.getElem?_map]
  cases mi.reads[slot]? <;> rfl

theorem read_of_useAt {mi : MachineInstr} {slot : Nat} {v : VRegId}
    (used : useAt mi slot = some v) : v ∈ mi.reads := by
  rw [useAt, List.getD_eq_getElem?_getD] at used
  cases here : mi.uses[slot]? with
  | none =>
      rw [here] at used
      cases used
  | some use =>
      rw [here, Option.getD_some] at used
      exact List.mem_filterMap.mpr ⟨use, List.mem_of_getElem? here, used⟩

/-- An operand with a home is there. -/
theorem read_of_home {ra : LinearScan.ScanState} {mi : MachineInstr} {ctx : String}
    {slot : Nat} {r : Reg} (full : mi.uses = mi.reads.map some)
    (found : homeOf ra (useAt mi slot) ctx = .ok r) :
    ∃ v, mi.reads[slot]? = some v ∧ homeOf ra (some v) ctx = .ok r := by
  rw [useAt_eq full] at found
  cases here : mi.reads[slot]? with
  | none =>
      rw [here] at found
      cases found
  | some v =>
      rw [here] at found
      exact ⟨v, rfl, found⟩

theorem evalOp_unary {op : MachineOp} (isUnary : op ∈ [MachineOp.mov, .neg, .lnot, .bnot])
    {imm : Option Int} {values : List Word} {value : Word}
    (computes : evalOp op imm values = some value) :
    ∃ a, values = [a] ∧ evalOp op none [a] = some value := by
  simp only [List.mem_cons, List.not_mem_nil, or_false] at isUnary
  rcases values with _ | ⟨a, _ | ⟨b, _ | ⟨c, rest⟩⟩⟩
  · rcases isUnary with rfl | rfl | rfl | rfl <;> cases computes
  · rcases isUnary with rfl | rfl | rfl | rfl <;> exact ⟨a, rfl, computes⟩
  · rcases isUnary with rfl | rfl | rfl | rfl <;> cases computes
  · rcases isUnary with rfl | rfl | rfl | rfl <;> cases computes

theorem evalOp_binary {op : MachineOp} (isBinary : hasSecond op = true) {imm : Option Int}
    {values : List Word} (two : 2 ≤ values.length) {value : Word}
    (computes : evalOp op imm values = some value) :
    ∃ a b, values = [a, b] ∧ evalOp op none [a, b] = some value := by
  match values, two with
  | [a, b], _ =>
      refine ⟨a, b, rfl, ?_⟩
      cases imm with
      | none => exact computes
      | some imm => cases op <;> first | (cases isBinary; done) | cases computes
  | _ :: _ :: _ :: _, _ => cases op <;> first | (cases isBinary; done) | cases computes

theorem evalOp_shift {op : MachineOp} (isShift : op ∈ [MachineOp.shl, .sar, .shr])
    {imm : Int} {values : List Word} {value : Word}
    (computes : evalOp op (some imm) values = some value) : ∃ a, values = [a] := by
  simp only [List.mem_cons, List.not_mem_nil, or_false] at isShift
  rcases values with _ | ⟨a, _ | ⟨b, _ | ⟨c, rest⟩⟩⟩
  · rcases isShift with rfl | rfl | rfl <;> cases computes
  · exact ⟨a, rfl⟩
  · rcases isShift with rfl | rfl | rfl <;> cases computes
  · rcases isShift with rfl | rfl | rfl <;> cases computes

theorem evalOp_select {imm : Option Int} {values : List Word} {value : Word}
    (computes : evalOp .select imm values = some value) :
    ∃ cond a b, values = [cond, a, b] ∧ value = if cond ≠ 0 then a else b := by
  match values with
  | [] | [_] | [_, _] | _ :: _ :: _ :: _ :: _ => cases computes
  | [cond, a, b] =>
      cases computes
      exact ⟨cond, a, b, rfl, rfl⟩

theorem evalOp_movImm {imm : Option Int} {values : List Word} {value : Word}
    (computes : evalOp .movImm imm values = some value) :
    imm.map (BitVec.ofInt 64) = some value := by
  match values with
  | [] => exact computes
  | [_] | [_, _] | _ :: _ :: _ :: _ => cases computes

/-- The homes hold what an instruction reads. -/
def HoldsOperands (ra : LinearScan.ScanState) (mi : MachineInstr) (regs : Regs)
    (cpu : Cpu) : Prop :=
  ∀ v ∈ mi.reads, ∀ ctx r, homeOf ra (some v) ctx = .ok r → cpu.regs r = regs v

/-- The bytes of an instruction put the value that it computes into the home of its
result. -/
theorem encodeData_leaves {ra : LinearScan.ScanState} {mi : MachineInstr} {ctx : String}
    {code : List Byte} (encoded : encodeData ra ctx mi = .ok code) {regs after : Regs}
    (executed : mi.execData regs = some after)
    (apart : ∀ slot, readsLate mi.op slot = true → ∀ r,
      homeOf ra (useAt mi slot) ctx = .ok r → homeOf ra mi.result ctx ≠ .ok r)
    {cpu : Cpu} (holds : HoldsOperands ra mi regs cpu) :
    ∃ result value dst cpu', mi.result = some result ∧
      after = Function.update regs result value ∧ homeOf ra (some result) ctx = .ok dst ∧
        Runs code cpu cpu' ∧ Leaves dst value cpu cpu' := by
  obtain ⟨result, given, executed⟩ := Option.bind_eq_some_iff.mp executed
  obtain ⟨values, known, executed⟩ := Option.bind_eq_some_iff.mp executed
  obtain ⟨value, computes, same⟩ := Option.bind_eq_some_iff.mp executed
  cases same
  obtain ⟨full, rfl⟩ := operands_eq known
  have finish {dst : Reg} (dstHome : homeOf ra mi.result ctx = .ok dst)
      (runs : ∃ cpu', Runs code cpu cpu' ∧ Leaves dst value cpu cpu') :
      ∃ other value' dst cpu', mi.result = some other ∧
        Function.update regs result value = Function.update regs other value' ∧
          homeOf ra (some other) ctx = .ok dst ∧ Runs code cpu cpu' ∧
            Leaves dst value' cpu cpu' := by
    obtain ⟨cpu', runs, leaves⟩ := runs
    rw [given] at dstHome
    exact ⟨result, value, dst, cpu', given, rfl, dstHome, runs, leaves⟩
  -- An operand is one of the values, and its home holds it.
  have operand {slot : Nat} {r : Reg} (found : homeOf ra (useAt mi slot) ctx = .ok r) :
      (mi.reads.map regs)[slot]? = some (cpu.regs r) := by
    obtain ⟨v, here, found⟩ := read_of_home full found
    rw [List.getElem?_map, here, holds v (List.mem_of_getElem? here) ctx r found]
    rfl
  have unary (isUnary : mi.op ∈ [MachineOp.mov, .neg, .lnot, .bnot]) {a : Reg}
      (foundA : homeOf ra (useAt mi 0) ctx = .ok a) :
      evalOp mi.op none [cpu.regs a] = some value := by
    obtain ⟨x, shape, computes⟩ := evalOp_unary isUnary computes
    have first := operand foundA
    rw [shape] at first
    cases first
    exact computes
  have binary (isBinary : hasSecond mi.op = true) {a b : Reg}
      (foundA : homeOf ra (useAt mi 0) ctx = .ok a)
      (foundB : homeOf ra (useAt mi 1) ctx = .ok b) :
      evalOp mi.op none [cpu.regs a, cpu.regs b] = some value := by
    have first := operand foundA
    have second := operand foundB
    have two := (List.getElem?_eq_some_iff.mp second).1
    obtain ⟨x, y, shape, computes⟩ := evalOp_binary isBinary two computes
    rw [shape] at first second
    cases first
    cases second
    exact computes
  cases op : mi.op <;> simp only [encodeData, op, except_bind_ok] at encoded
  case movImm =>
    rw [op] at computes
    obtain ⟨imm, immGiven, rfl⟩ := Option.map_eq_some_iff.mp (evalOp_movImm computes)
    rw [immGiven] at encoded
    obtain ⟨dst, dstHome, encoded⟩ := except_bind_ok.mp encoded
    cases encoded
    exact finish dstHome ⟨_, .of_decodes (movImm_decodes dst imm) rfl,
      Cpu.set_same _ _ _, fun r notDst _ _ => Cpu.set_other _ notDst _⟩
  case mov =>
    obtain ⟨dst, dstHome, a, foundA, encoded⟩ := encoded
    cases encoded
    have value := unary (by rw [op]; decide) foundA
    rw [op] at value
    exact finish dstHome ⟨_, .of_decodes (movRR_decodes dst a) rfl,
      (Cpu.set_same _ _ _).trans (Option.some.inj value),
      fun r notDst _ _ => Cpu.set_other _ notDst _⟩
  case neg | bnot =>
    obtain ⟨dst, dstHome, a, foundA, encoded⟩ := encoded
    cases encoded
    have value := unary (by rw [op]; decide) foundA
    rw [op] at value
    exact finish dstHome (encodeUnary_runs (by decide) dst a cpu value)
  case lnot =>
    obtain ⟨dst, dstHome, a, foundA, encoded⟩ := encoded
    cases encoded
    have value := unary (by rw [op]; decide) foundA
    rw [op] at value
    cases value
    exact finish dstHome (encodeLnot_runs dst a cpu)
  case add | sub | and | or | xor | mul =>
    obtain ⟨dst, dstHome, a, foundA, b, foundB, encoded⟩ := encoded
    cases encoded
    have value := binary (by rw [op]; decide) foundA foundB
    rw [op] at value
    have differ : dst ≠ b := by
      rintro rfl
      exact apart 1 (by rw [op]; rfl) dst foundB dstHome
    first
      | exact finish dstHome (encodeAlu_runs (by decide) differ cpu value)
      | (cases value
         exact finish dstHome (encodeMul_runs differ cpu))
  case div | mod | udiv | umod =>
    obtain ⟨dst, dstHome, a, foundA, b, foundB, encoded⟩ := encoded
    cases encoded
    have value := binary (by rw [op]; decide) foundA foundB
    rw [op] at value
    exact finish dstHome
      (encodeDivision_runs (by decide) (home_apart foundB).2 cpu value)
  case cmpEq | cmpNe | cmpLt | cmpLe | cmpGt | cmpGe =>
    obtain ⟨dst, dstHome, a, foundA, b, foundB, encoded⟩ := encoded
    cases encoded
    have value := binary (by rw [op]; decide) foundA foundB
    rw [op] at value
    exact finish dstHome (encodeCmp_runs (by decide) dst a b cpu value)
  case shl | sar | shr =>
    split at encoded
    case isTrue => cases encoded
    case isFalse =>
      split at encoded
      case h_1 => cases encoded
      case h_2 imm immGiven =>
        split at encoded
        case isTrue => cases encoded
        case isFalse =>
          obtain ⟨dst, dstHome, encoded⟩ := except_bind_ok.mp encoded
          obtain ⟨a, foundA, encoded⟩ := except_bind_ok.mp encoded
          cases encoded
          rw [op, immGiven] at computes
          obtain ⟨x, shape⟩ := evalOp_shift (by decide) computes
          have first := operand foundA
          rw [shape] at first computes
          cases first
          exact finish dstHome (encodeShift_runs (by decide) dst a imm cpu computes)
  case select =>
    obtain ⟨dst, dstHome, cond, foundCond, tv, foundTv, fv, foundFv, encoded⟩ := encoded
    cases encoded
    rw [op] at computes
    obtain ⟨x, y, z, shape, rfl⟩ := evalOp_select computes
    have first := operand foundCond
    have second := operand foundTv
    have third := operand foundFv
    rw [shape] at first second third
    cases first
    cases second
    cases third
    refine finish dstHome (encodeSelect_runs ?_ ?_ fv cpu)
    · rintro rfl
      exact apart 0 (by rw [op]; rfl) dst foundCond dstHome
    · rintro rfl
      exact apart 1 (by rw [op]; rfl) dst foundTv dstHome
  case other name =>
    split at encoded
    · obtain ⟨_, _, encoded⟩ := except_bind_ok.mp encoded
      obtain ⟨_, _, encoded⟩ := except_bind_ok.mp encoded
      obtain ⟨_, _, encoded⟩ := except_bind_ok.mp encoded
      cases encoded
    · cases encoded
  all_goals cases encoded

end ExecEncoder

end Aegis
