import AegisCompiler.ExecEncoder
import AegisCompiler.MachineExec
import AegisCompiler.X86Machine

/-!
# What the encoded instructions do

The bytes of each instruction decode to the instructions that the encoder
meant, and executing them leaves the result in the home of the result register.
Only RAX, RDX and the flags change besides.
-/

namespace Aegis

namespace ExecEncoder

open X86 (Byte Reg Cpu Instr ModRM Decodes DecodesAll execAll)

theorem rexOf_rex (regHi rmHi : Bool) :
    X86.rexOf (rex regHi rmHi) = some ⟨true, regHi, false, rmHi⟩ := by
  cases regHi <;> cases rmHi <;> rfl

theorem modRMOf_modrm (reg rm : Reg) :
    X86.modRMOf (modrm reg rm) =
      some ⟨reg.extractLsb' 0 3, rm.extractLsb' 0 3⟩ := by
  revert reg rm
  decide

theorem regOf_isHi (r : Reg) : X86.regOf (isHi r) (r.extractLsb' 0 3) = r := by
  revert r
  decide

theorem decode_rex (regHi rmHi : Bool) (opcode : Byte) (rest : List Byte) :
    X86.decode (rex regHi rmHi :: opcode :: rest) =
      X86.decodeOpcode ⟨true, regHi, false, rmHi⟩ opcode rest := by
  simp [X86.decode, rexOf_rex]

theorem withModRM_modrm (build : ModRM → Option Instr) (reg rm : Reg)
    (rest : List Byte) :
    X86.withModRM build (modrm reg rm :: rest) =
      (build ⟨reg.extractLsb' 0 3, rm.extractLsb' 0 3⟩).map (·, rest) := by
  rw [X86.withModRM, modRMOf_modrm, Option.bind_some]

theorem movRR_decodes (dst src : Reg) :
    Decodes (movRR dst src) (.movRR dst src) := by
  intro rest
  change X86.decode (rex _ _ :: kOpMovRmR :: modrm src dst :: rest) = _
  rw [decode_rex]
  change X86.withModRM _ (modrm src dst :: rest) = _
  simp only [withModRM_modrm, regOf_isHi, Option.map_some]

theorem test_decodes (a b : Reg) : Decodes (opRmR kOpTestRR a b) (.test a b) := by
  intro rest
  change X86.decode (rex _ _ :: kOpTestRR :: modrm b a :: rest) = _
  rw [decode_rex]
  change X86.withModRM _ (modrm b a :: rest) = _
  simp only [withModRM_modrm, regOf_isHi, Option.map_some]

theorem cmp_decodes (a b : Reg) :
    Decodes [rex (isHi a) (isHi b), kOpCmpRmR, modrm a b] (.cmp a b) := by
  intro rest
  change X86.decode (rex _ _ :: kOpCmpRmR :: modrm a b :: rest) = _
  rw [decode_rex]
  change X86.withModRM _ (modrm a b :: rest) = _
  simp only [withModRM_modrm, regOf_isHi, Option.map_some]

/-- The operation of an opcode of the common scheme. -/
def aluOf : MachineOp → X86.AluOp
  | .add => .add
  | .sub => .sub
  | .and => .and
  | .or => .or
  | _ => .xor

theorem alu_decodes (op : MachineOp) (dst src : Reg) :
    Decodes (opRmR (aluOpcode op) dst src) (.alu (aluOf op) true dst src) := by
  have opcode : ∀ opcode alu, X86.aluOpOf opcode = some alu →
      (∀ rex bytes, X86.decodeOpcode rex opcode bytes = X86.withModRM (fun m =>
        some (.alu alu rex.w (X86.regOf rex.b m.rm) (X86.regOf rex.r m.reg))) bytes) →
      Decodes (opRmR opcode dst src) (.alu alu true dst src) := by
    intro opcode alu _ decoded rest
    change X86.decode (rex _ _ :: opcode :: modrm src dst :: rest) = _
    rw [decode_rex, decoded]
    simp only [withModRM_modrm, regOf_isHi, Option.map_some]
  cases op
  case other name => exact opcode kOpXorRR .xor rfl fun _ _ => rfl
  all_goals exact opcode _ _ rfl fun _ _ => rfl

theorem imul_decodes (dst src : Reg) :
    Decodes [rex (isHi dst) (isHi src), kOpEscape2Byte, kOpImulRR, modrm dst src]
      (.imul dst src) := by
  intro rest
  change X86.decode (rex _ _ :: kOpEscape2Byte :: kOpImulRR :: modrm dst src :: rest) = _
  rw [decode_rex]
  change X86.withModRM _ (modrm dst src :: rest) = _
  simp only [withModRM_modrm, regOf_isHi, Option.map_some]

theorem cmovne_decodes (dst src : Reg) :
    Decodes [rex (isHi dst) (isHi src), kOpEscape2Byte, kOpCmovNe, modrm dst src]
      (.cmovcc .ne dst src) := by
  intro rest
  change X86.decode (rex _ _ :: kOpEscape2Byte :: kOpCmovNe :: modrm dst src :: rest) = _
  rw [decode_rex]
  change X86.withModRM _ (modrm dst src :: rest) = _
  rw [withModRM_modrm]
  change (some (Instr.cmovcc .ne _ _)).map _ = _
  simp only [regOf_isHi, Option.map_some]

theorem movzx_decodes (dst : Reg) : Decodes (movzxRaxAl dst) (.movzx dst kRegRax) := by
  intro rest
  have al : kModrmRegReg ||| (regIdx dst <<< kModrmRegShift) = modrm dst kRegRax := by
    revert dst
    decide
  change X86.decode (rex _ false :: kOpEscape2Byte :: kOpMovzxR64R8 :: _ :: rest) = _
  rw [decode_rex, al]
  change X86.withModRM _ (modrm dst kRegRax :: rest) = _
  simp only [withModRM_modrm, regOf_isHi, Option.map_some]
  rfl

theorem grpF7_decodes (r : Reg) {selector : Byte} {instr : Instr}
    (member : X86.group3 (selector.extractLsb' 0 3) r = some instr) (small : selector < 8) :
    Decodes (grpF7 selector r) instr := by
  intro rest
  have fields : ∀ selector : Byte, selector < 8 → ∀ r : Reg,
      X86.modRMOf (kModrmRegReg ||| (selector <<< kModrmRegShift) ||| regIdx r) =
        some ⟨selector.extractLsb' 0 3, r.extractLsb' 0 3⟩ := by
    decide
  change X86.decode (rex false _ :: kOpGrpF7 :: _ :: rest) = _
  rw [decode_rex]
  change X86.withModRM _ (_ :: rest) = _
  rw [X86.withModRM, fields selector small, Option.bind_some]
  simp only [regOf_isHi, member, Option.map_some]

theorem grpC1_decodes (r : Reg) (count : Byte) {selector : Byte} {op : X86.ShiftOp}
    (member : X86.shiftOpOf (selector.extractLsb' 0 3) = some op) (small : selector < 8) :
    Decodes (grpC1Imm selector r count) (.shift op r count) := by
  intro rest
  have fields : ∀ selector : Byte, selector < 8 → ∀ r : Reg,
      X86.modRMOf (kModrmRegReg ||| (selector <<< kModrmRegShift) ||| regIdx r) =
        some ⟨selector.extractLsb' 0 3, r.extractLsb' 0 3⟩ := by
    decide
  change X86.decode (rex false _ :: kOpGrpC1 :: _ :: count :: rest) = _
  rw [decode_rex]
  change Option.map _ ((X86.modRMOf _).bind _) = _
  rw [fields selector small, Option.bind_some]
  simp only [regOf_isHi, member, Option.map_some]

theorem cqo_decodes : Decodes [kRexW, kOpCqo] .cqo := fun _ => rfl

theorem xorEdx_decodes :
    Decodes [kOpXorRR, kModrmXorEdxEax] (.alu .xor false .rdx .rdx) := fun _ => rfl

theorem movImm_decodes (dst : Reg) (imm : Int) :
    Decodes (movImm dst imm) (.movImm dst (BitVec.ofInt 64 imm)) := by
  intro rest
  have opcode : ∀ dst : Reg, (kOpMovImm ||| regIdx dst).extractLsb' 3 5 = 0b10111#5 ∧
      (kOpMovImm ||| regIdx dst).extractLsb' 0 3 = dst.extractLsb' 0 3 := by
    decide
  obtain ⟨scheme, field⟩ := opcode dst
  -- The high bits tell the opcode from all others that are decoded before it.
  have foreign : ∀ other ∈ [0x0F, 0xC3, 0xE9, 0xE8, 0x01, 0x09, 0x21, 0x29, 0x31, 0x89,
      0x3B, 0x85, 0xF7, 0x99, 0xC1], (other : BitVec 8).extractLsb' 3 5 ≠ 0b10111#5 := by
    decide
  have others : ∀ other ∈ [0x0F, 0xC3, 0xE9, 0xE8, 0x01, 0x09, 0x21, 0x29, 0x31, 0x89,
      0x3B, 0x85, 0xF7, 0x99, 0xC1], (kOpMovImm ||| regIdx dst) ≠ other := by
    intro other listed same
    rw [same] at scheme
    exact foreign other listed scheme
  simp only [List.mem_cons, forall_eq_or_imp] at others
  change X86.decode (rex false _ :: (kOpMovImm ||| regIdx dst) ::
    (X86.toLittleEndian 8 (BitVec.ofInt 64 imm) ++ rest)) = _
  rw [decode_rex]
  simp only [X86.decodeOpcode, X86.aluOpOf, X86.decodeWide, others, scheme, if_false,
    if_true, field, regOf_isHi]
  rw [if_neg (by decide), if_neg (by decide), X86.littleEndian_toLittleEndian 8]
  rfl

/-- The condition that a comparison sets. -/
def condOf : MachineOp → X86.Cond
  | .cmpEq => .e
  | .cmpNe => .ne
  | .cmpLt => .l
  | .cmpLe => .le
  | .cmpGt => .g
  | _ => .ge

theorem setcc_decodes (op : MachineOp) :
    Decodes (setccAl (setccOf op)) (.setcc (condOf op) kRegRax) := by
  cases op
  case other name =>
    have greater : Decodes (setccAl kSetccGe) (.setcc .ge kRegRax) := fun _ => rfl
    exact greater
  all_goals exact fun _ => rfl

/-- Executing the code takes one state to another. -/
def Runs (code : List Byte) (cpu after : Cpu) : Prop :=
  ∃ instrs, DecodesAll code instrs ∧ execAll instrs cpu = some after

theorem Runs.runBytes {code : List Byte} {cpu after : Cpu}
    (runs : Runs code cpu after) : X86.runBytes code cpu = some after := by
  obtain ⟨instrs, decodes, executed⟩ := runs
  rw [decodes.runBytes, executed]

theorem Runs.append {code more : List Byte} {cpu mid after : Cpu}
    (first : Runs code cpu mid) (second : Runs more mid after) :
    Runs (code ++ more) cpu after := by
  obtain ⟨instrs, decodes, executed⟩ := first
  obtain ⟨others, decodes', executed'⟩ := second
  refine ⟨instrs ++ others, decodes.append decodes', ?_⟩
  rw [X86.execAll_append, executed, Option.bind_some, executed']

theorem Runs.of_decodes {code : List Byte} {instr : Instr} {cpu after : Cpu}
    (decodes : Decodes code instr) (executed : instr.exec cpu = some after) :
    Runs code cpu after :=
  ⟨[instr], decodes.all, by rw [execAll, executed]; rfl⟩

/-- Copying an operand into place changes at most the destination. -/
theorem copyTo_runs (dst a : Reg) (cpu : Cpu) :
    Runs (copyTo dst a) cpu (cpu.set dst (cpu.regs a)) ∨
      dst = a ∧ Runs (copyTo dst a) cpu cpu := by
  unfold copyTo
  split
  case isTrue => exact .inl (.of_decodes (movRR_decodes dst a) rfl)
  case isFalse same => exact .inr ⟨not_not.mp same, [], .nil, rfl⟩

/-- The state after the code holds the value in the destination; only RAX, RDX
and the flags changed besides. -/
structure Leaves (dst : Reg) (value : Word) (cpu after : Cpu) : Prop where
  result : after.regs dst = value
  others : ∀ r, r ≠ dst → r ≠ kRegRax → r ≠ kRegRdx → after.regs r = cpu.regs r

/-- After copying an operand, the rest of the code finds it in the destination
and the other operands in place. -/
theorem copyTo_leaves {dst a : Reg} {cpu : Cpu} {value : Word} {code : List Byte}
    (rest : ∀ mid : Cpu, mid.regs dst = cpu.regs a →
      (∀ r, r ≠ dst → mid.regs r = cpu.regs r) →
        ∃ after, Runs code mid after ∧ Leaves dst value mid after) :
    ∃ after, Runs (copyTo dst a ++ code) cpu after ∧ Leaves dst value cpu after := by
  rcases copyTo_runs dst a cpu with copied | ⟨rfl, same⟩
  · obtain ⟨after, runs, leaves⟩ := rest (cpu.set dst (cpu.regs a)) (by simp)
      fun r apart => by simp [apart]
    refine ⟨after, copied.append runs, leaves.result, fun r notDst notRax notRdx => ?_⟩
    rw [leaves.others r notDst notRax notRdx, Cpu.set_other _ notDst]
  · obtain ⟨after, runs, leaves⟩ := rest cpu rfl fun _ _ => rfl
    exact ⟨after, same.append runs, leaves⟩

/-- The double word that CQO makes of a word has its value. -/
theorem toInt_sign_append (a : Word) :
    ((if a.msb then BitVec.allOnes 64 else 0) ++ a : BitVec 128).toInt = a.toInt := by
  have ones : (BitVec.allOnes 64).toInt = -1 := by decide
  have small := a.isLt
  rw [BitVec.toInt_append]
  cases negative : a.msb with
  | true =>
      have value := BitVec.toInt_eq_msb_cond a
      simp only [negative, if_true] at value ⊢
      simp only [ones]
      omega
  | false =>
      have value := BitVec.toInt_eq_msb_cond a
      simp only [negative, Bool.false_eq_true, if_false] at value ⊢
      simp
      omega

theorem signedDivide_sign {a b : Word} (notZero : b ≠ 0)
    (fits : ¬ (a = BitVec.intMin 64 ∧ b = -1)) :
    X86.signedDivide (if a.msb then BitVec.allOnes 64 else 0) a b =
      some (a.sdiv b, a.srem b) := by
  have quotient : a.toInt.tdiv b.toInt = (a.sdiv b).toInt := by
    rw [BitVec.toInt_sdiv_of_ne_or_ne]
    by_contra both
    push Not at both
    exact fits both
  have low := BitVec.le_toInt (a.sdiv b)
  have high := BitVec.toInt_lt (x := a.sdiv b)
  rw [X86.signedDivide, toInt_sign_append, quotient, if_neg notZero,
    if_pos ⟨low, high⟩, ← BitVec.toInt_srem, BitVec.ofInt_toInt, BitVec.ofInt_toInt]

theorem unsignedDivide_zero {a b : Word} (notZero : b ≠ 0) :
    X86.unsignedDivide 0 a b = some (a / b, a % b) := by
  have dividend : ((0 : Word) ++ a : BitVec 128).toNat = a.toNat := by
    rw [BitVec.toNat_append]
    simp
  have fits : a.toNat / b.toNat < 2 ^ 64 :=
    Nat.lt_of_le_of_lt (Nat.div_le_self _ _) a.isLt
  rw [X86.unsignedDivide, dividend, if_neg notZero, if_pos fits]
  have remainder : a.toNat % b.toNat < 2 ^ 64 :=
    Nat.lt_of_le_of_lt (Nat.mod_le _ _) a.isLt
  refine congrArg some (Prod.ext ?_ ?_)
  · apply BitVec.eq_of_toNat_eq
    rw [BitVec.toNat_ofNat, Nat.mod_eq_of_lt fits, BitVec.toNat_udiv]
  · apply BitVec.eq_of_toNat_eq
    rw [BitVec.toNat_ofNat, Nat.mod_eq_of_lt remainder, BitVec.toNat_umod]

/-- Sign and overflow of a difference tell which word is smaller. -/
theorem slt_of_flags (a b : Word) :
    ((a - b).msb != a.ssubOverflow b) = a.slt b := by
  have lowA := BitVec.le_toInt a
  have highA := BitVec.toInt_lt (x := a)
  have lowB := BitVec.le_toInt b
  have highB := BitVec.toInt_lt (x := b)
  rw [BitVec.msb_eq_toInt, BitVec.toInt_sub, BitVec.ssubOverflow, BitVec.slt,
    Int.bmod_def, Bool.eq_iff_iff]
  simp only [bne_iff_ne, ne_eq, ← Bool.decide_or, decide_eq_decide, decide_eq_true_eq]
  omega

/-- The condition of a comparison holds after it if the comparison does. -/
theorem holds_cmp {op : MachineOp} {a b value : Word}
    (computes : (op.binopKind.bind fun kind => evalBinop kind a b) = some value)
    (isCmp : op ∈ [MachineOp.cmpEq, .cmpNe, .cmpLt, .cmpLe, .cmpGt, .cmpGe]) :
    ∃ truth, (condOf op).holds (X86.flagsOf (a - b) (some (a.ssubOverflow b))) =
      some truth ∧ value = ofTruth truth := by
  have zero : (a - b == 0) = (a == b) := by
    rw [Bool.eq_iff_iff, beq_iff_eq, beq_iff_eq, sub_eq_zero]
  have less := slt_of_flags a b
  have lessEq : a.sle b = ((a - b == 0) || a.slt b) := by
    rw [zero, BitVec.sle, BitVec.slt, Bool.eq_iff_iff, Bool.or_eq_true,
      decide_eq_true_eq, decide_eq_true_eq, beq_iff_eq, ← BitVec.toInt_inj]
    omega
  have notLess : b.sle a = !a.slt b := by
    rw [BitVec.sle, BitVec.slt, ← decide_not, decide_eq_decide]
    omega
  have greater : b.slt a = !a.sle b := by
    rw [BitVec.sle, BitVec.slt, ← decide_not, decide_eq_decide]
    omega
  simp only [List.mem_cons, List.not_mem_nil, or_false] at isCmp
  rcases isCmp with rfl | rfl | rfl | rfl | rfl | rfl <;> cases computes
  · exact ⟨_, rfl, by rw [zero]⟩
  · exact ⟨_, rfl, by rw [zero]; rfl⟩
  · exact ⟨_, rfl, by rw [less]⟩
  · exact ⟨_, rfl, by rw [lessEq, ← less]⟩
  · exact ⟨_, rfl, by rw [greater, lessEq, ← less, Bool.not_or, bne, Bool.not_not]⟩
  · exact ⟨_, rfl, by rw [notLess, ← less, bne, Bool.not_not]⟩

/-- The low byte of a word that ends in it. -/
theorem setWidth_append_byte (high : BitVec 56) (low : Byte) :
    (high ++ low : Word).setWidth 8 = low := by
  apply BitVec.eq_of_getLsbD_eq
  intro i below
  have bit := BitVec.getLsbD_append (x := high) (y := low) (i := i)
  rw [if_pos below] at bit
  rw [BitVec.getLsbD_setWidth, decide_eq_true below, Bool.true_and]
  exact bit

/-- Setting AL and extending it puts the truth value into the destination. -/
theorem setcc_runs {op : MachineOp} {cpu : Cpu} {truth : Bool}
    (holds : (condOf op).holds cpu.flags = some truth) (dst : Reg) :
    ∃ after, Runs (setccAl (setccOf op) ++ movzxRaxAl dst) cpu after ∧
      Leaves dst (ofTruth truth) cpu after := by
  let mid := cpu.set kRegRax
    ((cpu.regs kRegRax).extractLsb' 8 56 ++ (if truth then 1#8 else 0#8))
  have set : Runs (setccAl (setccOf op)) cpu mid := by
    refine .of_decodes (setcc_decodes op) ?_
    change ((condOf op).holds cpu.flags).map _ = _
    rw [holds]
    rfl
  have low : ((mid.regs kRegRax).setWidth 8).setWidth 64 = ofTruth truth := by
    rw [Cpu.set_same, setWidth_append_byte]
    cases truth <;> rfl
  refine ⟨mid.set dst (ofTruth truth),
    set.append (.of_decodes (movzx_decodes dst) (congrArg (some <| mid.set dst ·) low)),
    Cpu.set_same _ _ _, fun r notDst notRax _ => ?_⟩
  rw [Cpu.set_other _ notDst, Cpu.set_other _ notRax]

theorem encodeAlu_runs {op : MachineOp} (isAlu : op ∈ [MachineOp.add, .sub, .and, .or, .xor])
    {dst a b : Reg} (apart : dst ≠ b) (cpu : Cpu) {value : Word}
    (computes : evalOp op none [cpu.regs a, cpu.regs b] = some value) :
    ∃ after, Runs (encodeAlu op dst a b) cpu after ∧ Leaves dst value cpu after := by
  refine copyTo_leaves fun mid first others => ?_
  have result : (aluOf op).result (mid.regs dst) (mid.regs b) = value := by
    rw [first, others b apart.symm]
    simp only [List.mem_cons, List.not_mem_nil, or_false] at isAlu
    rcases isAlu with rfl | rfl | rfl | rfl | rfl <;> exact Option.some.inj computes
  refine ⟨_, .of_decodes (alu_decodes op dst b) rfl, ?_, fun r notDst _ _ => ?_⟩
  · exact (Cpu.set_same mid dst _).trans result
  · exact Cpu.set_other mid notDst _

theorem encodeMul_runs {dst a b : Reg} (apart : dst ≠ b) (cpu : Cpu) :
    ∃ after, Runs (encodeMul dst a b) cpu after ∧
      Leaves dst (cpu.regs a * cpu.regs b) cpu after := by
  refine copyTo_leaves fun mid first others => ?_
  refine ⟨_, .of_decodes (imul_decodes dst b) rfl, ?_, fun r notDst _ _ => ?_⟩
  · refine (Cpu.set_same mid dst _).trans ?_
    rw [first, others b apart.symm]
  · exact Cpu.set_other mid notDst _

/-- The byte of a shift count keeps the count. -/
theorem shiftCount_ofInt (imm : Int) :
    (BitVec.ofInt 8 imm).toNat % 64 = shiftCount (BitVec.ofInt 64 imm) := by
  rw [shiftCount, BitVec.toNat_ofInt, BitVec.toNat_ofInt]
  omega

theorem encodeShift_runs {op : MachineOp} (isShift : op ∈ [MachineOp.shl, .sar, .shr])
    (dst a : Reg) (imm : Int) (cpu : Cpu) {value : Word}
    (computes : evalOp op (some imm) [cpu.regs a] = some value) :
    ∃ after, Runs (encodeShift op dst a imm) cpu after ∧ Leaves dst value cpu after := by
  have count := shiftCount_ofInt imm
  have runs {selector : Byte} {shift : X86.ShiftOp} (small : selector < 8)
      (member : X86.shiftOpOf (selector.extractLsb' 0 3) = some shift)
      (result : shift.result (cpu.regs a) ((BitVec.ofInt 8 imm).toNat % 64) = value) :
      ∃ after, Runs (copyTo dst a ++ grpC1Imm selector dst (BitVec.ofInt 8 imm)) cpu after ∧
        Leaves dst value cpu after := by
    refine copyTo_leaves fun mid first others => ?_
    rw [← first] at result
    have decodes := grpC1_decodes dst (BitVec.ofInt 8 imm) member small
    by_cases none : (BitVec.ofInt 8 imm).toNat % 64 = 0
    · have executed : (Instr.shift shift dst (BitVec.ofInt 8 imm)).exec mid = some mid :=
        if_pos none
      refine ⟨mid, .of_decodes decodes executed, ?_, fun _ _ _ _ => rfl⟩
      rw [← result, none]
      cases shift <;> simp [X86.ShiftOp.result]
    · obtain ⟨flags, executed⟩ := X86.exec_shift none
      exact ⟨_, .of_decodes decodes executed, (Cpu.set_same mid dst _).trans result,
        fun r notDst _ _ => Cpu.set_other mid notDst _⟩
  simp only [List.mem_cons, List.not_mem_nil, or_false] at isShift
  rcases isShift with rfl | rfl | rfl
  all_goals
    refine runs (by decide) rfl ?_
    rw [count]
    exact Option.some.inj computes

theorem encodeUnary_runs {op : MachineOp} (isUnary : op ∈ [MachineOp.neg, .bnot])
    (dst a : Reg) (cpu : Cpu) {value : Word}
    (computes : evalOp op none [cpu.regs a] = some value) :
    ∃ after, Runs (encodeUnary op dst a) cpu after ∧ Leaves dst value cpu after := by
  refine copyTo_leaves fun mid first _ => ?_
  simp only [List.mem_cons, List.not_mem_nil, or_false] at isUnary
  rcases isUnary with rfl | rfl <;> cases computes
  · refine ⟨_, .of_decodes (grpF7_decodes dst rfl (by decide)) rfl, ?_,
      fun r notDst _ _ => Cpu.set_other mid notDst _⟩
    rw [← first]
    exact Cpu.set_same mid dst _
  · refine ⟨_, .of_decodes (grpF7_decodes dst rfl (by decide)) rfl, ?_,
      fun r notDst _ _ => Cpu.set_other mid notDst _⟩
    rw [← first]
    exact Cpu.set_same mid dst _

theorem encodeLnot_runs (dst a : Reg) (cpu : Cpu) :
    ∃ after, Runs (encodeLnot dst a) cpu after ∧
      Leaves dst (ofTruth (cpu.regs a == 0)) cpu after := by
  let tested : Cpu := { cpu with
    flags := X86.flagsOf (cpu.regs a &&& cpu.regs a) (some false) }
  have test : Runs (opRmR kOpTestRR a a) cpu tested := .of_decodes (test_decodes a a) rfl
  have holds : (condOf .cmpEq).holds tested.flags = some (cpu.regs a == 0) := by
    change some (cpu.regs a &&& cpu.regs a == 0) = _
    rw [BitVec.and_self]
  obtain ⟨after, runs, leaves⟩ := setcc_runs holds dst
  refine ⟨after, ?_, leaves.result, leaves.others⟩
  rw [encodeLnot, List.append_assoc]
  exact test.append runs

theorem encodeCmp_runs {op : MachineOp}
    (isCmp : op ∈ [MachineOp.cmpEq, .cmpNe, .cmpLt, .cmpLe, .cmpGt, .cmpGe])
    (dst a b : Reg) (cpu : Cpu) {value : Word}
    (computes : evalOp op none [cpu.regs a, cpu.regs b] = some value) :
    ∃ after, Runs (encodeCmp op dst a b) cpu after ∧ Leaves dst value cpu after := by
  let compared : Cpu := { cpu with
    flags := X86.flagsOf (cpu.regs a - cpu.regs b)
      (some ((cpu.regs a).ssubOverflow (cpu.regs b))) }
  have compare : Runs [rex (isHi a) (isHi b), kOpCmpRmR, modrm a b] cpu compared :=
    .of_decodes (cmp_decodes a b) rfl
  have kind : (op.binopKind.bind fun kind => evalBinop kind (cpu.regs a) (cpu.regs b)) =
      some value := by
    rw [← computes]
    simp only [List.mem_cons, List.not_mem_nil, or_false] at isCmp
    rcases isCmp with rfl | rfl | rfl | rfl | rfl | rfl <;> rfl
  obtain ⟨truth, holds, rfl⟩ := holds_cmp kind isCmp
  change (condOf op).holds compared.flags = some truth at holds
  obtain ⟨after, runs, leaves⟩ := setcc_runs holds dst
  refine ⟨after, ?_, leaves.result, leaves.others⟩
  rw [encodeCmp, List.append_assoc]
  exact compare.append runs

/-- The state after a division of the homes `a` and `b` holds the quotient and
the remainder in RAX and RDX. -/
structure Divided (quotient remainder : Word) (cpu after : Cpu) : Prop where
  rax : after.regs kRegRax = quotient
  rdx : after.regs kRegRdx = remainder
  others : ∀ r, r ≠ kRegRax → r ≠ kRegRdx → after.regs r = cpu.regs r

theorem divided_of_divided {cpu mid : Cpu} {quotient remainder : Word}
    (others : ∀ r, r ≠ kRegRax → r ≠ kRegRdx → mid.regs r = cpu.regs r) :
    Divided quotient remainder cpu (mid.divided (quotient, remainder)) :=
  ⟨mid.divided_rax _, mid.divided_rdx _, fun r notRax notRdx =>
    (mid.divided_other _ notRax notRdx).trans (others r notRax notRdx)⟩

theorem signed_runs {a b : Reg} (home : b ≠ kRegRax ∧ b ≠ kRegRdx) {cpu : Cpu}
    (notZero : cpu.regs b ≠ 0)
    (fits : ¬ (cpu.regs a = BitVec.intMin 64 ∧ cpu.regs b = -1)) :
    ∃ after, Runs (movRR kRegRax a ++ ([kRexW, kOpCqo] ++ grpF7 kGrpIDiv b)) cpu after ∧
      Divided ((cpu.regs a).sdiv (cpu.regs b)) ((cpu.regs a).srem (cpu.regs b)) cpu
        after := by
  let copied := cpu.set kRegRax (cpu.regs a)
  let extended := copied.set kRegRdx
    (if (copied.regs kRegRax).msb then BitVec.allOnes 64 else 0)
  have others (r : Reg) (notRax : r ≠ kRegRax) (notRdx : r ≠ kRegRdx) :
      extended.regs r = cpu.regs r := by
    rw [Cpu.set_other _ notRdx, Cpu.set_other _ notRax]
  have dividend : extended.regs kRegRax = cpu.regs a := by
    rw [Cpu.set_other _ (by decide), Cpu.set_same]
  have high : extended.regs kRegRdx =
      if (cpu.regs a).msb then BitVec.allOnes 64 else 0 := by
    rw [Cpu.set_same, Cpu.set_same]
  have executed : (Instr.idiv b).exec extended = some (extended.divided
      ((cpu.regs a).sdiv (cpu.regs b), (cpu.regs a).srem (cpu.regs b))) := by
    change (X86.signedDivide (extended.regs kRegRdx) (extended.regs kRegRax)
      (extended.regs b)).map extended.divided = _
    rw [high, dividend, others b home.1 home.2, signedDivide_sign notZero fits,
      Option.map_some]
  refine ⟨_, Runs.append (.of_decodes (movRR_decodes _ _) rfl)
    (Runs.append (.of_decodes cqo_decodes rfl)
      (.of_decodes (grpF7_decodes b rfl (by decide)) executed)),
    divided_of_divided others⟩

theorem unsigned_runs {a b : Reg} (home : b ≠ kRegRax ∧ b ≠ kRegRdx) {cpu : Cpu}
    (notZero : cpu.regs b ≠ 0) :
    ∃ after, Runs (movRR kRegRax a ++
        ([kOpXorRR, kModrmXorEdxEax] ++ grpF7 kGrpDiv b)) cpu after ∧
      Divided (cpu.regs a / cpu.regs b) (cpu.regs a % cpu.regs b) cpu after := by
  let copied := cpu.set kRegRax (cpu.regs a)
  let low := (copied.regs kRegRdx).setWidth 32
  let cleared : Cpu := { copied.set kRegRdx ((low ^^^ low).setWidth 64) with
    flags := X86.flagsOf (low ^^^ low) (some false) }
  have others (r : Reg) (notRax : r ≠ kRegRax) (notRdx : r ≠ kRegRdx) :
      cleared.regs r = cpu.regs r :=
    (Cpu.set_other copied notRdx _).trans (Cpu.set_other cpu notRax _)
  have apart : kRegRax ≠ kRegRdx := by decide
  have dividend : cleared.regs kRegRax = cpu.regs a :=
    (Cpu.set_other copied apart ((low ^^^ low).setWidth 64)).trans (Cpu.set_same cpu _ _)
  have high : cleared.regs kRegRdx = 0 := by
    refine (Cpu.set_same copied kRegRdx ((low ^^^ low).setWidth 64)).trans ?_
    rw [BitVec.xor_self]
    rfl
  have executed : (Instr.div b).exec cleared = some (cleared.divided
      (cpu.regs a / cpu.regs b, cpu.regs a % cpu.regs b)) := by
    change (X86.unsignedDivide (cleared.regs kRegRdx) (cleared.regs kRegRax)
      (cleared.regs b)).map cleared.divided = _
    rw [high, dividend, others b home.1 home.2, unsignedDivide_zero notZero,
      Option.map_some]
  refine ⟨_, Runs.append (.of_decodes (movRR_decodes _ _) rfl)
    (Runs.append (.of_decodes xorEdx_decodes rfl)
      (.of_decodes (grpF7_decodes b rfl (by decide)) executed)),
    divided_of_divided others⟩

/-- A signed division that does not trap. -/
theorem machineBinop_signed {kind : NodeKind} (signed : kind = .div ∨ kind = .mod)
    {a b value : Word} (computes : machineBinop kind a b = some value) :
    ¬ (a = BitVec.intMin 64 ∧ b = -1) ∧ b ≠ 0 ∧
      (if kind = .div then a.sdiv b else a.srem b) = value := by
  unfold machineBinop at computes
  split at computes
  case isTrue => cases computes
  case isFalse fits =>
    have notZero : b ≠ 0 := by
      rintro rfl
      rcases signed with rfl | rfl <;> cases computes
    refine ⟨?_, notZero, ?_⟩
    · rintro ⟨rfl, rfl⟩
      rcases signed with rfl | rfl <;> exact fits (by decide)
    · rcases signed with rfl | rfl
      all_goals
        simp only [evalBinop, if_neg notZero, Option.some.injEq] at computes
        exact computes

/-- An unsigned division that does not trap. -/
theorem machineBinop_unsigned {kind : NodeKind} (unsigned : kind = .udiv ∨ kind = .umod)
    {a b value : Word} (computes : machineBinop kind a b = some value) :
    b ≠ 0 ∧ (if kind = .udiv then a / b else a % b) = value := by
  have fits : divOverflows kind a b = false := by
    rcases unsigned with rfl | rfl <;> rfl
  rw [machineBinop, fits] at computes
  have notZero : b ≠ 0 := by
    rintro rfl
    rcases unsigned with rfl | rfl <;> cases computes
  refine ⟨notZero, ?_⟩
  rcases unsigned with rfl | rfl
  all_goals
    simp only [evalBinop, if_neg notZero, Option.some.injEq, Bool.false_eq_true, if_false]
      at computes
    exact computes

/-- Divisions leave one of the two results in the destination. -/
theorem encodeDivision_runs {op : MachineOp}
    (isDivision : op ∈ [MachineOp.div, .mod, .udiv, .umod]) {dst a b : Reg}
    (home : b ≠ kRegRax ∧ b ≠ kRegRdx) (cpu : Cpu)
    {value : Word} (computes : evalOp op none [cpu.regs a, cpu.regs b] = some value) :
    ∃ after, Runs (encodeDivision op dst a b) cpu after ∧
      Leaves dst value cpu after := by
  have finish {code : List Byte} {src : Reg} {mid : Cpu} {quotient remainder : Word}
      (runs : Runs code cpu mid) (divided : Divided quotient remainder cpu mid)
      (result : mid.regs src = value) :
      ∃ after, Runs (code ++ movRR dst src) cpu after ∧ Leaves dst value cpu after := by
    refine ⟨_, runs.append (.of_decodes (movRR_decodes dst src) rfl),
      (Cpu.set_same mid _ _).trans result, fun r notDst notRax notRdx => ?_⟩
    exact (Cpu.set_other mid notDst _).trans (divided.others r notRax notRdx)
  simp only [List.mem_cons, List.not_mem_nil, or_false] at isDivision
  rcases isDivision with rfl | rfl | rfl | rfl
  · obtain ⟨fits, notZero, rfl⟩ := machineBinop_signed (.inl rfl) computes
    obtain ⟨mid, runs, divided⟩ := signed_runs (a := a) home notZero fits
    exact finish runs divided divided.rax
  · obtain ⟨fits, notZero, rfl⟩ := machineBinop_signed (.inr rfl) computes
    obtain ⟨mid, runs, divided⟩ := signed_runs (a := a) home notZero fits
    exact finish runs divided divided.rdx
  · obtain ⟨notZero, rfl⟩ := machineBinop_unsigned (.inl rfl) computes
    obtain ⟨mid, runs, divided⟩ := unsigned_runs (a := a) home notZero
    exact finish runs divided divided.rax
  · obtain ⟨notZero, rfl⟩ := machineBinop_unsigned (.inr rfl) computes
    obtain ⟨mid, runs, divided⟩ := unsigned_runs (a := a) home notZero
    exact finish runs divided divided.rdx

theorem home_apart {ra : LinearScan.ScanState} {v : Option VRegId} {ctx : String}
    {r : Reg} (found : homeOf ra v ctx = .ok r) :
    r ∈ kHomeRegs ∧ r ≠ kRegRax ∧ r ≠ kRegRdx := by
  unfold homeOf at found
  split at found
  case h_1 => cases found
  case h_2 v =>
    simp only at found
    split_ifs at found with spilled none
    cases found
    push Not at none
    have small : ra.assignment v < kHomeRegs.length := none.2
    have member : kHomeRegs.getD (ra.assignment v) kRegRax ∈ kHomeRegs := by
      rw [List.getD_eq_getElem?_getD, List.getElem?_eq_getElem small, Option.getD_some]
      exact List.getElem_mem small
    refine ⟨member, ?_⟩
    have all : ∀ r ∈ kHomeRegs, r ≠ kRegRax ∧ r ≠ kRegRdx := by decide
    exact all _ member

/-- Only the text of an error depends on the context. -/
theorem homeOf_ctx {ra : LinearScan.ScanState} {v : Option VRegId} {ctx : String}
    {r : Reg} (found : homeOf ra v ctx = .ok r) (other : String) :
    homeOf ra v other = .ok r := by
  unfold homeOf at found ⊢
  split at found
  case h_1 => cases found
  case h_2 v =>
    simp only at found ⊢
    split_ifs at found ⊢
    exact found

/-- The contents of the home of an operand. -/
def operandIn (ra : LinearScan.ScanState) (mi : MachineInstr) (regs : Reg → Word)
    (slot : Nat) : Option Word :=
  (homeOf ra (useAt mi slot) "").toOption.map regs

theorem operandIn_some {ra : LinearScan.ScanState} {mi : MachineInstr}
    {regs : Reg → Word} {slot : Nat} {value : Word}
    (known : operandIn ra mi regs slot = some value) (ctx : String) :
    ∃ r, homeOf ra (useAt mi slot) ctx = .ok r ∧ regs r = value := by
  unfold operandIn at known
  cases found : homeOf ra (useAt mi slot) "" with
  | error => rw [found] at known; cases known
  | ok r =>
      rw [found] at known
      exact ⟨r, homeOf_ctx found ctx, Option.some.inj known⟩

/-- The result of an instruction on the contents of the homes of its operands;
none when it traps, when an operand has no home, and for instructions of other
kinds.  A shift has its count in the immediate. -/
def resultOf (ra : LinearScan.ScanState) (mi : MachineInstr) (regs : Reg → Word) :
    Option Word :=
  let operand := operandIn ra mi regs
  match mi.op with
  | .movImm => evalOp .movImm mi.imm []
  | .mov | .neg | .bnot | .lnot => do evalOp mi.op none [← operand 0]
  | .shl | .sar | .shr =>
      if useAt mi 1 = none ∧ mi.imm.any (fun imm => decide (0 ≤ imm ∧ imm < 64)) then do
        evalOp mi.op mi.imm [← operand 0]
      else none
  | .add | .sub | .and | .or | .xor | .mul | .div | .mod | .udiv | .umod
  | .cmpEq | .cmpNe | .cmpLt | .cmpLe | .cmpGt | .cmpGe => do
      evalOp mi.op none [← operand 0, ← operand 1]
  | _ => none

/-- The kinds of instructions with two operands. -/
def hasSecond (op : MachineOp) : Bool :=
  op ∈ [MachineOp.add, .sub, .and, .or, .xor, .mul, .div, .mod, .udiv, .umod, .cmpEq,
    .cmpNe, .cmpLt, .cmpLe, .cmpGt, .cmpGe]

/-- The bytes of an instruction leave its result in the home of its result
register, and all other registers but RAX and RDX as they were. -/
theorem encodeData_runs {ra : LinearScan.ScanState} {mi : MachineInstr} {ctx : String}
    {dst : Reg} (dstHome : homeOf ra mi.result ctx = .ok dst)
    (apart : hasSecond mi.op = true → homeOf ra (useAt mi 1) ctx ≠ .ok dst) {cpu : Cpu}
    {value : Word} (computes : resultOf ra mi cpu.regs = some value) :
    ∃ code after, encodeData ra ctx mi = .ok code ∧ X86.runBytes code cpu = some after ∧
      after.regs dst = value ∧
        ∀ r, r ≠ dst → r ≠ kRegRax → r ≠ kRegRdx → after.regs r = cpu.regs r := by
  have finish {code : List Byte} (encoded : encodeData ra ctx mi = .ok code)
      (runs : ∃ after, Runs code cpu after ∧ Leaves dst value cpu after) :
      ∃ code after, encodeData ra ctx mi = .ok code ∧
        X86.runBytes code cpu = some after ∧ after.regs dst = value ∧
          ∀ r, r ≠ dst → r ≠ kRegRax → r ≠ kRegRdx → after.regs r = cpu.regs r := by
    obtain ⟨after, runs, leaves⟩ := runs
    exact ⟨code, after, encoded, runs.runBytes, leaves.result, leaves.others⟩
  have unary {op : MachineOp} {imm : Option Int}
      (computes : ((operandIn ra mi cpu.regs 0).bind fun a => evalOp op imm [a]) =
        some value) :
      ∃ a, homeOf ra (useAt mi 0) ctx = .ok a ∧
        evalOp op imm [cpu.regs a] = some value := by
    obtain ⟨_, known, computes⟩ := Option.bind_eq_some_iff.mp computes
    obtain ⟨a, home, rfl⟩ := operandIn_some known ctx
    exact ⟨a, home, computes⟩
  have binary {op : MachineOp} (second : hasSecond mi.op = true)
      (computes : ((operandIn ra mi cpu.regs 0).bind fun a =>
        (operandIn ra mi cpu.regs 1).bind fun b => evalOp op none [a, b]) = some value) :
      ∃ a b, homeOf ra (useAt mi 0) ctx = .ok a ∧ homeOf ra (useAt mi 1) ctx = .ok b ∧
        dst ≠ b ∧ evalOp op none [cpu.regs a, cpu.regs b] = some value := by
    obtain ⟨_, knownA, computes⟩ := Option.bind_eq_some_iff.mp computes
    obtain ⟨_, knownB, computes⟩ := Option.bind_eq_some_iff.mp computes
    obtain ⟨a, homeA, rfl⟩ := operandIn_some knownA ctx
    obtain ⟨b, homeB, rfl⟩ := operandIn_some knownB ctx
    refine ⟨a, b, homeA, homeB, ?_, computes⟩
    rintro rfl
    exact apart second homeB
  cases op : mi.op <;> simp only [resultOf, op, reduceCtorEq] at computes
  case movImm =>
    obtain ⟨imm, given, rfl⟩ := Option.map_eq_some_iff.mp computes
    have encoded : encodeData ra ctx mi = .ok (movImm dst imm) := by
      simp only [encodeData, op, given, dstHome]
      rfl
    exact finish encoded ⟨_, .of_decodes (movImm_decodes dst imm) rfl,
      Cpu.set_same _ _ _, fun r notDst _ _ => Cpu.set_other _ notDst _⟩
  case mov =>
    obtain ⟨a, homeA, computes⟩ := unary computes
    have encoded : encodeData ra ctx mi = .ok (movRR dst a) := by
      simp only [encodeData, op, dstHome, homeA]
      rfl
    exact finish encoded ⟨_, .of_decodes (movRR_decodes dst a) rfl,
      (Cpu.set_same _ _ _).trans (Option.some.inj computes),
      fun r notDst _ _ => Cpu.set_other _ notDst _⟩
  case neg | bnot =>
    obtain ⟨a, homeA, computes⟩ := unary computes
    refine finish ?_ (encodeUnary_runs (by decide) dst a cpu computes)
    simp only [encodeData, op, dstHome, homeA]
    rfl
  case lnot =>
    obtain ⟨a, homeA, computes⟩ := unary computes
    refine finish ?_ (Option.some.inj computes ▸ encodeLnot_runs dst a cpu)
    simp only [encodeData, op, dstHome, homeA]
    rfl
  case add | sub | and | or | xor =>
    obtain ⟨a, b, homeA, homeB, notB, computes⟩ := binary (by rw [op]; rfl) computes
    refine finish ?_ (encodeAlu_runs (by decide) notB cpu computes)
    simp only [encodeData, op, dstHome, homeA, homeB]
    rfl
  case mul =>
    obtain ⟨a, b, homeA, homeB, notB, computes⟩ := binary (by rw [op]; rfl) computes
    refine finish ?_ (Option.some.inj computes ▸ encodeMul_runs notB cpu)
    simp only [encodeData, op, dstHome, homeA, homeB]
    rfl
  case div | mod | udiv | umod =>
    obtain ⟨a, b, homeA, homeB, notB, computes⟩ := binary (by rw [op]; rfl) computes
    refine finish ?_ (encodeDivision_runs (by decide) (home_apart homeB).2 cpu computes)
    simp only [encodeData, op, dstHome, homeA, homeB]
    rfl
  case cmpEq | cmpNe | cmpLt | cmpLe | cmpGt | cmpGe =>
    obtain ⟨a, b, homeA, homeB, notB, computes⟩ := binary (by rw [op]; rfl) computes
    refine finish ?_ (encodeCmp_runs (by decide) dst a b cpu computes)
    simp only [encodeData, op, dstHome, homeA, homeB]
    rfl
  case shl | sar | shr =>
    split at computes
    case isFalse => cases computes
    case isTrue shape =>
      obtain ⟨a, homeA, computes⟩ := unary computes
      obtain ⟨none, small⟩ := shape
      obtain ⟨imm, given, bounds⟩ := (Option.any_eq_true _ _).mp small
      have nonneg : ¬ imm < 0 := Int.not_lt.mpr (of_decide_eq_true bounds).1
      rw [given] at computes
      refine finish ?_ (encodeShift_runs (by decide) dst a imm cpu computes)
      simp only [encodeData, op, none, ne_eq, not_true_eq_false, if_false, given, nonneg,
        dstHome, homeA]
      rfl

/-- The instructions that only compute are appended without more ado. -/
theorem encodeInstr_data {ra : LinearScan.ScanState} {mi : MachineInstr}
    {regs : Reg → Word} {value : Word} (computes : resultOf ra mi regs = some value)
    (pmoves : List Move) (enc : Encoder) (idx : Nat) :
    encodeInstr ra pmoves enc (mi, idx) = (do
      return enc.put (← encodeData ra
        ("instr " ++ toString idx ++ " (" ++ opName mi.op ++ ")") mi)) := by
  unfold encodeInstr
  cases op : mi.op <;> simp only [resultOf, op, reduceCtorEq] at computes ⊢

/-- An instruction whose result register has another home than its second
operand appends bytes that leave the result in that home, and all other
registers but RAX and RDX as they were. -/
theorem encodeInstr_runs {ra : LinearScan.ScanState} {mi : MachineInstr} {dst : Reg}
    (dstHome : homeOf ra mi.result "" = .ok dst)
    (apart : hasSecond mi.op = true → homeOf ra (useAt mi 1) "" ≠ .ok dst) {cpu : Cpu}
    {value : Word} (computes : resultOf ra mi cpu.regs = some value)
    (pmoves : List Move) (enc : Encoder) (idx : Nat) :
    ∃ code after, encodeInstr ra pmoves enc (mi, idx) = .ok (enc.put code) ∧
      X86.runBytes code cpu = some after ∧ after.regs dst = value ∧
        ∀ r, r ≠ dst → r ≠ kRegRax → r ≠ kRegRdx → after.regs r = cpu.regs r := by
  let ctx := "instr " ++ toString idx ++ " (" ++ opName mi.op ++ ")"
  obtain ⟨code, after, encoded, runs⟩ := encodeData_runs (homeOf_ctx dstHome ctx)
    (fun second same => apart second (homeOf_ctx same "")) computes
  refine ⟨code, after, ?_, runs⟩
  rw [encodeInstr_data computes, encoded]
  rfl

/-- A division of RCX by RSI into RDI. -/
def halving : MachineInstr where
  op := .div
  result := some 2
  uses := [some 0, some 1]

theorem encodeInstr_runs_halving :
    ∃ code after, encodeInstr { assignment := id } [] {} (halving, 0) = .ok { buf := code } ∧
      X86.runBytes code { regs := fun r => if r = 1 then -7 else 2 } = some after ∧
        after.regs 7 = -3 := by
  let ra : LinearScan.ScanState := { assignment := id }
  let cpu : Cpu := { regs := fun r => if r = 1 then -7 else 2 }
  have home : homeOf ra halving.result "" = .ok 7 := rfl
  have apart : hasSecond halving.op = true → homeOf ra (useAt halving 1) "" ≠ .ok 7 := by
    decide
  have computes : resultOf ra halving cpu.regs = some (-3) := by decide
  obtain ⟨code, after, encoded, runs, result, -⟩ :=
    encodeInstr_runs home apart computes [] {} 0
  exact ⟨code, after, encoded, runs, result⟩

end ExecEncoder

end Aegis
