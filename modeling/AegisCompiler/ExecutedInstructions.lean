import AegisCompiler.EncodedPlaces
import AegisCompiler.ImageRuns
import AegisCompiler.MachineModules
import AegisCompiler.MovedArguments
import AegisCompiler.PlacedCode

/-!
# Executing the instructions of a linked function

The machine simulates the steps of a function: the homes of the live registers hold
their contents, and the stack holds what the prologue saved.
-/

namespace Aegis

namespace ExecEncoder

open LinearScan LiveIntervals FlowSpans
open X86 (Byte Reg Cpu Image Machine Decodes)

section Code

variable {img : Image} {lowest : Word} {m : Machine} {pos : Nat}

theorem steps_of_runs {code : List Byte} {cpu : Cpu} (runs : Runs code m.cpu cpu)
    (hasCode : code ≠ [] → img.HasCode pos code) (rip : m.rip = img.address pos) :
    Machine.Steps img lowest m { m with cpu, rip := img.address (pos + code.length) } := by
  by_cases empty : code = []
  · subst empty
    have same : cpu = m.cpu := runs.unique ⟨[], .nil, rfl⟩
    have here : m = { m with cpu, rip := img.address (pos + ([] : List Byte).length) } := by
      rw [same, List.length_nil, Nat.add_zero, ← rip]
    exact Eq.rec .refl here
  · obtain ⟨instrs, decodes, executed⟩ := runs
    exact X86.Machine.steps_of_execAll decodes (hasCode empty) rip executed

/-- A branch whose displacement fits its target. -/
theorem address_of_displacement {goal : Nat} {rel : BitVec 32}
    (leads : ((pos + kRel32DispBytes : Nat) : Int) + rel.toInt = goal) :
    img.address (pos + kRel32DispBytes) + rel.signExtend 64 = img.address goal :=
  address_of_rel32 (rel32_eq_some_iff.mpr leads)

theorem branch_length (kind : BranchKind) (rel : BitVec 32) :
    (kind.opcode ++ X86.toLittleEndian 4 rel).length =
      kind.opcode.length + kRel32DispBytes := by
  rw [List.length_append, toLittleEndian_length]
  rfl

end Code

/-- No operand is read after the result took its register, only one result is
written, and only by instructions that compute one. -/
structure WellFormedInstr (mi : MachineInstr) : Prop where
  slots : mi.uses.length ≤ kMaxUsesPerInstr
  single : mi.moreResults = []
  silent : mi.op ∈ [MachineOp.label, .jmp, .jz] → mi.result = none
  late : ∀ slot v, readsLate mi.op slot = true → useAt mi slot = some v →
    mi.result ≠ some v

/-- A function with an allocation for the encoder. -/
structure Compiled (mf : MachineFunction) (ra : ScanState) : Prop where
  allocated : Allocated mf ra
  flow : WellFormedFlow mf
  instrs : ∀ mi ∈ mf.instrs, WellFormedInstr mi
  params : ∃ n, ParamsApart ra mf.instrs n

/-- The homes of live registers hold their contents. -/
def Agrees (mf : MachineFunction) (ra : ScanState) (s : MachineState) (cpu : Cpu) : Prop :=
  ∀ v, LiveIn mf.instrs v s.pc → cpu.regs (home ra v) = s.regs v

section Agreement

variable {mf : MachineFunction} {ra : ScanState} (compiled : Compiled mf ra)
variable {s : MachineState} {cpu cpu' : Cpu} {mi : MachineInstr}

include compiled

theorem Compiled.instr {p : Nat} (found : mf.instrs[p]? = some mi) : WellFormedInstr mi :=
  compiled.instrs mi (List.mem_of_getElem? found)

theorem Compiled.homeOf_live {v : VRegId} {p : Nat} (live : LiveIn mf.instrs v p)
    (ctx : String) : homeOf ra (some v) ctx = .ok (home ra v) := by
  obtain ⟨q, mentions⟩ := LiveBefore.mentioned live
  exact compiled.allocated.homeOf_mention mentions ctx

theorem Compiled.homeOf_read {v : VRegId} {p : Nat} (found : mf.instrs[p]? = some mi)
    (reads : v ∈ mi.reads) (ctx : String) : homeOf ra (some v) ctx = .ok (home ra v) :=
  compiled.homeOf_live (.use ⟨mi, found, reads⟩) ctx

theorem Compiled.holdsOperands (found : mf.instrs[s.pc]? = some mi)
    (agrees : Agrees mf ra s cpu) : HoldsOperands ra mi s.regs cpu := by
  intro v reads ctx r homed
  cases (compiled.homeOf_read found reads ctx).symm.trans homed
  exact agrees v (.use ⟨mi, found, reads⟩)

theorem Compiled.defines_iff {p : Nat} (found : mf.instrs[p]? = some mi) {v : VRegId} :
    Defines mf.instrs p v ↔ mi.result = some v := by
  have defs : mi.defs = mi.result.toList := by
    rw [MachineInstr.defs, (compiled.instr found).single]
    cases mi.result <;> rfl
  constructor
  · rintro ⟨other, found', isDef⟩
    cases found.symm.trans found'
    rw [defs] at isDef
    simpa using isDef
  · intro result
    exact ⟨mi, found, by rw [defs, result]; exact List.mem_singleton_self v⟩

/-- The homes still agree where control goes without a write. -/
theorem Compiled.agrees_goto (found : mf.instrs[s.pc]? = some mi) (silent : mi.result = none)
    {q : Nat} (flows : Flows mf.instrs s.pc q) (agrees : Agrees mf ra s cpu)
    (kept : ∀ v, LiveIn mf.instrs v s.pc → cpu'.regs (home ra v) = cpu.regs (home ra v)) :
    Agrees mf ra { s with pc := q } cpu' := by
  intro v live
  have untouched : ¬ Defines mf.instrs s.pc v := by
    rw [compiled.defines_iff found, silent]
    exact Option.some_ne_none v |>.symm
  have before : LiveIn mf.instrs v s.pc := .pass untouched flows live
  exact (kept v before).trans (agrees v before)

/-- The homes agree behind a write that leaves the other live registers alone. -/
theorem Compiled.agrees_write (found : mf.instrs[s.pc]? = some mi) {d : VRegId}
    (writes : mi.result = some d) (falls : Flows mf.instrs s.pc (s.pc + 1))
    (agrees : Agrees mf ra s cpu) {value : Word} (result : cpu'.regs (home ra d) = value)
    (kept : ∀ v, v ≠ d → LiveIn mf.instrs v (s.pc + 1) →
      cpu'.regs (home ra v) = cpu.regs (home ra v)) (calls : List CallEvent) :
    Agrees mf ra ⟨s.pc + 1, Function.update s.regs d value, calls⟩ cpu' := by
  intro v live
  by_cases same : v = d
  · subst same
    rw [result]
    exact (Function.update_self v value s.regs).symm
  · have untouched : ¬ Defines mf.instrs s.pc v := by
      rw [compiled.defines_iff found, writes, Option.some.injEq]
      exact fun equal => same equal.symm
    rw [kept v same live, agrees v (.pass untouched falls live)]
    exact (Function.update_of_ne same value s.regs).symm

end Agreement

/-- The machine is in a function, in front of an instruction. -/
structure Simulates (img : Image) (entry : Nat) (mf : MachineFunction) (ra : ScanState)
    (bottom : Word) (frame : List Word) (s : MachineState) (m : Machine) : Prop where
  reachable : Reachable mf.instrs s.pc
  rip : ∃ place, placeOf mf ra s.pc = some place ∧ m.rip = img.address (entry + place)
  agrees : Agrees mf ra s m.cpu
  stack : m.StackHolds bottom frame

/-- The machine enters a function. -/
structure Enters (img : Image) (entry : Nat) (args : List Word) (bottom : Word)
    (words : List Word) (m : Machine) : Prop where
  rip : m.rip = img.address entry
  args : ∀ (i : Nat) (r : Reg), kAbiArgRegs[i]? = some r → ∀ value, args[i]? = some value →
    m.cpu.regs r = value
  stack : m.StackHolds bottom words

/-- The machine has left a function with its result, and with the registers that the
caller relies on. -/
structure HasLeft (value : Word) (saved : Reg → Word) (bottom ret : Word) (words : List Word)
    (m : Machine) : Prop where
  rip : m.rip = ret
  result : m.cpu.regs kRegRax = value
  saved : ∀ r ∈ calleeSavedHomes, m.cpu.regs r = saved r
  stack : m.StackHolds bottom words

/-- The stack while a function runs: the saved registers, the return address, and what
was there. -/
def frameOf (saved : Reg → Word) (ret : Word) (words : List Word) : List Word :=
  calleeSavedHomes.reverse.map saved ++ ret :: words

/-- The position of a label is where it stands. -/
theorem labelAt_of_labelPos {instrs : List MachineInstr} {label : Int} {pc : Nat}
    (goes : labelPos instrs label = some pc) : LabelAt instrs label pc := by
  obtain ⟨inside, here, -⟩ := List.findIdx?_eq_some_iff_getElem.mp goes
  obtain ⟨isLabel, imm⟩ : instrs[pc].op = .label ∧ instrs[pc].imm = some label := by
    simpa using here
  exact ⟨instrs[pc], List.getElem?_eq_getElem inside, isLabel, imm⟩

section Function

variable {img : Image} {fns : List ModuleFunction} {entries : List Nat}
variable {mf : MachineFunction} {ra : ScanState} {entry : Nat}
variable (lowest : Word) {bottom : Word} {frame : List Word} {s : MachineState} {m : Machine}
variable (placed : Placed img fns entries mf ra entry) (compiled : Compiled mf ra)
variable {mi : MachineInstr}

include placed

/-- What the encoder does with an instruction. -/
theorem Placed.encoded {j : Nat} (found : mf.instrs[j]? = some mi) :
    ∃ pmoves enc after, paramMoves ra mf.instrs = .ok pmoves ∧
      encoderAt mf ra j = some enc ∧ encoderAt mf ra (j + 1) = some after ∧
        encodeInstr ra pmoves enc (mi, j) = .ok after := by
  obtain ⟨inside, rfl⟩ := List.getElem?_eq_some_iff.mp found
  obtain ⟨after, reached⟩ := placed.exists_encoder (j := j + 1) inside
  obtain ⟨pmoves, enc, params, before, encoded⟩ := encoderAt_encodes reached inside
  exact ⟨pmoves, enc, after, params, before, reached, encoded⟩

/-- The code of an instruction without a displacement takes the machine to the next
place. -/
theorem Placed.steps_plain {j : Nat} (found : mf.instrs[j]? = some mi)
    (plain : mi.op ∉ jumpOps ++ callOps) {enc after : Encoder}
    (first : encoderAt mf ra j = some enc) (next : encoderAt mf ra (j + 1) = some after)
    {code : List Byte} (grown : after.buf = enc.buf ++ code) {cpu : Cpu}
    (runs : Runs code m.cpu cpu) (rip : m.rip = img.address (entry + enc.buf.length)) :
    Machine.Steps img lowest m
      { m with cpu, rip := img.address (entry + after.buf.length) } := by
  obtain ⟨inside, rfl⟩ := List.getElem?_eq_some_iff.mp found
  have steps : Machine.Steps img lowest m _ := steps_of_runs runs
    (fun nonempty => placed.hasCode_plain inside first next plain grown nonempty) rip
  have size : entry + enc.buf.length + code.length = entry + after.buf.length := by
    rw [grown, List.length_append, Nat.add_assoc]
  rwa [size] at steps

/-- A jump stands in the image with a displacement that leads to its label. -/
theorem Placed.hasCode_jump {op : MachineOp} (known : op ∈ jumpOps) {label : Int} {j : Nat}
    (jump : JumpAt mf.instrs op label j) {enc after : Encoder}
    (first : encoderAt mf ra j = some enc) (next : encoderAt mf ra (j + 1) = some after)
    (lead : List Byte) (nonempty : lead ≠ [])
    (grown : after.buf = enc.buf ++ (lead ++ blankRel32)) :
    ∃ (rel : BitVec 32) (k place : Nat), LabelAt mf.instrs label k ∧
      placeOf mf ra k = some place ∧
        img.HasCode (entry + enc.buf.length) (lead ++ X86.toLittleEndian 4 rel) ∧
          img.address (entry + enc.buf.length + lead.length + kRel32DispBytes) +
            rel.signExtend 64 = img.address (entry + place) := by
  obtain ⟨pos, k, place, field, isLabel, stands, leads⟩ :=
    placed.linked.jumps mf ra entry placed.stands op known j label jump
  have notCall : op ≠ .call := by
    rintro rfl
    revert known
    decide
  obtain ⟨rel, hasCode, reaches⟩ := placed.hasCode_branch jump first next lead []
    nonempty (by rw [grown, List.append_nil]) (if_neg notCall) field leads
  rw [List.append_nil] at hasCode
  exact ⟨rel, k, place, isLabel, stands, hasCode, address_of_displacement reaches⟩

include compiled

/-- A computing instruction. -/
theorem Simulates.data (sim : Simulates img entry mf ra bottom frame s m)
    (found : mf.instrs[s.pc]? = some mi) (plain : mi.op ∉ jumpOps ++ callOps)
    (falls : Flows mf.instrs s.pc (s.pc + 1)) {enc after : Encoder} {ctx : String}
    {code : List Byte} (first : encoderAt mf ra s.pc = some enc)
    (next : encoderAt mf ra (s.pc + 1) = some after) (grown : after = enc.put code)
    (encoded : encodeData ra ctx mi = .ok code) {regs : Regs}
    (executed : mi.execData s.regs = some regs) :
    ∃ m', Machine.Steps img lowest m m' ∧
      Simulates img entry mf ra bottom frame { s with pc := s.pc + 1, regs } m' := by
  have good := compiled.instr found
  have isDef {d : VRegId} (result : mi.result = some d) : Defines mf.instrs s.pc d :=
    (compiled.defines_iff found).mpr result
  -- A late operand is mentioned where the result is, so that their homes differ.
  have apart : ∀ slot, readsLate mi.op slot = true → ∀ r,
      homeOf ra (useAt mi slot) ctx = .ok r → homeOf ra mi.result ctx ≠ .ok r := by
    intro slot late r homed homed'
    cases used : useAt mi slot with
    | none =>
        rw [used] at homed
        cases homed
    | some v =>
        cases writes : mi.result with
        | none =>
            rw [writes] at homed'
            cases homed'
        | some d =>
            have reads := read_of_useAt used
            have differ : v ≠ d := by
              rintro rfl
              exact good.late slot v late used writes
            rw [used, compiled.homeOf_read found reads] at homed
            rw [writes, compiled.allocated.homeOf_mention (Or.inl (isDef writes))] at homed'
            have apart := compiled.allocated.home_ne_of_mentions differ (p := s.pc)
              (Or.inr ⟨mi, found, reads⟩) (Or.inr ⟨mi, found, reads⟩)
              (Or.inl (isDef writes)) (Or.inl (isDef writes))
              ⟨le_rfl, le_rfl⟩ ⟨le_rfl, le_rfl⟩
            exact apart ((Except.ok.inj homed).trans (Except.ok.inj homed').symm)
  obtain ⟨d, value, dst, cpu, writes, rfl, homed, runs, leaves⟩ :=
    encodeData_leaves encoded executed apart (compiled.holdsOperands found sim.agrees)
  cases (compiled.allocated.homeOf_mention (Or.inl (isDef writes)) ctx).symm.trans homed
  obtain ⟨place, stands, rip⟩ := sim.rip
  rw [placeOf, first, Option.map_some, Option.some.injEq] at stands
  subst stands
  have steps := placed.steps_plain lowest found plain first next
    (show after.buf = enc.buf ++ code by rw [grown]; rfl) runs rip
  refine ⟨_, steps, sim.reachable.step falls, ⟨_, by rw [placeOf, next]; rfl, rfl⟩, ?_, ?_⟩
  · refine compiled.agrees_write found writes falls sim.agrees leaves.result ?_ s.calls
    intro v differ live
    have away := compiled.allocated.home_ne_of_live compiled.flow sim.reachable (isDef writes)
      ⟨_, falls, live⟩ differ
    have scratch := (home_apart (compiled.homeOf_live live "")).2
    exact leaves.others _ away scratch.1 scratch.2
  · refine sim.stack.of_eq ?_ rfl
    exact leaves.others .rsp (home_rsp homed).symm (by decide) (by decide)

/-- A label. -/
theorem Simulates.label (sim : Simulates img entry mf ra bottom frame s m)
    (found : mf.instrs[s.pc]? = some mi) (isLabel : mi.op = .label) :
    Simulates img entry mf ra bottom frame { s with pc := s.pc + 1 } m := by
  have falls : Flows mf.instrs s.pc (s.pc + 1) :=
    Or.inl ⟨⟨mi, found, by simp [isLabel], by simp [isLabel]⟩, rfl⟩
  have silent := (compiled.instr found).silent (by simp [isLabel])
  obtain ⟨pmoves, enc, after, -, first, next, encoded⟩ := placed.encoded found
  have same : after.buf = enc.buf := by
    simp only [encodeInstr, isLabel] at encoded
    split at encoded
    case h_1 => cases encoded
    case h_2 id _ =>
      cases encoded
      unfold Encoder.defineLabel
      split <;> rfl
  obtain ⟨place, stands, rip⟩ := sim.rip
  rw [placeOf, first, Option.map_some, Option.some.injEq] at stands
  subst stands
  refine ⟨sim.reachable.step falls, ⟨_, ?_, rip⟩, ?_, sim.stack⟩
  · rw [placeOf, next, Option.map_some, same]
  · exact compiled.agrees_goto found silent falls sim.agrees fun _ _ => rfl

/-- An unconditional jump. -/
theorem Simulates.jmp (sim : Simulates img entry mf ra bottom frame s m)
    (found : mf.instrs[s.pc]? = some mi) (isJmp : mi.op = .jmp) {label : Int}
    (given : mi.imm = some label) {pc : Nat} (goes : labelPos mf.instrs label = some pc) :
    ∃ m', Machine.Steps img lowest m m' ∧
      Simulates img entry mf ra bottom frame { s with pc } m' := by
  have target := labelAt_of_labelPos goes
  have flows : Flows mf.instrs s.pc pc :=
    Or.inr ⟨mi, label, found, .inl isJmp, given, target⟩
  have silent := (compiled.instr found).silent (by simp [isJmp])
  obtain ⟨pmoves, enc, after, -, first, next, encoded⟩ := placed.encoded found
  simp only [encodeInstr, isJmp, given] at encoded
  cases encoded
  obtain ⟨rel, k, place, isLabel, stands, hasCode, reaches⟩ := placed.hasCode_jump
    (by decide) ⟨mi, found, isJmp, given⟩ first next [kOpJmpRel32] (List.cons_ne_nil _ _) (by
      simp [Encoder.put, Encoder.addFixup, List.append_assoc])
  obtain rfl := compiled.flow.structured.labels label _ _ target isLabel
  obtain ⟨here, before, rip⟩ := sim.rip
  rw [placeOf, first, Option.map_some, Option.some.injEq] at before
  subst before
  refine ⟨{ m with rip := img.address (entry + place) }, ?_, ?_⟩
  · apply X86.Machine.steps_of_execute hasCode (branch_decodes .jmp rel) rip
    rw [List.length_append, toLittleEndian_length, ← Nat.add_assoc]
    exact congrArg (fun rip => some { m with rip }) reaches
  · refine ⟨sim.reachable.step flows, ⟨place, stands, rfl⟩, ?_, sim.stack.of_eq rfl rfl⟩
    exact compiled.agrees_goto found silent flows sim.agrees fun _ _ => rfl

/-- A conditional jump. -/
theorem Simulates.jz (sim : Simulates img entry mf ra bottom frame s m)
    (found : mf.instrs[s.pc]? = some mi) (isJz : mi.op = .jz) {cond : Word}
    (known : mi.operands s.regs = some [cond]) :
    ∃ label k, mi.imm = some label ∧ LabelAt mf.instrs label k ∧
      ∃ m', Machine.Steps img lowest m m' ∧ Simulates img entry mf ra bottom frame
        { s with pc := if cond = 0 then k else s.pc + 1 } m' := by
  have falls : Flows mf.instrs s.pc (s.pc + 1) :=
    Or.inl ⟨⟨mi, found, by simp [isJz], by simp [isJz]⟩, rfl⟩
  have silent := (compiled.instr found).silent (by simp [isJz])
  obtain ⟨pmoves, enc, after, -, first, next, encoded⟩ := placed.encoded found
  obtain ⟨label, given⟩ : ∃ label, mi.imm = some label := by
    cases given : mi.imm with
    | none =>
        simp only [encodeInstr, isJz, given] at encoded
        cases encoded
    | some label => exact ⟨label, rfl⟩
  simp only [encodeInstr, isJz, given] at encoded
  obtain ⟨r, homed, encoded⟩ := except_bind_ok.mp encoded
  cases encoded
  have holds : m.cpu.regs r = cond := by
    obtain ⟨full, values⟩ := operands_eq known
    obtain ⟨v, here, homed⟩ := read_of_home full homed
    have reads := List.mem_of_getElem? here
    rw [compiled.holdsOperands found sim.agrees v reads _ r homed]
    have first : (mi.reads.map s.regs)[0]? = some (s.regs v) := by
      rw [List.getElem?_map, here]
      rfl
    rw [← values] at first
    exact (Option.some.inj first).symm
  obtain ⟨rel, k, place, isLabel, stands, hasCode, reaches⟩ := placed.hasCode_jump
    (by decide) ⟨mi, found, isJz, given⟩ first next
    (opRmR kOpTestRR r r ++ [kOpEscape2Byte, kOpJzRel32])
    (by simp) (by simp [Encoder.put, Encoder.addFixup, List.append_assoc])
  have taken : Flows mf.instrs s.pc k :=
    Or.inr ⟨mi, label, found, .inr isJz, given, isLabel⟩
  obtain ⟨here, before, rip⟩ := sim.rip
  rw [placeOf, first, Option.map_some, Option.some.injEq] at before
  subst before
  rw [List.append_assoc] at hasCode
  let tested : Cpu := { m.cpu with
    flags := X86.flagsOf (m.cpu.regs r &&& m.cpu.regs r) (some false) }
  have test : Runs (opRmR kOpTestRR r r) m.cpu tested := .of_decodes (test_decodes r r) rfl
  have zero : tested.flags.zero = some (cond == 0) := by
    change some (m.cpu.regs r &&& m.cpu.regs r == 0) = _
    rw [BitVec.and_self, holds]
  have steps : Machine.Steps img lowest m _ := steps_of_runs test
    (fun _ => hasCode.left) rip
  let mid : Machine := { m with
    cpu := tested
    rip := img.address (entry + enc.buf.length + (opRmR kOpTestRR r r).length) }
  let behind := img.address (entry + enc.buf.length + (opRmR kOpTestRR r r).length +
    (BranchKind.jz.opcode ++ X86.toLittleEndian 4 rel).length)
  have jump : Machine.Steps img lowest mid
      { mid with rip := if cond = 0 then behind + rel.signExtend 64 else behind } := by
    apply X86.Machine.steps_of_execute hasCode.right (branch_decodes .jz rel) rfl
    have executed : mid.execute lowest behind (.jz rel) = tested.flags.zero.map fun zero =>
      { mid with rip := if zero then behind + rel.signExtend 64 else behind } := rfl
    refine executed.trans ?_
    rw [zero, Option.map_some]
    by_cases isZero : cond = 0 <;> simp [isZero]
  have kept (q : Nat) (flows : Flows mf.instrs s.pc q) :
      Agrees mf ra { s with pc := q } tested :=
    compiled.agrees_goto found silent flows sim.agrees fun _ _ => rfl
  refine ⟨label, k, given, isLabel, _, steps.trans jump, ?_⟩
  by_cases isZero : cond = 0
  · simp only [isZero, if_true]
    refine ⟨sim.reachable.step taken, ⟨place, stands, ?_⟩, kept k taken,
      sim.stack.of_eq rfl rfl⟩
    rw [← reaches, List.length_append]
    simp only [behind, branch_length, Nat.add_assoc]
    rfl
  · simp only [isZero, if_false]
    refine ⟨sim.reachable.step falls, ⟨_, by rw [placeOf, next]; rfl, ?_⟩, kept _ falls,
      sim.stack.of_eq rfl rfl⟩
    simp only [behind, Encoder.put, Encoder.addFixup, List.length_append, blankRel32,
      List.length_replicate, Nat.add_assoc]
    rfl

/-- A return. -/
theorem Simulates.ret {saved : Reg → Word} {ret : Word} {words : List Word}
    (sim : Simulates img entry mf ra bottom (frameOf saved ret words) s m)
    (found : mf.instrs[s.pc]? = some mi) (isRet : mi.op = .ret) {value : Word}
    (known : mi.operands s.regs = some [value]) :
    ∃ m', Machine.Steps img lowest m m' ∧ HasLeft value saved bottom ret words m' := by
  obtain ⟨pmoves, enc, after, -, first, next, encoded⟩ := placed.encoded found
  simp only [encodeInstr, isRet] at encoded
  obtain ⟨src, homed, encoded⟩ := except_bind_ok.mp encoded
  cases encoded
  have holds : m.cpu.regs src = value := by
    obtain ⟨full, values⟩ := operands_eq known
    obtain ⟨v, here, homed⟩ := read_of_home full homed
    rw [compiled.holdsOperands found sim.agrees v (List.mem_of_getElem? here) _ src homed]
    have first : (mi.reads.map s.regs)[0]? = some (s.regs v) := by
      rw [List.getElem?_map, here]
      rfl
    rw [← values] at first
    exact (Option.some.inj first).symm
  obtain ⟨inside, rfl⟩ := List.getElem?_eq_some_iff.mp found
  have hasCode := placed.hasCode_plain inside first next
    (by rw [isRet]; decide)
    (show _ = enc.buf ++ (movRR kRegRax src ++ (epilogue ++ [kOpRet])) by simp [Encoder.put])
    (by simp [movRR, opRmR])
  obtain ⟨place, stands, rip⟩ := sim.rip
  rw [placeOf, first, Option.map_some, Option.some.injEq] at stands
  subst stands
  let moved : Machine := { m with
    cpu := m.cpu.set kRegRax (m.cpu.regs src)
    rip := img.address (entry + enc.buf.length + (movRR kRegRax src).length) }
  have move : Machine.Steps img lowest m moved :=
    steps_of_runs (.of_decodes (movRR_decodes kRegRax src) rfl) (fun _ => hasCode.left) rip
  have noRsp : ∀ r ∈ calleeSavedHomes.reverse, r ≠ .rsp := by decide
  have held : moved.StackHolds bottom (frameOf saved ret words) :=
    sim.stack.of_eq (Cpu.set_other _ (by decide) _) rfl
  obtain ⟨left, pops, there, stack, restored, others⟩ :=
    X86.Machine.steps_of_pops lowest
      (fun r member => pop_decodes (List.mem_reverse.mp member)) noRsp (by decide)
      hasCode.right.left (show moved.rip = _ from rfl) held
  have leave : Machine.Steps img lowest left { left.pop.2 with rip := left.pop.1 } :=
    X86.Machine.steps_of_execute hasCode.right.right ret_decodes there rfl
  obtain ⟨target, popped⟩ := stack.pop
  refine ⟨_, (move.trans pops).trans leave, target, ?_, fun r member => ?_, ?_⟩
  · have pop : left.pop.2.cpu.regs kRegRax = left.cpu.regs kRegRax :=
      X86.Machine.pop_other left (by decide)
    refine pop.trans ((others kRegRax (by decide) (by decide)).trans ?_)
    exact (Cpu.set_same _ _ _).trans holds
  · have apart := noRsp r (List.mem_reverse.mpr member)
    exact (X86.Machine.pop_other left apart).trans
      (restored r (List.mem_reverse.mpr member))
  · exact popped.of_eq rfl rfl

/-- A call of a function that answers. -/
theorem Simulates.call (sim : Simulates img entry mf ra bottom frame s m)
    (found : mf.instrs[s.pc]? = some mi) (isCall : mi.op = .call) {callee : Int}
    (given : mi.imm = some callee) {d : VRegId} (writes : mi.result = some d)
    {args : List Word} (known : mi.operands s.regs = some args) {value : Word}
    (room : lowest.toNat + 8 ≤ m.rsp.toNat)
    (answers : ∀ (n target : Nat),
      fns.findIdx? (fun f => decide ((f.symbol.toNat : Int) = callee)) = some n →
        entries[n]? = some target → ∀ m' ret, Enters img target args bottom (ret :: frame) m' →
          ∃ after, Machine.Steps img lowest m' after ∧
            HasLeft value m'.cpu.regs bottom ret frame after) (calls : List CallEvent) :
    ∃ m', Machine.Steps img lowest m m' ∧ Simulates img entry mf ra bottom frame
      ⟨s.pc + 1, Function.update s.regs d value, calls⟩ m' := by
  have falls : Flows mf.instrs s.pc (s.pc + 1) :=
    Or.inl ⟨⟨mi, found, by simp [isCall], by simp [isCall]⟩, rfl⟩
  have isDef := (compiled.defines_iff found).mpr writes
  have branch : JumpAt mf.instrs .call callee s.pc := ⟨mi, found, isCall, given⟩
  obtain ⟨pmoves, enc, after, -, first, next, encoded⟩ := placed.encoded found
  simp only [encodeInstr, isCall, given] at encoded
  obtain ⟨moves, loads, encoded⟩ := except_bind_ok.mp encoded
  split at encoded
  case h_1 => cases encoded
  case h_2 bytes emitted =>
    obtain ⟨res, homed, encoded⟩ := except_bind_ok.mp encoded
    cases encoded
    have ofResult := compiled.allocated.homeOf_mention (Or.inl isDef)
    rw [writes, ofResult] at homed
    cases homed
    obtain ⟨full, rfl⟩ := operands_eq known
    obtain ⟨cpu, runs, inArgs, others⟩ := argMoves_run loads emitted full
      (compiled.instr found).slots (compiled.holdsOperands found sim.agrees)
    obtain ⟨pos, n, target, field, callee_, stands_, leads⟩ :=
      placed.linked.calls mf ra entry placed.stands s.pc callee branch
    obtain ⟨rel, hasCode, reaches⟩ := placed.hasCode_branch branch first next
      (bytes ++ [kOpCallRel32]) (movRR (home ra d) kRegRax)
      (by simp) (by simp [Encoder.put, Encoder.addCall]) rfl field leads
    have regroup : bytes ++ [kOpCallRel32] ++
        (X86.toLittleEndian 4 rel ++ movRR (home ra d) kRegRax) =
          bytes ++ (BranchKind.call.opcode ++ X86.toLittleEndian 4 rel ++
            movRR (home ra d) kRegRax) := by
      simp [BranchKind.opcode]
    rw [regroup] at hasCode
    obtain ⟨place, stands, rip⟩ := sim.rip
    rw [placeOf, first, Option.map_some, Option.some.injEq] at stands
    subst stands
    let mid : Machine := { m with
      cpu, rip := img.address (entry + enc.buf.length + bytes.length) }
    have move : Machine.Steps img lowest m mid := steps_of_runs runs (fun _ => hasCode.left) rip
    have rsp : mid.rsp = m.rsp := others .rsp (by decide) (by decide)
    have held : mid.StackHolds bottom frame := sim.stack.of_eq rsp rfl
    let back := img.address (entry + enc.buf.length + bytes.length +
      (BranchKind.call.opcode ++ X86.toLittleEndian 4 rel).length)
    have space : lowest.toNat + 8 ≤ mid.rsp.toNat := by rwa [rsp]
    obtain ⟨pushed, push⟩ := X86.Machine.push_of_room space back
    let there : Machine := { pushed with rip := back + rel.signExtend 64 }
    have call : Machine.Steps img lowest mid there := by
      apply X86.Machine.steps_of_execute hasCode.right.left (branch_decodes .call rel) rfl
      change (mid.push lowest back).map _ = _
      rw [push, Option.map_some]
    have leadsTo : back + rel.signExtend 64 = img.address target := by
      have place : entry + enc.buf.length + bytes.length +
          (BranchKind.call.opcode ++ X86.toLittleEndian 4 rel).length =
            entry + enc.buf.length + (bytes ++ [kOpCallRel32]).length + kRel32DispBytes := by
        rw [branch_length, List.length_append]
        simp only [Nat.add_assoc]
        rfl
      rw [← address_of_displacement reaches, ← place]
    have kept (r : Reg) (apart : r ≠ .rsp) : there.cpu.regs r = cpu.regs r :=
      X86.Machine.push_other push apart
    have enters : Enters img target (mi.reads.map s.regs) bottom (back :: frame) there := by
      refine ⟨leadsTo, fun i r argument value here => ?_, (held.push push).of_eq rfl rfl⟩
      have apart : ∀ r ∈ kAbiArgRegs, r ≠ .rsp := by decide
      rw [kept r (apart r (List.mem_of_getElem? argument))]
      exact inArgs i r argument value here
    obtain ⟨left, inside, hasLeft⟩ := answers n target callee_ stands_ there back enters
    let done : Machine := { left with
      cpu := left.cpu.set (home ra d) (left.cpu.regs kRegRax)
      rip := img.address (entry + enc.buf.length + bytes.length +
        (BranchKind.call.opcode ++ X86.toLittleEndian 4 rel).length +
          (movRR (home ra d) kRegRax).length) }
    have result : Machine.Steps img lowest left done :=
      steps_of_runs (.of_decodes (movRR_decodes (home ra d) kRegRax) rfl)
        (fun _ => hasCode.right.right) hasLeft.rip
    refine ⟨done, ((move.trans call).trans inside).trans result, sim.reachable.step falls,
      ⟨_, by rw [placeOf, next]; rfl, ?_⟩, ?_, ?_⟩
    · simp only [done, Encoder.put, Encoder.addCall, List.length_append,
        blankRel32, List.length_replicate, Nat.add_assoc]
      rfl
    · refine compiled.agrees_write found writes falls sim.agrees
        ((Cpu.set_same _ _ _).trans hasLeft.result) (fun v differ live => ?_) calls
      have untouched : ¬ Defines mf.instrs s.pc v := by
        rw [compiled.defines_iff found, writes, Option.some.injEq]
        exact fun equal => differ equal.symm
      have away := compiled.allocated.home_ne_of_live compiled.flow sim.reachable isDef
        ⟨_, falls, live⟩ differ
      have saved := compiled.allocated.home_saved_of_live compiled.flow sim.reachable found
        isCall untouched live
      have apart : ∀ r ∈ calleeSavedHomes, r ∉ kAbiArgRegs ∧ r ≠ kRegRax ∧ r ≠ .rsp := by
        decide
      obtain ⟨notArg, notRax, notRsp⟩ := apart _ saved
      calc
        done.cpu.regs (home ra v) = left.cpu.regs (home ra v) := Cpu.set_other _ away _
        _ = there.cpu.regs (home ra v) := hasLeft.saved _ saved
        _ = cpu.regs (home ra v) := kept _ notRsp
        _ = m.cpu.regs (home ra v) := others _ notArg notRax
    · exact hasLeft.stack.of_eq (Cpu.set_other _ (home_rsp (ofResult "")).symm _) rfl

end Function

end ExecEncoder

end Aegis
