import AegisCompiler.ExecutedInstructions
import Mathlib.Tactic.FinCases

/-!
# Executing a linked module

A function of a linked image returns what the module computes for the call, with
the stack and the callee-saved registers as they were.
-/

namespace Aegis

namespace ExecEncoder

open LinearScan LiveIntervals FlowSpans
open X86 (Byte Reg Cpu Image Machine)

section Params

variable {env : MachineEnv} {instrs : List MachineInstr} {n : Nat}

/-- What a parameter instruction does. -/
theorem step_param {s next : MachineState} {mi : MachineInstr} (isParam : mi.op = .param)
    (stepped : stepInstr env instrs s mi = .next next) :
    ∃ v i, mi.result = some v ∧ mi.imm = some i ∧
      next = ⟨s.pc + 1, Function.update s.regs v (env.arg i), s.calls⟩ := by
  simp only [stepInstr, isParam] at stepped
  split at stepped
  case h_1 v i result imm =>
    cases stepped
    exact ⟨v, i, result, imm, rfl⟩
  case h_2 => cases stepped

/-- Behind the parameters their registers hold the arguments. -/
theorem params_run (first : ParamsFirst instrs n)
    (distinct : ∀ p q v, p < n → q < n → Defines instrs p v → Defines instrs q v → p = q)
    (single : ∀ mi ∈ instrs, mi.moreResults = []) {s : MachineState} {value : Word}
    {calls : List CallEvent} (returns : Returns env instrs s value calls) (inside : s.pc ≤ n)
    (reachable : Reachable instrs s.pc) :
    ∃ regs, Returns env instrs ⟨n, regs, s.calls⟩ value calls ∧ Reachable instrs n ∧
      (∀ v, (∀ q, s.pc ≤ q → q < n → ¬ Defines instrs q v) → regs v = s.regs v) ∧
        ∀ q v, s.pc ≤ q → q < n → Defines instrs q v → ∃ mi i, instrs[q]? = some mi ∧
          mi.imm = some i ∧ mi.result = some v ∧ regs v = env.arg i := by
  induction returns with
  | @done s value calls stepped =>
      rcases Nat.lt_or_eq_of_le inside with before | rfl
      · unfold step at stepped
        split at stepped
        case h_1 => cases stepped
        case h_2 mi found =>
          have isParam := (first s.pc mi found).mpr before
          have isRet := (returned_calls stepped).1
          cases isParam.symm.trans isRet
      · exact ⟨s.regs, .done stepped, reachable, fun _ _ => rfl, by omega⟩
  | @next s next value calls stepped rest ih =>
      rcases Nat.lt_or_eq_of_le inside with before | rfl
      case inr => exact ⟨s.regs, .next stepped rest, reachable, fun _ _ => rfl, by omega⟩
      unfold step at stepped
      split at stepped
      case h_1 => cases stepped
      case h_2 mi found =>
        have isParam := (first s.pc mi found).mpr before
        obtain ⟨v, i, result, imm, rfl⟩ := step_param isParam stepped
        have falls : Flows instrs s.pc (s.pc + 1) :=
          Or.inl ⟨⟨mi, found, by simp [isParam], by simp [isParam]⟩, rfl⟩
        have isDef : Defines instrs s.pc v := ⟨mi, found, by simp [MachineInstr.defs, result]⟩
        have only (w : VRegId) (defines : Defines instrs s.pc w) : w = v := by
          obtain ⟨other, found', member⟩ := defines
          cases found.symm.trans found'
          rw [MachineInstr.defs, single mi (List.mem_of_getElem? found), result] at member
          simpa using member
        obtain ⟨regs, returns, reaches, others, held⟩ := ih before (reachable.step falls)
        refine ⟨regs, returns, reaches, fun w untouched => ?_, fun q w above below defines => ?_⟩
        · have apart : w ≠ v := by
            rintro rfl
            exact untouched s.pc le_rfl before isDef
          rw [others w fun q above below => untouched q (Nat.le_of_succ_le above) below]
          exact Function.update_of_ne apart _ _
        · rcases Nat.lt_or_eq_of_le above with later | rfl
          · exact held q w later below defines
          · obtain rfl := only w defines
            refine ⟨mi, i, found, imm, result, ?_⟩
            rw [others w fun q above below defines => ?_]
            · exact Function.update_self _ _ _
            · have same := distinct q s.pc w below before defines isDef
              have later : s.pc + 1 ≤ q := above
              omega

end Params

section Function

variable {img : Image} {fns : List ModuleFunction} {entries : List Nat}
variable {mf : MachineFunction} {ra : ScanState} {entry : Nat}
variable (lowest : Word) {bottom : Word} {m : Machine}
variable (placed : Placed img fns entries mf ra entry)

include placed

/-- The moves of all parameters are emitted at the first one. -/
theorem Placed.param_encoder {n : Nat} (first : ParamsFirst mf.instrs n)
    (inside : n ≤ mf.instrs.length) {pmoves : List Move}
    (params : paramMoves ra mf.instrs = .ok pmoves) {k : Nat} (below : k < n) :
    ∃ enc code, encoderAt mf ra (k + 1) = some enc ∧ parallelMove pmoves = some code ∧
      enc.buf = prologue ++ code ∧ enc.paramBlockEmitted = true := by
  induction k with
  | zero =>
      have found := List.getElem?_eq_getElem (Nat.lt_of_lt_of_le below inside)
      have isParam := (first 0 _ found).mpr below
      obtain ⟨pmoves', enc, after, params', start, next, encoded⟩ := placed.encoded found
      cases params.symm.trans params'
      cases placed.first_encoder.symm.trans start
      simp only [encodeInstr, isParam, Bool.false_eq_true, if_false] at encoded
      split at encoded
      case h_1 => cases encoded
      case h_2 code emitted =>
        cases encoded
        exact ⟨_, code, next, emitted, rfl, rfl⟩
  | succ k ih =>
      obtain ⟨before, code, start, emitted, buf, flag⟩ := ih (Nat.lt_of_succ_lt below)
      have found := List.getElem?_eq_getElem (Nat.lt_of_lt_of_le below inside)
      have isParam := (first (k + 1) _ found).mpr below
      obtain ⟨pmoves', enc, after, -, start', next, encoded⟩ := placed.encoded found
      cases start.symm.trans start'
      simp only [encodeInstr, isParam, flag, if_true] at encoded
      cases encoded
      exact ⟨before, code, next, emitted, buf, flag⟩

/-- The prologue saves the registers of the caller. -/
theorem Placed.steps_prologue {args words : List Word}
    (enters : Enters img entry args bottom words m)
    (room : lowest.toNat + 8 * calleeSavedHomes.length ≤ m.rsp.toNat) :
    ∃ m', Machine.Steps img lowest m m' ∧
      m'.rip = img.address (entry + prologue.length) ∧
        m'.StackHolds bottom (calleeSavedHomes.reverse.map m.cpu.regs ++ words) ∧
          ∀ r, r ≠ .rsp → m'.cpu.regs r = m.cpu.regs r := by
  have apart : ∀ r ∈ calleeSavedHomes, r ≠ .rsp := by decide
  obtain ⟨m', steps, rip, stack, others⟩ := X86.Machine.steps_of_pushes
    pushReg (fun r saved => push_decodes saved) apart placed.hasCode_prologue
    enters.rip enters.stack room
  rw [← List.map_reverse] at stack
  exact ⟨m', steps, rip, stack, others⟩

omit placed in
theorem returns_inside {env : MachineEnv} {instrs : List MachineInstr} {s : MachineState}
    {value : Word} {calls : List CallEvent} (returns : Returns env instrs s value calls) :
    s.pc < instrs.length := by
  by_contra outside
  have none : instrs[s.pc]? = none := List.getElem?_eq_none (Nat.not_lt.mp outside)
  cases returns with
  | done stepped | next stepped =>
      rw [step, none] at stepped
      cases stepped

/-- The parameters reach their homes. -/
theorem Placed.steps_params (compiled : Compiled mf ra) {n : Nat}
    (params : ParamsApart ra mf.instrs n) {env : MachineEnv} {args : List Word}
    (takes : TakesArgs mf env args) {regs : Regs} {value : Word} {calls : List CallEvent}
    (returns : Returns env mf.instrs { regs } value calls)
    (rip : m.rip = img.address (entry + prologue.length))
    (inArgs : ∀ (i : Nat) (r : Reg), kAbiArgRegs[i]? = some r → ∀ value,
      args[i]? = some value → m.cpu.regs r = value)
    {frame : List Word} (stack : m.StackHolds bottom frame) :
    ∃ s m', s.pc = n ∧ s.calls = [] ∧ Machine.Steps img lowest m m' ∧
      Simulates img entry mf ra bottom frame s m' ∧ Returns env mf.instrs s value calls := by
  have distinct : ∀ p q v, p < n → q < n → Defines mf.instrs p v → Defines mf.instrs q v →
      p = q := by
    intro p q v pFirst qFirst pDefines qDefines
    by_contra differ
    exact params.apart p q v v pFirst qFirst differ pDefines qDefines rfl
  obtain ⟨regs', returns', reachable, -, held⟩ := params_run params.first distinct
    (fun mi member => (compiled.instrs mi member).single) returns (Nat.zero_le n) .start
  have inside : n < mf.instrs.length := returns_inside returns'
  have earlier (v : VRegId) (live : LiveIn mf.instrs v n) :
      ∃ q, q < n ∧ Defines mf.instrs q v :=
    LiveBefore.defined_earlier compiled.flow.structured.singleEntry compiled.flow.wellDefined
      reachable live
  cases count : n with
  | zero =>
      subst count
      refine ⟨⟨0, regs', []⟩, m, rfl, rfl, .refl, ⟨.start, ⟨prologue.length, ?_, rip⟩, ?_, stack⟩,
        returns'⟩
      · rw [placeOf, placed.first_encoder]
        rfl
      · intro v live
        obtain ⟨q, below, -⟩ := earlier v live
        exact absurd below (Nat.not_lt_zero q)
  | succ k =>
      have first := List.getElem?_eq_getElem (Nat.zero_lt_of_lt inside)
      have isParam := (params.first 0 _ first).mpr (by omega)
      obtain ⟨pmoves, -, -, found, -⟩ := placed.encoded first
      obtain ⟨enc, code, atOne, emitted, buf, -⟩ :=
        placed.param_encoder params.first (Nat.le_of_lt inside) found (k := 0) (by omega)
      obtain ⟨last, code', atLast, emitted', buf', -⟩ :=
        placed.param_encoder params.first (Nat.le_of_lt inside) found (k := k) (by omega)
      cases emitted.symm.trans emitted'
      obtain ⟨cpu, runs, assigned⟩ :=
        paramMoves_assigns found (paramMoves_apart params found) emitted m.cpu
      have steps := placed.steps_plain lowest first (by rw [isParam]; decide)
        placed.first_encoder atOne buf runs rip
      have size : enc.buf.length = last.buf.length := by rw [buf, buf']
      subst count
      refine ⟨⟨k + 1, regs', []⟩, _, rfl, rfl, steps,
        ⟨reachable, ⟨last.buf.length, ?_, ?_⟩, ?_, ?_⟩,
        returns'⟩
      · rw [placeOf, atLast]
        rfl
      · rw [size]
      · intro v live
        obtain ⟨q, below, defines⟩ := earlier v live
        obtain ⟨mi, index, here, imm, result, value'⟩ := held q v (Nat.zero_le q) below defines
        have member := List.mem_of_getElem? here
        have param := (params.first q mi here).mpr below
        obtain ⟨i, r, dst, imm', argument, homed, move⟩ := paramMoves_loads found member param
        obtain rfl := Option.some.inj (imm.symm.trans imm')
        rw [result, compiled.homeOf_live live] at homed
        cases homed
        change cpu.regs (home ra v) = regs' v
        rw [value', assigned _ move]
        exact inArgs i r argument _ (takes mi member param i imm)
      · refine stack.of_eq ?_ rfl
        exact parallelMove_others emitted runs (paramMoves_rsp found) (by decide)

/-- The callee of an event returns the value, while these words lie on the stack. -/
structure Answered (img : Image) (fns : List ModuleFunction) (entries : List Nat)
    (lowest bottom : Word) (frame : List Word) (event : CallEvent) (value : Word) : Prop where
  room : lowest.toNat + 8 * (frame.length + 1) ≤ bottom.toNat
  returns : ∀ (n target : Nat),
    fns.findIdx? (fun f => decide ((f.symbol.toNat : Int) = event.callee)) = some n →
      entries[n]? = some target → ∀ m ret, Enters img target event.args bottom (ret :: frame) m →
        ∃ after, Machine.Steps img lowest m after ∧
          HasLeft value m.cpu.regs bottom ret frame after

/-- The machine simulates a step behind the parameters. -/
theorem Simulates.step (compiled : Compiled mf ra) {n : Nat}
    (first : ParamsFirst mf.instrs n) {env : MachineEnv} {s next : MachineState}
    (behind : n ≤ s.pc) {frame : List Word}
    (sim : Simulates img entry mf ra bottom frame s m)
    (stepped : step env mf.instrs s = .next next)
    (answered : ∀ event, next.calls = s.calls ++ [event] →
      Answered img fns entries lowest bottom frame event (env.callResult next.calls)) :
    n ≤ next.pc ∧ ∃ m', Machine.Steps img lowest m m' ∧
      Simulates img entry mf ra bottom frame next m' := by
  unfold Aegis.step at stepped
  split at stepped
  case h_1 => cases stepped
  case h_2 mi found =>
    have atLabel {label : Int} {k : Nat} (isLabel : LabelAt mf.instrs label k) : n ≤ k := by
      obtain ⟨other, found, op, -⟩ := isLabel
      by_contra below
      cases op.symm.trans ((first k other found).mpr (Nat.not_le.mp below))
    have further : n ≤ s.pc + 1 := Nat.le_succ_of_le behind
    cases op : mi.op <;> simp only [stepInstr, op] at stepped
    case label =>
      cases stepped
      exact ⟨further, m, .refl, sim.label placed compiled found op⟩
    case jmp =>
      rcases jumpTo_cases mf.instrs s mi.imm with stuck | ⟨label, pc, given, goes, same⟩
      · cases stuck.symm.trans stepped
      · cases same.symm.trans stepped
        exact ⟨atLabel (labelAt_of_labelPos goes),
          sim.jmp lowest placed compiled found op given goes⟩
    case jz =>
      split at stepped
      case h_2 => cases stepped
      case h_1 cond known =>
        obtain ⟨label, k, given, isLabel, m', steps, simulates⟩ :=
          sim.jz lowest placed compiled found op known
        split at stepped
        case isFalse notZero =>
          cases stepped
          rw [if_neg notZero] at simulates
          exact ⟨further, m', steps, simulates⟩
        case isTrue zero =>
          rcases jumpTo_cases mf.instrs s mi.imm with stuck | ⟨label', pc, given', goes, same⟩
          · cases stuck.symm.trans stepped
          · cases same.symm.trans stepped
            cases given.symm.trans given'
            obtain rfl := compiled.flow.structured.labels label _ _ isLabel
              (labelAt_of_labelPos goes)
            rw [if_pos zero] at simulates
            exact ⟨atLabel isLabel, m', steps, simulates⟩
    case ret => split at stepped <;> cases stepped
    case param => exact absurd ((first s.pc mi found).mp op) (Nat.not_lt.mpr behind)
    case call =>
      split at stepped
      case h_2 => cases stepped
      case h_1 d callee args writes given known =>
        cases stepped
        have answer := answered ⟨callee, args⟩ rfl
        have size := sim.stack.size
        have room := answer.room
        exact ⟨further, sim.call lowest placed compiled found op given writes known (by omega)
          answer.returns _⟩
    all_goals
      split at stepped
      case h_2 => cases stepped
      case h_1 regs executed =>
        cases stepped
        obtain ⟨pmoves, enc, after, -, start, behind, encoded⟩ := placed.encoded found
        simp only [encodeInstr, op] at encoded
        obtain ⟨code, data, encoded⟩ := except_bind_ok.mp encoded
        cases encoded
        have falls : Flows mf.instrs s.pc (s.pc + 1) :=
          Or.inl ⟨⟨mi, found, by simp [op], by simp [op]⟩, rfl⟩
        exact ⟨further, sim.data lowest placed compiled found (by simp [op, jumpOps, callOps]) falls
          start behind rfl data executed⟩

/-- The machine returns what the function returns. -/
theorem Simulates.run (compiled : Compiled mf ra) {n : Nat}
    (first : ParamsFirst mf.instrs n) {env : MachineEnv} {s : MachineState} {value : Word}
    {calls : List CallEvent} (returns : Returns env mf.instrs s value calls)
    (behind : n ≤ s.pc) {saved : Reg → Word} {ret : Word} {words : List Word}
    (sim : Simulates img entry mf ra bottom (frameOf saved ret words) s m)
    (answered : ∀ before event after, calls = before ++ event :: after →
      Answered img fns entries lowest bottom (frameOf saved ret words) event
        (env.callResult (before ++ [event]))) :
    ∃ m', Machine.Steps img lowest m m' ∧ HasLeft value saved bottom ret words m' := by
  induction returns generalizing m with
  | @done s value calls stepped =>
      unfold Aegis.step at stepped
      split at stepped
      case h_1 => cases stepped
      case h_2 mi found =>
        obtain ⟨isRet, known, -⟩ := returned_calls stepped
        exact sim.ret lowest placed compiled found isRet known
  | @next s next value calls stepped rest ih =>
      obtain ⟨later, m', steps, simulates⟩ := sim.step lowest placed compiled first behind
        stepped fun event grown => by
          obtain ⟨more, rfl⟩ := Returns.calls_extend rest
          have answer := answered s.calls event more (by rw [grown, List.append_assoc]; rfl)
          rwa [← grown] at answer
      obtain ⟨last, others, left⟩ := ih later simulates answered
      exact ⟨last, steps.trans others, left⟩

/-- A function that was entered returns to its caller. -/
theorem Placed.function_returns (compiled : Compiled mf ra) {args : List Word}
    {ret : Word} {words : List Word} (enters : Enters img entry args bottom (ret :: words) m)
    (room : lowest.toNat + 8 * (words.length + 1 + calleeSavedHomes.length) ≤ bottom.toNat)
    {env : MachineEnv} (takes : TakesArgs mf env args) {regs : Regs} {value : Word}
    {calls : List CallEvent} (returns : Returns env mf.instrs { regs } value calls)
    (answered : ∀ before event after, calls = before ++ event :: after →
      Answered img fns entries lowest bottom (frameOf m.cpu.regs ret words) event
        (env.callResult (before ++ [event]))) :
    ∃ m', Machine.Steps img lowest m m' ∧
      HasLeft value m.cpu.regs bottom ret words m' := by
  obtain ⟨n, params⟩ := compiled.params
  have size := enters.stack.size
  rw [List.length_cons] at size
  obtain ⟨inside, pushes, rip, stack, others⟩ :=
    placed.steps_prologue lowest enters (by omega)
  have notRsp : ∀ r ∈ kAbiArgRegs, r ≠ .rsp := by decide
  obtain ⟨s, mid, here, -, moves, sim, rest⟩ := placed.steps_params lowest compiled
    params takes returns rip (fun i r argument value given => by
      rw [others r (notRsp r (List.mem_of_getElem? argument))]
      exact enters.args i r argument value given) stack
  obtain ⟨last, steps, left⟩ :=
    sim.run lowest placed compiled params.first rest (Nat.le_of_eq here.symm)
    answered
  exact ⟨last, (pushes.trans moves).trans steps, left⟩

end Function

/-- Every function of the module has an allocation for the encoder. -/
def CompiledModule (fns : List ModuleFunction) : Prop :=
  ∀ f ∈ fns, ∃ mf ra, f.mf = some mf ∧ f.ra = some ra ∧ Compiled mf ra

/-- The linked image returns what the module computes, with the callee-saved registers
and the stack as they were, if the stack has room for all activations. -/
theorem image_computes {img : Image} {fns : List ModuleFunction} {entries : List Nat}
    (compiled : CompiledModule fns) (near : Near fns)
    (encoded : encodeModule fns = .ok (img.bytes, entries)) {depth : Nat}
    {callee : Int} {args : List Word} {value : Word}
    (computes : Computes fns depth callee args value) {n entry : Nat}
    (found : fns.findIdx? (fun f => decide ((f.symbol.toNat : Int) = callee)) = some n)
    (stands : entries[n]? = some entry) {lowest bottom ret : Word} {words : List Word}
    (room : lowest.toNat + 56 * depth + 8 * words.length ≤ bottom.toNat) {m : Machine}
    (enters : Enters img entry args bottom (ret :: words) m) :
    ∃ m', Machine.Steps img lowest m m' ∧ HasLeft value m.cpu.regs bottom ret words m' := by
  induction computes generalizing n entry ret words m with
  | @call depth callee args value mf env regs calls isCallee takes returns inner ih =>
      obtain ⟨inside, symbol, before⟩ := List.findIdx?_eq_some_iff_getElem.mp found
      have first : fns.find? (fun f => decide ((f.symbol.toNat : Int) = callee)) =
          some fns[n] := by
        rw [List.find?_eq_some_iff_getElem]
        exact ⟨symbol, n, inside, rfl, fun j less => by simpa using before j less⟩
      obtain ⟨mf', ra, given, given', good⟩ := compiled _ (List.getElem_mem inside)
      rw [calleeOf, first, Option.bind_some, given, Option.some.injEq] at isCallee
      subst isCallee
      have placed : Placed img fns entries mf' ra entry :=
        ⟨near, linked_of_linkable near.linkable encoded, n, _, List.getElem?_eq_getElem inside, given,
          given', stands⟩
      have frame : (frameOf m.cpu.regs ret words).length = words.length + 7 := by
        simp [frameOf, calleeSavedHomes, kHomeRegs, kFirstCalleeSavedHome]
      have saved : calleeSavedHomes.length = 6 := rfl
      refine placed.function_returns lowest good enters (by omega) takes returns ?_
      intro front event back split
      have positive := (inner front event back split).depth_pos
      constructor
      · omega
      · intro k target found' stands' m' ret' enters'
        exact ih front event back split found' stands' (by omega) enters'

/-- The least power of two that is no less than the argument, plus the argument. -/
def doubled : MachineFunction where
  instrs := [
    { op := .param, result := some 0, imm := some 0 },
    { op := .call, result := some 1, uses := [some 0], imm := some 0 },
    { op := .add, result := some 2, uses := [some 1, some 0] },
    { op := .ret, uses := [some 2] }]

/-- The registers that the encoder has homes for. -/
def execRegisters : Registers := ⟨kExecHomeRegCount, kExecHomeRegCount, kFirstCalleeSavedHome⟩

/-- The first function searches the power of two, the second one adds the argument. -/
def doubledModule : List ModuleFunction :=
  [⟨0, some doubling, some (run execRegisters .inserted doubling)⟩,
    ⟨1, some doubled, some (run execRegisters .inserted doubled)⟩]

theorem doubled_jumps {p q : Nat} : ¬ Jumps doubled.instrs p q := by
  rintro ⟨mi, label, found, isJump, -⟩
  have inside : p < 4 := (List.getElem?_eq_some_iff.mp found).1
  interval_cases p <;> cases found <;> simp at isJump

theorem doubled_flow : WellFormedFlow doubled where
  structured := by
    refine ⟨?_, ?_⟩
    · exact .plain ⟨_, rfl, by decide⟩ (.plain ⟨_, rfl, by decide⟩ (.plain ⟨_, rfl, by decide⟩
        (.plain ⟨_, rfl, by decide⟩ .done)))
    · rintro label p q ⟨mi, found, isLabel, -⟩ -
      have inside : p < 4 := (List.getElem?_eq_some_iff.mp found).1
      interval_cases p <;> cases found <;> cases isLabel
  wellDefined := by
    have early {v d p : Nat} (isDef : Defines doubled.instrs d v)
        (reaches : Reaches (Flows doubled.instrs)
          (fun q => ¬ Defines doubled.instrs q v) p) : p ≤ d :=
      reaches_le isDef (fun q r _ jump => absurd jump doubled_jumps) reaches
    rintro p v ⟨mi, found, isRead⟩ reaches
    have inside : p < 4 := (List.getElem?_eq_some_iff.mp found).1
    interval_cases p <;> cases found <;> simp [MachineInstr.reads] at isRead
    · subst isRead
      exact absurd (early ⟨_, rfl, by decide⟩ reaches : 1 ≤ 0) (by decide)
    · rcases isRead with rfl | rfl
      · exact absurd (early ⟨_, rfl, by decide⟩ reaches : 2 ≤ 1) (by decide)
      · exact absurd (early ⟨_, rfl, by decide⟩ reaches : 2 ≤ 0) (by decide)
    · subst isRead
      exact absurd (early ⟨_, rfl, by decide⟩ reaches : 3 ≤ 2) (by decide)

/-- One parameter shares its home with no other. -/
theorem paramsApart_one {ra : ScanState} {instrs : List MachineInstr}
    (first : ParamsFirst instrs 1) : ParamsApart ra instrs 1 :=
  ⟨first, fun p q _ _ pFirst qFirst differ => absurd (by omega) differ⟩

theorem doubledModule_compiled : CompiledModule doubledModule := by
  intro f member
  rcases List.mem_pair.mp member with rfl | rfl
  · refine ⟨_, _, rfl, rfl, ⟨⟨execRegisters, .inserted, rfl, by decide⟩, by decide⟩,
      ⟨doubling_structured, doubling_definedBeforeUse⟩, fun mi inside => ?_, 1,
      paramsApart_one fun p mi found => ?_⟩
    · fin_cases inside <;> constructor <;> simp [readsLate, useAt, kMaxUsesPerInstr]
      rintro _ _ rfl same rfl
      cases same
    · have inside : p < 10 := (List.getElem?_eq_some_iff.mp found).1
      interval_cases p <;> cases found <;> simp
  · refine ⟨_, _, rfl, rfl, ⟨⟨execRegisters, .inserted, rfl, by decide⟩, by decide⟩,
      doubled_flow, fun mi inside => ?_, 1, paramsApart_one fun p mi found => ?_⟩
    · fin_cases inside <;> constructor <;> simp [readsLate, useAt, kMaxUsesPerInstr]
      rintro _ _ rfl same rfl
      cases same
    · have inside : p < 4 := (List.getElem?_eq_some_iff.mp found).1
      interval_cases p <;> cases found <;> simp

theorem doubledModule_near : Near doubledModule := by
  apply near_of_short
  intro f member mf ra given given'
  rcases List.mem_pair.mp member with rfl | rfl
  · cases given
    cases given'
    exact ⟨70, by decide, by decide⟩
  · cases given
    cases given'
    exact ⟨44, by decide, by decide⟩

theorem doubledModule_computes : Computes doubledModule 2 1 [3] 7 := by
  have inner : Computes doubledModule 1 0 [3] 4 := by
    refine @Computes.call _ 0 0 [3] 4 doubling ⟨fun _ => 3, fun _ => 0⟩ (fun _ => 0) [] rfl ?_
      (returns_of_execute 30 (by decide)) ?_
    · intro mi inside isParam i imm
      fin_cases inside <;> cases isParam
      have zero : i = 0 := by simpa [eq_comm] using imm
      rw [zero]
      rfl
    · intro before event after split
      exact absurd split.symm (by simp)
  refine @Computes.call _ 1 1 [3] 7 doubled ⟨fun _ => 3, fun _ => 4⟩ (fun _ => 0)
    [⟨0, [3]⟩] rfl ?_ (returns_of_execute 5 (by decide)) ?_
  · intro mi inside isParam i imm
    fin_cases inside <;> cases isParam
    have zero : i = 0 := by simpa [eq_comm] using imm
    rw [zero]
    rfl
  · intro before event after split
    cases before with
    | nil =>
        cases split
        exact inner
    | cons _ before => exact absurd (List.cons.inj split).2 (by simp)

/-- The image of the module returns 4 + 3 for the argument 3. -/
theorem image_computes_doubled : ∃ (img : Image) (entries : List Nat),
    encodeModule doubledModule = .ok (img.bytes, entries) ∧ entries[1]? = some 70 ∧
      ∃ m m', Machine.Steps img 0 m m' ∧ m.rip = img.address 70 ∧ m.cpu.regs 7 = 3 ∧
        m'.cpu.regs kRegRax = 7 := by
  have sizes : ((encodeModule doubledModule).toOption.map fun r =>
      (r.1.length, r.2)) = some (114, [0, 70]) := by
    decide
  obtain ⟨⟨bytes, entries⟩, encoded, same⟩ := Option.map_eq_some_iff.mp sizes
  obtain ⟨length, rfl⟩ := Prod.mk.inj same
  let img : Image := ⟨0, bytes, by rw [length]; decide⟩
  let m : Machine := {
    cpu := { regs := fun r => if r = 7 then 3 else if r = .rsp then 0x1000 else 0 }
    rip := img.address 70
    memory := fun _ => 0 }
  have encoded : encodeModule doubledModule = .ok (img.bytes, [0, 70]) :=
    toOption_eq_some.mp encoded
  have enters : Enters img 70 [3] 0x1008 [0] m := by
    have zeros (address : Word) : X86.Memory.load (fun _ => 0) address = 0 := by
      unfold X86.Memory.load
      beta_reduce
      decide
    refine ⟨rfl, ?_, rfl, zeros m.rsp, trivial⟩
    intro i r argument value given
    cases i with
    | zero =>
        cases argument
        cases given
        rfl
    | succ i => cases given
  have found : doubledModule.findIdx? (fun f => decide ((f.symbol.toNat : Int) = 1)) = some 1 :=
    rfl
  have room : (0 : Word).toNat + 56 * 2 + 8 * ([] : List Word).length ≤
      (0x1008 : Word).toNat := by
    decide
  obtain ⟨m', steps, left⟩ := image_computes doubledModule_compiled doubledModule_near encoded
    doubledModule_computes found rfl room enters
  exact ⟨img, _, encoded, rfl, m, m', steps, rfl, rfl, left.result⟩

end ExecEncoder

end Aegis
