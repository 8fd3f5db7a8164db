import AegisCompiler.CallWalk
import AegisCompiler.GraphVerify
import AegisCompiler.InstrSelSchedule
import AegisCompiler.MachineExec

/-!
# Selecting straight-line code

A graph with one return and without branches, calls and memory is selected to code that
computes the returned value, whatever the order of the nodes is.  The selector has
instructions for some kinds only: it leaves out unsigned comparisons, for example, and
what reads them reads a register that nothing wrote.
-/

namespace Aegis

namespace InstrSel

open CallWalk (HasValue)
open ControlWalk (paramRank)

/-- No branch, merge, loop, call or memory access. -/
def isStraight (kind : NodeKind) : Bool :=
  match kind with
  | .ifNode | .region | .loop | .load | .store
  | .callPure | .callAltered | .callCrowded => false
  | _ => true

/-- The selector has an instruction for the kind. -/
def isMapped (kind : NodeKind) : Bool :=
  decide (kind = .constant) || decide (kind = .parameter) || (unaryOpFor kind).isSome ||
    (opFor kind).isSome

/-- A verified graph of straight-line code with one return. -/
structure StraightLine (g : Graph) (ret value : NodeId) : Prop where
  verified : g.verify = none
  effects : ∀ id, (g.node id).effect = effectClassOf (g.node id).kind
  straight : ∀ id, (g.node id).isDead = false → isStraight (g.node id).kind = true
  unary : ∀ id, (g.node id).isDead = false → (g.node id).kind.isUnop = true →
    ∃ operand, (g.node id).inputs = [some operand]
  binary : ∀ id, (g.node id).isDead = false → (g.node id).kind.isBinop = true →
    ∃ lhs rhs, (g.node id).inputs = [some lhs, some rhs]
  acyclic : ∃ rank : NodeId → Nat, ∀ id, (g.node id).isDead = false →
    ∀ input, some input ∈ (g.node id).inputs → rank input < rank id
  isReturn : (g.node ret).isDead = false ∧ (g.node ret).kind = .returnNode
  onlyReturn : ∀ id, (g.node id).isDead = false → (g.node id).kind = .returnNode → id = ret
  returned : (g.node ret).inputs.getD kReturnValIndex none = some value

/-- What is read has an instruction. -/
structure ReadsMapped (g : Graph) (value : NodeId) : Prop where
  operands : ∀ id, (g.node id).isDead = false → isMapped (g.node id).kind = true →
    ∀ input, some input ∈ (g.node id).inputs → isMapped (g.node input).kind = true
  returned : isMapped (g.node value).kind = true

/-- No dead parameter stands in front of a live one. -/
def ParamsInOrder (g : Graph) : Prop :=
  ∀ id earlier : NodeId, liveParam g id = true → earlier < id →
    (g.node earlier).kind = .parameter → (g.node earlier).isDead = false

/-- Outside of merges and calls, no value is held. -/
def noneHeld : CallWalk.Held := fun _ => none

/-- No live division traps on its operands. -/
def NoTrap (g : Graph) (args : List Word) : Prop :=
  ∀ id lhs rhs a b, (g.node id).isDead = false → (g.node id).kind.isBinop = true →
    (g.node id).inputs = [some lhs, some rhs] → HasValue g args noneHeld lhs a →
      HasValue g args noneHeld rhs b → (machineBinop (g.node id).kind a b).isSome = true

/-- The arguments, numbered as the parameter instructions number them. -/
def argEnv (args : List Word) (callResult : List CallEvent → Word) : MachineEnv where
  arg index := args.getD index.toNat 0
  callResult := callResult

section Shape

variable {g : Graph} {ret value : NodeId} (straight : StraightLine g ret value)

include straight in
theorem StraightLine.reads {id input : NodeId} (live : (g.node id).isDead = false)
    (member : some input ∈ (g.node id).inputs) :
    input < g.size ∧ (g.node input).isDead = false := by
  have inside : id < g.size := by
    by_contra outside
    rw [g.node_of_size_le (Nat.le_of_not_lt outside), Node.default_inputs] at member
    cases member
  exact Graph.checkInputs_eq_none.mp (Graph.verify_eq_none.mp straight.verified).1 id inside
    live input member

theorem mem_of_getD {α : Type} {refs : List (Option α)} {slot : Nat} {a : α}
    (found : refs.getD slot none = some a) : some a ∈ refs := by
  rw [List.getD_eq_getElem?_getD] at found
  cases known : refs[slot]? with
  | none =>
      rw [known] at found
      cases found
  | some ref =>
      rw [known] at found
      exact found ▸ List.mem_of_getElem? known

include straight in
theorem StraightLine.plain {id : NodeId} (live : (g.node id).isDead = false) : IsPlain g id := by
  have kind := straight.straight id live
  have behind {input : NodeId} (found : inputNode g id 0 = some input) :
      isStraight (g.node input).kind = true := by
    rw [inputNode] at found
    have member := mem_of_getD ((g.inRange_some).mp found).1
    exact straight.straight input (straight.reads live member).2
  refine ⟨?_, ?_, ?_⟩
  · refine ⟨?_, ?_, ?_⟩
    · cases isCall : (g.node id).kind <;> first | rfl | simp [isCall, isStraight] at kind
    · intro load
      rw [load] at kind
      cases kind
    · intro store
      rw [store] at kind
      cases kind
  · simp only [isCallValueProj, inputHas]
    cases found : inputNode g id 0 with
    | none => simp
    | some input =>
        have base := behind found
        have noCall : (g.node input).kind.isCall = false := by
          cases isCall : (g.node input).kind <;>
            first | rfl | simp [isCall, isStraight] at base
        simp [noCall]
  · simp only [isSelectPhi, inputHas]
    cases found : inputNode g id 0 with
    | none => simp
    | some input =>
        have noRegion : (g.node input).kind ≠ .region := by
          intro region
          have base := behind found
          rw [region] at base
          cases base
        simp [noRegion]

include straight in
/-- Live nodes that are not effectful have their operands in all slots. -/
theorem StraightLine.dataIns {id : NodeId} (pure : effectClassOf (g.node id).kind = .pure) :
    (g.node id).dataIns = (g.node id).inputs := by
  rw [Node.dataIns, Node.isPure, straight.effects, pure]
  rfl

end Shape

section Opcodes

variable {kind : NodeKind} {op : MachineOp}

theorem evalOp_unary (mapped : unaryOpFor kind = some op) (a : Word) :
    evalOp op none [a] = evalUnop kind a := by
  cases kind <;> simp only [unaryOpFor, Option.some.injEq, reduceCtorEq] at mapped <;>
    subst mapped <;> rfl

theorem isBinop_of_opFor (mapped : opFor kind = some op) : kind.isBinop = true := by
  cases kind <;> first | rfl | simp [opFor] at mapped

theorem evalOp_binary (mapped : opFor kind = some op) (a b : Word) :
    evalOp op none [a, b] = machineBinop kind a b := by
  cases kind <;> simp only [opFor, Option.some.injEq, reduceCtorEq] at mapped <;>
    subst mapped <;> rfl

theorem evalOp_immediate (mapped : opFor kind = some op) (a : Word) (amount : Int) :
    evalOp op (some amount) [a] = machineBinop kind a (BitVec.ofInt 64 amount) := by
  cases kind <;> simp only [opFor, Option.some.injEq, reduceCtorEq] at mapped <;>
    subst mapped <;> rfl

/-- What the machine computes is the value of the node. -/
theorem evalBinop_of_machineBinop {a b w : Word} (computed : machineBinop kind a b = some w) :
    evalBinop kind a b = some w := by
  rw [machineBinop] at computed
  split at computed
  · cases computed
  · exact computed

theorem isUnop_iff : kind.isUnop = true ↔ (unaryOpFor kind).isSome = true := by
  cases kind <;> simp [NodeKind.isUnop, unaryOpFor]

/-- The mapped kinds. -/
theorem isMapped_cases (mapped : isMapped kind = true) :
    kind = .constant ∨ kind = .parameter ∨ (∃ op, unaryOpFor kind = some op) ∨
      ∃ op, opFor kind = some op := by
  simp only [isMapped, Bool.or_eq_true, decide_eq_true_eq, Option.isSome_iff_exists] at mapped
  tauto

theorem isMapped_pure (mapped : isMapped kind = true) : effectClassOf kind = .pure := by
  cases kind <;> first | rfl | simp [isMapped, unaryOpFor, opFor] at mapped

end Opcodes

/-- A mapped node that is alive has a recipe for its value. -/
theorem recipe_of_mapped {g : Graph} {id : NodeId} (live : (g.node id).isDead = false)
    (known : isMapped (g.node id).kind = true) : ∃ r, recipe g id = some r := by
  rw [← Option.isSome_iff_exists]
  cases kind : (g.node id).kind <;> rw [kind] at known <;>
    first
    | exact absurd known Bool.false_ne_true
    | simp [recipe, live, kind, unaryOpFor, opFor]

/-- A node with a recipe is a return or has a mapped kind. -/
theorem RecipeCases.mapped {g : Graph} {id : NodeId} {r : Recipe} (shape : RecipeCases g id r)
    (value : r.op ≠ .ret) : isMapped (g.node id).kind = true := by
  cases shape with
  | constant kind => rw [kind]; rfl
  | parameter kind => rw [kind]; rfl
  | returns => exact absurd rfl value
  | unary mapped => simp [isMapped, mapped]
  | immediate mapped => simp [isMapped, mapped]
  | binary mapped => simp [isMapped, mapped]

/-- The immediate of a shift is the value of its second operand. -/
theorem shiftAmount_some {g : Graph} {n : Node} {amount : Int}
    (found : shiftAmount g n = some amount) :
    ∃ first count rest, n.dataIns = first :: some count :: rest ∧
      (g.node count).kind = .constant ∧ amount = (g.node count).payload.toInt := by
  unfold shiftAmount at found
  split at found
  case isFalse => cases found
  case isTrue =>
    split at found
    case h_2 => cases found
    case h_1 first count rest ins =>
      split at found
      case h_1 => cases found
      case h_2 input inRange =>
        obtain ⟨rfl, -⟩ := (g.inRange_some).mp inRange
        split at found
        case isFalse => cases found
        case isTrue isConstant =>
          simp only [Option.ite_none_right_eq_some, Option.some.injEq] at found
          exact ⟨first, input, rest, ins, isConstant, found.2.symm⟩

section Values

variable {g : Graph} {ret value : NodeId} {args : List Word}
variable (straight : StraightLine g ret value) (mapped : ReadsMapped g value)
  (noTrap : NoTrap g args)

include straight mapped noTrap in
/-- Every live node with an instruction has a value. -/
theorem StraightLine.hasValue {id : NodeId} (live : (g.node id).isDead = false)
    (known : isMapped (g.node id).kind = true) : ∃ v, HasValue g args noneHeld id v := by
  obtain ⟨rank, lower⟩ := straight.acyclic
  induction size : rank id using Nat.strongRecOn generalizing id with
  | ind size ih =>
      subst size
      have operand {input : NodeId} (member : some input ∈ (g.node id).inputs) :
          ∃ v, HasValue g args noneHeld input v :=
        ih _ (lower id live input member) (straight.reads live member).2
          (mapped.operands id live known input member) rfl
      rcases isMapped_cases known with constant | parameter | ⟨op, unary⟩ | ⟨op, binary⟩
      · exact ⟨_, (CallWalk.hasValue_constant constant).mpr rfl⟩
      · exact ⟨_, (CallWalk.hasValue_parameter parameter).mpr rfl⟩
      · have isUnop : (g.node id).kind.isUnop = true :=
          isUnop_iff.mpr (Option.isSome_iff_exists.mpr ⟨op, unary⟩)
        obtain ⟨input, inputs⟩ := straight.unary id live isUnop
        obtain ⟨a, before⟩ := operand (inputs ▸ List.mem_cons_self)
        obtain ⟨w, result⟩ := Option.isSome_iff_exists.mp (evalUnop_isSome isUnop a)
        exact ⟨w, (CallWalk.hasValue_unop isUnop inputs).mpr ⟨a, before, result⟩⟩
      · have isBinop := isBinop_of_opFor binary
        obtain ⟨lhs, rhs, inputs⟩ := straight.binary id live isBinop
        obtain ⟨a, left⟩ := operand (inputs ▸ List.mem_cons_self)
        obtain ⟨b, right⟩ := operand (inputs ▸ List.mem_cons_of_mem _ List.mem_cons_self)
        obtain ⟨w, result⟩ := Option.isSome_iff_exists.mp
          (noTrap id lhs rhs a b live isBinop inputs left right)
        exact ⟨w, (CallWalk.hasValue_binop isBinop inputs).mpr
          ⟨a, b, left, right, evalBinop_of_machineBinop result⟩⟩

/-- The register of the node holds its value. -/
def Holds (g : Graph) (args : List Word) (table : VRegTable g) (regs : Regs) (id : NodeId) :
    Prop :=
  ∃ reg, table.vregOf id = some reg ∧ HasValue g args noneHeld id (regs reg)

theorem execData_eq {mi : MachineInstr} {regs : Regs} {result : VRegId} {ws : List Word}
    {w : Word} (writes : mi.result = some result) (reads : mi.operands regs = some ws)
    (computes : evalOp mi.op mi.imm ws = some w) :
    mi.execData regs = some (Function.update regs result w) := by
  simp [MachineInstr.execData, writes, reads, computes]

/-- The instructions that only compute. -/
def IsData (op : MachineOp) : Prop := op ≠ .ret ∧ op ≠ .param

include straight noTrap in
/-- The instruction of a node computes its value from the values of its operands. -/
theorem StraightLine.execData {id : NodeId} (live : (g.node id).isDead = false) {r : Recipe}
    (found : recipe g id = some r) (data : IsData r.op) {table : VRegTable g}
    {mi : MachineInstr} (fits : Fits table id r mi) {regs : Regs}
    (each : ∀ operand, some operand ∈ r.operands → Holds g args table regs operand) :
    ∃ result w, table.vregOf id = some result ∧ HasValue g args noneHeld id w ∧
      mi.execData regs = some (Function.update regs result w) := by
  obtain ⟨result, register⟩ := Option.isSome_iff_exists.mp (fits.result.resolve_right data.1)
  have instr := fits.instr
  rw [if_neg data.1, register] at instr
  have shape := (recipe_cases found).2
  have pure := straight.dataIns (isMapped_pure (shape.mapped data.1))
  cases shape with
  | constant kind =>
      have value : HasValue g args noneHeld id (g.node id).payload :=
        (CallWalk.hasValue_constant kind).mpr rfl
      have computed : evalOp .movImm (some (g.node id).payload.toInt) [] =
          some (g.node id).payload :=
        congrArg some BitVec.ofInt_toInt
      refine ⟨result, _, register, value, ?_⟩
      rw [instr]
      exact execData_eq rfl rfl computed
  | parameter => exact absurd rfl data.2
  | returns => exact absurd rfl data.1
  | unary unary =>
      have isUnop : (g.node id).kind.isUnop = true :=
        isUnop_iff.mpr (Option.isSome_iff_exists.mpr ⟨_, unary⟩)
      obtain ⟨input, inputs⟩ := straight.unary id live isUnop
      rw [pure, inputs] at instr each
      obtain ⟨reg, read, before⟩ := each input List.mem_cons_self
      obtain ⟨w, computed⟩ := Option.isSome_iff_exists.mp (evalUnop_isSome isUnop (regs reg))
      refine ⟨result, w, register,
        (CallWalk.hasValue_unop isUnop inputs).mpr ⟨_, before, computed⟩, ?_⟩
      rw [instr]
      refine execData_eq rfl ?_ ((evalOp_unary unary _).trans computed)
      simp [MachineInstr.operands, read]
  | immediate binary shift =>
      have isBinop := isBinop_of_opFor binary
      obtain ⟨lhs, rhs, inputs⟩ := straight.binary id live isBinop
      obtain ⟨_, count, _, ins, isConstant, immediate⟩ := shiftAmount_some shift
      rw [pure, inputs] at ins
      rw [pure, inputs] at instr each
      obtain ⟨-, rest⟩ := List.cons.inj ins
      obtain rfl := Option.some.inj (List.cons.inj rest).1
      obtain ⟨first, readFirst, left⟩ := each lhs List.mem_cons_self
      have right : HasValue g args noneHeld rhs (g.node rhs).payload :=
        (CallWalk.hasValue_constant isConstant).mpr rfl
      obtain ⟨w, computed⟩ := Option.isSome_iff_exists.mp
        (noTrap id lhs rhs _ _ live isBinop inputs left right)
      refine ⟨result, w, register, (CallWalk.hasValue_binop isBinop inputs).mpr
        ⟨_, _, left, right, evalBinop_of_machineBinop computed⟩, ?_⟩
      rw [← BitVec.ofInt_toInt (x := (g.node rhs).payload), ← immediate,
        ← evalOp_immediate binary] at computed
      rw [instr]
      refine execData_eq rfl ?_ computed
      simp [MachineInstr.operands, readFirst]
  | binary binary noShift =>
      have isBinop := isBinop_of_opFor binary
      obtain ⟨lhs, rhs, inputs⟩ := straight.binary id live isBinop
      rw [pure, inputs] at instr each
      obtain ⟨first, readFirst, left⟩ := each lhs List.mem_cons_self
      obtain ⟨second, readSecond, right⟩ := each rhs (List.mem_cons_of_mem _ List.mem_cons_self)
      obtain ⟨w, computed⟩ := Option.isSome_iff_exists.mp
        (noTrap id lhs rhs _ _ live isBinop inputs left right)
      refine ⟨result, w, register, (CallWalk.hasValue_binop isBinop inputs).mpr
        ⟨_, _, left, right, evalBinop_of_machineBinop computed⟩, ?_⟩
      rw [instr]
      refine execData_eq rfl ?_ ((evalOp_binary binary _ _).trans computed)
      simp [MachineInstr.operands, readFirst, readSecond]

/-- Writing the register of another node changes nothing. -/
theorem Holds.update {table : VRegTable g} {regs : Regs} {id other : NodeId} {result : VRegId}
    (holds : Holds g args table regs other) (register : table.vregOf id = some result)
    (apart : registerSource g other ≠ registerSource g id) (w : Word) :
    Holds g args table (Function.update regs result w) other := by
  obtain ⟨reg, known, hasValue⟩ := holds
  have differ : reg ≠ result := by
    rintro rfl
    exact apart (table.distinct other id reg known register)
  exact ⟨reg, known, by rwa [Function.update_of_ne differ]⟩

end Values

/-- The instruction does nothing but write its result. -/
def computes (op : MachineOp) : Bool :=
  match op with
  | .label | .jmp | .jz | .ret | .param | .call => false
  | _ => true

theorem stepInstr_of_computes {mi : MachineInstr} (data : computes mi.op = true)
    {env : MachineEnv} {instrs : List MachineInstr} {s : MachineState} {regs : Regs}
    (ran : mi.execData s.regs = some regs) :
    stepInstr env instrs s mi = .next { s with pc := s.pc + 1, regs } := by
  unfold stepInstr
  split
  case h_7 => rw [ran]
  all_goals
    rename_i op
    rw [op] at data
    cases data

theorem computes_of_unaryOpFor {kind : NodeKind} {op : MachineOp}
    (mapped : unaryOpFor kind = some op) : computes op = true := by
  cases kind <;> simp only [unaryOpFor, Option.some.injEq, reduceCtorEq] at mapped <;>
    subst mapped <;> rfl

theorem computes_of_opFor {kind : NodeKind} {op : MachineOp} (mapped : opFor kind = some op) :
    computes op = true := by
  cases kind <;> simp only [opFor, Option.some.injEq, reduceCtorEq] at mapped <;>
    subst mapped <;> rfl

theorem RecipeCases.computes {g : Graph} {id : NodeId} {r : Recipe}
    (shape : RecipeCases g id r) (data : IsData r.op) : InstrSel.computes r.op = true := by
  cases shape with
  | constant => rfl
  | parameter => exact absurd rfl data.2
  | returns => exact absurd rfl data.1
  | unary mapped => exact computes_of_unaryOpFor mapped
  | immediate mapped => exact computes_of_opFor mapped
  | binary mapped => exact computes_of_opFor mapped

section Steps

variable {g : Graph} {ret value : NodeId} {args : List Word}
variable (straight : StraightLine g ret value) (noTrap : NoTrap g args)

/-- Counting the live parameters in front counts all of them. -/
theorem paramsBelow_eq_rank (inOrder : ParamsInOrder g) {id : NodeId}
    (live : liveParam g id = true) : paramsBelow g id = paramRank g id := by
  rw [paramsBelow, paramRank]
  apply List.countP_congr
  intro earlier member
  simp only [liveParam, Bool.and_eq_true, Bool.not_eq_true', decide_eq_true_eq]
  constructor
  · exact And.right
  · exact fun kind => ⟨inOrder id earlier live (List.mem_range.mp member) kind, kind⟩

/-- Only parameters are selected to `param`. -/
theorem RecipeCases.param {id : NodeId} {r : Recipe} (shape : RecipeCases g id r)
    (isParam : r.op = .param) :
    (g.node id).kind = .parameter ∧ r = { op := .param, imm := some (paramsBelow g id) } := by
  cases shape with
  | constant => cases isParam
  | parameter kind => exact ⟨kind, rfl⟩
  | returns => cases isParam
  | unary mapped =>
      dsimp only at isParam
      rw [isParam] at mapped
      exact absurd mapped (unaryOpFor_ne_param _)
  | immediate mapped =>
      dsimp only at isParam
      rw [isParam] at mapped
      exact absurd mapped (opFor_ne_param _)
  | binary mapped =>
      dsimp only at isParam
      rw [isParam] at mapped
      exact absurd mapped (opFor_ne_param _)

include straight noTrap in
/-- One instruction leaves the value of its node in the register of the node. -/
theorem StraightLine.step (inOrder : ParamsInOrder g) {id : NodeId} {r : Recipe}
    (found : recipe g id = some r) (value : r.op ≠ .ret) {table : VRegTable g}
    {mi : MachineInstr} (fits : Fits table id r mi) {s : MachineState}
    (each : ∀ operand, some operand ∈ r.operands → Holds g args table s.regs operand)
    (callResult : List CallEvent → Word) (instrs : List MachineInstr) :
    ∃ result w, table.vregOf id = some result ∧ HasValue g args noneHeld id w ∧
      stepInstr (argEnv args callResult) instrs s mi =
        .next { s with pc := s.pc + 1, regs := Function.update s.regs result w } := by
  obtain ⟨live, shape⟩ := recipe_cases found
  have op : mi.op = r.op := by rw [fits.instr]
  by_cases isParam : r.op = .param
  · obtain ⟨kind, rfl⟩ := shape.param isParam
    obtain ⟨result, register⟩ := Option.isSome_iff_exists.mp (fits.result.resolve_right value)
    have isLive : liveParam g id = true := by simp [liveParam, live, kind]
    have hasValue : HasValue g args noneHeld id (args.getD (paramsBelow g id) 0) := by
      rw [paramsBelow_eq_rank inOrder isLive]
      exact (CallWalk.hasValue_parameter kind).mpr rfl
    refine ⟨result, _, register, hasValue, ?_⟩
    rw [fits.instr, if_neg value, register]
    rfl
  · obtain ⟨result, w, register, hasValue, ran⟩ :=
      straight.execData noTrap live found ⟨value, isParam⟩ fits each
    have data : computes mi.op = true := by
      rw [op]
      exact shape.computes ⟨value, isParam⟩
    exact ⟨result, w, register, hasValue, stepInstr_of_computes data ran⟩

end Steps

end InstrSel

end Aegis
