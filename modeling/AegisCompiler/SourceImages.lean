import AegisCompiler.EffectContinuity
import AegisCompiler.SelectedCode
import AegisCompiler.StraightSource

/-!
# From a straight-line function to its image

Dead code elimination leaves a graph that the selector and the encoder can rely on, so that
the linked image returns what the source function evaluates to.
-/

namespace Aegis

namespace Lowerer

open ControlWalk (value)
open InstrSel (isMapped)

/-- The graph behind dead code elimination. -/
abbrev swept (g : Graph) : Graph := (Edce.run g).1

section Straight

variable {g : Graph} {params : Nat} {ret result : NodeId}
variable (graph : StraightGraph g params ret result)

include graph

theorem StraightGraph.kind_before {id : NodeId} (before : id < firstValue) :
    ((g.node id).kind = .start ∨ (g.node id).kind = .proj) ∧
      ∀ input, some input ∈ (g.node id).inputs → input < id := by
  have nodes : ∀ id < 3, ((prologue.graph.node id).kind = .start ∨
      (prologue.graph.node id).kind = .proj) ∧
        ∀ ref ∈ (prologue.graph.node id).inputs, ref.all (fun input => decide (input < id)) := by
    decide
  rw [graph.before id before]
  refine ⟨(nodes id before).1, fun input member => ?_⟩
  simpa using (nodes id before).2 (some input) member

/-- The start node and its projections, the values, and the return. -/
theorem StraightGraph.place {id : NodeId} (inside : id < g.size) :
    id < firstValue ∨ firstValue ≤ id ∧ id < ret ∨ id = ret := by
  rw [graph.size, Nat.lt_succ_iff_lt_or_eq] at inside
  rcases Nat.lt_or_ge id firstValue with before | value
  · exact .inl before
  · exact .inr (inside.imp_left fun below => ⟨value, below⟩)

theorem StraightGraph.value_of_mapped {id : NodeId} (mapped : isMapped (g.node id).kind = true) :
    firstValue ≤ id ∧ id < ret := by
  have inside : id < g.size := by
    by_contra outside
    rw [g.node_of_size_le (Nat.not_lt.mp outside)] at mapped
    cases mapped
  rcases graph.place inside with before | value | rfl
  · rcases (graph.kind_before before).1 with kind | kind <;> rw [kind] at mapped <;> cases mapped
  · exact value
  · rw [graph.returned] at mapped
    cases mapped

theorem StraightGraph.mapped_input {id : NodeId} (mapped : isMapped (g.node id).kind = true)
    {input : NodeId} (member : some input ∈ (g.node id).inputs) :
    isMapped (g.node input).kind = true ∧ input < id := by
  obtain ⟨value, inside⟩ := graph.value_of_mapped mapped
  have node := graph.values id value inside
  have below : input < id := by
    have placed := graph.ordered.node id
    by_cases isBinop : (g.node id).kind.isBinop = true
    · obtain ⟨lhs, rhs, inputs, left, right⟩ := placed.binop isBinop
      rw [inputs] at member
      rcases List.mem_pair.mp member with same | same <;> cases same
      · exact left
      · exact right
    · by_cases isUnop : (g.node id).kind.isUnop = true
      · obtain ⟨operand, inputs, below⟩ := placed.unop isUnop
        rw [inputs] at member
        cases List.mem_singleton.mp member
        exact below
      · have leaf : (g.node id).kind = .constant ∨ (g.node id).kind = .parameter := by
          cases kind : (g.node id).kind <;> simp_all [isMapped, InstrSel.unaryOpFor,
            InstrSel.opFor, NodeKind.isBinop, NodeKind.isUnop]
        rw [node.leaf leaf] at member
        cases member
  exact ⟨(graph.values input (node.above input member) (below.trans inside)).mapped, below⟩

/-- Inputs stand in front of their readers. -/
theorem StraightGraph.input_below {id input : NodeId}
    (member : some input ∈ (g.node id).inputs) : input < id := by
  have inside : id < g.size := by
    by_contra outside
    rw [g.node_of_size_le (Nat.not_lt.mp outside)] at member
    cases member
  rcases graph.place inside with before | ⟨value, inside⟩ | rfl
  · exact (graph.kind_before before).2 input member
  · exact (graph.mapped_input (graph.values id value inside).mapped member).2
  · have last : 3 < id := graph.above.trans_lt graph.below
    rw [graph.returned] at member
    simp only [returnNodeOf, List.mem_cons, Option.some.injEq, List.not_mem_nil,
      or_false] at member
    rcases member with rfl | rfl | rfl
    · exact (by decide : 1 < 3).trans last
    · exact (by decide : 2 < 3).trans last
    · exact graph.below

theorem StraightGraph.acyclic : Acyclic g :=
  ⟨fun id => id, fun _ _ _ member => graph.input_below member⟩

/-- What was lowered is straight-line code. -/
theorem StraightGraph.code (made : WellMade g) : StraightCode g params ret result := by
  have live (id : NodeId) : (g.node id).isDead = false := by
    rw [Node.isDead, (made.made id).flags]
    exact NodeFlags.has_zero _
  have isValue {id : NodeId} (late : firstValue ≤ id) (below : id < ret) : IsValue g id :=
    ⟨live id, (graph.values id late below).mapped⟩
  refine ⟨graph.paired, fun id => (made.made id).effect, fun id input member => ?_, fun id => ?_,
    fun id early => ⟨⟨(prologue.graph.node id).flags, graph.before id early⟩, live id⟩,
    fun id late inside _ notRet => ?_, fun id => ?_, graph.declared, ?_⟩
  · exact made.inside id _ member input rfl
  · rw [(made.made id).flags]
    exact NodeFlags.has_zero _
  · rw [graph.size, Nat.lt_succ_iff_lt_or_eq] at inside
    have node := graph.values id late (inside.resolve_right notRet)
    have operand {input : NodeId} (member : some input ∈ (g.node id).inputs) :
        IsValue g input :=
      ⟨live input, (graph.mapped_input node.mapped member).1⟩
    rcases InstrSel.isMapped_cases node.mapped with kind | kind | ⟨op, unary⟩ | ⟨op, binary⟩
    · exact .leaf (.inl kind) (node.leaf (.inl kind))
    · exact .leaf (.inr kind) (node.leaf (.inr kind))
    · have isUnop := InstrSel.isUnop_iff.mpr (Option.isSome_iff_exists.mpr ⟨op, unary⟩)
      obtain ⟨input, inputs, -⟩ := (graph.ordered.node id).unop isUnop
      exact .unary isUnop inputs (operand (by simp [inputs]))
    · have isBinop := InstrSel.isBinop_of_opFor binary
      obtain ⟨lhs, rhs, inputs, -⟩ := (graph.ordered.node id).binop isBinop
      exact .binary isBinop node.mapped inputs (operand (by simp [inputs]))
        (operand (by simp [inputs]))
  · constructor
    · intro kind
      obtain ⟨value, inside⟩ := graph.value_of_mapped (by rw [kind]; rfl)
      exact ⟨value, (graph.isParam id value inside).mp kind⟩
    · rintro ⟨value, small⟩
      exact (graph.isParam id value (small.trans_le graph.declared)).mpr small
  · refine ⟨live ret, ?_, ?_, isValue graph.above graph.below⟩
    · rw [graph.returned]
      rfl
    · rw [graph.returned]
      rfl

/-- The values of the lowered graph, where no operation traps. -/
theorem StraightGraph.valued {args : List Word} (untrapped : Untrapped g args ret) {id : NodeId}
    (mapped : isMapped (g.node id).kind = true) : ∃ w, value g args noPhis id = some w := by
  have ordered := graph.ordered
  induction id using Nat.strong_induction_on with
  | _ id ih =>
      have operand {input : NodeId} (member : some input ∈ (g.node id).inputs) :
          ∃ w, value g args noPhis input = some w :=
        have ⟨known, below⟩ := graph.mapped_input mapped member
        ih input below known
      rcases InstrSel.isMapped_cases mapped with kind | kind | ⟨op, unary⟩ | ⟨op, binary⟩
      · exact ⟨_, ControlWalk.value_constant ordered noPhis kind⟩
      · exact ⟨_, ControlWalk.value_parameter ordered noPhis kind⟩
      · have isUnop := InstrSel.isUnop_iff.mpr (Option.isSome_iff_exists.mpr ⟨op, unary⟩)
        obtain ⟨input, inputs, -⟩ := (ordered.node id).unop isUnop
        obtain ⟨a, known⟩ := operand (inputs ▸ List.mem_cons_self)
        rw [ControlWalk.value_operation ordered noPhis (.inr isUnop), ControlWalk.operate, inputs]
        simp only [known, Option.bind_some]
        cases kind : (g.node id).kind <;> rw [kind] at isUnop <;>
          first | exact ⟨_, rfl⟩ | cases isUnop
      · have isBinop := InstrSel.isBinop_of_opFor binary
        obtain ⟨lhs, rhs, inputs, -⟩ := (ordered.node id).binop isBinop
        obtain ⟨a, left⟩ := operand (inputs ▸ List.mem_cons_self)
        obtain ⟨b, right⟩ := operand (inputs ▸ List.mem_cons_of_mem _ List.mem_cons_self)
        obtain ⟨w, computed⟩ := Option.isSome_iff_exists.mp (untrapped id
          (graph.value_of_mapped mapped).2 isBinop lhs rhs a b inputs left right)
        rw [ControlWalk.value_operation ordered noPhis (.inl isBinop), ControlWalk.operate, inputs]
        simp only [left, right, Option.bind_some]
        exact ⟨w, InstrSel.evalBinop_of_machineBinop computed⟩

/-- They solve the equations of the nodes. -/
theorem StraightGraph.computes (made : WellMade g) {args : List Word}
    (untrapped : Untrapped g args ret) :
    Computes g args fun id => (value g args noPhis id).getD 0 := by
  have ordered := graph.ordered
  have code := graph.code made
  refine ⟨fun id _ kind => ?_, fun id _ kind => ?_, fun id operand live kind inputs => ?_,
    fun id lhs rhs live kind inputs => ?_⟩
  · rw [ControlWalk.value_constant ordered noPhis kind]
    rfl
  · rw [ControlWalk.value_parameter ordered noPhis kind]
    rfl
  · obtain ⟨isValue, input, read, isOperand⟩ := code.isValue_unop live kind
    cases read.symm.trans inputs
    obtain ⟨a, known⟩ := graph.valued untrapped isOperand.mapped
    obtain ⟨w, computed⟩ := graph.valued untrapped isValue.mapped
    simp only [known, computed, Option.getD_some]
    rw [ControlWalk.value_operation ordered noPhis (.inr kind), ControlWalk.operate, inputs]
      at computed
    simpa only [known, Option.bind_some] using computed
  · obtain ⟨isValue, first, second, read, isLeft, isRight⟩ := code.isValue_binop live kind
    cases read.symm.trans inputs
    obtain ⟨a, left⟩ := graph.valued untrapped isLeft.mapped
    obtain ⟨b, right⟩ := graph.valued untrapped isRight.mapped
    obtain ⟨w, machine⟩ := Option.isSome_iff_exists.mp (untrapped id
      (graph.value_of_mapped isValue.mapped).2 kind lhs rhs a b inputs left right)
    have computed : value g args noPhis id = some w := by
      rw [ControlWalk.value_operation ordered noPhis (.inl kind), ControlWalk.operate, inputs]
      simp only [left, right, Option.bind_some]
      exact InstrSel.evalBinop_of_machineBinop machine
    simp only [left, right, computed, Option.getD_some]
    exact machine

end Straight

end Lowerer

namespace ExecEncoder

open AstEval Lowerer TypeChecker
open X86 (Image Machine)

/-- The function was compiled from an accepted straight-line source function: it was lowered,
rid of dead code, selected and allocated without spills, and no parameter in front of one
that is used is dead. -/
structure CompiledFrom (f : ModuleFunction) (fn : Ast) : Prop where
  inside : callFreeFn fn = true
  straight : straightFn fn = true
  accepted : ∃ sigs, checkFn sigs fn = []
  compiled : ∃ order g fuel name mf ra, lowerFresh order fn = .ok g ∧ g.size ≤ 2 ^ 24 ∧
    InstrSel.ParamsInOrder (swept g) ∧
      InstrSel.scheduleFuel (swept g) (InstrSel.collect (swept g)).perNode ≤ fuel ∧
        InstrSel.lower fuel (swept g) name = .ok mf ∧ f.mf = some mf ∧ f.ra = some ra ∧
          Allocated mf ra

/-- The function was selected from swept straight-line code, and its registers were allocated
without spills. -/
structure SelectedCode (f : ModuleFunction) (h : Graph) (params : Nat) (ret result : NodeId) :
    Prop where
  code : StraightCode h params ret result
  acyclic : Acyclic h
  allRead : Edce.AllRead h ret
  inOrder : InstrSel.ParamsInOrder h
  lowered : ∃ fuel name mf ra, InstrSel.scheduleFuel h (InstrSel.collect h).perNode ≤ fuel ∧
    InstrSel.lower fuel h name = .ok mf ∧ f.mf = some mf ∧ f.ra = some ra ∧ Allocated mf ra

theorem SelectedCode.selectedFrom {f : ModuleFunction} {h : Graph} {params : Nat}
    {ret result : NodeId} (selected : SelectedCode f h params ret result) :
    SelectedFrom f h result where
  graph := ⟨ret, selected.code.straightLine selected.acyclic,
    selected.code.nothingUnread selected.acyclic selected.allRead⟩
  mapped := selected.code.readsMapped
  inOrder := selected.inOrder
  lead := selected.code.paramsLead
  lowered := selected.lowered

/-- The image returns the value of the code. -/
theorem SelectedCode.returns {img : Image} {fns : List ModuleFunction} {entries : List Nat}
    {n : Nat} {f : ModuleFunction} {h : Graph} {params : Nat} {last result : NodeId}
    (selected : SelectedCode f h params last result) (near : Near fns)
    (encoded : encodeModule fns = .ok (img.bytes, entries)) (found : fns[n]? = some f)
    {entry : Nat} (stands : entries[n]? = some entry) {args : List Word}
    (arity : args.length = params) {v : NodeId → Word} (computes : Aegis.Computes h args v)
    {lowest bottom ret : Word} {words : List Word}
    (room : lowest.toNat + 56 + 8 * words.length ≤ bottom.toNat) {m : Machine}
    (enters : Enters img entry args bottom (ret :: words) m) :
    ∃ m', Machine.Steps img lowest m m' ∧ HasLeft (v result) m.cpu.regs bottom ret words m' := by
  have code := selected.code
  obtain ⟨w, hasValue, m', steps, left⟩ := selected.selectedFrom.returns near encoded found stands
    (code.noTrap selected.acyclic computes)
    (fun id isParam => arity ▸ code.paramsBelow_lt isParam) room enters
  rw [(code.hasValue_iff selected.acyclic computes code.returned.value).mp hasValue] at left
  exact ⟨m', steps, left⟩

theorem CompiledFrom.selected {f : ModuleFunction} {fn : Ast} (compiled : CompiledFrom f fn) :
    ∃ h ret result, SelectedCode f h (declaredParams fn).length ret result ∧
      ∀ args v, evalFn fn args = some v →
        ∃ values, Aegis.Computes h args values ∧ values result = v := by
  obtain ⟨sigs, accepted⟩ := compiled.accepted
  obtain ⟨order, g, fuel, name, mf, ra, lowered, small, inOrder, selected⟩ := compiled.compiled
  obtain ⟨ret, result, graph, evaluates⟩ :=
    lowerFresh_straight order compiled.inside compiled.straight accepted lowered
  have made := lowerFresh_wellMade lowered
  have carries := Edce.run_carries (graph.code made)
  refine ⟨swept g, ret, result, ⟨carries.code, carries.acyclic graph.acyclic,
    Edce.run_allRead (graph.code made), inOrder, fuel, name, mf, ra, selected⟩,
    fun args v evaluated => ?_⟩
  obtain ⟨value, untrapped⟩ := evaluates (hashInjectiveBelow_of_le small) args v evaluated
  obtain ⟨values, computes, same⟩ := carries.values args _ (graph.computes made untrapped)
  refine ⟨values, computes, same.trans ?_⟩
  simp only [value, Option.getD_some]

/-- The linked image of straight-line source functions returns what the function evaluates to,
with the stack and the callee-saved registers as they were. -/
theorem image_runs_source {img : Image} {fns : List ModuleFunction} {entries : List Nat}
    (compiled : ∀ f ∈ fns, ∃ fn, CompiledFrom f fn)
    (encoded : encodeModule fns = .ok (img.bytes, entries)) {n : Nat}
    {f : ModuleFunction} (found : fns[n]? = some f) {fn : Ast} (from_source : CompiledFrom f fn)
    {entry : Nat} (stands : entries[n]? = some entry) {args : List Word}
    (arity : args.length = (declaredParams fn).length) {v : Word}
    (evaluated : evalFn fn args = some v) {lowest bottom ret : Word} {words : List Word}
    (room : lowest.toNat + 56 + 8 * words.length ≤ bottom.toNat) {m : Machine}
    (enters : Enters img entry args bottom (ret :: words) m) :
    ∃ m', Machine.Steps img lowest m m' ∧ HasLeft v m.cpu.regs bottom ret words m' := by
  have near : Near fns := near_of_selected fun f member => by
    obtain ⟨fn, source⟩ := compiled f member
    obtain ⟨h, _, result, selected, -⟩ := source.selected
    exact ⟨h, result, selected.selectedFrom⟩
  obtain ⟨h, last, result, selected, evaluates⟩ := from_source.selected
  obtain ⟨values, computes, rfl⟩ := evaluates args v evaluated
  exact selected.returns near encoded found stands arity computes room enters

/-- The product of two parameters, plus seven, minus the first. -/
def product : Ast :=
  .fnDecl 1 [.param 2 (.pathExpr [9]) false, .param 3 (.pathExpr [9]) false] none
    (.block [
      .letStmt 4 none (some (.binaryExpr .star (.ident 2) (.ident 3))) true,
      .assignExpr .plusEq (.ident 4) (.intLit 7),
      .returnStmt (some (.binaryExpr .minus (.ident 4) (.ident 2)))]) false

/-- The code of the product. -/
def productCode : MachineFunction where
  name := "product"
  instrs := [
    { op := .param, result := some 0, imm := some 0 },
    { op := .param, result := some 1, imm := some 1 },
    { op := .mul, result := some 2, uses := [some 0, some 1] },
    { op := .movImm, result := some 3, imm := some 7 },
    { op := .add, result := some 4, uses := [some 2, some 3] },
    { op := .sub, result := some 5, uses := [some 4, some 0] },
    { op := .ret, uses := [some 5] }]

/-- The module of the product. -/
def productModule : List ModuleFunction :=
  [⟨1, some productCode, some (LinearScan.run execRegisters .inserted productCode)⟩]

theorem product_inOrder : InstrSel.ParamsInOrder (swept (loweredGraph .asListed product)) := by
  intro id earlier _ _ _
  rcases Nat.lt_or_ge earlier 10 with inside | outside
  · have alive : ∀ id < 10,
        ((swept (loweredGraph .asListed product)).node id).isDead = false := by decide +kernel
    exact alive earlier inside
  · have size : (swept (loweredGraph .asListed product)).size = 10 := by decide +kernel
    rw [Graph.node_of_size_le _ (size ▸ outside)]
    rfl

theorem product_compiled {f : ModuleFunction} (member : f ∈ productModule) :
    CompiledFrom f product := by
  obtain rfl := List.mem_singleton.mp member
  exact ⟨by decide, by decide, ⟨[], by decide⟩, .asListed, loweredGraph .asListed product, 25,
    "product", productCode, _, lowered_ok (by decide +kernel), by decide +kernel,
    product_inOrder, by decide +kernel, by decide +kernel, rfl, rfl,
    ⟨execRegisters, .inserted, rfl, by decide⟩, by decide⟩

/-- A machine that has called the first function for the arguments 5 and 6. -/
def fiveSix (img : Image) : Machine where
  cpu := { regs := fun r =>
    if r = 7 then 5 else if r = 6 then 6 else if r = .rsp then 0x1000 else 0 }
  rip := img.address 0
  memory _ := 0

theorem enters_fiveSix (img : Image) : Enters img 0 [5, 6] 0x1008 [0] (fiveSix img) := by
  have zeros (address : Word) : X86.Memory.load (fun _ => 0) address = 0 := by
    unfold X86.Memory.load
    beta_reduce
    decide
  refine ⟨rfl, ?_, rfl, zeros (fiveSix img).rsp, trivial⟩
  intro i r argument value given
  rcases i with _ | _ | i
  · cases argument
    cases given
    rfl
  · cases argument
    cases given
    rfl
  · cases given

/-- For the arguments 5 and 6 the image of the product returns 32. -/
theorem image_runs_source_product : ∃ (img : Image) (entries : List Nat),
    encodeModule productModule = .ok (img.bytes, entries) ∧
      ∃ m m', Machine.Steps img 0 m m' ∧ m.rip = img.address 0 ∧ m.cpu.regs 7 = 5 ∧
        m.cpu.regs 6 = 6 ∧ m'.cpu.regs kRegRax = 32 := by
  have sizes : ((encodeModule productModule).toOption.map fun r =>
      (r.1.length, r.2)) = some (59, [0]) := by
    decide
  obtain ⟨⟨bytes, entries⟩, encoded, same⟩ := Option.map_eq_some_iff.mp sizes
  obtain ⟨length, rfl⟩ := Prod.mk.inj same
  let img : Image := ⟨0, bytes, by rw [length]; decide⟩
  have encoded : encodeModule productModule = .ok (img.bytes, [0]) :=
    toOption_eq_some.mp encoded
  have found : productModule[0]? = some productModule[0] := rfl
  obtain ⟨m', steps, left⟩ := image_runs_source (fun f member => ⟨_, product_compiled member⟩)
    encoded found (product_compiled (List.mem_singleton.mpr rfl)) rfl rfl
    (by decide : evalFn product [5, 6] = some 32)
    (by decide : (0 : Word).toNat + 56 + 8 * ([] : List Word).length ≤ (0x1008 : Word).toNat)
    (enters_fiveSix img)
  exact ⟨img, _, encoded, fiveSix img, m', steps, rfl, rfl, rfl, left.result⟩

end ExecEncoder

end Aegis
