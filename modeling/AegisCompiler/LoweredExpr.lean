import AegisCompiler.LoweringSpec

/-!
# Lowering expressions correctly

A pure expression over visible names lowers to a node that has its value.
Operations are shared through the hash-cons table, so the node may be older
than the expression.
-/

namespace Aegis

namespace Lowerer

open ControlWalk TypeChecker AstEval

section Settled

variable {pend : NodeId → Prop} {g final : Graph}

/-- Only headers and phis are pending. -/
theorem Completes.settled (completes : Completes pend g final)
    (wired : Wired pend g) {id : Nat} (inside : id < g.size)
    (notLoop : (g.node id).kind ≠ .loop) (notPhi : (g.node id).kind ≠ .phi) :
    final.node id = g.node id := by
  refine completes.node id inside fun isPending => ?_
  rcases (wired.pending id isPending).2 with loop | phi
  · exact notLoop loop
  · exact notPhi phi

/-- A node that was appended to a wired graph is settled. -/
theorem Completes.pushed {s : LowerState} {n : Node}
    (completes : Completes pend (Lowerer.pushed s n).graph final)
    (wired : Wired pend s.graph) : final.node s.graph.size = n := by
  have inside : s.graph.size < (Lowerer.pushed s n).graph.size := by
    rw [pushed_size]
    exact Nat.lt_succ_self _
  rw [completes.node _ inside (wired.not_pending le_rfl), pushed_new]

end Settled

section Leaves

variable {pend : NodeId → Prop} {frame : TypeChecker.Frame} {s : LowerState}

def constantNode (value : Word) : Node :=
  { kind := .constant, typeId := kInvalidTypeId, payload := value }

theorem makeConstant_eq (value : Word) (s : LowerState) :
    makeConstant value s =
      .ok s.graph.size (pushed s (constantNode value)) := rfl

/-- A constant reads nothing. -/
theorem makeConstant_step (value : Word) (s : LowerState) :
    DataStep s (pushed s (constantNode value)) := by
  refine DataStep.pushed s ?_ ?_ nofun
  · constructor <;> intro kind <;> cases kind
  · exact fun slot ctrl => not_readsCtrl_of_kind nofun nofun nofun nofun

theorem makeConstant_value (ready : Ready pend frame s) (value : Word)
    {final : Graph}
    (completes : Completes pend (pushed s (constantNode value)).graph final)
    (args : List Word) (phis : Phis) :
    ControlWalk.value final args phis s.graph.size = some value := by
  have node := completes.pushed ready.wired
  rw [value_constant completes.wired.ordered phis (by rw [node]; rfl), node]
  rfl

theorem constant_correct (frame : TypeChecker.Frame) (value : Word) :
    CorrectExpr frame (some <$> makeConstant value) fun _ => some value := by
  intro pend s ready
  refine ⟨s.graph.size, pushed s (constantNode value), rfl,
    makeConstant_step value s, ?_, ?_⟩
  · rw [pushed_size]
    exact Nat.lt_succ_self _
  · intro final args phis env v completes _ eval
    rw [makeConstant_value ready value completes]
    exact eval

theorem ident_correct {frame : TypeChecker.Frame} {name : SymbolId}
    (sees : frame.Sees name) :
    CorrectExpr frame (lowerLeaf (.ident name)) fun env => some (env name) := by
  intro pend s ready
  obtain ⟨id, found, inside⟩ := ready.get (ready.sees name sees)
  have run : lowerLeaf (.ident name) s = .ok (some id) s := by
    rw [lowerLeaf, run_get, found]
    rfl
  refine ⟨id, s, run, DataStep.refl s, inside, ?_⟩
  intro final args phis env v _ represents eval
  obtain ⟨other, foundToo, value⟩ := represents name sees
  rw [found, Option.some.injEq, Option.some.injEq] at foundToo
  rw [foundToo, value]
  exact eval

end Leaves

section Operations

/-- What the table returns for an operation: an old or a new node with the
kind and the input hash that were asked for. -/
structure Consed (kind : NodeKind) (inputs : List NodeRef)
    (s t : LowerState) (id : NodeId) : Prop where
  step : DataStep s t
  inside : id < t.graph.size
  kind : (t.graph.node id).kind = kind
  hash : hashInputs (t.graph.node id).inputs = hashInputs inputs

theorem TableSound.append {s : LowerState} (sound : TableSound s.graph s.table)
    {kind : NodeKind} {inputs : List NodeRef}
    (isOp : kind.isBinop = true ∨ kind.isUnop = true) (n : Node)
    (sameKind : n.kind = kind) (sameInputs : n.inputs = inputs)
    (typeId : TypeId) (payload : NodePayload) :
    TableSound (Lowerer.pushed s n).graph
      (s.table ++ [(⟨kind, typeId, payload, hashInputs inputs⟩,
        s.graph.size)]) := by
  intro entry member
  rw [List.mem_append, List.mem_singleton] at member
  rcases member with old | rfl
  · exact sound.pushed n entry old
  · refine ⟨?_, ?_, isOp, ?_⟩
    · rw [pushed_size]
      exact Nat.lt_succ_self _
    · rw [pushed_new, sameKind]
    · rw [pushed_new, sameInputs]

/-- Looking up an operation whose operands exist. -/
theorem lookupOrInsert_consed {pend : NodeId → Prop}
    {frame : TypeChecker.Frame} {s : LowerState} (ready : Ready pend frame s)
    {kind : NodeKind} {inputs : List NodeRef}
    (isOp : kind.isBinop = true ∨ kind.isUnop = true)
    (placed : ∀ n : Node, n.kind = kind → n.inputs = inputs →
      WellPlaced s.graph.size n) :
    ∃ id t, lookupOrInsert kind inputs s = .ok id t ∧
      Consed kind inputs s t id := by
  rcases lookupOrInsert_cases kind inputs s with ⟨id, found, ran⟩ | ran
  · obtain ⟨entry, lookup, rfl⟩ := Option.map_eq_some_iff.mp found
    have member := List.mem_of_find?_eq_some lookup
    have same := List.find?_some lookup
    rw [decide_eq_true_eq] at same
    obtain ⟨inside, sameKind, -, sameHash⟩ := ready.table entry member
    rw [same] at sameKind sameHash
    exact ⟨entry.2, s, ran, DataStep.refl s, inside, sameKind, sameHash⟩
  · let n : Node :=
      { kind, effect := effectClassOf kind, typeId := kInvalidTypeId, inputs }
    have apart (other : NodeKind) (notBinop : other.isBinop = false)
        (notUnop : other.isUnop = false) : n.kind ≠ other := by
      intro same
      have same : kind = other := same
      simp [same, notBinop, notUnop] at isOp
    have unread (slot ctrl : Nat) : ¬ ReadsCtrl n slot ctrl :=
      not_readsCtrl_of_kind (apart _ rfl rfl) (apart _ rfl rfl)
        (apart _ rfl rfl) (apart _ rfl rfl)
    have notProj : n.kind ≠ .proj := apart _ rfl rfl
    have push := DataStep.pushed s (placed n rfl rfl) unread notProj
    refine ⟨_, _, ran, ?_, ?_, ?_, ?_⟩
    · refine ⟨⟨push.size, push.old, push.quiet, rfl, rfl⟩, rfl, ?_⟩
      intro pend frame ready
      have after := push.ready pend frame ready
      exact ⟨after.wired, ready.table.append isOp n rfl rfl kInvalidTypeId 0, after.bound,
        after.names, after.sees, after.ctrl⟩
    · show s.graph.size < (pushed s n).graph.size
      rw [pushed_size]
      exact Nat.lt_succ_self _
    · show ((pushed s n).graph.node s.graph.size).kind = kind
      rw [pushed_new]
    · show hashInputs ((pushed s n).graph.node s.graph.size).inputs = _
      rw [pushed_new]

/-- In a finished graph the node has exactly the inputs that were asked for:
the hash tells them apart. -/
theorem Consed.node {pend : NodeId → Prop} {frame : TypeChecker.Frame}
    {kind : NodeKind} {inputs : List NodeRef} {s t : LowerState} {id : NodeId}
    (consed : Consed kind inputs s t id) (ready : Ready pend frame s)
    (isOp : kind.isBinop = true ∧ inputs.length = 2 ∨
      kind.isUnop = true ∧ inputs.length = 1)
    (inside : ∀ ref ∈ inputs, ∃ id, ref = some id ∧ id < s.graph.size)
    {final : Graph} (completes : Completes pend t.graph final) :
    (final.node id).kind = kind ∧ (final.node id).inputs = inputs := by
  have after := consed.step.ready pend frame ready
  have settled : final.node id = t.graph.node id := by
    refine completes.settled after.wired consed.inside ?_ ?_
    · rw [consed.kind]
      rintro rfl
      simp [NodeKind.isBinop, NodeKind.isUnop] at isOp
    · rw [consed.kind]
      rintro rfl
      simp [NodeKind.isBinop, NodeKind.isUnop] at isOp
  have kindEq : (final.node id).kind = kind := by rw [settled, consed.kind]
  have hashEq : hashInputs (final.node id).inputs = hashInputs inputs := by
    rw [settled, consed.hash]
  have within : id < final.size :=
    Nat.lt_of_lt_of_le consed.inside completes.size
  have asked (ref : NodeRef) (member : ref ∈ inputs) :
      ∃ id, ref = some id ∧ id < final.size := by
    obtain ⟨id, same, below⟩ := inside ref member
    exact ⟨id, same, Nat.lt_of_lt_of_le below
      (consed.step.size.trans completes.size)⟩
  have placed := completes.wired.ordered.node id
  refine ⟨kindEq, completes.hash _ _ ?_ ?_ ?_ hashEq⟩
  · rcases isOp with ⟨binary, two⟩ | ⟨unary, one⟩
    · obtain ⟨lhs, rhs, same, -⟩ := placed.binop (kindEq ▸ binary)
      rw [same, two]
      rfl
    · obtain ⟨operand, same, -⟩ := placed.unop (kindEq ▸ unary)
      rw [same, one]
      rfl
  · rcases isOp with ⟨binary, two⟩ | ⟨unary, one⟩
    · obtain ⟨lhs, rhs, same, -⟩ := placed.binop (kindEq ▸ binary)
      rw [same]
      rfl
    · obtain ⟨operand, same, -⟩ := placed.unop (kindEq ▸ unary)
      rw [same]
      exact Nat.le_succ 1
  · intro ref member
    rcases List.mem_append.mp member with found | found
    · rcases isOp with ⟨binary, -⟩ | ⟨unary, -⟩
      · obtain ⟨lhs, rhs, same, left, right⟩ := placed.binop (kindEq ▸ binary)
        rw [same, List.mem_pair] at found
        rcases found with rfl | rfl
        · exact ⟨lhs, rfl, Nat.lt_trans left within⟩
        · exact ⟨rhs, rfl, Nat.lt_trans right within⟩
      · obtain ⟨operand, same, below⟩ := placed.unop (kindEq ▸ unary)
        rw [same, List.mem_singleton] at found
        exact ⟨operand, found, Nat.lt_trans below within⟩
    · exact asked ref found

variable {pend : NodeId → Prop} {frame : TypeChecker.Frame} {s : LowerState}

/-- A binary operation on two nodes. -/
theorem lookupOrInsert_binary (ready : Ready pend frame s) {kind : NodeKind}
    (binary : kind.isBinop = true) {lhs rhs : NodeId}
    (left : lhs < s.graph.size) (right : rhs < s.graph.size) :
    ∃ id t, lookupOrInsert kind [some lhs, some rhs] s = .ok id t ∧
      DataStep s t ∧ id < t.graph.size ∧
      ∀ final args phis a b, Completes pend t.graph final →
        value final args phis lhs = some a →
        value final args phis rhs = some b →
        value final args phis id = evalBinop kind a b := by
  obtain ⟨id, t, run, consed⟩ :=
    lookupOrInsert_consed ready (Or.inl binary) fun n sameKind sameInputs => by
      have notUnop := isUnop_of_isBinop binary
      refine ⟨?_, ?_, ?_, ?_⟩
      · exact fun _ => ⟨lhs, rhs, sameInputs, left, right⟩
      · intro unary
        rw [sameKind, notUnop] at unary
        cases unary
      · rintro isProj
        simp [← sameKind, isProj, NodeKind.isBinop] at binary
      · rintro isPhi
        simp [← sameKind, isPhi, NodeKind.isBinop] at binary
  refine ⟨id, t, run, consed.step, consed.inside, ?_⟩
  intro final args phis a b completes leftValue rightValue
  obtain ⟨kindEq, inputsEq⟩ := consed.node ready (Or.inl ⟨binary, rfl⟩)
    (by
      intro ref member
      rcases List.mem_pair.mp member with rfl | rfl
      · exact ⟨lhs, rfl, left⟩
      · exact ⟨rhs, rfl, right⟩) completes
  rw [value_operation completes.wired.ordered phis
    (Or.inl (kindEq.symm ▸ binary))]
  simp only [operate, inputsEq, kindEq, leftValue, rightValue,
    Option.bind_some]

/-- A unary operation on a node. -/
theorem lookupOrInsert_unary (ready : Ready pend frame s) {kind : NodeKind}
    (unary : kind.isUnop = true) {operand : NodeId}
    (below : operand < s.graph.size) :
    ∃ id t, lookupOrInsert kind [some operand] s = .ok id t ∧
      DataStep s t ∧ id < t.graph.size ∧
      ∀ final args phis a, Completes pend t.graph final →
        value final args phis operand = some a →
        value final args phis id = evalUnop kind a := by
  obtain ⟨id, t, run, consed⟩ :=
    lookupOrInsert_consed ready (Or.inr unary) fun n sameKind sameInputs => by
      refine ⟨?_, ?_, ?_, ?_⟩
      · intro binary
        rw [sameKind] at binary
        rw [isUnop_of_isBinop binary] at unary
        cases unary
      · exact fun _ => ⟨operand, sameInputs, below⟩
      · rintro isProj
        simp [← sameKind, isProj, NodeKind.isUnop] at unary
      · rintro isPhi
        simp [← sameKind, isPhi, NodeKind.isUnop] at unary
  refine ⟨id, t, run, consed.step, consed.inside, ?_⟩
  intro final args phis a completes operandValue
  obtain ⟨kindEq, inputsEq⟩ := consed.node ready (Or.inr ⟨unary, rfl⟩)
    (by
      intro ref member
      exact ⟨operand, List.mem_singleton.mp member, below⟩) completes
  rw [value_operation completes.wired.ordered phis
    (Or.inr (kindEq.symm ▸ unary))]
  simp only [operate, inputsEq, kindEq, operandValue, Option.bind_some]

end Operations

theorem isBinop_binopToNodeKind (op : TokenKind) :
    (binopToNodeKind op).isBinop = true := by
  cases op <;> rfl

theorem isUnop_unopToNodeKind (op : TokenKind) :
    (unopToNodeKind op).isUnop = true := by
  cases op <;> rfl

/-- Where the operator has a value, its node has the same. -/
theorem evalBinop_of_evalBinary {op : TokenKind} {a b v : Word}
    (eval : evalBinary op a b = some v) :
    evalBinop (binopToNodeKind op) a b = some v := by
  have shift (small : b.toNat < 64) : shiftCount b = b.toNat :=
    Nat.mod_eq_of_lt small
  have divisor (divides : divides a b = true) : b ≠ 0 := by
    rw [AstEval.divides, Bool.and_eq_true, decide_eq_true_eq] at divides
    exact divides.1
  cases op <;>
    simp only [evalBinary, reduceCtorEq, Option.ite_none_right_eq_some,
      Option.some.injEq] at eval
  case slash =>
    rw [binopToNodeKind, evalBinop, if_neg (divisor eval.1), eval.2]
  case percent =>
    rw [binopToNodeKind, evalBinop, if_neg (divisor eval.1), eval.2]
  case shl => rw [binopToNodeKind, evalBinop, shift eval.1, eval.2]
  case shr => rw [binopToNodeKind, evalBinop, shift eval.1, eval.2]
  all_goals exact congrArg some eval

theorem evalUnop_of_evalUnary {op : TokenKind} {a v : Word}
    (eval : evalUnary op a = some v) :
    evalUnop (unopToNodeKind op) a = some v := by
  cases op <;> first | exact eval | cases eval

section Expressions

variable {frame : TypeChecker.Frame}

theorem lowerUnary_correct {op : TokenKind} {operand : LowerM NodeRef}
    {eval : Env → Option Word} (inner : CorrectExpr frame operand eval) :
    CorrectExpr frame (lowerUnary op operand)
      fun env => (eval env).bind (evalUnary op) := by
  intro pend s ready
  obtain ⟨below, t, run, step, inside, means⟩ := inner pend s ready
  obtain ⟨id, u, consRun, consStep, consInside, consMeans⟩ :=
    lookupOrInsert_unary (step.ready pend frame ready)
      (isUnop_unopToNodeKind op) inside
  refine ⟨id, u, ?_, step.trans consStep, consInside, ?_⟩
  · rw [lowerUnary, run_bind run, run_bind consRun]
    rfl
  · intro final args phis env v completes represents evaluated
    obtain ⟨a, evalOperand, evalOp⟩ := Option.bind_eq_some_iff.mp evaluated
    have value := means final args phis env a
      (completes.earlier consStep.size consStep.old) represents evalOperand
    rw [consMeans final args phis a completes value]
    exact evalUnop_of_evalUnary evalOp

theorem lowerBinary_correct {op : TokenKind} {lhs rhs : LowerM NodeRef}
    {evalLhs evalRhs : Env → Option Word}
    (left : CorrectExpr frame lhs evalLhs)
    (right : CorrectExpr frame rhs evalRhs) :
    CorrectExpr frame (lowerBinary op lhs rhs)
      fun env => (evalLhs env).bind fun a =>
        (evalRhs env).bind (evalBinary op a) := by
  intro pend s ready
  obtain ⟨leftId, t, leftRun, leftStep, leftInside, leftMeans⟩ :=
    left pend s ready
  have middle := leftStep.ready pend frame ready
  obtain ⟨rightId, u, rightRun, rightStep, rightInside, rightMeans⟩ :=
    right pend t middle
  obtain ⟨id, w, consRun, consStep, consInside, consMeans⟩ :=
    lookupOrInsert_binary (rightStep.ready pend frame middle)
      (isBinop_binopToNodeKind op)
      (Nat.lt_of_lt_of_le leftInside rightStep.size) rightInside
  refine ⟨id, w, ?_, (leftStep.trans rightStep).trans consStep, consInside, ?_⟩
  · rw [lowerBinary, run_bind leftRun, run_bind rightRun, run_bind consRun]
    rfl
  · intro final args phis env v completes represents evaluated
    obtain ⟨a, evalA, rest⟩ := Option.bind_eq_some_iff.mp evaluated
    obtain ⟨b, evalB, evalOp⟩ := Option.bind_eq_some_iff.mp rest
    have completesRight := completes.earlier consStep.size consStep.old
    have leftValue := leftMeans final args phis env a
      (completesRight.earlier rightStep.size rightStep.old) represents evalA
    have rightValue := rightMeans final args phis env b completesRight
      (leftStep.bindings ▸ represents) evalB
    rw [consMeans final args phis a b completes leftValue rightValue]
    exact evalBinop_of_evalBinary evalOp

/-- Pure expressions over visible names are lowered correctly. -/
theorem lowerExpr_correct (order : TableOrder) {e : Ast}
    (known : KnownExpr frame e) :
    CorrectExpr frame (lowerExpr order e) (evalExpr e) := by
  induction known with
  | intLit value => exact constant_correct frame value
  | boolLit value => exact constant_correct frame (ofTruth value)
  | ident sees => exact ident_correct sees
  | unary isOp known ih => exact lowerUnary_correct ih
  | binary isOp left right leftIh rightIh =>
      exact lowerBinary_correct leftIh rightIh

end Expressions

end Lowerer

end Aegis
