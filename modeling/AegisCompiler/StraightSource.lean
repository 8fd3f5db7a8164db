import AegisCompiler.GraphOperations
import AegisCompiler.LoweringCorrect
import AegisCompiler.StraightLineCode

/-!
# Lowering straight-line functions

A body of bindings and assignments, with a return or nothing behind them, becomes a graph
of constants, parameters and operations in front of one return.  Where the body evaluates,
none of the operations traps.
-/

namespace Aegis

namespace Lowerer

open AstEval TypeChecker ControlWalk
open InstrSel (isMapped)

mutual

/-- Bindings and assignments, and blocks of them. -/
def straightStmt : Ast → Bool
  | .letStmt .. | .assignExpr .. => true
  | .block stmts => straightStmts stmts
  | _ => false
termination_by structural n => n

def straightStmts : List Ast → Bool
  | [] => true
  | n :: ns => straightStmt n && straightStmts ns
termination_by structural stmts => stmts

end

def isReturn : Ast → Bool
  | .returnStmt _ => true
  | _ => false

/-- Straight statements, the last of which may be a return instead. -/
def straightBody : List Ast → Bool
  | [] => true
  | n :: ns => straightStmt n && straightBody ns || isReturn n && ns.isEmpty

/-- A function without branches and loops that returns at its end at most. -/
def straightFn : Ast → Bool
  | .fnDecl _ _ _ (.block stmts) _ => straightBody stmts
  | _ => false

/-- The start node and its projections stand in front of all values. -/
def firstValue : Nat := declaredNode 0

/-- A constant, a parameter or an operation on values. -/
structure ValueNode (n : Node) : Prop where
  mapped : isMapped n.kind = true
  leaf : n.kind = .constant ∨ n.kind = .parameter → n.inputs = []
  above : ∀ input, some input ∈ n.inputs → firstValue ≤ input

/-- Names and operations refer to values. -/
structure Above (s : LowerState) : Prop where
  size : firstValue ≤ s.graph.size
  table : ∀ entry ∈ s.table, firstValue ≤ entry.2
  bound : ∀ name id, s.bindings.get name = some (some id) → firstValue ≤ id

theorem Above.bindName {s : LowerState} (above : Above s) {x : SymbolId} {id : NodeId}
    (value : firstValue ≤ id) :
    Above { s with bindings := s.bindings.insert x (some id) } where
  size := above.size
  table := above.table
  bound other ref found := by
    by_cases same : other = x
    · rw [same, Bindings.get_insert_self, Option.some.injEq, Option.some.injEq] at found
      exact found ▸ value
    · rw [Bindings.get_insert_of_ne _ _ same] at found
      exact above.bound other ref found

/-- Only values are added, and none of them is a parameter. -/
structure ValueSteps (s t : LowerState) : Prop extends Quiet s t where
  above : Above t
  new : ∀ id : Nat, s.graph.size ≤ id → id < t.graph.size →
    ValueNode (t.graph.node id) ∧ (t.graph.node id).kind ≠ .parameter
  paired : s.graph.Paired → t.graph.Paired

theorem ValueSteps.refl {s : LowerState} (above : Above s) : ValueSteps s s where
  toQuiet := Quiet.refl s
  above := above
  new _ new inside := absurd inside (Nat.not_lt.mpr new)
  paired paired := paired

theorem ValueSteps.trans {s t u : LowerState} (left : ValueSteps s t)
    (right : ValueSteps t u) : ValueSteps s u where
  toQuiet := left.toQuiet.trans right.toQuiet
  above := right.above
  new id new inside := by
    by_cases middle : id < t.graph.size
    · rw [right.old id middle]
      exact left.new id new middle
    · exact right.new id (Nat.le_of_not_lt middle) inside
  paired paired := right.paired (left.paired paired)

/-- Binding a name to a value adds nothing. -/
theorem ValueSteps.bindName {s t : LowerState} (steps : ValueSteps s t) {name : SymbolId}
    {id : NodeId} (value : firstValue ≤ id) :
    ValueSteps s { t with bindings := t.bindings.insert name (some id) } where
  size := steps.size
  old := steps.old
  quiet := steps.quiet
  ctrl := steps.ctrl
  eff := steps.eff
  above := steps.above.bindName value
  new := steps.new
  paired := steps.paired

/-- One node is appended, whatever is recorded of it. -/
theorem ValueSteps.appended {s t : LowerState} {n : Node} (above : Above s)
    (graph : t.graph = (pushed s n).graph) (ctrl : t.ctrl = s.ctrl) (eff : t.eff = s.eff)
    (bindings : t.bindings = s.bindings)
    (table : ∀ entry ∈ t.table, entry ∈ s.table ∨ entry.2 = s.graph.size)
    (unread : ∀ slot ctrl, ¬ ReadsCtrl n slot ctrl) (notParam : n.kind ≠ .parameter)
    (value : ValueNode n) : ValueSteps s t := by
  have step := Quiet.pushed s unread
  have size : t.graph.size = s.graph.size + 1 := by rw [graph, pushed_size]
  constructor
  · exact ⟨graph ▸ step.size, graph ▸ step.old, graph ▸ step.quiet, ctrl, eff⟩
  · refine ⟨size ▸ Nat.le_succ_of_le above.size, fun entry member => ?_, bindings ▸ above.bound⟩
    rcases table entry member with old | new
    · exact above.table entry old
    · exact new ▸ above.size
  · intro id new inside
    obtain rfl : id = s.graph.size := by omega
    rw [graph, pushed_new]
    exact ⟨value, notParam⟩
  · intro paired
    rw [graph]
    exact paired.pushNode n

theorem valueSteps_constant (value : Word) {s : LowerState} (above : Above s) :
    ValueSteps s (pushed s (constantNode value)) := by
  apply ValueSteps.appended above rfl rfl rfl rfl (fun _ member => Or.inl member)
  · exact fun slot ctrl => not_readsCtrl_of_kind nofun nofun nofun nofun
  · exact nofun
  · exact ⟨rfl, fun _ => rfl, fun _ member => absurd member List.not_mem_nil⟩

/-- Looking up an operation on values finds a value or adds one. -/
theorem valueSteps_lookup {kind : NodeKind} {inputs : List NodeRef} {s t : LowerState}
    {id : NodeId} (ran : lookupOrInsert kind inputs s = .ok id t) (above : Above s)
    (isOp : kind.isBinop = true ∨ kind.isUnop = true) (mapped : isMapped kind = true)
    (values : ∀ input, some input ∈ inputs → firstValue ≤ input) :
    ValueSteps s t ∧ firstValue ≤ id := by
  rcases lookupOrInsert_cases kind inputs s with ⟨other, found, found'⟩ | added
  · cases found'.symm.trans ran
    obtain ⟨entry, lookup, rfl⟩ := Option.map_eq_some_iff.mp found
    exact ⟨.refl above, above.table entry (List.mem_of_find?_eq_some lookup)⟩
  · cases added.symm.trans ran
    have apart {other : NodeKind} (notOp : (other.isBinop || other.isUnop) = false) :
        kind ≠ other := by
      rintro rfl
      simp_all
    refine ⟨ValueSteps.appended above rfl rfl rfl rfl (fun entry member => ?_)
      (fun slot ctrl => not_readsCtrl_of_kind (apart rfl) (apart rfl) (apart rfl) (apart rfl))
      (apart rfl) ⟨mapped, fun leaf => ?_, values⟩, above.size⟩
    · rcases List.mem_append.mp member with old | new
      · exact Or.inl old
      · exact Or.inr (List.mem_singleton.mp new ▸ rfl)
    · rcases leaf with constant | parameter
      · exact absurd constant (apart rfl)
      · exact absurd parameter (apart rfl)

/-- Straight code has no phis. -/
abbrev noPhis : Phis := fun _ => none

/-- No operation below the bound traps on its operands. -/
def Untrapped (final : Graph) (args : List Word) (bound : Nat) : Prop :=
  ∀ id < bound, (final.node id).kind.isBinop = true → ∀ lhs rhs a b,
    (final.node id).inputs = [some lhs, some rhs] → value final args noPhis lhs = some a →
      value final args noPhis rhs = some b → (machineBinop (final.node id).kind a b).isSome = true

section Untrapped

variable {frame : Frame} {s t : LowerState} {final : Graph} {args : List Word}

/-- A new node that is no operation cannot trap. -/
theorem Untrapped.push {n : Node} (untrapped : Untrapped final args s.graph.size)
    (ready : Ready noPending frame s) (completes : Completes noPending (pushed s n).graph final)
    (notOp : n.kind.isBinop = false) : Untrapped final args (pushed s n).graph.size := by
  intro id below isOp
  rw [pushed_size, Nat.lt_succ_iff_lt_or_eq] at below
  rcases below with old | rfl
  · exact untrapped id old isOp
  · rw [completes.pushed ready.wired, notOp] at isOp
    cases isOp

/-- An operation that does not trap is looked up. -/
theorem Untrapped.lookup (untrapped : Untrapped final args s.graph.size)
    {kind : NodeKind} {inputs : List NodeRef} {id : NodeId}
    (ran : lookupOrInsert kind inputs s = .ok id t) (ready : Ready noPending frame s)
    (completes : Completes noPending t.graph final)
    (total : kind.isBinop = true → ∀ lhs rhs a b, inputs = [some lhs, some rhs] →
      value final args noPhis lhs = some a → value final args noPhis rhs = some b →
        (machineBinop kind a b).isSome = true) : Untrapped final args t.graph.size := by
  rcases lookupOrInsert_cases kind inputs s with ⟨other, -, found⟩ | added
  · cases found.symm.trans ran
    exact untrapped
  · cases added.symm.trans ran
    intro id below isOp
    let n : Node := { kind, effect := effectClassOf kind, typeId := kInvalidTypeId, inputs }
    have below : id < (pushed s n).graph.size := below
    rw [pushed_size, Nat.lt_succ_iff_lt_or_eq] at below
    rcases below with old | rfl
    · exact untrapped id old isOp
    · have node : final.node s.graph.size = n := Completes.pushed completes ready.wired
      rw [node] at isOp ⊢
      exact total isOp

/-- Where a division is defined, the machine does not trap. -/
theorem machineBinop_of_evalBinary {op : TokenKind} {a b v : Word}
    (evaluated : evalBinary op a b = some v) :
    (machineBinop (binopToNodeKind op) a b).isSome = true := by
  have same := evalBinop_of_evalBinary evaluated
  have fits : divOverflows (binopToNodeKind op) a b = false := by
    have divided (defined : divides a b = true) :
        divOverflows (binopToNodeKind op) a b = false := by
      rw [divides, Bool.and_eq_true, Bool.not_eq_true'] at defined
      rw [divOverflows, Bool.and_assoc, defined.2, Bool.and_false]
    cases op <;> first
      | rfl
      | exact divided (by simpa [evalBinary] using Option.isSome_of_eq_some evaluated)
  rw [machineBinop, fits, same]
  rfl

/-- A compound assignment of the fragment does not divide. -/
theorem machineBinop_of_evalAssign {op : TokenKind} {a b v : Word} (compound : op ≠ .eq)
    (assigned : evalAssign op a b = some v) :
    (machineBinop (assignNodeKind op) a b).isSome = true := by
  cases op <;> first
    | exact absurd rfl compound
    | rfl
    | cases assigned

end Untrapped

theorem isMapped_binopToNodeKind (op : TokenKind) : isMapped (binopToNodeKind op) = true := by
  cases op <;> rfl

theorem isMapped_unopToNodeKind (op : TokenKind) : isMapped (unopToNodeKind op) = true := by
  cases op <;> rfl

theorem isMapped_assignNodeKind (op : TokenKind) : isMapped (assignNodeKind op) = true := by
  cases op <;> rfl

/-- An expression becomes values, and where it evaluates none of them traps. -/
structure StraightExpr (frame : Frame) (eval : Env → Option Word) (s t : LowerState)
    (id : NodeId) : Prop where
  step : DataStep s t
  inside : id < t.graph.size
  values : ValueSteps s t
  above : firstValue ≤ id
  means : ∀ final args env v, Completes noPending t.graph final →
    Represents final args frame s.bindings noPhis env → eval env = some v →
      value final args noPhis id = some v ∧
        (Untrapped final args s.graph.size → Untrapped final args t.graph.size)

section Expressions

variable {frame : Frame} {s : LowerState}

theorem constant_straight (ready : Ready noPending frame s) (above : Above s) (value : Word) :
    StraightExpr frame (fun _ => some value) s (pushed s (constantNode value)) s.graph.size where
  step := makeConstant_step value s
  inside := by
    rw [pushed_size]
    exact Nat.lt_succ_self _
  values := valueSteps_constant value above
  above := above.size
  means final args env v completes _ evaluated :=
    ⟨(makeConstant_value ready value completes args noPhis).trans evaluated,
      fun untrapped => untrapped.push ready completes rfl⟩

theorem ident_straight (ready : Ready noPending frame s) (above : Above s) {name : SymbolId}
    (sees : frame.Sees name) : ∃ id, lowerLeaf (.ident name) s = .ok (some id) s ∧
      StraightExpr frame (fun env => some (env name)) s s id := by
  obtain ⟨id, found, inside⟩ := ready.get (ready.sees name sees)
  have ran : lowerLeaf (.ident name) s = .ok (some id) s := by
    rw [lowerLeaf, run_get, found]
    rfl
  obtain ⟨other, t, ran', -, -, means⟩ := ident_correct sees noPending s ready
  cases ran.symm.trans ran'
  exact ⟨id, ran, .refl s, inside, .refl above, above.bound name id found,
    fun final args env v completes represents evaluated =>
      ⟨means final args noPhis env v completes represents evaluated, fun untrapped => untrapped⟩⟩

/-- A binary operation on two lowered operands. -/
theorem StraightExpr.binary {t u : LowerState} {lhs rhs : NodeId} {kind : NodeKind}
    {evalLhs evalRhs : Env → Option Word} {operation : Word → Word → Option Word}
    (left : StraightExpr frame evalLhs s t lhs) (right : StraightExpr frame evalRhs t u rhs)
    (ready : Ready noPending frame s) (isOp : kind.isBinop = true)
    (mapped : isMapped kind = true)
    (agrees : ∀ a b v, operation a b = some v →
      evalBinop kind a b = some v ∧ (machineBinop kind a b).isSome = true) :
    ∃ id w, lookupOrInsert kind [some lhs, some rhs] u = .ok id w ∧
      StraightExpr frame (fun env => (evalLhs env).bind fun a =>
        (evalRhs env).bind (operation a)) s w id := by
  have last := right.step.ready _ _ (left.step.ready _ _ ready)
  obtain ⟨id, w, ran, step, inside, means⟩ := lookupOrInsert_binary last isOp
    (Nat.lt_of_lt_of_le left.inside right.step.size) right.inside
  obtain ⟨steps, above⟩ := valueSteps_lookup ran right.values.above (Or.inl isOp) mapped (by
    intro input member
    rcases List.mem_pair.mp member with same | same <;> cases same
    · exact left.above
    · exact right.above)
  refine ⟨id, w, ran, (left.step.trans right.step).trans step, inside,
    (left.values.trans right.values).trans steps, above, ?_⟩
  intro final args env v completes represents evaluated
  obtain ⟨a, evalA, rest⟩ := Option.bind_eq_some_iff.mp evaluated
  obtain ⟨b, evalB, evalOp⟩ := Option.bind_eq_some_iff.mp rest
  have completesRight := completes.earlier step.size step.old
  obtain ⟨leftValue, leftTotal⟩ := left.means final args env a
    (completesRight.earlier right.step.size right.step.old) represents evalA
  obtain ⟨rightValue, rightTotal⟩ := right.means final args env b completesRight
    (left.step.bindings ▸ represents) evalB
  obtain ⟨same, total⟩ := agrees a b v evalOp
  refine ⟨(means final args noPhis a b completes leftValue rightValue).trans same,
    fun untrapped => (rightTotal (leftTotal untrapped)).lookup ran last completes ?_⟩
  intro _ lhs' rhs' a' b' inputs leftValue' rightValue'
  cases inputs
  cases leftValue.symm.trans leftValue'
  cases rightValue.symm.trans rightValue'
  exact total

/-- Pure expressions over visible names become values. -/
theorem lowerExpr_straight (order : TableOrder) {e : Ast} (known : KnownExpr frame e)
    (ready : Ready noPending frame s) (above : Above s) :
    ∃ id t, lowerExpr order e s = .ok (some id) t ∧
      StraightExpr frame (evalExpr e) s t id := by
  induction known generalizing s with
  | intLit value => exact ⟨_, _, rfl, constant_straight ready above value⟩
  | boolLit value => exact ⟨_, _, rfl, constant_straight ready above (ofTruth value)⟩
  | ident sees =>
      obtain ⟨id, ran, ident⟩ := ident_straight ready above sees
      exact ⟨id, s, ran, ident⟩
  | @unary op operand isOp known ih =>
      obtain ⟨below, t, ran, inner⟩ := ih ready above
      have middle := inner.step.ready _ _ ready
      have unary := isUnop_unopToNodeKind op
      obtain ⟨id, u, consRun, step, inside, means⟩ :=
        lookupOrInsert_unary middle unary inner.inside
      obtain ⟨steps, value⟩ := valueSteps_lookup consRun inner.values.above (Or.inr unary)
        (isMapped_unopToNodeKind op) fun input member => by
          cases List.mem_singleton.mp member
          exact inner.above
      refine ⟨id, u, ?_, inner.step.trans step, inside, inner.values.trans steps, value, ?_⟩
      · rw [lowerExpr, lowerUnary, run_bind ran, run_bind consRun]
        rfl
      · intro final args env v completes represents evaluated
        obtain ⟨a, evalOperand, evalOp⟩ := Option.bind_eq_some_iff.mp evaluated
        obtain ⟨operandValue, total⟩ := inner.means final args env a
          (completes.earlier step.size step.old) represents evalOperand
        refine ⟨(means final args noPhis a completes operandValue).trans
          (evalUnop_of_evalUnary evalOp), fun untrapped =>
            (total untrapped).lookup consRun middle completes fun binary => ?_⟩
        rw [isUnop_of_isBinop binary] at unary
        cases unary
  | @binary op lhs rhs isOp left right leftIh rightIh =>
      obtain ⟨leftId, t, leftRun, leftExpr⟩ := leftIh ready above
      obtain ⟨rightId, u, rightRun, rightExpr⟩ :=
        rightIh (leftExpr.step.ready _ _ ready) leftExpr.values.above
      obtain ⟨id, w, ran, expr⟩ := leftExpr.binary rightExpr ready (isBinop_binopToNodeKind op)
        (isMapped_binopToNodeKind op) fun a b v (evaluated : evalBinary op a b = some v) =>
          ⟨evalBinop_of_evalBinary evaluated, machineBinop_of_evalBinary evaluated⟩
      refine ⟨id, w, ?_, expr⟩
      rw [lowerExpr, lowerBinary, run_bind leftRun, run_bind rightRun, run_bind ran]
      rfl

end Expressions

/-- A statement becomes values, and where it evaluates none of them traps. -/
structure StraightLowered (frame frame' : Frame) (eval : Env → StmtOutcome)
    (s t : LowerState) : Prop where
  ready : Ready noPending frame' t
  values : ValueSteps s t
  follows : ∀ final args env env', Completes noPending t.graph final →
    Represents final args frame s.bindings noPhis env → eval env = .normal env' →
      Represents final args frame' t.bindings noPhis env' ∧
        (Untrapped final args s.graph.size → Untrapped final args t.graph.size)

theorem withValue_normal {computed : Option Word} {next : Word → StmtOutcome} {env : Env}
    (ends : withValue computed next = .normal env) :
    ∃ v, computed = some v ∧ next v = .normal env := by
  cases computed with
  | none => cases ends
  | some v => exact ⟨v, rfl, ends⟩

theorem andThen_normal {outcome : StmtOutcome} {next : Env → StmtOutcome} {env : Env}
    (ends : outcome.andThen next = .normal env) :
    ∃ middle, outcome = .normal middle ∧ next middle = .normal env := by
  cases outcome with
  | normal middle => exact ⟨middle, rfl, ends⟩
  | trap | returned => cases ends

section Statements

variable {frame frame' : Frame} {s t : LowerState} {eval : Env → Option Word}

/-- A name is bound to the value of an expression. -/
theorem StraightExpr.bindName {id : NodeId} (inner : StraightExpr frame eval s t id)
    (ready : Ready noPending frame s) {name : SymbolId}
    (sees : ∀ other, frame'.Sees other → frame.Sees other ∨ other = name) :
    StraightLowered frame frame' (fun env => withValue (eval env) fun v =>
      .normal (Function.update env name v)) s
        { t with bindings := t.bindings.insert name (some id) } where
  ready := (inner.step.ready _ _ ready).bindName inner.inside sees
  values := inner.values.bindName inner.above
  follows final args env env' completes represents ends := by
    obtain ⟨v, evaluated, same⟩ := withValue_normal ends
    cases same
    obtain ⟨value, total⟩ := inner.means final args env v completes represents evaluated
    refine ⟨?_, total⟩
    change Represents final args frame' (t.bindings.insert name (some id)) noPhis _
    rw [inner.step.bindings]
    exact represents.bindName value sees

/-- The value that an assignment binds its name to. -/
theorem StraightExpr.assigned {id : NodeId} (inner : StraightExpr frame eval s t id)
    (ready : Ready noPending frame s) {name : SymbolId}
    (sees : frame.Sees name) {op : TokenKind} {value : LowerM NodeRef}
    (ran : value s = .ok (some id) t) :
    ∃ node u, lowerAssign op (assignNodeKind op) (.ident name) value s =
        .ok (some node) { u with bindings := u.bindings.insert name (some node) } ∧
      StraightExpr frame (fun env => (eval env).bind (evalAssign op (env name))) s u node := by
  by_cases plain : op = .eq
  · subst plain
    refine ⟨id, t, ?_, inner.step, inner.inside, inner.values, inner.above, ?_⟩
    · rw [lowerAssign, run_bind ran]
      rfl
    · intro final args env v completes represents evaluated
      obtain ⟨a, evalA, same⟩ := Option.bind_eq_some_iff.mp evaluated
      exact inner.means final args env v completes represents (evalA.trans same)
  · have middle := inner.step.ready _ _ ready
    obtain ⟨old, leaf, oldExpr⟩ := ident_straight middle inner.values.above sees
    obtain ⟨old', found, -⟩ := middle.get (middle.sees name sees)
    have same : old' = old := by
      rw [lowerLeaf, run_get, found] at leaf
      cases leaf
      rfl
    subst same
    -- The old value is looked up behind the assigned one, but it is the left operand.
    obtain ⟨node, u, consRun, step, inside, means⟩ := lookupOrInsert_binary middle
      (isBinop_assignNodeKind op) oldExpr.inside inner.inside
    obtain ⟨steps, node_above⟩ := valueSteps_lookup consRun inner.values.above
      (Or.inl (isBinop_assignNodeKind op)) (isMapped_assignNodeKind op) fun input member => by
        rcases List.mem_pair.mp member with same | same <;> cases same
        · exact oldExpr.above
        · exact inner.above
    refine ⟨node, u, ?_, inner.step.trans step, inside, inner.values.trans steps, node_above, ?_⟩
    · rw [lowerAssign, run_bind ran]
      change assignName op (assignNodeKind op) name (some id) t = _
      rw [assignName, if_neg plain, run_bind (boundOrZero_bound found), run_bind consRun]
      rfl
    · intro final args env v completes represents evaluated
      obtain ⟨a, evalA, evalOp⟩ := Option.bind_eq_some_iff.mp evaluated
      have earlier := completes.earlier step.size step.old
      obtain ⟨right, total⟩ := inner.means final args env a earlier represents evalA
      obtain ⟨left, -⟩ := oldExpr.means final args env (env name) earlier
        (inner.step.bindings ▸ represents) rfl
      refine ⟨(means final args noPhis _ _ completes left right).trans
        (evalBinop_of_evalAssign plain evalOp), fun untrapped =>
          (total untrapped).lookup consRun middle completes ?_⟩
      intro _ lhs rhs b c inputs leftValue rightValue
      cases inputs
      cases left.symm.trans leftValue
      cases right.symm.trans rightValue
      exact machineBinop_of_evalAssign plain evalOp

theorem lowerStmt_straight (order : TableOrder) {n : Ast} (accepted : Accepted frame n frame')
    (straight : straightStmt n = true) (ready : Ready noPending frame s) (above : Above s) :
    ∃ t, lowerStmt order n s = .ok () t ∧
      StraightLowered frame frame' (evalStmt n) s t := by
  induction accepted generalizing s with
  | letStmt known fresh =>
      obtain ⟨id, t, ran, inner⟩ := lowerExpr_straight order known ready above
      refine ⟨_, ?_, inner.bindName ready fun other seen =>
        (Frame.sees_append.mp seen).imp_right Eq.symm⟩
      rw [lowerStmt, lowerLet, run_bind ran]
      rfl
  | assign isOp known sees =>
      obtain ⟨id, t, ran, inner⟩ := lowerExpr_straight order known ready above
      obtain ⟨node, u, assigns, assigned⟩ := inner.assigned ready sees ran
      refine ⟨_, ?_, assigned.bindName ready fun other seen => Or.inl seen⟩
      rw [lowerStmt, run_bind assigns]
      rfl
  | blockNil =>
      exact ⟨s, rfl, ready, .refl above, fun final args env env' _ represents ends => by
        cases ends
        exact ⟨represents, fun untrapped => untrapped⟩⟩
  | @blockCons frame middle last n ns first rest firstIh restIh =>
      rw [straightStmt, straightStmts, Bool.and_eq_true] at straight
      obtain ⟨t, firstRun, firstDone⟩ := firstIh straight.1 ready above
      obtain ⟨u, restRun, restDone⟩ :=
        restIh straight.2 firstDone.ready firstDone.values.above
      rw [lowerStmt] at restRun
      refine ⟨u, ?_, restDone.ready, firstDone.values.trans restDone.values, ?_⟩
      · rw [lowerStmt, lowerStmts, run_bind firstRun, restRun]
      · intro final args env env' completes represents ends
        obtain ⟨between, firstEnds, restEnds⟩ := andThen_normal ends
        have earlier := completes.earlier restDone.values.size restDone.values.old
        obtain ⟨represents', firstTotal⟩ :=
          firstDone.follows final args env between earlier represents firstEnds
        obtain ⟨represents'', restTotal⟩ :=
          restDone.follows final args between env' completes represents' restEnds
        exact ⟨represents'', fun untrapped => restTotal (firstTotal untrapped)⟩
  | ifElse | ifThen | forRange | returnValue | returnNone => cases straight

/-- Straight statements do not return. -/
theorem straightStmt_falls {n : Ast} (straight : straightStmt n = true)
    (accepted : Accepted frame n frame') (env : Env) (v : Word) :
    evalStmt n env ≠ .returned v := by
  have bound {computed : Option Word} {next : Word → Env} :
      (withValue computed fun w => .normal (next w)) ≠ .returned v := by
    cases computed <;> exact nofun
  induction accepted generalizing env with
  | letStmt => exact bound
  | assign => exact bound
  | blockNil => exact nofun
  | @blockCons frame middle last n ns first rest firstIh restIh =>
      rw [straightStmt, straightStmts, Bool.and_eq_true] at straight
      have rest := restIh straight.2
      change (evalStmt n env).andThen (evalStmts ns) ≠ _
      cases ends : evalStmt n env with
      | trap => exact nofun
      | normal env' => exact rest env'
      | returned w =>
          intro same
          cases same
          exact firstIh straight.1 env ends
  | ifElse | ifThen | forRange | returnValue | returnNone => cases straight

end Statements

/-- What a function returns when its body ends so. -/
def EndsWith (outcome : StmtOutcome) (v : Word) : Prop :=
  outcome = .returned v ∨ v = 0 ∧ ∃ env, outcome = .normal env

/-- A body becomes values in front of one return. -/
structure StraightBody (frame : Frame) (eval : Env → StmtOutcome) (s u t : LowerState)
    (result : NodeId) : Prop where
  values : ValueSteps s u
  inside : result < u.graph.size
  above : firstValue ≤ result
  graph : t.graph = (pushed u (returnNodeOf s.ctrl s.eff (some result))).graph
  wired : Wired noPending t.graph
  follows : ∀ args env v, HashInjectiveBelow t.graph.size →
    Represents t.graph args frame s.bindings noPhis env → EndsWith (eval env) v →
      value t.graph args noPhis result = some v ∧
        (Untrapped t.graph args s.graph.size → Untrapped t.graph args u.graph.size)

section Bodies

variable {frame frame' middle : Frame} {s u t : LowerState} {result : NodeId}

theorem completes_pushed {n : Node} (wired : Wired noPending (pushed u n).graph)
    (hash : HashInjectiveBelow (pushed u n).graph.size) :
    Completes noPending u.graph (pushed u n).graph where
  size := by
    rw [pushed_size]
    exact Nat.le_succ _
  node _ inside _ := pushed_old u n inside
  wired := wired
  hash := hash

/-- The value of an expression is returned. -/
theorem StraightExpr.returns {eval : Env → Option Word}
    (inner : StraightExpr frame eval s u result) (ready : Ready noPending frame s)
    (graph : t.graph = (pushed u (returnNodeOf u.ctrl u.eff (some result))).graph)
    {body : Env → StmtOutcome} (same : ∀ env v, EndsWith (body env) v → eval env = some v) :
    StraightBody frame body s u t result := by
  have fits : Fits noPending noPending u.graph (returnNodeOf u.ctrl u.eff (some result)) :=
    Fits.current (inner.step.ready _ _ ready) (Or.inr rfl) rfl
  have wired := (inner.step.ready _ _ ready).wired.push fits
  refine ⟨inner.values, inner.inside, inner.above, ?_, graph ▸ wired, ?_⟩
  · rw [graph, inner.values.ctrl, inner.values.eff]
  · intro args env v hash represents ends
    rw [graph] at hash represents ⊢
    exact inner.means _ args env v (completes_pushed wired hash) represents (same env v ends)

/-- A statement stands in front of a body. -/
theorem StraightLowered.andThen {first rest : Env → StmtOutcome}
    (lowered : StraightLowered frame middle first s t) {t' : LowerState}
    (body : StraightBody middle rest t u t' result) (falls : ∀ env v, first env ≠ .returned v) :
    StraightBody frame (fun env => (first env).andThen rest) s u t' result where
  values := lowered.values.trans body.values
  inside := body.inside
  above := body.above
  graph := by rw [body.graph, lowered.values.ctrl, lowered.values.eff]
  wired := body.wired
  follows args env v hash represents ends := by
    have wired := body.wired
    rw [body.graph] at wired hash
    have completes := (completes_pushed wired hash).earlier body.values.size body.values.old
    rw [← body.graph] at completes hash
    cases normal : first env with
    | trap =>
        rw [normal] at ends
        rcases ends with ends | ⟨-, env', ends⟩ <;> cases ends
    | returned w => exact absurd normal (falls env w)
    | normal env' =>
        rw [normal] at ends
        obtain ⟨represents', firstTotal⟩ :=
          lowered.follows _ args env env' completes represents normal
        obtain ⟨value, restTotal⟩ := body.follows args env' v hash represents' ends
        exact ⟨value, fun untrapped => restTotal (firstTotal untrapped)⟩

/-- A return ends the body. -/
theorem return_straight (order : TableOrder) {eval : Env → Option Word} {n : Ast}
    {value : LowerM NodeRef} (returns : lowerStmt order n = lowerReturn value)
    (evaluates : ∀ env, evalStmt n env = withValue (eval env) .returned)
    (ran : value s = .ok (some result) u) (inner : StraightExpr frame eval s u result)
    (ready : Ready noPending frame s) :
    ∃ t, (lowerStmts order [n] >>= fun _ => synthesizeReturn) s = .ok () t ∧
      StraightBody frame (evalStmts [n]) s u t result := by
  let t : LowerState := { u with
    ctrl := none
    eff := none
    graph := (pushed u (returnNodeOf u.ctrl u.eff (some result))).graph }
  have stops : lowerStmt order n s = .ok () t := by
    rw [returns, lowerReturn, run_bind ran]
    rfl
  have ended : ¬ (t.ctrl ≠ none ∧ t.eff ≠ none) := fun live => live.1 rfl
  refine ⟨t, ?_, inner.returns (t := t) ready rfl fun env v ends => ?_⟩
  · rw [lowerStmts, bind_assoc, run_bind stops]
    exact synthesizeReturn_ended ended
  · rw [evalStmts, evaluates] at ends
    cases computed : eval env with
    | none =>
        rw [computed] at ends
        rcases ends with ends | ⟨-, env', ends⟩ <;> cases ends
    | some w =>
        rw [computed] at ends
        rcases ends with ends | ⟨-, env', ends⟩ <;> cases ends
        rfl

theorem body_straight (order : TableOrder) (stmts : List Ast)
    (accepted : Accepted frame (.block stmts) frame') (straight : straightBody stmts = true)
    (ready : Ready noPending frame s) (above : Above s) (ctrl : s.ctrl ≠ none)
    (eff : s.eff ≠ none) :
    ∃ u t result, (lowerStmts order stmts >>= fun _ => synthesizeReturn) s = .ok () t ∧
      StraightBody frame (evalStmts stmts) s u t result := by
  induction stmts generalizing frame s with
  | nil =>
      refine ⟨_, _, _, synthesizeReturn_live ctrl eff,
        (constant_straight ready above 0).returns ready rfl fun env v ends => ?_⟩
      rcases ends with ends | ⟨rfl, -⟩
      · cases ends
      · rfl
  | cons n ns ih =>
      cases accepted with
      | @blockCons _ middle _ _ _ first rest =>
          rw [straightBody, Bool.or_eq_true, Bool.and_eq_true, Bool.and_eq_true,
            List.isEmpty_iff] at straight
          rcases straight with ⟨head, tail⟩ | ⟨last, rfl⟩
          · obtain ⟨t, ran, lowered⟩ := lowerStmt_straight order first head ready above
            obtain ⟨u, t', result, ran', body⟩ := ih rest tail lowered.ready
              lowered.values.above (lowered.values.ctrl ▸ ctrl) (lowered.values.eff ▸ eff)
            refine ⟨u, t', result, ?_, lowered.andThen body fun env v =>
              straightStmt_falls head first env v⟩
            rw [lowerStmts, bind_assoc, run_bind ran, ran']
          · cases first with
            | letStmt | assign | blockNil | blockCons | ifElse | ifThen | forRange =>
                cases last
            | @returnValue _ value known =>
                obtain ⟨result, u, ran, inner⟩ := lowerExpr_straight order known ready above
                have returns : lowerStmt order (.returnStmt (some value)) =
                    lowerReturn (lowerExpr order value) := by
                  rw [lowerStmt]
                obtain ⟨t, ran', body⟩ :=
                  return_straight order returns (fun env => by rw [evalStmt]) ran inner ready
                exact ⟨u, t, result, ran', body⟩
            | returnNone =>
                have returns : lowerStmt order (.returnStmt none) =
                    lowerReturn (some <$> makeConstant 0) := by
                  rw [lowerStmt]
                obtain ⟨t, ran', body⟩ := return_straight order returns
                  (fun env => by rw [evalStmt]; rfl) rfl (constant_straight ready above 0) ready
                exact ⟨_, t, _, ran', body⟩

end Bodies

/-- Parameters are values. -/
theorem lowerParams_above (params : List Ast) {s t : LowerState} (above : Above s)
    (paired : s.graph.Paired) (ran : lowerParams params s = .ok () t) :
    Above t ∧ t.graph.Paired := by
  induction params generalizing s with
  | nil =>
      cases ran
      exact ⟨above, paired⟩
  | cons param params ih =>
      cases param with
      | param name typeAnn mutable =>
          let n : Node := { kind := .parameter, typeId := kInvalidTypeId, payload := .ofSym name }
          have grown : Above (pushed s n) :=
            ⟨(pushed_size s n).symm ▸ Nat.le_succ_of_le above.size, above.table, above.bound⟩
          exact ih (grown.bindName (x := name) above.size) (paired.pushNode n) ran
      | _ => exact ih above paired ran

theorem prologue_above : Above prologue where
  size := le_rfl
  table := nofun
  bound := nofun

theorem prologue_paired : prologue.graph.Paired :=
  (Graph.paired_fresh.pushNode _).pushNode _

/-- Parameters, constants and operations on values, with one return behind them. -/
structure StraightGraph (g : Graph) (params : Nat) (ret result : NodeId) : Prop where
  size : g.size = ret + 1
  before : ∀ id < firstValue, g.node id = prologue.graph.node id
  values : ∀ id, firstValue ≤ id → id < ret → ValueNode (g.node id)
  isParam : ∀ id, firstValue ≤ id → id < ret →
    ((g.node id).kind = .parameter ↔ id < declaredNode params)
  declared : declaredNode params ≤ ret
  returned : g.node ret = returnNodeOf (some 1) (some 2) (some result)
  above : firstValue ≤ result
  below : result < ret
  ordered : Ordered g
  paired : g.Paired

section Functions

variable {frame : Frame} {eval : Env → StmtOutcome} {s u t : LowerState} {result : NodeId}
variable {names : List SymbolId}

theorem entered_values (entered : Entered names s.graph) {id : NodeId}
    (value : firstValue ≤ id) (inside : id < s.graph.size) :
    ValueNode (s.graph.node id) ∧ (s.graph.node id).kind = .parameter := by
  obtain ⟨position, rfl⟩ := Nat.exists_eq_add_of_le value
  have below : position < names.length := by
    have size : s.graph.size = 3 + names.length := entered.size
    have inside : 3 + position < s.graph.size := inside
    omega
  have node := entered.param position below
  rw [show firstValue + position = declaredNode position from rfl, node]
  exact ⟨⟨rfl, fun _ => rfl, fun _ member => absurd member List.not_mem_nil⟩, rfl⟩

theorem StraightBody.size (body : StraightBody frame eval s u t result) :
    t.graph.size = u.graph.size + 1 := by
  rw [body.graph, pushed_size]

theorem StraightBody.old (body : StraightBody frame eval s u t result) {id : NodeId}
    (inside : id < u.graph.size) : t.graph.node id = u.graph.node id := by
  rw [body.graph, pushed_old _ _ inside]

/-- The graph of a body behind its parameters. -/
theorem StraightBody.straightGraph (body : StraightBody frame eval s u t result)
    (entered : Entered names s.graph) (quiet : Quiet prologue s) (paired : s.graph.Paired) :
    StraightGraph t.graph names.length u.graph.size result := by
  have first : s.graph.size = declaredNode names.length := entered.size
  have start : firstValue ≤ s.graph.size := quiet.size
  have given {id : NodeId} (inside : id < s.graph.size) :
      t.graph.node id = s.graph.node id := by
    rw [body.old (Nat.lt_of_lt_of_le inside body.values.size), body.values.old id inside]
  refine ⟨body.size, fun id before => ?_, fun id value inside => ?_, fun id value inside => ?_,
    first ▸ body.values.size, ?_, body.above, body.inside, body.wired.ordered, ?_⟩
  · rw [given (Nat.lt_of_lt_of_le before start), quiet.old id before]
  · by_cases param : id < s.graph.size
    · rw [given param]
      exact (entered_values entered value param).1
    · rw [body.old inside]
      exact (body.values.new id (Nat.le_of_not_lt param) inside).1
  · by_cases param : id < s.graph.size
    · rw [given param]
      exact iff_of_true (entered_values entered value param).2 (first ▸ param)
    · rw [body.old inside]
      exact iff_of_false (body.values.new id (Nat.le_of_not_lt param) inside).2 (first ▸ param)
  · rw [body.graph, pushed_new, quiet.ctrl, quiet.eff]
    rfl
  · rw [body.graph]
    exact (body.values.paired paired).pushNode _

/-- Parameters do not trap. -/
theorem StraightGraph.untrapped_params {g : Graph} {params : Nat} {ret : NodeId}
    (graph : StraightGraph g params ret result) (args : List Word) :
    Untrapped g args (declaredNode params) := by
  intro id below isOp
  by_cases value : firstValue ≤ id
  · rw [(graph.isParam id value (Nat.lt_of_lt_of_le below graph.declared)).mpr below] at isOp
    cases isOp
  · have before : id < 3 := Nat.not_le.mp value
    rw [graph.before id before] at isOp
    have kinds : ∀ id < 3, (prologue.graph.node id).kind.isBinop = false := by decide
    rw [kinds id before] at isOp
    cases isOp

end Functions

/-- An accepted straight-line function becomes a straight graph, and where the function
evaluates, its result is the value of the returned node and no operation traps. -/
theorem lowerFresh_straight (order : TableOrder) {sigs : FnSigs} {fn : Ast}
    (inside : callFreeFn fn = true) (straight : straightFn fn = true)
    (accepted : checkFn sigs fn = []) {g : Graph} (lowered : lowerFresh order fn = .ok g) :
    ∃ ret result, StraightGraph g (declaredParams fn).length ret result ∧
      (HashInjectiveBelow g.size → ∀ args v, evalFn fn args = some v →
        value g args noPhis result = some v ∧ Untrapped g args ret) := by
  cases fn with
  | fnDecl name params returnType body isPub =>
      cases body with
      | block stmts =>
          obtain ⟨paramsClean, bodyClean⟩ := Check.andThen_clean accepted
          have entering (args : List Word) := lowerParams_represents params rfl
            prologue_entered prologue_ready paramsClean (nothing_represented args)
          obtain ⟨s, entered, named, ready, quiet, -⟩ := entering []
          obtain ⟨above, paired⟩ :=
            lowerParams_above params prologue_above prologue_paired entered
          obtain ⟨u, t, result, ran, body⟩ := body_straight order stmts
            (accepted_of_checkStmts stmts inside bodyClean) straight ready above
            (by rw [quiet.ctrl]; exact nofun) (by rw [quiet.eff]; exact nofun)
          have whole : lowerFn order (.fnDecl name params returnType (.block stmts) isPub) {} =
              .ok () t := by
            have enters : enterFunction params {} = .ok () s := entered
            rw [lowerFn, run_bind enters]
            exact ran
          obtain rfl : t.graph = g := by
            rw [lowerFresh, whole] at lowered
            exact Except.ok.inj lowered
          have graph := body.straightGraph named quiet paired
          refine ⟨u.graph.size, result, graph, fun hash args v evaluated => ?_⟩
          obtain ⟨s', entered', -, -, -, represents⟩ := entering args
          cases entered.symm.trans entered'
          have completes : Completes noPending s.graph t.graph := by
            have wired := body.wired
            have hash := hash
            rw [body.graph] at wired hash ⊢
            exact (completes_pushed wired hash).earlier body.values.size body.values.old
          obtain ⟨value, total⟩ := body.follows args _ v hash
            (represents t.graph noPhis completes) (outcome_of_evalFn evaluated)
          have size : s.graph.size = declaredNode (params.filterMap Ast.paramName).length :=
            named.size
          exact ⟨value, total (size ▸ graph.untrapped_params args)⟩
      | _ => cases straight
  | _ => cases straight

end Lowerer

end Aegis
