import AegisCompiler.Lowering

/-!
# Where control ends

Whether lowering a tree succeeds can be read off the tree.  A return ends the
control, merges and loops start a new one, and a loop whose body ends without
control is an error.
-/

namespace Aegis

namespace Lowerer

/-- Whether there is control behind a tree, given whether there is control in
front of it.  An error keeps what held where it was thrown. -/
abbrev ControlFlow := Bool → Except Bool Bool

namespace ControlFlow

/-- A return. -/
def ends : ControlFlow := fun _ => .ok false

/-- A projection, a merge or an exit. -/
def starts : ControlFlow := fun _ => .ok true

def andThen (first second : ControlFlow) : ControlFlow := fun live =>
  match first live with
  | .ok live => second live
  | .error live => .error live

/-- Carry on whether there was an error or not. -/
def ignoreError (flow : ControlFlow) : ControlFlow := fun live =>
  match flow live with
  | .ok live => .ok live
  | .error live => .ok live

/-- The end of a loop body, which needs control. -/
def closes : ControlFlow := fun live => if live then .ok true else .error false

theorem andThen_ok (flow : ControlFlow) : flow.andThen .ok = flow := by
  funext live
  rw [andThen]
  split <;> rename_i same <;> exact same.symm

end ControlFlow

open ControlFlow

mutual

/-- The control behind a statement. -/
def stmtControl : Ast → ControlFlow
  | .letStmt _ _ init _ =>
      match init with
      | some init => exprControl init
      | none => .ok
  | .exprStmt expr => exprControl expr
  | .returnStmt value =>
      match value with
      | some value => (exprControl value).andThen ends
      | none => ends
  | .ifStmt cond thenBranch elseBranch =>
      (exprControl cond).andThen <| starts.andThen <|
        (stmtControl thenBranch).andThen <| starts.andThen <|
          match elseBranch with
          | some elseBranch => (stmtControl elseBranch).andThen starts
          | none => starts
  | .block stmts => stmtsControl stmts
  | .forStmt _ (.rangeExpr lo hi) body =>
      (exprControl lo).andThen <| (exprControl hi).andThen <| starts.andThen <|
        (stmtControl body).andThen closes
  | .forStmt _ _ _ => .error
  | .assignExpr _ _ value => exprControl value
  | .binaryExpr _ lhs rhs => ((exprControl lhs).andThen (exprControl rhs)).ignoreError
  | .unaryExpr _ operand => (exprControl operand).ignoreError
  | .callExpr _ args => (argsControl args).ignoreError
  | _ => .ok
termination_by structural n => n

def stmtsControl : List Ast → ControlFlow
  | [] => .ok
  | n :: ns => (stmtControl n).andThen (stmtsControl ns)
termination_by structural stmts => stmts

/-- The control behind an expression. -/
def exprControl : Ast → ControlFlow
  | .binaryExpr _ lhs rhs => (exprControl lhs).andThen (exprControl rhs)
  | .unaryExpr _ operand => exprControl operand
  | .callExpr _ args => argsControl args
  | .assignExpr _ _ value => exprControl value
  | .block stmts => blockControl stmts
  | _ => .ok
termination_by structural n => n

def argsControl : List Ast → ControlFlow
  | [] => .ok
  | arg :: args => (exprControl arg).andThen (argsControl args)
termination_by structural args => args

/-- The control behind a block in expression position. -/
def blockControl : List Ast → ControlFlow
  | [] => .ok
  | .exprStmt expr :: ns => (exprControl expr).andThen (blockControl ns)
  | n :: ns => (stmtControl n).andThen (blockControl ns)
termination_by structural stmts => stmts

end

/-- Whether there is control behind a run, and whether it succeeded. -/
def controlAfter {α : Type} : EStateM.Result TypeError LowerState α → Except Bool Bool
  | .ok _ t => .ok t.ctrl.isSome
  | .error _ t => .error t.ctrl.isSome

/-- The run has the control of this flow. -/
def Flows {α : Type} (run : LowerM α) (flow : ControlFlow) : Prop :=
  ∀ s, controlAfter (run s) = flow s.ctrl.isSome

section Steps

variable {α β : Type} {first : LowerM α} {next : α → LowerM β} {flow second : ControlFlow}

theorem Flows.pure (value : α) : Flows (Pure.pure value) .ok := fun _ => rfl

theorem Flows.throw (error : TypeError) : Flows (throw error : LowerM α) .error :=
  fun _ => rfl

theorem Flows.bind (flows : Flows first flow) (later : ∀ a, Flows (next a) second) :
    Flows (first >>= next) (flow.andThen second) := by
  intro s
  have here := flows s
  simp only [Bind.bind, EStateM.bind, andThen]
  cases ran : first s with
  | ok a t =>
      rw [ran, controlAfter] at here
      rw [← here]
      exact later a t
  | error e t =>
      rw [ran, controlAfter] at here
      rw [← here]
      rfl

/-- What leaves the control alone does not change the flow. -/
theorem Flows.after (keeps : Flows first .ok) (later : ∀ a, Flows (next a) flow) :
    Flows (first >>= next) flow := keeps.bind later

/-- Reading the state does not change the flow. -/
theorem Flows.read {next : LowerState → LowerM β} (later : ∀ s, Flows (next s) flow) :
    Flows (get >>= next) flow := fun s => later s s

theorem Flows.keep (flows : Flows first flow) (later : ∀ a, Flows (next a) .ok) :
    Flows (first >>= next) flow := by
  rw [← andThen_ok flow]
  exact flows.bind later

theorem Flows.map (flows : Flows first flow) (f : α → β) : Flows (f <$> first) flow := by
  rw [map_eq_pure_bind]
  exact flows.keep fun _ => Flows.pure _

theorem Flows.ignoreError (flows : Flows first flow) :
    Flows (ignoreError first) flow.ignoreError := by
  intro s
  have here := flows s
  rw [Lowerer.ignoreError, ControlFlow.ignoreError]
  cases ran : first s <;> rw [ran, controlAfter] at here <;> rw [← here] <;> rfl

end Steps

theorem Flows.make (create : Graph → NodeId × Graph) : Flows (make create) .ok :=
  fun _ => rfl

theorem Flows.makeConstant (value : Word) : Flows (makeConstant value) .ok :=
  fun _ => rfl

theorem Flows.lookupOrInsert (kind : NodeKind) (inputs : List NodeRef) :
    Flows (lookupOrInsert kind inputs) .ok := fun _ => rfl

theorem Flows.setInput (id : NodeId) (slot : Nat) (ref : NodeRef) :
    Flows (setInput id slot ref) .ok := fun _ => rfl

theorem Flows.setEff (eff : NodeRef) : Flows (setEff eff) .ok := fun _ => rfl

theorem Flows.setBindings (bindings : Bindings) : Flows (setBindings bindings) .ok :=
  fun _ => rfl

theorem Flows.bindName (name : SymbolId) (ref : NodeRef) : Flows (bindName name ref) .ok :=
  fun _ => rfl

theorem Flows.setCtrl_some (id : NodeId) : Flows (setCtrl (some id)) starts := fun _ => rfl

theorem Flows.setCtrl_none : Flows (setCtrl none) ends := fun _ => rfl

theorem Flows.boundOrZero (name : SymbolId) : Flows (boundOrZero name) .ok := by
  apply Flows.read
  intro s
  split
  · exact Flows.pure _
  · exact (Flows.makeConstant 0).keep fun _ => Flows.pure _

theorem Flows.makeAccPhis (loop : NodeId) (names : List SymbolId) :
    Flows (makeAccPhis loop names) .ok := by
  induction names with
  | nil => exact Flows.pure _
  | cons name names ih =>
      apply (Flows.boundOrZero name).after
      intro entry
      apply (Flows.make _).after
      intro phi
      apply (Flows.bindName name (some phi)).after
      intro _
      exact ih.after fun _ => Flows.pure _

theorem Flows.wireAccPhis (accPhis : List (SymbolId × NodeId)) :
    Flows (wireAccPhis accPhis) .ok := by
  induction accPhis with
  | nil => exact Flows.pure _
  | cons acc rest ih =>
      apply (Flows.boundOrZero acc.1).after
      intro back
      exact (Flows.setInput acc.2 2 back).after fun _ => ih

theorem Flows.bindAccPhis (accPhis : List (SymbolId × NodeId)) :
    Flows (bindAccPhis accPhis) .ok := by
  induction accPhis with
  | nil => exact Flows.pure _
  | cons acc rest ih => exact (Flows.bindName acc.1 _).after fun _ => ih

theorem Flows.mergeBindings (region : NodeId) (afterElse bindings : Bindings) :
    Flows (mergeBindings region afterElse bindings) .ok := by
  induction bindings with
  | nil => exact Flows.pure _
  | cons entry rest ih =>
      unfold Lowerer.mergeBindings
      split
      · split
        · apply (Flows.make _).after
          intro phi
          exact (Flows.bindName entry.1 _).after fun _ => ih
        · exact (Flows.bindName entry.1 _).after fun _ => ih
      · exact (Flows.bindName entry.1 _).after fun _ => ih

theorem Flows.assignName (op : TokenKind) (kind : NodeKind) (name : SymbolId)
    (value : NodeRef) : Flows (assignName op kind name value) .ok := by
  unfold Lowerer.assignName
  split
  · exact (Flows.bindName name value).after fun _ => Flows.pure _
  · apply (Flows.boundOrZero name).after
    intro old
    apply (Flows.lookupOrInsert kind _).after
    intro folded
    exact (Flows.bindName name _).after fun _ => Flows.pure _

theorem Flows.lowerLeaf (n : Ast) : Flows (lowerLeaf n) .ok := by
  unfold Lowerer.lowerLeaf
  split
  case h_5 =>
    apply Flows.read
    intro s
    split
    · exact Flows.pure _
    · exact (Flows.make _).keep fun _ => Flows.pure _
  all_goals exact (Flows.makeConstant _).map some

section Statements

variable {order : TableOrder} {cond lo hi value : LowerM NodeRef}
variable {thenBranch elseBranch body : LowerM Unit}
variable {condFlow loFlow hiFlow valueFlow thenFlow elseFlow bodyFlow : ControlFlow}

theorem Flows.lowerIf (condFlows : Flows cond condFlow)
    (thenFlows : Flows thenBranch thenFlow) (elseFlows : Flows elseBranch elseFlow) :
    Flows (lowerIf order cond thenBranch elseBranch)
      (condFlow.andThen <| starts.andThen <| thenFlow.andThen <| starts.andThen <|
        elseFlow.andThen starts) := by
  apply condFlows.bind
  intro condValue
  apply Flows.read
  intro before
  apply (Flows.make _).after
  intro ifNode
  apply (Flows.make _).after
  intro trueProj
  apply (Flows.make _).after
  intro falseProj
  apply (Flows.setCtrl_some trueProj).bind
  intro _
  apply thenFlows.bind
  intro _
  apply Flows.read
  intro afterThen
  apply (Flows.setCtrl_some falseProj).bind
  intro _
  apply (Flows.setEff _).after
  intro _
  apply (Flows.setBindings _).after
  intro _
  apply elseFlows.bind
  intro _
  apply Flows.read
  intro afterElse
  apply (Flows.make _).after
  intro region
  apply (Flows.setCtrl_some region).keep
  intro _
  apply (Flows.setEff _).after
  intro _
  exact Flows.mergeBindings region _ _

theorem Flows.closeLoop (before : LowerState) (loop phiI falseProj : NodeId)
    (accPhis : List (SymbolId × NodeId)) :
    Flows (closeLoop before loop phiI falseProj accPhis) starts := by
  apply Flows.read
  intro afterBody
  apply (Flows.makeConstant 1).after
  intro one
  apply (Flows.lookupOrInsert .add _).after
  intro nextI
  apply (Flows.setInput phiI 2 _).after
  intro _
  apply (Flows.wireAccPhis accPhis).after
  intro _
  apply (Flows.setInput loop 0 _).after
  intro _
  apply (Flows.make _).after
  intro effPhi
  apply (Flows.setEff _).after
  intro _
  apply (Flows.setCtrl_some falseProj).keep
  intro _
  apply (Flows.setBindings _).after
  intro _
  exact Flows.bindAccPhis accPhis

theorem Flows.lowerFor (varName : SymbolId) (accumulators : Bindings → List SymbolId)
    (loFlows : Flows lo loFlow) (hiFlows : Flows hi hiFlow)
    (bodyFlows : Flows body bodyFlow) :
    Flows (lowerFor varName lo hi accumulators body)
      (loFlow.andThen <| hiFlow.andThen <| starts.andThen <| bodyFlow.andThen closes) := by
  apply loFlows.bind
  intro loValue
  apply hiFlows.bind
  intro hiValue
  apply Flows.read
  intro before
  apply (Flows.make _).after
  intro loop
  apply (Flows.make _).after
  intro phiI
  apply (Flows.makeAccPhis loop _).after
  intro accPhis
  apply (Flows.bindName varName _).after
  intro _
  apply (Flows.make _).after
  intro cmp
  apply (Flows.make _).after
  intro ifNode
  apply (Flows.make _).after
  intro trueProj
  apply (Flows.make _).after
  intro falseProj
  apply (Flows.setCtrl_some trueProj).bind
  intro _
  apply bodyFlows.bind
  intro _ s
  show controlAfter ((if s.ctrl = none then (MonadExcept.throw {} : LowerM Unit)
    else Lowerer.closeLoop before loop phiI falseProj accPhis) s) = _
  cases here : s.ctrl with
  | none =>
      rw [if_pos rfl]
      show Except.error s.ctrl.isSome = _
      rw [here]
      rfl
  | some c =>
      rw [if_neg nofun]
      exact Flows.closeLoop before loop phiI falseProj accPhis s

theorem Flows.lowerReturn (valueFlows : Flows value valueFlow) :
    Flows (lowerReturn value) (valueFlow.andThen ends) := by
  apply valueFlows.bind
  intro result
  apply Flows.read
  intro s
  apply (Flows.make _).after
  intro _
  apply Flows.setCtrl_none.keep
  intro _
  exact Flows.setEff none

theorem Flows.lowerAssign (op : TokenKind) (kind : NodeKind) (target : Ast)
    (valueFlows : Flows value valueFlow) :
    Flows (lowerAssign op kind target value) valueFlow := by
  apply valueFlows.keep
  intro assigned
  split
  · exact Flows.assignName op kind _ assigned
  · exact Flows.pure _

theorem Flows.lowerCall {args : LowerM (List NodeRef)} (callee : Ast)
    (argsFlows : Flows args valueFlow) : Flows (lowerCall callee args) valueFlow := by
  apply argsFlows.keep
  intro values
  apply Flows.read
  intro s
  apply (Flows.make _).after
  intro call
  apply (Flows.setEff _).after
  intro _
  exact (Flows.make _).after fun _ => Flows.pure _

theorem Flows.lowerBinary (op : TokenKind) (left : Flows lo loFlow) (right : Flows hi hiFlow) :
    Flows (lowerBinary op lo hi) (loFlow.andThen hiFlow) := by
  apply left.bind
  intro _
  apply right.keep
  intro _
  exact (Flows.lookupOrInsert _ _).after fun _ => Flows.pure _

theorem Flows.lowerUnary (op : TokenKind) (operand : Flows value valueFlow) :
    Flows (lowerUnary op value) valueFlow := by
  apply operand.keep
  intro _
  exact (Flows.lookupOrInsert _ _).after fun _ => Flows.pure _

theorem Flows.lowerLet (name : SymbolId) (init : Flows value valueFlow) :
    Flows (lowerLet name value) valueFlow := init.keep fun _ => Flows.bindName name _

end Statements

section Trees

variable (order : TableOrder)

mutual

theorem lowerStmt_flows : (n : Ast) → Flows (lowerStmt order n) (stmtControl n)
  | .letStmt name _ (some init) _ => (lowerExpr_flows init).lowerLet name
  | .letStmt name _ none _ => ((Flows.makeConstant 0).map some).lowerLet name
  | .exprStmt expr => (lowerExpr_flows expr).keep fun _ => Flows.pure ()
  | .returnStmt (some value) => (lowerExpr_flows value).lowerReturn
  | .returnStmt none => ((Flows.makeConstant 0).map some).lowerReturn
  | .ifStmt cond thenBranch (some elseBranch) =>
      (lowerExpr_flows cond).lowerIf (lowerStmt_flows thenBranch) (lowerStmt_flows elseBranch)
  | .ifStmt cond thenBranch none =>
      (lowerExpr_flows cond).lowerIf (lowerStmt_flows thenBranch) (Flows.pure ())
  | .block stmts => lowerStmts_flows stmts
  | .forStmt varName iter body => by
      cases iter with
      | rangeExpr lo hi =>
          exact (lowerExpr_flows lo).lowerFor varName _ (lowerExpr_flows hi)
            (lowerStmt_flows body)
      | _ => exact Flows.throw {}
  | .assignExpr op target value =>
      ((lowerExpr_flows value).lowerAssign op _ target).keep fun _ => Flows.pure ()
  | .binaryExpr op lhs rhs =>
      ((lowerExpr_flows lhs).lowerBinary op (lowerExpr_flows rhs)).ignoreError
  | .unaryExpr op operand => ((lowerExpr_flows operand).lowerUnary op).ignoreError
  | .callExpr callee args => ((lowerArgs_flows args).lowerCall callee).ignoreError
  | .module _ | .fnDecl .. | .param .. | .structDecl .. | .enumDecl ..
  | .matchStmt .. | .fieldExpr .. | .indexExpr .. | .ident _ | .intLit _
  | .floatLit _ | .strLit _ | .boolLit _ | .pathExpr _ | .rangeExpr ..
  | .identPat _ | .pathPat .. | .memberPat .. => (Flows.lowerLeaf _).ignoreError

theorem lowerStmts_flows : (stmts : List Ast) → Flows (lowerStmts order stmts)
    (stmtsControl stmts)
  | [] => Flows.pure ()
  | n :: ns => (lowerStmt_flows n).bind fun _ => lowerStmts_flows ns

theorem lowerExpr_flows : (n : Ast) → Flows (lowerExpr order n) (exprControl n)
  | .binaryExpr op lhs rhs => (lowerExpr_flows lhs).lowerBinary op (lowerExpr_flows rhs)
  | .unaryExpr op operand => (lowerExpr_flows operand).lowerUnary op
  | .callExpr callee args => (lowerArgs_flows args).lowerCall callee
  | .assignExpr op target value => (lowerExpr_flows value).lowerAssign op _ target
  | .block stmts => lowerBlockExpr_flows stmts none
  | .module _ | .fnDecl .. | .param .. | .structDecl .. | .enumDecl ..
  | .letStmt .. | .exprStmt .. | .returnStmt .. | .ifStmt .. | .forStmt ..
  | .matchStmt .. | .fieldExpr .. | .indexExpr .. | .ident _ | .intLit _
  | .floatLit _ | .strLit _ | .boolLit _ | .pathExpr _ | .rangeExpr ..
  | .identPat _ | .pathPat .. | .memberPat .. => Flows.lowerLeaf _

theorem lowerArgs_flows : (args : List Ast) → Flows (lowerArgs order args) (argsControl args)
  | [] => Flows.pure []
  | arg :: args =>
      (lowerExpr_flows arg).bind fun _ => (lowerArgs_flows args).keep fun _ => Flows.pure _

theorem lowerBlockExpr_flows : (stmts : List Ast) → (last : NodeRef) →
    Flows (lowerBlockExpr order stmts last) (blockControl stmts)
  | [], last => Flows.pure last
  | n :: ns, last => by
      cases n with
      | exprStmt expr =>
          exact (lowerExpr_flows expr).bind fun value => lowerBlockExpr_flows ns value
      | _ => exact (lowerStmt_flows _).bind fun _ => lowerBlockExpr_flows ns last

end

end Trees

/-- A statement is lowered without an error if its control flow has none. -/
theorem lowerStmt_isOk_iff {order : TableOrder} {n : Ast} {s : LowerState} :
    (∃ t, lowerStmt order n s = .ok () t) ↔ (stmtControl n s.ctrl.isSome).isOk = true := by
  rw [← lowerStmt_flows order n s]
  cases lowerStmt order n s with
  | ok u t => exact ⟨fun _ => rfl, fun _ => ⟨t, rfl⟩⟩
  | error e t =>
      constructor
      · rintro ⟨t, ran⟩
        cases ran
      · exact fun ok => absurd ok nofun

end Lowerer

end Aegis
