import AegisCompiler.HashConsing
import AegisCompiler.SyntaxTree

/-!
# Lowering the syntax tree into a graph

The lowerer tracks the node behind every name and the current control and
effect.  Branches are merged by comparing snapshots of the bindings, and loops
get header phis for the names their body assigns.
-/

namespace Aegis

/-- The node kind of a binary operator; anything else falls back to addition,
as in the source. -/
def binopToNodeKind (op : TokenKind) : NodeKind :=
  match op with
  | .plus => .add
  | .minus => .sub
  | .star => .mul
  | .slash => .div
  | .percent => .mod
  | .amp => .and
  | .pipe => .or
  | .caret => .xor
  | .shl => .shl
  | .shr => .shr
  | .eqEq => .cmpEq
  | .bangEq => .cmpNe
  | .lt => .cmpLt
  | .ltEq => .cmpLe
  | .gt => .cmpGt
  | .gtEq => .cmpGe
  | .andAnd => .and
  | .orOr => .or
  | _ => .add

/-- The node kind of a unary operator. -/
def unopToNodeKind (op : TokenKind) : NodeKind :=
  match op with
  | .minus => .neg
  | .tilde => .bitNot
  | _ => .not

/-- The node kind of a compound assignment statement. -/
def assignNodeKind (op : TokenKind) : NodeKind :=
  match op with
  | .plusEq => .add
  | .minusEq => .sub
  | .starEq => .mul
  | .slashEq => .div
  | op => binopToNodeKind op

/-- The node bound to each name. -/
abbrev Bindings := List (SymbolId × NodeRef)

namespace Bindings

def get (bindings : Bindings) (name : SymbolId) : Option NodeRef :=
  (List.find? (fun entry => entry.1 = name) bindings).map Prod.snd

/-- Bind a name, replacing the node it was bound to. -/
def insert (bindings : Bindings) (name : SymbolId) (ref : NodeRef) : Bindings :=
  match bindings with
  | [] => [(name, ref)]
  | entry :: rest =>
      if entry.1 = name then (name, ref) :: rest
      else entry :: Bindings.insert rest name ref

end Bindings

/-- The order in which the hash table enumerates its entries.  The source
leaves it unspecified: it may differ from merge to merge, which the graph at the
merge tells apart. -/
structure TableOrder where
  enumerate : Graph → Bindings → Bindings
  perm : ∀ g bindings, (enumerate g bindings).Perm bindings

/-- The entries as they stand. -/
def TableOrder.asListed : TableOrder := ⟨fun _ => id, fun _ _ => .refl _⟩

/-- The error of the lowerer and of the type checker. -/
structure TypeError where
  messageId : BitVec 32 := 0
  payload : BitVec 64 := 0
  deriving DecidableEq, Repr

structure LowerState where
  graph : Graph := .fresh
  table : HashCons := []
  ctrl : NodeRef := none
  eff : NodeRef := none
  bindings : Bindings := []
  deriving DecidableEq, Repr

abbrev LowerM := EStateM TypeError LowerState

namespace Lowerer

/-- Create a node in the graph of the lowerer. -/
def make (create : Graph → NodeId × Graph) : LowerM NodeId := fun s =>
  let made := create s.graph
  .ok made.1 { s with graph := made.2 }

def lookupOrInsert (kind : NodeKind) (inputs : List NodeRef) :
    LowerM NodeId := fun s =>
  let found := s.table.lookupOrInsert s.graph kind inputs kInvalidTypeId 0
  .ok found.1 { s with table := found.2.1, graph := found.2.2 }

/-- The operation is found in the table, or it is created and recorded. -/
theorem lookupOrInsert_cases (kind : NodeKind) (inputs : List NodeRef) (s : LowerState) :
    (∃ id, s.table.find ⟨kind, kInvalidTypeId, 0, hashInputs inputs⟩ = some id ∧
      lookupOrInsert kind inputs s = .ok id s) ∨
    lookupOrInsert kind inputs s = .ok s.graph.size
      { s with
        graph := (s.graph.pushNode
          { kind, effect := effectClassOf kind, typeId := kInvalidTypeId, inputs }).2
        table := s.table ++
          [(⟨kind, kInvalidTypeId, 0, hashInputs inputs⟩, s.graph.size)] } := by
  simp only [lookupOrInsert, HashCons.lookupOrInsert]
  cases s.table.find ⟨kind, kInvalidTypeId, 0, hashInputs inputs⟩ with
  | some id => exact Or.inl ⟨id, rfl, rfl⟩
  | none => exact Or.inr rfl

def makeConstant (value : Word) : LowerM NodeId :=
  make fun g => g.makeConstant value kInvalidTypeId

def setInput (id : NodeId) (slot : Nat) (ref : NodeRef) : LowerM Unit :=
  modify fun s => { s with graph := s.graph.setInput id slot ref }

def setCtrl (ctrl : NodeRef) : LowerM Unit :=
  modify fun s => { s with ctrl }

def setEff (eff : NodeRef) : LowerM Unit :=
  modify fun s => { s with eff }

def setBindings (bindings : Bindings) : LowerM Unit :=
  modify fun s => { s with bindings }

def bindName (name : SymbolId) (ref : NodeRef) : LowerM Unit :=
  modify fun s => { s with bindings := s.bindings.insert name ref }

/-- The node bound to a name, or a fresh zero. -/
def boundOrZero (name : SymbolId) : LowerM NodeRef := do
  match (← get).bindings.get name with
  | some ref => return ref
  | none => return some (← makeConstant 0)

/-- Run a computation and carry on whether it succeeds or not. -/
def ignoreError {α : Type} (run : LowerM α) : LowerM Unit := fun s =>
  match run s with
  | .ok _ s => .ok () s
  | .error _ s => .ok () s

mutual

/-- The names assigned in a tree, in the order of the explicit stack walk of
the source, which visits the last child first. -/
def assignedNames : Ast → List SymbolId
  | .assignExpr _ target value =>
      match target with
      | .ident name => name :: assignedNames value
      | _ => assignedNames value
  | .letStmt _ _ init _ =>
      match init with
      | some init => assignedNames init
      | none => []
  | .exprStmt expr => assignedNames expr
  | .returnStmt value =>
      match value with
      | some value => assignedNames value
      | none => []
  | .ifStmt cond thenBranch elseBranch =>
      (match elseBranch with
        | some elseBranch => assignedNames elseBranch
        | none => []) ++ assignedNames thenBranch ++ assignedNames cond
  | .forStmt _ _ body => assignedNames body
  | .block stmts => assignedNamesAll stmts
  | .binaryExpr _ lhs rhs => assignedNames rhs ++ assignedNames lhs
  | .unaryExpr _ operand => assignedNames operand
  | .callExpr _ args => assignedNamesAll args
  | _ => []

def assignedNamesAll : List Ast → List SymbolId
  | [] => []
  | n :: ns => assignedNamesAll ns ++ assignedNames n

end

/-- The names assigned in a loop body that are bound outside it, each once. -/
def collectLoopAccumulators (body : Ast) (outer : Bindings) : List SymbolId :=
  (assignedNames body).foldl (fun out name =>
    if (outer.get name).isSome ∧ name ∉ out then out ++ [name] else out) []

/-- A header phi for each accumulator; the body reads the phi. -/
def makeAccPhis (loop : NodeId) : List SymbolId →
    LowerM (List (SymbolId × NodeId))
  | [] => return []
  | name :: names => do
      let entry ← boundOrZero name
      let phi ← make fun g =>
        g.makePhi (some loop) [entry, none] kInvalidTypeId
      bindName name (some phi)
      return (name, phi) :: (← makeAccPhis loop names)

/-- Wire the back edges of the accumulators. -/
def wireAccPhis : List (SymbolId × NodeId) → LowerM Unit
  | [] => return ()
  | (name, phi) :: rest => do
      let back ← boundOrZero name
      setInput phi 2 back
      wireAccPhis rest

/-- Bind the accumulators to their header phis. -/
def bindAccPhis : List (SymbolId × NodeId) → LowerM Unit
  | [] => return ()
  | (name, phi) :: rest => do
      bindName name (some phi)
      bindAccPhis rest

/-- Merge the bindings of two branches: a phi where both bind a name to
different nodes, the node of the first branch elsewhere. -/
def mergeBindings (region : NodeId) (afterElse : Bindings) :
    Bindings → LowerM Unit
  | [] => return ()
  | (name, thenValue) :: rest => do
      match afterElse.get name with
      | some elseValue =>
          if elseValue ≠ thenValue then
            let phi ← make fun g =>
              g.makePhi (some region) [thenValue, elseValue] kInvalidTypeId
            bindName name (some phi)
            mergeBindings region afterElse rest
          else
            bindName name thenValue
            mergeBindings region afterElse rest
      | none =>
          bindName name thenValue
          mergeBindings region afterElse rest

/-- The symbol a call goes to. -/
def calleeSymbol : Ast → SymbolId
  | .pathExpr segments => segments.getLastD kInvalidSymbolId
  | .ident name => name
  | _ => kInvalidSymbolId

/-- Update a name with an assigned value; the kind is that of a compound
operator. -/
def assignName (op : TokenKind) (kind : NodeKind) (name : SymbolId)
    (value : NodeRef) : LowerM NodeRef := do
  if op = .eq then
    bindName name value
    return value
  else
    let old ← boundOrZero name
    let folded ← lookupOrInsert kind [old, value]
    bindName name (some folded)
    return some folded

/-- A node without children in expression position.  Whatever the source does
not lower is the constant 0. -/
def lowerLeaf : Ast → LowerM NodeRef
  | .intLit value => some <$> makeConstant value
  | .floatLit bits => some <$> makeConstant bits
  | .boolLit value => some <$> makeConstant (if value then 1 else 0)
  | .strLit value => some <$> makeConstant (NodePayload.ofSym value)
  | .ident name => do
      match (← get).bindings.get name with
      | some ref => return ref
      | none =>
          return some (← make fun g =>
            g.makeNode .parameter [] kInvalidTypeId (.ofSym name))
  | _ => some <$> makeConstant 0

def lowerBinary (op : TokenKind) (lhs rhs : LowerM NodeRef) :
    LowerM NodeRef := do
  let left ← lhs
  let right ← rhs
  return some (← lookupOrInsert (binopToNodeKind op) [left, right])

def lowerUnary (op : TokenKind) (operand : LowerM NodeRef) :
    LowerM NodeRef := do
  let value ← operand
  return some (← lookupOrInsert (unopToNodeKind op) [value])

/-- A call; its effect becomes the current one. -/
def lowerCall (callee : Ast) (args : LowerM (List NodeRef)) :
    LowerM NodeRef := do
  let values ← args
  let s ← get
  let call ← make fun g => g.makeCall s.ctrl s.eff (calleeSymbol callee)
    values kInvalidTypeId .altered
  setEff (some call)
  return some (← make fun g => g.makeProj (some call) 0)

def lowerLet (name : SymbolId) (init : LowerM NodeRef) : LowerM Unit := do
  let value ← init
  bindName name value

/-- A return ends the control and the effect of its path. -/
def lowerReturn (value : LowerM NodeRef) : LowerM Unit := do
  let result ← value
  let s ← get
  let _ ← make fun g => g.makeReturn s.ctrl s.eff result
  setCtrl none
  setEff none

/-- An assignment; targets other than names are dropped. -/
def lowerAssign (op : TokenKind) (kind : NodeKind) (target : Ast)
    (value : LowerM NodeRef) : LowerM NodeRef := do
  let assigned ← value
  match target with
  | .ident name => assignName op kind name assigned
  | _ => return assigned

variable (order : TableOrder)

def lowerIf (cond : LowerM NodeRef) (thenBranch elseBranch : LowerM Unit) :
    LowerM Unit := do
  let condValue ← cond
  let before ← get
  let ifNode ← make fun g => g.makeIf before.ctrl condValue
  let trueProj ← make fun g => g.makeProj (some ifNode) 0
  let falseProj ← make fun g => g.makeProj (some ifNode) 1
  setCtrl (some trueProj)
  thenBranch
  let afterThen ← get
  setCtrl (some falseProj)
  setEff before.eff
  setBindings before.bindings
  elseBranch
  let afterElse ← get
  let region ← make fun g => g.makeRegion [afterThen.ctrl, afterElse.ctrl]
  setCtrl (some region)
  -- The effect continues from a branch that did not return.
  setEff (if afterThen.eff ≠ none then afterThen.eff else afterElse.eff)
  mergeBindings region afterElse.bindings (order.enumerate afterThen.graph afterThen.bindings)

/-- Close a loop: wire the back edges of its phis and of its header, and
restore the bindings from before the loop, with the accumulators at their
phis. -/
def closeLoop (before : LowerState) (loop phiI falseProj : NodeId)
    (accPhis : List (SymbolId × NodeId)) : LowerM Unit := do
  let afterBody ← get
  let one ← makeConstant 1
  let nextI ← lookupOrInsert .add [some phiI, some one]
  setInput phiI 2 (some nextI)
  wireAccPhis accPhis
  setInput loop 0 afterBody.ctrl
  let effPhi ← make fun g =>
    g.makePhi (some falseProj) [before.eff, afterBody.eff] kInvalidTypeId
  setEff (some effPhi)
  setCtrl (some falseProj)
  setBindings before.bindings
  bindAccPhis accPhis

def lowerFor (varName : SymbolId) (lo hi : LowerM NodeRef)
    (accumulators : Bindings → List SymbolId) (body : LowerM Unit) :
    LowerM Unit := do
  let loValue ← lo
  let hiValue ← hi
  let before ← get
  -- Both slots start as the entry; the back edge goes into slot 0.
  let loop ← make fun g => g.makeLoop before.ctrl before.ctrl
  let phiI ← make fun g =>
    g.makePhi (some loop) [loValue, none] kInvalidTypeId
  let accPhis ← makeAccPhis loop (accumulators before.bindings)
  bindName varName (some phiI)
  let cmp ← make fun g => g.makeCmp .cmpLt (some phiI) hiValue
  let ifNode ← make fun g => g.makeIf (some loop) (some cmp)
  let trueProj ← make fun g => g.makeProj (some ifNode) 0
  let falseProj ← make fun g => g.makeProj (some ifNode) 1
  setCtrl (some trueProj)
  body
  if (← get).ctrl = none then throw {}
  else closeLoop before loop phiI falseProj accPhis

mutual

def lowerStmt : Ast → LowerM Unit
  | .letStmt name _ init _ =>
      match init with
      | some init => lowerLet name (lowerExpr init)
      | none => lowerLet name (some <$> makeConstant 0)
  | .exprStmt expr => do
      let _ ← lowerExpr expr
  | .returnStmt value =>
      match value with
      | some value => lowerReturn (lowerExpr value)
      | none => lowerReturn (some <$> makeConstant 0)
  | .ifStmt cond thenBranch elseBranch =>
      match elseBranch with
      | some elseBranch =>
          lowerIf order (lowerExpr cond) (lowerStmt thenBranch)
            (lowerStmt elseBranch)
      | none =>
          lowerIf order (lowerExpr cond) (lowerStmt thenBranch) (pure ())
  | .block stmts => lowerStmts stmts
  | .forStmt varName (.rangeExpr lo hi) body =>
      lowerFor varName (lowerExpr lo) (lowerExpr hi)
        (collectLoopAccumulators body) (lowerStmt body)
  | .forStmt _ _ _ => throw {}
  | .assignExpr op target value => do
      let _ ← lowerAssign op (assignNodeKind op) target (lowerExpr value)
  -- Any other node is an expression whose value is dropped.
  | .binaryExpr op lhs rhs =>
      ignoreError (lowerBinary op (lowerExpr lhs) (lowerExpr rhs))
  | .unaryExpr op operand => ignoreError (lowerUnary op (lowerExpr operand))
  | .callExpr callee args => ignoreError (lowerCall callee (lowerArgs args))
  | n => ignoreError (lowerLeaf n)
termination_by structural n => n

def lowerStmts : List Ast → LowerM Unit
  | [] => return ()
  | n :: ns => do
      lowerStmt n
      lowerStmts ns
termination_by structural stmts => stmts

def lowerExpr : Ast → LowerM NodeRef
  | .binaryExpr op lhs rhs => lowerBinary op (lowerExpr lhs) (lowerExpr rhs)
  | .unaryExpr op operand => lowerUnary op (lowerExpr operand)
  | .callExpr callee args => lowerCall callee (lowerArgs args)
  | .assignExpr op target value =>
      lowerAssign op (binopToNodeKind op) target (lowerExpr value)
  | .block stmts => lowerBlockExpr stmts none
  | n => lowerLeaf n
termination_by structural n => n

def lowerArgs : List Ast → LowerM (List NodeRef)
  | [] => return []
  | arg :: args => do
      let value ← lowerExpr arg
      return value :: (← lowerArgs args)
termination_by structural args => args

/-- A block in expression position has the value of its last expression
statement. -/
def lowerBlockExpr : List Ast → NodeRef → LowerM NodeRef
  | [], last => return last
  | .exprStmt expr :: ns, _ => do
      let value ← lowerExpr expr
      lowerBlockExpr ns value
  | n :: ns, last => do
      lowerStmt n
      lowerBlockExpr ns last
termination_by structural stmts => stmts

end

/-- Parameter nodes in signature order, bound to their names. -/
def lowerParams : List Ast → LowerM Unit
  | [] => return ()
  | .param name _ _ :: params => do
      let node ← make fun g =>
        g.makeNode .parameter [] kInvalidTypeId (.ofSym name)
      bindName name (some node)
      lowerParams params
  | _ :: params => lowerParams params

/-- The control and effect projections of the start node, and the
parameters. -/
def enterFunction (params : List Ast) : LowerM Unit := do
  modify fun s => { s with ctrl := none, eff := none, bindings := [] }
  let ctrl ← make fun g => g.makeProj (some kStartNodeId) 0
  setCtrl (some ctrl)
  let eff ← make fun g => g.makeProj (some kStartNodeId) 1
  setEff (some eff)
  lowerParams params

def lowerBody (body : Ast) : LowerM Unit :=
  match body with
  | .block stmts => lowerStmts order stmts
  | _ => pure ()

/-- A body that does not end in a return returns 0. -/
def synthesizeReturn : LowerM Unit := do
  let s ← get
  if s.ctrl ≠ none ∧ s.eff ≠ none then
    let zeroNode ← makeConstant 0
    let _ ← make fun g => g.makeReturn s.ctrl s.eff (some zeroNode)

/-- Lower one function into the graph. -/
def lowerFn : Ast → LowerM Unit
  | .fnDecl _ params _ body _ => do
      enterFunction params
      lowerBody order body
      synthesizeReturn
  | _ => return ()

/-- The graph of one function, lowered into a fresh graph. -/
def lowerFresh (fn : Ast) : Except TypeError Graph :=
  match lowerFn order fn {} with
  | .ok _ s => .ok s.graph
  | .error e _ => .error e

/-- The graph of a function that lowers without an error, and an empty one
otherwise. -/
def loweredGraph (fn : Ast) : Graph :=
  match lowerFresh order fn with
  | .ok g => g
  | .error _ => {}

end Lowerer

end Aegis
