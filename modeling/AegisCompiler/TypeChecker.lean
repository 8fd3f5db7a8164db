import AegisCompiler.Lowering

/-!
# The type checker

Name resolution over one flat frame for each path: bindings accumulate, the
branches of an `if` are checked on copies and merged, and the body of a loop
is checked on a copy that is dropped.  A function is accepted if nothing is
reported.
-/

namespace Aegis

namespace TypeChecker

def kErrDuplicateFn : BitVec 32 := 0x200

def kErrDuplicateParam : BitVec 32 := 0x201

def kErrDuplicateBinding : BitVec 32 := 0x202

def kErrUndefinedIdent : BitVec 32 := 0x203

def kErrAssignToImmutable : BitVec 32 := 0x204

def kErrCallArity : BitVec 32 := 0x205

def kErrNotLowered : BitVec 32 := 0x206

/-- A visible name, with its mutability. -/
structure Binding where
  name : SymbolId
  isMutable : Bool
  deriving DecidableEq, Repr

/-- The names visible on the current path. -/
abbrev Frame := List Binding

namespace Frame

def find (frame : Frame) (name : SymbolId) : Option Binding :=
  List.find? (fun b => b.name = name) frame

/-- Bind a name that is not bound yet. -/
def tryBind (frame : Frame) (name : SymbolId) (isMutable : Bool) :
    Option Frame :=
  if (frame.find name).isSome then none
  else some (frame ++ [⟨name, isMutable⟩])

end Frame

/-- The declared number of parameters of each function. -/
abbrev FnSigs := List (SymbolId × Nat)

def FnSigs.find (sigs : FnSigs) (name : SymbolId) : Option Nat :=
  (List.find? (fun entry => entry.1 = name) sigs).map Prod.snd

/-- A check: from the current frame to the next one and what it reports. -/
abbrev Check := Frame → Frame × List TypeError

namespace Check

/-- Nothing to check. -/
def skip : Check := fun frame => (frame, [])

def report (messageId : BitVec 32) (payload : BitVec 64) : Check :=
  fun frame => (frame, [{ messageId, payload }])

/-- Report about a symbol. -/
def reportSym (messageId : BitVec 32) (sym : SymbolId) : Check :=
  report messageId (sym.setWidth 64)

def andThen (first second : Check) : Check := fun frame =>
  let left := first frame
  let right := second left.1
  (right.1, left.2 ++ right.2)

/-- Bind a name, or report that it is bound already. -/
def bindName (messageId : BitVec 32) (name : SymbolId) (isMutable : Bool) :
    Check := fun frame =>
  match frame.tryBind name isMutable with
  | some bound => (bound, [])
  | none => reportSym messageId name frame

/-- Check on a copy of the frame. -/
def onCopy (inner : Check) : Check := fun frame => (frame, (inner frame).2)

/-- A name is visible after an `if` when it was visible before or is bound in
both branches. -/
def mergeBranchFrames (out thenFrame elseFrame : Frame) : Frame :=
  thenFrame.foldl (fun out b =>
    if (out.find b.name).isSome then out
    else if (elseFrame.find b.name).isSome then out ++ [b]
    else out) out

/-- Check both branches on copies of the frame, and merge. -/
def branches (thenBranch elseBranch : Check) : Check := fun frame =>
  let left := thenBranch frame
  let right := elseBranch frame
  (mergeBranchFrames frame left.1 right.1, left.2 ++ right.2)

end Check

open Check

mutual

/-- The statement contains a return or a match, which cannot be lowered inside
a loop. -/
def containsUnlowerable : Ast → Bool
  | .returnStmt _ => true
  | .matchStmt _ _ => true
  | .block stmts => anyUnlowerable stmts
  | .ifStmt _ thenBranch elseBranch =>
      containsUnlowerable thenBranch ||
        match elseBranch with
        | some elseBranch => containsUnlowerable elseBranch
        | none => false
  | .forStmt _ _ body => containsUnlowerable body
  | _ => false

def anyUnlowerable : List Ast → Bool
  | [] => false
  | n :: ns => containsUnlowerable n || anyUnlowerable ns

end

/-- The symbol a call resolves to. -/
def callee : Ast → SymbolId
  | .ident name => name
  | .pathExpr segments => segments.getLastD kInvalidSymbolId
  | _ => kInvalidSymbolId

/-- A call through anything but a name is not lowered. -/
def checkCallee : Ast → Check
  | .ident _ => skip
  | .pathExpr _ => skip
  | _ => report kErrNotLowered 0

/-- The number of arguments agrees with the declaration, if there is one. -/
def checkArity (sigs : FnSigs) (callee : SymbolId) (args : Nat) : Check :=
  if callee = kInvalidSymbolId then skip
  else
    match sigs.find callee with
    | none => skip
    | some arity =>
        if arity = args then skip
        else report kErrCallArity
          ((callee.setWidth 64 <<< 32) ||| BitVec.ofNat 64 args)

def checkIdent (name : SymbolId) : Check := fun frame =>
  match frame.find name with
  | some _ => skip frame
  | none => reportSym kErrUndefinedIdent name frame

/-- The name is bound and may be assigned. -/
def checkMutable (name : SymbolId) : Check := fun frame =>
  match frame.find name with
  | none => reportSym kErrUndefinedIdent name frame
  | some b =>
      if b.isMutable then skip frame
      else reportSym kErrAssignToImmutable name frame

/-- Only names can be assigned. -/
def checkTarget : Ast → Check
  | .ident name => checkMutable name
  | _ => report kErrNotLowered 0

/-- The check of a loop: bounds in the frame, the variable and the body in a
copy of it. -/
def checkFor (varName : SymbolId) (lo hi : Check) (unlowerable : Bool)
    (body : Check) : Check :=
  (lo.andThen hi).andThen <| onCopy <|
    (Check.bindName kErrDuplicateBinding varName false).andThen <|
      if unlowerable then report kErrNotLowered 0 else body

variable (sigs : FnSigs)

mutual

def checkStmt : Ast → Check
  | .letStmt name _ init isVar =>
      (match init with
        | some init => checkExpr init
        | none => skip).andThen
          (Check.bindName kErrDuplicateBinding name isVar)
  | .block stmts => checkStmts stmts
  | .exprStmt expr => checkExpr expr
  | .returnStmt value =>
      match value with
      | some value => checkExpr value
      | none => skip
  | .ifStmt cond thenBranch elseBranch =>
      (checkExpr cond).andThen
        (branches (checkStmt thenBranch)
          (match elseBranch with
            | some elseBranch => checkStmt elseBranch
            | none => skip))
  | .assignExpr _ target value => (checkExpr value).andThen (checkTarget target)
  | .forStmt varName (.rangeExpr lo hi) body =>
      checkFor varName (checkExpr lo) (checkExpr hi) (containsUnlowerable body)
        (checkStmt body)
  | .forStmt _ _ _ => report kErrNotLowered 0
  | .matchStmt _ _ => report kErrNotLowered 0
  -- Any other node is an expression in statement position.
  | .ident name => checkIdent name
  | .binaryExpr _ lhs rhs => (checkExpr lhs).andThen (checkExpr rhs)
  | .unaryExpr _ operand => checkExpr operand
  | .callExpr target args =>
      ((checkCallee target).andThen
        (checkArity sigs (callee target) args.length)).andThen
          (checkExprs args)
  | .rangeExpr lo hi => (checkExpr lo).andThen (checkExpr hi)
  | .fieldExpr _ _ => report kErrNotLowered 0
  | .indexExpr _ _ => report kErrNotLowered 0
  | .pathExpr _ => report kErrNotLowered 0
  | _ => skip
termination_by structural n => n

def checkStmts : List Ast → Check
  | [] => skip
  | n :: ns => (checkStmt n).andThen (checkStmts ns)
termination_by structural stmts => stmts

def checkExpr : Ast → Check
  | .ident name => checkIdent name
  | .binaryExpr _ lhs rhs => (checkExpr lhs).andThen (checkExpr rhs)
  | .unaryExpr _ operand => checkExpr operand
  | .callExpr target args =>
      ((checkCallee target).andThen
        (checkArity sigs (callee target) args.length)).andThen
          (checkExprs args)
  | .block stmts => checkStmts stmts
  | .rangeExpr lo hi => (checkExpr lo).andThen (checkExpr hi)
  | .fieldExpr _ _ => report kErrNotLowered 0
  | .indexExpr _ _ => report kErrNotLowered 0
  | .pathExpr _ => report kErrNotLowered 0
  | .assignExpr _ target value => (checkExpr value).andThen (checkTarget target)
  | _ => skip
termination_by structural n => n

def checkExprs : List Ast → Check
  | [] => skip
  | n :: ns => (checkExpr n).andThen (checkExprs ns)
termination_by structural ns => ns

end

/-- Bind the parameters of a signature. -/
def checkParams : List Ast → Check
  | [] => skip
  | .param name _ mutable :: params =>
      (Check.bindName kErrDuplicateParam name mutable).andThen
        (checkParams params)
  | _ :: params => checkParams params

/-- The diagnostics of one function. -/
def checkFn : Ast → List TypeError
  | .fnDecl _ params _ body _ =>
      ((checkParams params).andThen (checkStmt sigs body) []).2
  | _ => []

/-- Collect the signatures; a second declaration of a name is reported. -/
def collectSigs : List Ast → FnSigs → FnSigs × List TypeError
  | [], sigs => (sigs, [])
  | .fnDecl name params _ _ _ :: items, sigs =>
      match sigs.find name with
      | some _ =>
          let rest := collectSigs items sigs
          (rest.1, { messageId := kErrDuplicateFn
                     payload := name.setWidth 64 } :: rest.2)
      | none => collectSigs items (sigs ++ [(name, params.length)])
  | _ :: items, sigs => collectSigs items sigs

/-- The diagnostics of a module. -/
def checkModule : Ast → List TypeError
  | .module items =>
      let sigs := collectSigs items []
      sigs.2 ++ items.flatMap (checkFn sigs.1)
  | _ => []

/-- Every function of an accepted module is accepted. -/
theorem checkFn_of_checkModule {items : List Ast}
    (accepted : checkModule (.module items) = []) {fn : Ast}
    (member : fn ∈ items) : checkFn (collectSigs items []).1 fn = [] := by
  simp only [checkModule, List.append_eq_nil_iff, List.flatMap_eq_nil_iff]
    at accepted
  exact accepted.2 fn member

end TypeChecker

end Aegis
