import AegisCompiler.SyntaxTree
import AegisCompiler.WordArithmetic
import Mathlib.Logic.Function.Basic

/-!
# Big-step evaluation of the syntax tree

The reference semantics of call-free functions: 64-bit words with wrap-around,
`&&` and `||` bitwise, truncating division.  Division by zero, the overflowing
division and shift counts outside 0..63 trap.  A loop runs its body once for
each value of the half-open range.
-/

namespace Aegis

namespace AstEval

/-- The value of every name. -/
abbrev Env := SymbolId → Word

/-- How a statement ends. -/
inductive StmtOutcome where
  | trap
  | returned (value : Word)
  | normal (env : Env)

/-- The quotient exists. -/
def divides (a b : Word) : Bool :=
  decide (b ≠ 0) && !(decide (a = BitVec.intMin 64) && decide (b = -1))

/-- The value of a binary operator, or `none` for a trap. -/
def evalBinary (op : TokenKind) (a b : Word) : Option Word :=
  match op with
  | .plus => some (a + b)
  | .minus => some (a - b)
  | .star => some (a * b)
  | .slash => if divides a b then some (a.sdiv b) else none
  | .percent => if divides a b then some (a.srem b) else none
  | .amp => some (a &&& b)
  | .pipe => some (a ||| b)
  | .caret => some (a ^^^ b)
  | .shl => if b.toNat < 64 then some (a <<< b.toNat) else none
  | .shr => if b.toNat < 64 then some (a.sshiftRight b.toNat) else none
  | .andAnd => some (a &&& b)
  | .orOr => some (a ||| b)
  | .eqEq => some (ofTruth (a == b))
  | .bangEq => some (ofTruth (a != b))
  | .lt => some (ofTruth (a.slt b))
  | .ltEq => some (ofTruth (a.sle b))
  | .gt => some (ofTruth (b.slt a))
  | .gtEq => some (ofTruth (b.sle a))
  | _ => none

def evalUnary (op : TokenKind) (a : Word) : Option Word :=
  match op with
  | .minus => some (-a)
  | .tilde => some (~~~a)
  | .bang => some (ofTruth (a == 0))
  | _ => none

/-- The new value of an assigned name. -/
def evalAssign (op : TokenKind) (old value : Word) : Option Word :=
  match op with
  | .eq => some value
  | .plusEq => some (old + value)
  | .minusEq => some (old - value)
  | .starEq => some (old * value)
  | _ => none

def evalExpr : Ast → Env → Option Word
  | .intLit value, _ => some value
  | .boolLit value, _ => some (ofTruth value)
  | .ident name, env => some (env name)
  | .unaryExpr op operand, env => do
      let a ← evalExpr operand env
      evalUnary op a
  | .binaryExpr op lhs rhs, env => do
      let a ← evalExpr lhs env
      let b ← evalExpr rhs env
      evalBinary op a b
  | _, _ => none

/-- Continue with the value of an expression, if it has one. -/
def withValue (value : Option Word) (next : Word → StmtOutcome) : StmtOutcome :=
  match value with
  | none => .trap
  | some value => next value

/-- Continue after a statement that neither trapped nor returned. -/
def StmtOutcome.andThen (outcome : StmtOutcome) (next : Env → StmtOutcome) : StmtOutcome :=
  match outcome with
  | .normal env => next env
  | other => other

/-- Run a loop body `trips` times, starting with the given loop value. -/
def runLoop (varName : SymbolId) (body : Env → StmtOutcome) :
    Nat → Word → Env → StmtOutcome
  | 0, _, env => .normal env
  | trips + 1, i, env =>
      (body (Function.update env varName i)).andThen
        (runLoop varName body trips (i + 1))

/-- The number of iterations of a range. -/
def tripCount (lo hi : Word) : Nat := (hi.toInt - lo.toInt).toNat

mutual

def evalStmt : Ast → Env → StmtOutcome
  | .letStmt name _ (some init) _, env =>
      withValue (evalExpr init env) fun value =>
        .normal (Function.update env name value)
  | .assignExpr op (.ident name) value, env =>
      withValue ((evalExpr value env).bind (evalAssign op (env name)))
        fun value => .normal (Function.update env name value)
  | .block stmts, env => evalStmts stmts env
  | .ifStmt cond thenBranch elseBranch, env =>
      withValue (evalExpr cond env) fun value =>
        if value ≠ 0 then evalStmt thenBranch env
        else
          match elseBranch with
          | some elseBranch => evalStmt elseBranch env
          | none => .normal env
  | .forStmt varName (.rangeExpr lo hi) body, env =>
      withValue (evalExpr lo env) fun loValue =>
        withValue (evalExpr hi env) fun hiValue =>
          -- The variable goes out of scope with the loop.
          (runLoop varName (evalStmt body) (tripCount loValue hiValue) loValue
            env).andThen fun last =>
              .normal (Function.update last varName (env varName))
  | .returnStmt value, env =>
      match value with
      | some value => withValue (evalExpr value env) .returned
      | none => .returned 0
  | _, _ => .trap
termination_by structural n => n

def evalStmts : List Ast → Env → StmtOutcome
  | [], env => .normal env
  | n :: ns, env => (evalStmt n env).andThen (evalStmts ns)
termination_by structural stmts => stmts

end

/-- The arguments under the names of the parameters; a missing argument
is 0. -/
def bindArgs : List SymbolId → List Word → Env → Env
  | [], _, env => env
  | name :: names, args, env =>
      bindArgs names args.tail (Function.update env name (args.headD 0))

/-- The result of a function on an argument vector; falling off the end
returns 0. -/
def evalFn : Ast → List Word → Option Word
  | .fnDecl _ params _ body _, args =>
      let names := params.filterMap Ast.paramName
      match evalStmt body (bindArgs names args fun _ => 0) with
      | .trap => none
      | .returned value => some value
      | .normal _ => some 0
  | _, _ => none

/-- The operators that have a binary value. -/
def isBinaryOp : TokenKind → Bool
  | .plus | .minus | .star | .slash | .percent | .amp | .pipe | .caret
  | .shl | .shr | .eqEq | .bangEq | .lt | .ltEq | .gt | .gtEq
  | .andAnd | .orOr => true
  | _ => false

def isUnaryOp : TokenKind → Bool
  | .minus | .tilde | .bang => true
  | _ => false

/-- The assignment operators of the fragment. -/
def isAssignOp : TokenKind → Bool
  | .eq | .plusEq | .minusEq | .starEq => true
  | _ => false

/-- Integer and boolean literals, identifiers and operators. -/
def pureExpr : Ast → Bool
  | .intLit _ | .boolLit _ | .ident _ => true
  | .unaryExpr op operand => isUnaryOp op && pureExpr operand
  | .binaryExpr op lhs rhs => isBinaryOp op && pureExpr lhs && pureExpr rhs
  | _ => false

mutual

/-- Bindings with an initializer, assignments, blocks, conditionals, range
loops and returns over pure expressions. -/
def callFreeStmt : Ast → Bool
  | .letStmt _ _ (some init) _ => pureExpr init
  | .assignExpr op (.ident _) value => isAssignOp op && pureExpr value
  | .block stmts => callFreeStmts stmts
  | .ifStmt cond thenBranch elseBranch =>
      pureExpr cond && callFreeStmt thenBranch &&
        match elseBranch with
        | some elseBranch => callFreeStmt elseBranch
        | none => true
  | .forStmt _ (.rangeExpr lo hi) body =>
      pureExpr lo && pureExpr hi && callFreeStmt body
  | .returnStmt value =>
      match value with
      | some value => pureExpr value
      | none => true
  | _ => false
termination_by structural n => n

def callFreeStmts : List Ast → Bool
  | [] => true
  | n :: ns => callFreeStmt n && callFreeStmts ns
termination_by structural stmts => stmts

end

/-- A function whose body is a block of the fragment. -/
def callFreeFn : Ast → Bool
  | .fnDecl _ _ _ (.block stmts) _ => callFreeStmts stmts
  | _ => false

end AstEval

end Aegis
