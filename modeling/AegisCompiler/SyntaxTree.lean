import AegisCompiler.NodeKind

/-!
# Tokens and the syntax tree

The tokens the lexer produces and the tree the parser builds from them.
Optional children of the source are options here; the parser never fills in
the spans of tree nodes, so they are left out.
-/

namespace Aegis

/-- The kinds of tokens. -/
inductive TokenKind where
  | eof
  | ident | intLit | floatLit | strLit | trueKw | falseKw
  | letKw | varKw | fnKw | returnKw | ifKw | elseKw | matchKw
  | structKw | enumKw | allocKw | stackKw | forKw | inKw | pubKw | mutKw
  | i8Kw | i16Kw | i32Kw | i64Kw | u8Kw | u16Kw | u32Kw | u64Kw
  | f32Kw | f64Kw | boolKw | strKw
  | plus | minus | star | slash | percent
  | amp | pipe | caret | tilde | bang | shl | shr
  | eqEq | bangEq | ltEq | gtEq | lt | gt | andAnd | orOr
  | eq | plusEq | minusEq | starEq | slashEq
  | arrow | fatArrow
  | lParen | rParen | lBrace | rBrace | lBracket | rBracket
  | comma | semicolon | colon | doubleColon | dot | dotDot | atSign
  | question | refMut | ref
  deriving DecidableEq, Repr

/-- A source position. -/
structure Span where
  fileId : SymbolId := kInvalidSymbolId
  line : BitVec 32 := 0
  col : BitVec 32 := 0
  len : BitVec 32 := 0
  deriving DecidableEq, Repr

/-- A token with its source text. -/
structure Token where
  kind : TokenKind := .eof
  span : Span := {}
  text : List Char := []
  deriving DecidableEq, Repr

/-- The syntax tree: declarations, statements, expressions and patterns. -/
inductive Ast where
  | module (items : List Ast)
  | fnDecl (name : SymbolId) (params : List Ast) (returnType : Option Ast)
      (body : Ast) (isPub : Bool)
  | param (name : SymbolId) (typeAnn : Ast) (mutable : Bool)
  | structDecl (name : SymbolId) (fields : List (SymbolId × Ast))
  | enumDecl (name : SymbolId) (variants : List (SymbolId × List Ast))
  | block (stmts : List Ast)
  | letStmt (name : SymbolId) (typeAnn init : Option Ast) (isVar : Bool)
  | exprStmt (expr : Ast)
  | returnStmt (value : Option Ast)
  | ifStmt (cond thenBranch : Ast) (elseBranch : Option Ast)
  | forStmt (varName : SymbolId) (iter body : Ast)
  | matchStmt (scrutinee : Ast) (arms : List (Ast × Ast))
  | binaryExpr (op : TokenKind) (lhs rhs : Ast)
  | unaryExpr (op : TokenKind) (operand : Ast)
  | callExpr (callee : Ast) (args : List Ast)
  | fieldExpr (base : Ast) (field : SymbolId)
  | indexExpr (base index : Ast)
  | assignExpr (op : TokenKind) (target value : Ast)
  | ident (name : SymbolId)
  | intLit (value : Word)
  | floatLit (bits : Word)
  | strLit (value : SymbolId)
  | boolLit (value : Bool)
  | pathExpr (segments : List SymbolId)
  | rangeExpr (lo hi : Ast)
  | identPat (name : SymbolId)
  | pathPat (segments : List SymbolId) (subPattern : Option Ast)
  | memberPat (member : SymbolId) (subPattern : Option Ast)

namespace Ast

/-- The tree is an assignment. -/
def isAssignExpr : Ast → Bool
  | .assignExpr .. => true
  | _ => false

/-- The name of a declared parameter. -/
def paramName : Ast → Option SymbolId
  | .param name _ _ => some name
  | _ => none

end Ast

end Aegis
