import AegisCompiler.SyntaxTree

/-!
# The parser

Recursive descent over the token vector, with a Pratt loop for the binary
operators.  Every call and every loop iteration of the source takes one unit
of fuel here.  The symbol table is represented by the function that interns a
text.
-/

namespace Aegis

/-- A parse diagnostic; the source drops the message text. -/
structure ParseError where
  messageId : BitVec 32 := 0x100
  span : Span
  deriving DecidableEq, Repr

/-- Why a parse yields no tree: a reported error, or no fuel left. -/
inductive ParseFailure where
  | error (reported : ParseError)
  | outOfFuel
  deriving DecidableEq, Repr

/-- The token vector, the read position and the diagnostics so far. -/
structure ParserState where
  toks : List Token
  pos : Nat := 0
  diagnostics : List ParseError := []
  deriving DecidableEq, Repr

namespace ParserState

/-- The current token; past the end it is the last one. -/
def peek (s : ParserState) : Token :=
  s.toks.getD (min s.pos (s.toks.length - 1)) {}

/-- The state behind the current token. -/
def next (s : ParserState) : ParserState := { s with pos := s.pos + 1 }

end ParserState

abbrev ParserM := EStateM ParseFailure ParserState

namespace Parser

/-- The kind of a binary operator, or nothing for any other token. -/
def binaryOpKind (kind : TokenKind) : Option TokenKind :=
  match kind with
  | .plus | .minus | .star | .slash | .percent
  | .amp | .pipe | .caret | .shl | .shr
  | .eqEq | .bangEq | .lt | .ltEq | .gt | .gtEq
  | .andAnd | .orOr
  | .eq | .plusEq | .minusEq | .starEq | .slashEq => some kind
  | _ => none

def precedence (kind : TokenKind) : Int :=
  match kind with
  | .star | .slash | .percent => 13
  | .plus | .minus => 12
  | .shl | .shr => 11
  | .amp | .caret | .pipe => 10
  | .eqEq | .bangEq | .lt | .ltEq | .gt | .gtEq => 9
  | .andAnd => 5
  | .orOr => 4
  | .eq | .plusEq | .minusEq | .starEq | .slashEq => 2
  | _ => -1

/-- The assignment operators, which associate to the right. -/
def isAssignOp (kind : TokenKind) : Bool :=
  match kind with
  | .eq | .plusEq | .minusEq | .starEq | .slashEq => true
  | _ => false

def peekKind : ParserM TokenKind := do
  return (← get).peek.kind

def isAt (kind : TokenKind) : ParserM Bool := do
  return (← peekKind) = kind

def advance : ParserM Unit := modify ParserState.next

def consume (kind : TokenKind) : ParserM Bool := do
  if (← peekKind) = kind then
    advance
    return true
  else
    return false

def makeErr (t : Token) : ParserM ParseError := do
  let reported : ParseError := { span := t.span }
  modify fun s => { s with diagnostics := s.diagnostics ++ [reported] }
  return reported

/-- Fail at the current token. -/
def fail {α : Type} : ParserM α := do
  let reported ← makeErr (← get).peek
  throw (.error reported)

def outOfFuel {α : Type} : ParserM α := throw .outOfFuel

/-- Take a token of the given kind; on a mismatch report it and go on without
moving. -/
def expect (kind : TokenKind) : ParserM Token := do
  let t := (← get).peek
  if t.kind = kind then
    advance
    return t
  else
    let _ ← makeErr t
    return t

/-- An optional part that a token introduces. -/
def afterToken {α : Type} (kind : TokenKind) (part : ParserM α) :
    ParserM (Option α) := do
  if ← consume kind then
    return some (← part)
  else
    return none

/-- The value of an integer literal: its decimal digits, modulo 2^64. -/
def intLiteral (text : List Char) : Word :=
  text.foldl (fun value c =>
    if '0' ≤ c ∧ c ≤ '9' then value * 10 + BitVec.ofNat 64 (c.toNat - 48)
    else value) 0

/-- The bits of a floating-point literal, digit by digit in double
precision. -/
def floatLiteral (text : List Char) : Word :=
  let result := text.foldl (fun (acc : Float × Float × Bool) c =>
    if c = '.' then (acc.1, acc.2.1, true)
    else if '0' ≤ c ∧ c ≤ '9' then
      let digit := Float.ofNat (c.toNat - 48)
      if acc.2.2 then
        (acc.1 + digit / (acc.2.1 * 10), acc.2.1 * 10, true)
      else (acc.1 * 10 + digit, acc.2.1, false)
    else acc) (0, 1, false)
  result.1.toBits.toBitVec

section Grammar

variable (intern : List Char → SymbolId)

/-- The segments of a path after the first one. -/
def parsePathSegments : Nat → ParserM (List SymbolId)
  | 0 => outOfFuel
  | fuel + 1 => do
      let segment ← expect .ident
      if ← consume .doubleColon then
        return intern segment.text :: (← parsePathSegments fuel)
      else
        return [intern segment.text]

def parsePattern : Nat → ParserM Ast
  | 0 => outOfFuel
  | fuel + 1 => do
      if ← consume .dot then
        let member ← expect .ident
        if ← consume .lParen then
          let sub ← parsePattern fuel
          let _ ← expect .rParen
          return .memberPat (intern member.text) (some sub)
        else
          return .memberPat (intern member.text) none
      else if ← isAt .ident then
        let t := (← get).peek
        advance
        if ← consume .doubleColon then
          let segments ← parsePathSegments intern fuel
          if ← consume .lParen then
            let sub ← parsePattern fuel
            let _ ← expect .rParen
            return .pathPat (intern t.text :: segments) (some sub)
          else
            return .pathPat (intern t.text :: segments) none
        else
          return .identPat (intern t.text)
      else
        fail

mutual

def parseBlock : Nat → ParserM Ast
  | 0 => outOfFuel
  | fuel + 1 => do
      let _ ← expect .lBrace
      let stmts ← parseStmts fuel
      let _ ← expect .rBrace
      return .block stmts

/-- The statements of a block. -/
def parseStmts : Nat → ParserM (List Ast)
  | 0 => outOfFuel
  | fuel + 1 => do
      if (← isAt .rBrace) || (← isAt .eof) then
        return []
      else
        let stmt ← parseStmt fuel
        return stmt :: (← parseStmts fuel)

def parseStmt : Nat → ParserM Ast
  | 0 => outOfFuel
  | fuel + 1 => do
      match ← peekKind with
      | .letKw => parseLetOrVarStmt false fuel
      | .varKw => parseLetOrVarStmt true fuel
      | .returnKw => parseReturnStmt fuel
      | .ifKw => parseIfStmt fuel
      | .forKw => parseForStmt fuel
      | .matchKw => parseMatchStmt fuel
      | .lBrace => parseBlock fuel
      | _ =>
          let e ← parseExpr 0 fuel
          if e.isAssignExpr then
            let _ ← consume .semicolon
            return e
          else if ← consume .semicolon then
            return .exprStmt e
          else
            return e

def parseLetOrVarStmt (isVar : Bool) : Nat → ParserM Ast
  | 0 => outOfFuel
  | fuel + 1 => do
      let _ ← expect (if isVar then .varKw else .letKw)
      let name ← expect .ident
      let typeAnn ← afterToken .colon <| parseTypeAnnotation fuel
      let init ← afterToken .eq (parseExpr 0 fuel)
      let _ ← consume .semicolon
      return .letStmt (intern name.text) typeAnn init isVar

/-- Type annotations use the expression grammar. -/
def parseTypeAnnotation : Nat → ParserM Ast
  | 0 => outOfFuel
  | fuel + 1 => parseExpr 0 fuel

def parseReturnStmt : Nat → ParserM Ast
  | 0 => outOfFuel
  | fuel + 1 => do
      let _ ← expect .returnKw
      let next ← peekKind
      if next = .semicolon ∨ next = .rBrace ∨ next = .eof then
        let _ ← consume .semicolon
        return .returnStmt none
      else
        let e ← parseExpr 0 fuel
        let _ ← consume .semicolon
        return .returnStmt (some e)

def parseIfStmt : Nat → ParserM Ast
  | 0 => outOfFuel
  | fuel + 1 => do
      let _ ← expect .ifKw
      let cond ← parseExpr 0 fuel
      let thenBlock ← parseBlock fuel
      let elseBlock ← afterToken .elseKw (parseBlock fuel)
      return .ifStmt cond thenBlock elseBlock

def parseForStmt : Nat → ParserM Ast
  | 0 => outOfFuel
  | fuel + 1 => do
      let _ ← expect .forKw
      let var ← expect .ident
      let _ ← expect .inKw
      let lo ← parseExpr 0 fuel
      let _ ← expect .dotDot
      let hi ← parseExpr 0 fuel
      let body ← parseBlock fuel
      return .forStmt (intern var.text) (.rangeExpr lo hi) body

def parseMatchStmt : Nat → ParserM Ast
  | 0 => outOfFuel
  | fuel + 1 => do
      let _ ← expect .matchKw
      let scrutinee ← parseExpr 0 fuel
      let _ ← expect .lBrace
      let arms ← parseArms fuel
      let _ ← expect .rBrace
      return .matchStmt scrutinee arms

/-- The arms of a match. -/
def parseArms : Nat → ParserM (List (Ast × Ast))
  | 0 => outOfFuel
  | fuel + 1 => do
      if (← isAt .rBrace) || (← isAt .eof) then
        return []
      else
        let pattern ← parsePattern intern fuel
        let _ ← expect .fatArrow
        let body ← parseExpr 0 fuel
        let _ ← consume .comma
        return (pattern, body) :: (← parseArms fuel)

def parseExpr (minPrec : Int) : Nat → ParserM Ast
  | 0 => outOfFuel
  | fuel + 1 => do
      let lhs ← parseUnary fuel
      parseOperators minPrec lhs fuel

/-- The Pratt loop over the operators behind an operand. -/
def parseOperators (minPrec : Int) (lhs : Ast) : Nat → ParserM Ast
  | 0 => outOfFuel
  | fuel + 1 => do
      match binaryOpKind (← peekKind) with
      | none => return lhs
      | some op =>
          let prec := precedence op
          if prec < minPrec then
            return lhs
          else
            advance
            -- Assignments nest to the right: their right-hand side is parsed
            -- at the same level.
            let rhsPrec := if isAssignOp op then prec else prec + 1
            let rhs ← parseExpr rhsPrec fuel
            if isAssignOp op then
              parseOperators minPrec (.assignExpr op lhs rhs) fuel
            else
              parseOperators minPrec (.binaryExpr op lhs rhs) fuel

def parseUnary : Nat → ParserM Ast
  | 0 => outOfFuel
  | fuel + 1 => do
      let op ← peekKind
      if op = .minus ∨ op = .bang ∨ op = .tilde then
        advance
        return .unaryExpr op (← parseUnary fuel)
      else
        let primary ← parsePrimary fuel
        parsePostfix primary fuel

def parsePrimary : Nat → ParserM Ast
  | 0 => outOfFuel
  | fuel + 1 => do
      let t := (← get).peek
      match t.kind with
      | .intLit =>
          advance
          return .intLit (intLiteral t.text)
      | .floatLit =>
          advance
          return .floatLit (floatLiteral t.text)
      | .strLit =>
          advance
          return .strLit (intern t.text)
      | .trueKw =>
          advance
          return .boolLit true
      | .falseKw =>
          advance
          return .boolLit false
      | .ident =>
          advance
          if ← consume .doubleColon then
            let segments ← parsePathSegments intern fuel
            return .pathExpr (intern t.text :: segments)
          else
            return .ident (intern t.text)
      | .i8Kw | .i16Kw | .i32Kw | .i64Kw | .u8Kw | .u16Kw | .u32Kw | .u64Kw
      | .f32Kw | .f64Kw | .boolKw | .strKw =>
          advance
          return .ident (intern t.text)
      | .lParen =>
          advance
          let e ← parseExpr 0 fuel
          let _ ← expect .rParen
          return e
      | .lBrace => parseBlock fuel
      | _ => fail

def parsePostfix (base : Ast) : Nat → ParserM Ast
  | 0 => outOfFuel
  | fuel + 1 => do
      match ← peekKind with
      | .lParen =>
          advance
          let args ← parseArgs fuel
          let _ ← expect .rParen
          parsePostfix (.callExpr base args) fuel
      | .dot =>
          advance
          let field ← expect .ident
          parsePostfix (.fieldExpr base (intern field.text)) fuel
      | .lBracket =>
          advance
          let index ← parseExpr 0 fuel
          let _ ← expect .rBracket
          parsePostfix (.indexExpr base index) fuel
      | _ => return base

/-- The arguments of a call. -/
def parseArgs : Nat → ParserM (List Ast)
  | 0 => outOfFuel
  | fuel + 1 => do
      if (← isAt .rParen) || (← isAt .eof) then
        return []
      else
        let arg ← parseExpr 0 fuel
        if ← consume .comma then
          return arg :: (← parseArgs fuel)
        else
          return [arg]

end

/-- The parameters of a function declaration. -/
def parseParams : Nat → ParserM (List Ast)
  | 0 => outOfFuel
  | fuel + 1 => do
      if (← isAt .rParen) || (← isAt .eof) then
        return []
      else
        let mutable ← consume .mutKw
        let name ← expect .ident
        let _ ← expect .colon
        let typeAnn ← parseTypeAnnotation intern fuel
        let param := Ast.param (intern name.text) typeAnn mutable
        if ← consume .comma then
          return param :: (← parseParams fuel)
        else
          return [param]

def parseFnDecl (isPub : Bool) (fuel : Nat) : ParserM Ast := do
  let _ ← expect .fnKw
  let name ← expect .ident
  let _ ← expect .lParen
  let params ← parseParams intern fuel
  let _ ← expect .rParen
  let returnType ← afterToken .arrow <| parseTypeAnnotation intern fuel
  let body ← parseBlock intern fuel
  return .fnDecl (intern name.text) params returnType body isPub

/-- The fields of a struct declaration. -/
def parseFields : Nat → ParserM (List (SymbolId × Ast))
  | 0 => outOfFuel
  | fuel + 1 => do
      if (← isAt .rBrace) || (← isAt .eof) then
        return []
      else
        let field ← expect .ident
        let _ ← expect .colon
        let typeAnn ← parseTypeAnnotation intern fuel
        let entry := (intern field.text, typeAnn)
        if ← consume .comma then
          return entry :: (← parseFields fuel)
        else
          return [entry]

def parseStructDecl (fuel : Nat) : ParserM Ast := do
  let _ ← expect .structKw
  let name ← expect .ident
  let _ ← expect .lBrace
  let fields ← parseFields intern fuel
  let _ ← expect .rBrace
  return .structDecl (intern name.text) fields

/-- The payload types of an enum variant. -/
def parsePayloadTypes : Nat → ParserM (List Ast)
  | 0 => outOfFuel
  | fuel + 1 => do
      if (← isAt .rParen) || (← isAt .eof) then
        return []
      else
        let payload ← parseTypeAnnotation intern fuel
        if ← consume .comma then
          return payload :: (← parsePayloadTypes fuel)
        else
          return [payload]

/-- The variants of an enum declaration. -/
def parseVariants : Nat → ParserM (List (SymbolId × List Ast))
  | 0 => outOfFuel
  | fuel + 1 => do
      if (← isAt .rBrace) || (← isAt .eof) then
        return []
      else
        let variant ← expect .ident
        let payload ←
          if ← consume .lParen then
            let types ← parsePayloadTypes intern fuel
            let _ ← expect .rParen
            pure types
          else
            pure []
        let entry := (intern variant.text, payload)
        if ← consume .comma then
          return entry :: (← parseVariants fuel)
        else
          return [entry]

def parseEnumDecl (fuel : Nat) : ParserM Ast := do
  let _ ← expect .enumKw
  let name ← expect .ident
  let _ ← expect .lBrace
  let variants ← parseVariants intern fuel
  let _ ← expect .rBrace
  return .enumDecl (intern name.text) variants

def parseTopLevelItem (fuel : Nat) : ParserM Ast := do
  let isPub ← consume .pubKw
  match ← peekKind with
  | .fnKw => parseFnDecl intern isPub fuel
  | kind =>
      if isPub then
        fail
      else if kind = .structKw then
        parseStructDecl intern fuel
      else if kind = .enumKw then
        parseEnumDecl intern fuel
      else
        fail

/-- The items of a module. -/
def parseItems : Nat → ParserM (List Ast)
  | 0 => outOfFuel
  | fuel + 1 => do
      if ← isAt .eof then
        return []
      else
        let item ← parseTopLevelItem intern fuel
        return item :: (← parseItems fuel)

def parseModule (fuel : Nat) : ParserM Ast := do
  return .module (← parseItems intern fuel)

end Grammar

end Parser

end Aegis
