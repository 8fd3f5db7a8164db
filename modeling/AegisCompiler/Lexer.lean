import AegisCompiler.SyntaxTree

/-!
# The lexer

The source is a list of characters, one for each byte.  Each lexing function
takes a prefix of what is left; the loops of the source that advance while a
condition holds are the lengths of such prefixes.
-/

namespace Aegis

/-- The unread source and the position of its first character. -/
structure Lexer where
  rest : List Char
  line : Nat := 1
  col : Nat := 1
  deriving DecidableEq, Repr

/-- A lexical error, or no fuel left. -/
inductive LexError where
  | at (line col : BitVec 32) (message : String)
  | outOfFuel
  deriving DecidableEq, Repr

namespace Lexer

def isDigit (c : Char) : Bool := '0' ≤ c && c ≤ '9'

def isAlpha (c : Char) : Bool := 'a' ≤ c && c ≤ 'z' || 'A' ≤ c && c ≤ 'Z'

def isXDigit (c : Char) : Bool := isDigit c || 'a' ≤ c && c ≤ 'f' || 'A' ≤ c && c ≤ 'F'

/-- The first character of an identifier or keyword. -/
def startsWord (c : Char) : Bool := isAlpha c || c = '_'

/-- The other characters of an identifier or keyword. -/
def inWord (c : Char) : Bool := isAlpha c || isDigit c || c = '_'

def isBlank (c : Char) : Bool := c = ' ' || c = '\t' || c = '\r' || c = '\n'

/-- The letter behind the zero of a hexadecimal number. -/
def isHexMark (c : Char) : Bool := c = 'x' || c = 'X'

def isExponentLetter (c : Char) : Bool := c = 'e' || c = 'E'

def isSign (c : Char) : Bool := c = '+' || c = '-'

/-- The number of leading characters with a property. -/
def spanLength (holds : Char → Bool) (cs : List Char) : Nat := (cs.takeWhile holds).length

def keywords : List (List Char × TokenKind) :=
  [("let".toList, .letKw), ("var".toList, .varKw), ("fn".toList, .fnKw),
    ("return".toList, .returnKw), ("if".toList, .ifKw), ("else".toList, .elseKw),
    ("match".toList, .matchKw), ("struct".toList, .structKw), ("enum".toList, .enumKw),
    ("alloc".toList, .allocKw), ("stack".toList, .stackKw), ("for".toList, .forKw),
    ("in".toList, .inKw), ("pub".toList, .pubKw), ("mut".toList, .mutKw),
    ("true".toList, .trueKw), ("false".toList, .falseKw), ("i8".toList, .i8Kw),
    ("i16".toList, .i16Kw), ("i32".toList, .i32Kw), ("i64".toList, .i64Kw),
    ("u8".toList, .u8Kw), ("u16".toList, .u16Kw), ("u32".toList, .u32Kw),
    ("u64".toList, .u64Kw), ("f32".toList, .f32Kw), ("f64".toList, .f64Kw),
    ("bool".toList, .boolKw), ("str".toList, .strKw)]

def matchKeyword (text : List Char) : TokenKind := (keywords.lookup text).getD .ident

/-- Step over some characters, keeping track of line and column. -/
def advance : Nat → Lexer → Lexer
  | 0, lex => lex
  | n + 1, lex =>
      match lex.rest with
      | [] => lex
      | c :: rest =>
          if c = '\n' then advance n { rest, line := lex.line + 1, col := 1 }
          else advance n { rest, line := lex.line, col := lex.col + 1 }

/-- The length of a block comment behind its opening; an unclosed one leaves the
last character. -/
def blockCommentLength : List Char → Nat
  | '*' :: '/' :: _ => 2
  | _ :: d :: rest => blockCommentLength (d :: rest) + 1
  | _ => 0

/-- Skip blanks and comments; every round takes one unit of fuel. -/
def skipWsAndComments : Nat → Lexer → Lexer
  | 0, lex => lex
  | fuel + 1, lex =>
      match lex.rest with
      | [] => lex
      | c :: rest =>
          if isBlank c then
            skipWsAndComments fuel (lex.advance 1)
          else if c = '/' ∧ rest.head? = some '/' then
            skipWsAndComments fuel (lex.advance (spanLength (· ≠ '\n') lex.rest))
          else if c = '/' ∧ rest.head? = some '*' then
            skipWsAndComments fuel (lex.advance (blockCommentLength (rest.drop 1) + 2))
          else lex

/-- The token of the next characters, and the state behind it. -/
def makeToken (fileId : SymbolId) (lex : Lexer) (kind : TokenKind) (n : Nat) :
    Token × Lexer :=
  ({ kind
     span := {
       fileId
       line := BitVec.ofNat 32 lex.line
       col := BitVec.ofNat 32 lex.col
       len := BitVec.ofNat 32 n }
     text := lex.rest.take n }, lex.advance n)

def error {α : Type} (lex : Lexer) (message : String) : Except LexError α :=
  .error (.at (BitVec.ofNat 32 lex.line) (BitVec.ofNat 32 lex.col) message)

/-- The length of the fraction of a number: a dot and at least one digit. -/
def fractionLength : List Char → Nat
  | '.' :: d :: rest => if isDigit d then spanLength isDigit (d :: rest) + 1 else 0
  | _ => 0

/-- The length of an exponent: a letter, a sign if there is one, and digits. -/
def exponentLength : List Char → Nat
  | e :: rest =>
      if isExponentLetter e then
        match rest with
        | s :: more =>
            if isSign s then spanLength isDigit more + 2
            else spanLength isDigit rest + 1
        | [] => 1
      else 0
  | [] => 0

/-- A hexadecimal number begins here. -/
def startsHex : List Char → Bool
  | '0' :: x :: _ => isHexMark x
  | _ => false

/-- Kind and length of a number. -/
def scanNumber (cs : List Char) : TokenKind × Nat :=
  if startsHex cs then (.intLit, spanLength isXDigit (cs.drop 2) + 2)
  else
    let whole := spanLength isDigit cs
    let fraction := fractionLength (cs.drop whole)
    let exponent := exponentLength (cs.drop (whole + fraction))
    (if fraction = 0 ∧ exponent = 0 then .intLit else .floatLit, whole + fraction + exponent)

/-- The length of a string literal behind its opening quote, if it is closed. -/
def stringLength : List Char → Option Nat
  | [] => none
  | c :: rest =>
      if c = '"' then some 1
      else if c = '\\' then
        match rest with
        | [] => none
        | _ :: more => (stringLength more).map (· + 2)
      else (stringLength rest).map (· + 1)

/-- Kind and length of an operator or punctuation mark; the longer one wins. -/
def scanOperator (cs : List Char) : Option (TokenKind × Nat) :=
  let next := cs.tail.head?
  match cs.head? with
  | some '+' => if next = some '=' then some (.plusEq, 2) else some (.plus, 1)
  | some '-' =>
      if next = some '>' then some (.arrow, 2)
      else if next = some '=' then some (.minusEq, 2)
      else some (.minus, 1)
  | some '*' => if next = some '=' then some (.starEq, 2) else some (.star, 1)
  | some '/' => some (.slash, 1)
  | some '%' => some (.percent, 1)
  | some '~' => some (.tilde, 1)
  | some '!' => if next = some '=' then some (.bangEq, 2) else some (.bang, 1)
  | some '=' =>
      if next = some '=' then some (.eqEq, 2)
      else if next = some '>' then some (.fatArrow, 2)
      else some (.eq, 1)
  | some '<' =>
      if next = some '<' then some (.shl, 2)
      else if next = some '=' then some (.ltEq, 2)
      else some (.lt, 1)
  | some '>' =>
      if next = some '>' then some (.shr, 2)
      else if next = some '=' then some (.gtEq, 2)
      else some (.gt, 1)
  | some '&' => if next = some '&' then some (.andAnd, 2) else some (.amp, 1)
  | some '|' => if next = some '|' then some (.orOr, 2) else some (.pipe, 1)
  | some '^' => some (.caret, 1)
  | some '(' => some (.lParen, 1)
  | some ')' => some (.rParen, 1)
  | some '{' => some (.lBrace, 1)
  | some '}' => some (.rBrace, 1)
  | some '[' => some (.lBracket, 1)
  | some ']' => some (.rBracket, 1)
  | some ',' => some (.comma, 1)
  | some ';' => some (.semicolon, 1)
  | some ':' => if next = some ':' then some (.doubleColon, 2) else some (.colon, 1)
  | some '.' => if next = some '.' then some (.dotDot, 2) else some (.dot, 1)
  | some '@' => some (.atSign, 1)
  | some '?' => some (.question, 1)
  | _ => none

section Tokens

variable (fileId : SymbolId)

def lexIdentOrKw (lex : Lexer) : Token × Lexer :=
  let n := spanLength inWord lex.rest
  lex.makeToken fileId (matchKeyword (lex.rest.take n)) n

def lexNumber (lex : Lexer) : Token × Lexer :=
  lex.makeToken fileId (scanNumber lex.rest).1 (scanNumber lex.rest).2

def lexStringLit (lex : Lexer) : Except LexError (Token × Lexer) :=
  match stringLength (lex.rest.drop 1) with
  | some n => .ok (lex.makeToken fileId .strLit (n + 1))
  | none => lex.error "unterminated string literal"

def lexOperator (lex : Lexer) : Except LexError (Token × Lexer) :=
  match scanOperator lex.rest with
  | some (kind, n) => .ok (lex.makeToken fileId kind n)
  | none => lex.error "unexpected character"

/-- The token that begins with the character under the read position. -/
def lexToken (c : Char) (lex : Lexer) : Except LexError (Token × Lexer) :=
  if startsWord c then .ok (lex.lexIdentOrKw fileId)
  else if isDigit c then .ok (lex.lexNumber fileId)
  else if c = '"' then lex.lexStringLit fileId
  else lex.lexOperator fileId

/-- The tokens from here on, with the end token behind them. -/
def tokenizeFrom : Nat → Lexer → Except LexError (List Token)
  | 0, _ => .error .outOfFuel
  | fuel + 1, lex =>
      let lex := lex.skipWsAndComments lex.rest.length
      match lex.rest with
      | [] => .ok [{
          kind := .eof
          span := {
            line := BitVec.ofNat 32 lex.line
            col := BitVec.ofNat 32 lex.col } }]
      | c :: _ => do
          let (t, lex) ← lex.lexToken fileId c
          return t :: (← tokenizeFrom fuel lex)

def tokenize (src : List Char) : Except LexError (List Token) :=
  tokenizeFrom fileId (src.length + 1) { rest := src }

end Tokens

end Lexer

end Aegis
