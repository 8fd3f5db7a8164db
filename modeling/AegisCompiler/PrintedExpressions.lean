import AegisCompiler.Parser

/-!
# Printed expressions

The token lists that write an expression with the parentheses of the
precedence table only: an expression is put in parentheses where its own level
is below the one its place asks for, and nowhere else.
-/

namespace Aegis

namespace Parser

/-- How tightly the outermost construct of an expression holds together. -/
def level : Ast → Int
  | .assignExpr .. => 2
  | .binaryExpr op _ _ => precedence op
  | .unaryExpr .. => 14
  | _ => 15

/-- The level that the left operand of an operator needs. -/
def leftLevel (op : TokenKind) : Int :=
  if isAssignOp op then precedence op + 1 else precedence op

/-- The level that the right operand of an operator needs. -/
def rightLevel (op : TokenKind) : Int :=
  if isAssignOp op then precedence op else precedence op + 1

/-- The tree of an operator between two operands. -/
def infixExpr (op : TokenKind) (lhs rhs : Ast) : Ast :=
  if isAssignOp op then .assignExpr op lhs rhs else .binaryExpr op lhs rhs

/-- The operators in front of an operand. -/
def isPrefixOp (kind : TokenKind) : Bool :=
  match kind with
  | .minus | .bang | .tilde => true
  | _ => false

/-- The type keywords, which are names in an expression. -/
def isTypeKeyword (kind : TokenKind) : Bool :=
  match kind with
  | .i8Kw | .i16Kw | .i32Kw | .i64Kw | .u8Kw | .u16Kw | .u32Kw | .u64Kw
  | .f32Kw | .f64Kw | .boolKw | .strKw => true
  | _ => false

section Printing

variable (intern : List Char → SymbolId)

/-- A token that writes a name or a literal. -/
inductive Leaf : Token → Ast → Prop
  | ident {t : Token} (named : t.kind = .ident ∨ isTypeKeyword t.kind = true) :
      Leaf t (.ident (intern t.text))
  | intLit {t : Token} (number : t.kind = .intLit) : Leaf t (.intLit (intLiteral t.text))
  | floatLit {t : Token} (number : t.kind = .floatLit) :
      Leaf t (.floatLit (floatLiteral t.text))
  | strLit {t : Token} (string : t.kind = .strLit) : Leaf t (.strLit (intern t.text))
  | trueLit {t : Token} (truth : t.kind = .trueKw) : Leaf t (.boolLit true)
  | falseLit {t : Token} (falsity : t.kind = .falseKw) : Leaf t (.boolLit false)

/-- What is printed: an expression where a level is needed, an expression
without parentheses around it, or the arguments of a call. -/
inductive Phrase where
  | operand (needed : Int) (e : Ast)
  | bare (e : Ast)
  | args (es : List Ast)

/-- A token list prints a phrase. -/
inductive Printed : Phrase → List Token → Prop
  | leaf {t : Token} {e : Ast} (written : Leaf intern t e) : Printed (.bare e) [t]
  | unary {op : Token} {e : Ast} {toks : List Token} (operator : isPrefixOp op.kind = true)
      (operand : Printed (.operand 14 e) toks) :
      Printed (.bare (.unaryExpr op.kind e)) (op :: toks)
  | between {op : Token} {lhs rhs : Ast} {left right : List Token}
      (operator : binaryOpKind op.kind = some op.kind)
      (before : Printed (.operand (leftLevel op.kind) lhs) left)
      (behind : Printed (.operand (rightLevel op.kind) rhs) right) :
      Printed (.bare (infixExpr op.kind lhs rhs)) (left ++ op :: right)
  | call {opening closing : Token} {callee : Ast} {es : List Ast} {toks given : List Token}
      (opens : opening.kind = .lParen) (closes : closing.kind = .rParen)
      (base : Printed (.operand 15 callee) toks) (arguments : Printed (.args es) given) :
      Printed (.bare (.callExpr callee es)) (toks ++ opening :: (given ++ [closing]))
  | field {dot name : Token} {e : Ast} {toks : List Token} (dotted : dot.kind = .dot)
      (named : name.kind = .ident) (base : Printed (.operand 15 e) toks) :
      Printed (.bare (.fieldExpr e (intern name.text))) (toks ++ [dot, name])
  | index {opening closing : Token} {e i : Ast} {toks inner : List Token}
      (opens : opening.kind = .lBracket) (closes : closing.kind = .rBracket)
      (base : Printed (.operand 15 e) toks) (place : Printed (.operand 0 i) inner) :
      Printed (.bare (.indexExpr e i)) (toks ++ opening :: (inner ++ [closing]))
  | plain {needed : Int} {e : Ast} {toks : List Token} (tight : needed ≤ level e)
      (body : Printed (.bare e) toks) : Printed (.operand needed e) toks
  | parens {needed : Int} {opening closing : Token} {e : Ast} {toks : List Token}
      (loose : level e < needed) (opens : opening.kind = .lParen)
      (closes : closing.kind = .rParen) (body : Printed (.bare e) toks) :
      Printed (.operand needed e) (opening :: (toks ++ [closing]))
  | noArgs : Printed (.args []) []
  | lastArg {e : Ast} {toks : List Token} (arg : Printed (.operand 0 e) toks) :
      Printed (.args [e]) toks
  | moreArgs {comma : Token} {e next : Ast} {es : List Ast} {toks rest : List Token}
      (separated : comma.kind = .comma) (arg : Printed (.operand 0 e) toks)
      (others : Printed (.args (next :: es)) rest) :
      Printed (.args (e :: next :: es)) (toks ++ comma :: rest)

/-- The expressions that can be written down: their names, strings and
floating-point numbers have a text. -/
inductive Writable : Ast → Prop
  | ident (text : List Char) : Writable (.ident (intern text))
  | intLit (value : Word) : Writable (.intLit value)
  | floatLit (text : List Char) : Writable (.floatLit (floatLiteral text))
  | strLit (text : List Char) : Writable (.strLit (intern text))
  | boolLit (value : Bool) : Writable (.boolLit value)
  | unary {op : TokenKind} {e : Ast} (operator : isPrefixOp op = true) (operand : Writable e) :
      Writable (.unaryExpr op e)
  | binary {op : TokenKind} {lhs rhs : Ast} (operator : binaryOpKind op = some op)
      (associative : isAssignOp op = false) (left : Writable lhs) (right : Writable rhs) :
      Writable (.binaryExpr op lhs rhs)
  | assign {op : TokenKind} {target value : Ast} (operator : isAssignOp op = true)
      (left : Writable target) (right : Writable value) :
      Writable (.assignExpr op target value)
  | call {callee : Ast} {es : List Ast} (base : Writable callee)
      (arguments : ∀ e ∈ es, Writable e) : Writable (.callExpr callee es)
  | field {e : Ast} (base : Writable e) (name : List Char) :
      Writable (.fieldExpr e (intern name))
  | index {e i : Ast} (base : Writable e) (place : Writable i) : Writable (.indexExpr e i)

end Printing

variable {intern : List Char → SymbolId}

theorem intLiteral_snoc (text : List Char) (c : Char) :
    intLiteral (text ++ [c]) =
      if '0' ≤ c ∧ c ≤ '9' then intLiteral text * 10 + BitVec.ofNat 64 (c.toNat - 48)
      else intLiteral text := by
  rw [intLiteral, List.foldl_append]
  rfl

theorem exists_digit (d : Nat) (small : d < 10) :
    ∃ c : Char, ('0' ≤ c ∧ c ≤ '9') ∧ c.toNat - 48 = d := by
  have digits : ∀ d : Fin 10, ('0' ≤ Char.ofNat (d + 48) ∧ Char.ofNat (d + 48) ≤ '9') ∧
      (Char.ofNat (d + 48)).toNat - 48 = d := by decide
  exact ⟨Char.ofNat (d + 48), digits ⟨d, small⟩⟩

/-- Every number has a decimal text. -/
theorem exists_intLiteral (n : Nat) : ∃ text, intLiteral text = BitVec.ofNat 64 n := by
  induction n using Nat.strong_induction_on with
  | _ n ih =>
      obtain ⟨front, fronted⟩ : ∃ front, intLiteral front = BitVec.ofNat 64 (n / 10) := by
        by_cases small : n < 10
        · exact ⟨[], by rw [Nat.div_eq_of_lt small]; rfl⟩
        · exact ih (n / 10) (by omega)
      obtain ⟨c, digit, shown⟩ := exists_digit (n % 10) (Nat.mod_lt n (by decide))
      refine ⟨front ++ [c], ?_⟩
      calc intLiteral (front ++ [c])
          = BitVec.ofNat 64 (n / 10) * 10 + BitVec.ofNat 64 (n % 10) := by
            rw [intLiteral_snoc, if_pos digit, fronted, shown]
        _ = BitVec.ofNat 64 (n / 10 * 10 + n % 10) := by
            rw [BitVec.ofNat_add, BitVec.ofNat_mul]
            rfl
        _ = BitVec.ofNat 64 n := by rw [Nat.div_add_mod']

/-- What has a bare printing is printed at every level. -/
theorem exists_operand {e : Ast} (bare : ∃ toks, Printed intern (.bare e) toks)
    (needed : Int) : ∃ toks, Printed intern (.operand needed e) toks := by
  obtain ⟨toks, printed⟩ := bare
  by_cases tight : needed ≤ level e
  · exact ⟨toks, .plain tight printed⟩
  · exact ⟨{ kind := .lParen } :: (toks ++ [{ kind := .rParen }]),
      .parens (by omega) rfl rfl printed⟩

theorem exists_args {es : List Ast}
    (printable : ∀ e ∈ es, ∃ toks, Printed intern (.bare e) toks) :
    ∃ toks, Printed intern (.args es) toks := by
  induction es with
  | nil => exact ⟨[], .noArgs⟩
  | cons e es ih =>
      obtain ⟨toks, arg⟩ := exists_operand (printable e List.mem_cons_self) 0
      obtain ⟨rest, others⟩ := ih fun e listed => printable e (List.mem_cons_of_mem _ listed)
      cases es with
      | nil => exact ⟨toks, .lastArg arg⟩
      | cons next es => exact ⟨toks ++ { kind := .comma } :: rest, .moreArgs rfl arg others⟩

theorem binaryOpKind_of_isAssignOp {op : TokenKind} (assigns : isAssignOp op = true) :
    binaryOpKind op = some op := by
  cases op <;> first | rfl | cases assigns

theorem Writable.exists_bare {e : Ast} (writable : Writable intern e) :
    ∃ toks, Printed intern (.bare e) toks := by
  induction writable with
  | ident text => exact ⟨[{ kind := .ident, text }], .leaf (.ident (.inl rfl))⟩
  | intLit value =>
      obtain ⟨text, reads⟩ := exists_intLiteral value.toNat
      rw [BitVec.ofNat_toNat, BitVec.setWidth_eq] at reads
      exact ⟨[{ kind := .intLit, text }], reads ▸ .leaf (.intLit rfl)⟩
  | floatLit text => exact ⟨[{ kind := .floatLit, text }], .leaf (.floatLit rfl)⟩
  | strLit text => exact ⟨[{ kind := .strLit, text }], .leaf (.strLit rfl)⟩
  | boolLit value =>
      cases value with
      | true => exact ⟨[{ kind := .trueKw }], .leaf (.trueLit rfl)⟩
      | false => exact ⟨[{ kind := .falseKw }], .leaf (.falseLit rfl)⟩
  | @unary op _ operator _ ih =>
      obtain ⟨toks, operand⟩ := exists_operand ih 14
      exact ⟨_, @Printed.unary intern { kind := op } _ _ operator operand⟩
  | @binary op lhs rhs operator associative _ _ ihLeft ihRight =>
      obtain ⟨left, before⟩ := exists_operand ihLeft (leftLevel op)
      obtain ⟨right, behind⟩ := exists_operand ihRight (rightLevel op)
      have printed := @Printed.between intern { kind := op } _ _ _ _ operator before behind
      rw [infixExpr, if_neg (by rw [associative]; decide)] at printed
      exact ⟨_, printed⟩
  | @assign op target value operator _ _ ihLeft ihRight =>
      obtain ⟨left, before⟩ := exists_operand ihLeft (leftLevel op)
      obtain ⟨right, behind⟩ := exists_operand ihRight (rightLevel op)
      have printed := @Printed.between intern { kind := op } _ _ _ _
        (binaryOpKind_of_isAssignOp operator) before behind
      rw [infixExpr, if_pos operator] at printed
      exact ⟨_, printed⟩
  | call _ _ ihBase ihArgs =>
      obtain ⟨toks, base⟩ := exists_operand ihBase 15
      obtain ⟨given, arguments⟩ := exists_args ihArgs
      exact ⟨_, @Printed.call intern { kind := .lParen } { kind := .rParen } _ _ _ _
        rfl rfl base arguments⟩
  | field _ name ih =>
      obtain ⟨toks, base⟩ := exists_operand ih 15
      exact ⟨_, @Printed.field intern { kind := .dot } { kind := .ident, text := name } _ _
        rfl rfl base⟩
  | index _ _ ihBase ihPlace =>
      obtain ⟨toks, base⟩ := exists_operand ihBase 15
      obtain ⟨inner, place⟩ := exists_operand ihPlace 0
      exact ⟨_, @Printed.index intern { kind := .lBracket } { kind := .rBracket } _ _ _ _
        rfl rfl base place⟩

end Parser

end Aegis
