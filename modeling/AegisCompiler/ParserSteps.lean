import AegisCompiler.PrintedExpressions
import AegisCompiler.TypedBindings

/-!
# Steps of the expression parser

What each branch of the expression parser yields with enough fuel, in terms of
what the parsers it calls yield.
-/

namespace Aegis

namespace Parser

/-- With enough fuel the parser takes one state to the other and returns the
value. -/
def Yields {α : Type} (parse : Nat → ParserM α) (s : ParserState) (value : α)
    (final : ParserState) : Prop :=
  ∃ enough, ∀ fuel, enough ≤ fuel → parse fuel s = .ok value final

section Rules

variable {α β : Type} {parse : Nat → ParserM α} {s middle final : ParserState}

theorem Yields.unique {value other : α} {last : ParserState}
    (one : Yields parse s value final) (two : Yields parse s other last) :
    value = other ∧ final = last := by
  obtain ⟨n, ran⟩ := one
  obtain ⟨m, again⟩ := two
  have same := (ran (max n m) (Nat.le_max_left n m)).symm.trans
    (again (max n m) (Nat.le_max_right n m))
  injection same with values states
  exact ⟨values, states⟩

/-- One unit of fuel pays for the call itself. -/
theorem Yields.spend {value : α}
    (body : Yields (fun fuel => parse (fuel + 1)) s value final) :
    Yields parse s value final := by
  obtain ⟨n, ran⟩ := body
  refine ⟨n + 1, fun fuel enough => ?_⟩
  obtain ⟨rest, rfl⟩ : ∃ rest, fuel = rest + 1 := ⟨fuel - 1, by omega⟩
  exact ran rest (by omega)

theorem Yields.of_ok {run : ParserM α} {value : α} (ran : run s = .ok value final) :
    Yields (fun _ => run) s value final :=
  ⟨0, fun _ _ => ran⟩

theorem Yields.bind {next : α → Nat → ParserM β} {value : α} {result : β}
    (first : Yields parse s value middle) (rest : Yields (next value) middle result final) :
    Yields (fun fuel => parse fuel >>= fun x => next x fuel) s result final := by
  obtain ⟨n, ran⟩ := first
  obtain ⟨m, went⟩ := rest
  refine ⟨max n m, fun fuel enough => ?_⟩
  change EStateM.bind _ _ _ = _
  rw [EStateM.bind, ran fuel (by omega)]
  exact went fuel (by omega)

/-- A part without fuel of its own comes first. -/
theorem Yields.after {run : ParserM α} {next : α → Nat → ParserM β} {value : α} {result : β}
    (first : run s = .ok value middle) (rest : Yields (next value) middle result final) :
    Yields (fun fuel => run >>= fun x => next x fuel) s result final :=
  Yields.bind (.of_ok first) rest

end Rules

theorem isAt_eq (kind : TokenKind) (s : ParserState) :
    isAt kind s = .ok (decide (s.peek.kind = kind)) s := rfl

theorem consume_of_eq {kind : TokenKind} {s : ParserState} (here : s.peek.kind = kind) :
    consume kind s = .ok true s.next := by
  rw [consume_eq, if_pos here]

theorem consume_of_ne {kind : TokenKind} {s : ParserState} (other : s.peek.kind ≠ kind) :
    consume kind s = .ok false s := by
  rw [consume_eq, if_neg other]

variable {intern : List Char → SymbolId} {s middle final : ParserState}

theorem parseExpr_yields {needed : Int} {lhs e : Ast}
    (operand : Yields (parseUnary intern) s lhs middle)
    (operators : Yields (parseOperators intern needed lhs) middle e final) :
    Yields (parseExpr intern needed) s e final := by
  apply Yields.spend
  simp only [parseExpr]
  exact operand.bind operators

theorem binaryOpKind_eq_some {kind op : TokenKind} (known : binaryOpKind kind = some op) :
    op = kind := by
  cases kind <;> first | cases known; rfl | cases known

/-- The operator loop ends in front of anything but an operator of its level. -/
theorem parseOperators_ends {needed : Int} {lhs : Ast}
    (weak : binaryOpKind s.peek.kind = some s.peek.kind → precedence s.peek.kind < needed) :
    Yields (parseOperators intern needed lhs) s lhs s := by
  apply Yields.spend
  simp only [parseOperators]
  apply Yields.after (peekKind_eq s)
  cases known : binaryOpKind s.peek.kind with
  | none => exact .of_ok rfl
  | some op =>
      obtain rfl := binaryOpKind_eq_some known
      simp only [if_pos (weak known)]
      exact .of_ok rfl

/-- The operator loop takes an operator of its level and the right operand. -/
theorem parseOperators_takes {needed : Int} {lhs rhs e : Ast}
    (operator : binaryOpKind s.peek.kind = some s.peek.kind)
    (strong : needed ≤ precedence s.peek.kind)
    (operand : Yields (parseExpr intern (rightLevel s.peek.kind)) s.next rhs middle)
    (others : Yields (parseOperators intern needed (infixExpr s.peek.kind lhs rhs)) middle
      e final) :
    Yields (parseOperators intern needed lhs) s e final := by
  apply Yields.spend
  simp only [parseOperators]
  apply Yields.after (peekKind_eq s)
  simp only [operator, if_neg (Int.not_lt.mpr strong)]
  apply Yields.after (advance_eq s)
  apply Yields.bind operand
  by_cases assigns : isAssignOp s.peek.kind = true
  · simp only [assigns, if_true]
    rwa [infixExpr, if_pos assigns] at others
  · simp only [assigns]
    rwa [infixExpr, if_neg assigns] at others

theorem isPrefixOp_iff {kind : TokenKind} :
    isPrefixOp kind = true ↔ kind = .minus ∨ kind = .bang ∨ kind = .tilde := by
  cases kind <;> decide

theorem parseUnary_prefix {e : Ast} (operator : isPrefixOp s.peek.kind = true)
    (operand : Yields (parseUnary intern) s.next e final) :
    Yields (parseUnary intern) s (.unaryExpr s.peek.kind e) final := by
  apply Yields.spend
  simp only [parseUnary]
  apply Yields.after (peekKind_eq s)
  simp only [if_pos (isPrefixOp_iff.mp operator)]
  apply Yields.after (advance_eq s)
  exact operand.bind (.of_ok rfl)

theorem parseUnary_postfix {base e : Ast} (other : isPrefixOp s.peek.kind = false)
    (primary : Yields (parsePrimary intern) s base middle)
    (postfixes : Yields (parsePostfix intern base) middle e final) :
    Yields (parseUnary intern) s e final := by
  have noOperator : ¬(s.peek.kind = .minus ∨ s.peek.kind = .bang ∨ s.peek.kind = .tilde) := by
    rw [← isPrefixOp_iff, other]
    decide
  apply Yields.spend
  simp only [parseUnary]
  apply Yields.after (peekKind_eq s)
  simp only [if_neg noOperator]
  exact primary.bind postfixes

/-- A name or a literal is a primary expression; a name must not be continued
to a path. -/
theorem parsePrimary_leaf {e : Ast} (written : Leaf intern s.peek e)
    (noPath : s.peek.kind = .ident → s.next.peek.kind ≠ .doubleColon) :
    Yields (parsePrimary intern) s e s.next := by
  apply Yields.spend
  simp only [parsePrimary]
  apply Yields.after (get_eq s)
  generalize here : s.peek = t at written noPath
  cases written with
  | ident named =>
      rcases named with name | typeName
      · simp only [name]
        apply Yields.after (advance_eq s)
        apply Yields.after (consume_of_ne (noPath name))
        exact .of_ok rfl
      · cases kind : t.kind <;> rw [kind] at typeName <;> first
          | exact Yields.after (advance_eq s) (.of_ok rfl)
          | cases typeName
  | intLit number =>
      simp only [number]
      exact Yields.after (advance_eq s) (.of_ok rfl)
  | floatLit number =>
      simp only [number]
      exact Yields.after (advance_eq s) (.of_ok rfl)
  | strLit string =>
      simp only [string]
      exact Yields.after (advance_eq s) (.of_ok rfl)
  | trueLit truth =>
      simp only [truth]
      exact Yields.after (advance_eq s) (.of_ok rfl)
  | falseLit falsity =>
      simp only [falsity]
      exact Yields.after (advance_eq s) (.of_ok rfl)

theorem parsePrimary_parens {e : Ast} (opens : s.peek.kind = .lParen)
    (body : Yields (parseExpr intern 0) s.next e middle)
    (closes : middle.peek.kind = .rParen) :
    Yields (parsePrimary intern) s e middle.next := by
  apply Yields.spend
  simp only [parsePrimary]
  apply Yields.after (get_eq s)
  simp only [opens]
  apply Yields.after (advance_eq s)
  apply Yields.bind body
  exact Yields.after (expect_eq closes) (.of_ok rfl)

theorem parsePostfix_ends {base : Ast} (noCall : s.peek.kind ≠ .lParen)
    (noField : s.peek.kind ≠ .dot) (noIndex : s.peek.kind ≠ .lBracket) :
    Yields (parsePostfix intern base) s base s := by
  apply Yields.spend
  simp only [parsePostfix]
  apply Yields.after (peekKind_eq s)
  split
  · contradiction
  · contradiction
  · contradiction
  · exact .of_ok rfl

theorem parsePostfix_call {base e : Ast} {es : List Ast} (opens : s.peek.kind = .lParen)
    (arguments : Yields (parseArgs intern) s.next es middle)
    (closes : middle.peek.kind = .rParen)
    (others : Yields (parsePostfix intern (.callExpr base es)) middle.next e final) :
    Yields (parsePostfix intern base) s e final := by
  apply Yields.spend
  simp only [parsePostfix]
  apply Yields.after (peekKind_eq s)
  simp only [opens]
  apply Yields.after (advance_eq s)
  apply Yields.bind arguments
  exact Yields.after (expect_eq closes) others

theorem parsePostfix_field {base e : Ast} (dotted : s.peek.kind = .dot)
    (named : s.next.peek.kind = .ident)
    (others : Yields (parsePostfix intern (.fieldExpr base (intern s.next.peek.text)))
      s.next.next e final) :
    Yields (parsePostfix intern base) s e final := by
  apply Yields.spend
  simp only [parsePostfix]
  apply Yields.after (peekKind_eq s)
  simp only [dotted]
  apply Yields.after (advance_eq s)
  exact Yields.after (expect_eq named) others

theorem parsePostfix_index {base place e : Ast} (opens : s.peek.kind = .lBracket)
    (inner : Yields (parseExpr intern 0) s.next place middle)
    (closes : middle.peek.kind = .rBracket)
    (others : Yields (parsePostfix intern (.indexExpr base place)) middle.next e final) :
    Yields (parsePostfix intern base) s e final := by
  apply Yields.spend
  simp only [parsePostfix]
  apply Yields.after (peekKind_eq s)
  simp only [opens]
  apply Yields.after (advance_eq s)
  apply Yields.bind inner
  exact Yields.after (expect_eq closes) others

theorem parseArgs_none (closes : s.peek.kind = .rParen) :
    Yields (parseArgs intern) s [] s := by
  apply Yields.spend
  simp only [parseArgs]
  apply Yields.after (isAt_eq .rParen s)
  apply Yields.after (isAt_eq .eof s)
  simp only [closes]
  exact .of_ok rfl

theorem parseArgs_last {e : Ast} (more : s.peek.kind ≠ .rParen) (goesOn : s.peek.kind ≠ .eof)
    (arg : Yields (parseExpr intern 0) s e middle) (noComma : middle.peek.kind ≠ .comma) :
    Yields (parseArgs intern) s [e] middle := by
  apply Yields.spend
  simp only [parseArgs]
  apply Yields.after (isAt_eq .rParen s)
  apply Yields.after (isAt_eq .eof s)
  simp only [more, goesOn]
  apply Yields.bind arg
  exact Yields.after (consume_of_ne noComma) (.of_ok rfl)

theorem parseArgs_more {e : Ast} {es : List Ast} (more : s.peek.kind ≠ .rParen)
    (goesOn : s.peek.kind ≠ .eof) (arg : Yields (parseExpr intern 0) s e middle)
    (separated : middle.peek.kind = .comma)
    (others : Yields (parseArgs intern) middle.next es final) :
    Yields (parseArgs intern) s (e :: es) final := by
  apply Yields.spend
  simp only [parseArgs]
  apply Yields.after (isAt_eq .rParen s)
  apply Yields.after (isAt_eq .eof s)
  simp only [more, goesOn]
  apply Yields.bind arg
  apply Yields.after (consume_of_eq separated)
  exact others.bind (.of_ok rfl)

end Parser

end Aegis
