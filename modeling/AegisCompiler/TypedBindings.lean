import AegisCompiler.Parser

/-!
# Bindings with a type annotation

A type annotation is parsed as an expression at the lowest level, and `=` is
an operator of that grammar.  The annotation therefore runs past the equals
sign of the binding, and no initializer is left.
-/

namespace Aegis

namespace Parser

theorem bind_ok {α β : Type} {first : ParserM α} {next : α → ParserM β}
    {s final : ParserState} {result : β} :
    (first >>= next) s = .ok result final ↔
      ∃ value middle, first s = .ok value middle ∧
        next value middle = .ok result final := by
  simp only [bind, EStateM.bind]
  cases first s with
  | ok value middle => simp
  | error failure middle => simp

theorem pure_ok {α : Type} {value result : α} {s final : ParserState} :
    (pure value : ParserM α) s = .ok result final ↔
      value = result ∧ s = final := by
  simp [pure, EStateM.pure]

theorem map_ok {α β : Type} {first : ParserM α} {convert : α → β}
    {s final : ParserState} {result : β} :
    (convert <$> first) s = .ok result final ↔
      ∃ value, first s = .ok value final ∧ convert value = result := by
  simp only [Functor.map, EStateM.map]
  cases first s with
  | ok value middle => simp [and_comm]
  | error failure middle => simp

theorem peekKind_eq (s : ParserState) : peekKind s = .ok s.peek.kind s := rfl

theorem outOfFuel_ok {α : Type} {result : α} {s final : ParserState} :
    outOfFuel s ≠ .ok result final := by
  intro run
  cases run

theorem advance_eq (s : ParserState) : advance s = .ok () s.next := rfl

theorem consume_eq (kind : TokenKind) (s : ParserState) :
    consume kind s =
      if s.peek.kind = kind then .ok true s.next else .ok false s := by
  by_cases here : s.peek.kind = kind
  · simp [consume, bind, EStateM.bind, peekKind_eq, advance_eq, here, pure,
      EStateM.pure]
  · simp [consume, bind, EStateM.bind, peekKind_eq, here, pure, EStateM.pure]

theorem get_eq (s : ParserState) :
    (get : ParserM ParserState) s = .ok s s := rfl

theorem expect_eq {kind : TokenKind} {s : ParserState}
    (here : s.peek.kind = kind) : expect kind s = .ok s.peek s.next := by
  simp [expect, bind, EStateM.bind, get_eq, advance_eq, here, pure,
    EStateM.pure]

theorem afterToken_ok {α : Type} {kind : TokenKind} {part : ParserM α}
    {s final : ParserState} {result : Option α} :
    afterToken kind part s = .ok result final ↔
      (s.peek.kind = kind ∧
        ∃ value, part s.next = .ok value final ∧ result = some value) ∨
      (s.peek.kind ≠ kind ∧ result = none ∧ final = s) := by
  simp only [afterToken, bind_ok, consume_eq]
  by_cases here : s.peek.kind = kind
  · simp [here, map_ok, eq_comm]
  · simp [here, pure_ok, eq_comm]

variable {intern : List Char → SymbolId}

/-- The operator loop ends in front of a token that is no operator of its
level. -/
theorem parseOperators_stops {minPrec : Int} {lhs tree : Ast} {fuel : Nat}
    {s final : ParserState}
    (parsed : parseOperators intern minPrec lhs fuel s = .ok tree final)
    {op : TokenKind} (operator : binaryOpKind final.peek.kind = some op) :
    precedence op < minPrec := by
  induction fuel generalizing lhs s with
  | zero => exact absurd parsed outOfFuel_ok
  | succ fuel ih =>
      rw [parseOperators, bind_ok] at parsed
      obtain ⟨kind, here, peeked, parsed⟩ := parsed
      rw [peekKind_eq] at peeked
      cases peeked
      cases known : binaryOpKind s.peek.kind with
      | none =>
          simp only [known, pure_ok] at parsed
          rw [← parsed.2, known] at operator
          cases operator
      | some first =>
          simp only [known] at parsed
          split at parsed
          case isTrue weak =>
            rw [pure_ok] at parsed
            rw [← parsed.2, known] at operator
            cases operator
            exact weak
          case isFalse =>
            simp only [bind_ok] at parsed
            obtain ⟨-, moved, -, rhs, after, -, parsed⟩ := parsed
            split at parsed
            · exact ih parsed
            · exact ih parsed

theorem parseExpr_stops {minPrec : Int} {tree : Ast} {fuel : Nat}
    {s final : ParserState}
    (parsed : parseExpr intern minPrec fuel s = .ok tree final)
    {op : TokenKind} (operator : binaryOpKind final.peek.kind = some op) :
    precedence op < minPrec := by
  cases fuel with
  | zero => exact absurd parsed outOfFuel_ok
  | succ fuel =>
      rw [parseExpr, bind_ok] at parsed
      obtain ⟨lhs, middle, -, parsed⟩ := parsed
      exact parseOperators_stops parsed operator

/-- No type annotation ends in front of an equals sign. -/
theorem parseTypeAnnotation_not_eq {tree : Ast} {fuel : Nat}
    {s final : ParserState}
    (parsed : parseTypeAnnotation intern fuel s = .ok tree final) :
    final.peek.kind ≠ .eq := by
  cases fuel with
  | zero => exact absurd parsed outOfFuel_ok
  | succ fuel =>
      intro equals
      have weak : precedence .eq < 0 :=
        parseExpr_stops parsed (by rw [equals]; rfl)
      exact absurd weak (by decide)

/-- A binding with an annotation has no initializer. -/
theorem parseLetOrVarStmt_typed {isVar keptVar : Bool} {name : SymbolId}
    {typeAnn : Ast} {init : Option Ast} {fuel : Nat} {s final : ParserState}
    (parsed : parseLetOrVarStmt intern isVar fuel s =
      .ok (.letStmt name (some typeAnn) init keptVar) final) :
    init = none := by
  cases fuel with
  | zero => exact absurd parsed outOfFuel_ok
  | succ fuel =>
      simp only [parseLetOrVarStmt, bind_ok, afterToken_ok, pure_ok,
        Ast.letStmt.injEq] at parsed
      obtain ⟨-, s₁, -, nameTok, s₂, -, annotation, s₃, annotated, value,
        s₄, initialized, -, s₅, -, ⟨-, found, rfl, -⟩, -⟩ := parsed
      obtain ⟨-, tree, parsedType, -⟩ | ⟨-, absent, -⟩ := annotated
      · obtain ⟨equals, -⟩ | ⟨-, absent, -⟩ := initialized
        · exact absurd equals (parseTypeAnnotation_not_eq parsedType)
        · exact absent
      · rw [absent] at found
        cases found

/-- A binding without an annotation keeps its initializer. -/
theorem parseLetOrVarStmt_untyped {isVar : Bool} {fuel : Nat}
    {s middle final : ParserState} {init : Ast}
    (keyword : s.peek.kind = if isVar then .varKw else .letKw)
    (named : s.next.peek.kind = .ident)
    (equals : s.next.next.peek.kind = .eq)
    (parsed : parseExpr intern 0 fuel s.next.next.next = .ok init middle)
    (ended : consume .semicolon middle = .ok true final) :
    parseLetOrVarStmt intern isVar (fuel + 1) s =
      .ok (.letStmt (intern s.next.peek.text) none (some init) isVar)
        final := by
  simp only [parseLetOrVarStmt, bind_ok, pure_ok]
  refine ⟨s.peek, s.next, expect_eq keyword, s.next.peek, s.next.next,
    expect_eq named, none, s.next.next, ?_, some init, middle, ?_,
    true, final, ended, rfl, rfl⟩
  · rw [afterToken_ok]
    exact Or.inr ⟨by simp [equals], rfl, rfl⟩
  · rw [afterToken_ok]
    exact Or.inl ⟨equals, init, parsed, rfl⟩

/-- The tokens of `let x: T = e;`, or of the `var` form. -/
def typedBinding (isVar : Bool) (name : Token) (typeToks initToks : List Token) :
    List Token :=
  { kind := if isVar then .varKw else .letKw } :: name :: { kind := .colon } ::
    typeToks ++ { kind := .eq } :: initToks ++
      [{ kind := .semicolon }, { kind := .eof }]

/-- The tokens are an expression with the given tree. -/
def Parses (intern : List Char → SymbolId) (toks : List Token) (tree : Ast) :
    Prop :=
  ∃ fuel final, parseExpr intern 0 fuel { toks := toks ++ [{}] } =
    .ok tree final ∧ final.pos = toks.length ∧ final.diagnostics = []

/-- Parsing a typed binding keeps both the annotation and the initializer. -/
def KeepsInitializer (intern : List Char → SymbolId) (isVar : Bool)
    (name : Token) (typeToks initToks : List Token) (typeTree initTree : Ast) :
    Prop :=
  ∃ fuel final, parseLetOrVarStmt intern isVar fuel
      { toks := typedBinding isVar name typeToks initToks } =
    .ok (.letStmt (intern name.text) (some typeTree) (some initTree) isVar)
      final

/-- No typed binding keeps its initializer, whatever the annotation and the
initializer are. -/
theorem typedBinding_never_keeps (intern : List Char → SymbolId)
    (isVar : Bool) (name : Token) (typeToks initToks : List Token)
    (typeTree initTree : Ast) :
    ¬ KeepsInitializer intern isVar name typeToks initToks typeTree
      initTree := by
  rintro ⟨fuel, final, parsed⟩
  cases parseLetOrVarStmt_typed parsed

section Example

/-- The token of an `i32` annotation. -/
def i32Token : Token := { kind := .i32Kw, text := ['i', '3', '2'] }

/-- The token of the literal 5. -/
def fiveToken : Token := { kind := .intLit, text := ['5'] }

variable (intern : List Char → SymbolId)

theorem i32Token_parses :
    Parses intern [i32Token] (.ident (intern ['i', '3', '2'])) :=
  ⟨4, _, rfl, rfl, rfl⟩

theorem fiveToken_parses : Parses intern [fiveToken] (.intLit 5) :=
  ⟨4, _, rfl, rfl, rfl⟩

/-- In `let x: i32 = 5;` the annotation swallows the initializer. -/
example :
    ∃ final, parseLetOrVarStmt intern false 9
        { toks := typedBinding false { kind := .ident, text := ['x'] }
            [i32Token] [fiveToken] } =
      .ok (.letStmt (intern ['x'])
        (some (.assignExpr .eq (.ident (intern ['i', '3', '2'])) (.intLit 5)))
        none false) final ∧ final.diagnostics = [] :=
  ⟨_, rfl, rfl⟩

end Example

theorem not_typedBindings_keep :
    ¬ ∀ (intern : List Char → SymbolId) (isVar : Bool) (name : Token)
      (typeToks initToks : List Token) (typeTree initTree : Ast),
      name.kind = .ident →
      Parses intern typeToks typeTree → Parses intern initToks initTree →
      KeepsInitializer intern isVar name typeToks initToks typeTree
        initTree := by
  intro keeps
  obtain ⟨fuel, final, parsed⟩ := keeps (fun _ => 0) false
    { kind := .ident, text := ['x'] } [i32Token] [fiveToken] _ _ rfl
    (i32Token_parses _) (fiveToken_parses _)
  cases parseLetOrVarStmt_typed parsed

end Parser

end Aegis
