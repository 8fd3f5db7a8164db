import AegisCompiler.PairedRuns
import AegisCompiler.TypedBindings

/-!
# The parser stays in front of the end token

From states that agree up to the end token the parser does the same, whatever tokens stand
behind it, and with fuel that grows with the number of tokens that are left it never runs out.
-/

namespace Aegis

namespace Parser

open PairedRuns

/-- The same tokens up to a place, which is the first place of an end token. -/
structure SameTokens (last : Nat) (toks toks' : List Token) : Prop where
  inside : last < toks.length
  inside' : last < toks'.length
  same : ∀ i ≤ last, toks'.getD i {} = toks.getD i {}
  ends : ∀ i ≤ last, (toks.getD i {}).kind = .eof ↔ i = last

/-- Two states in front of the same tokens, not behind the end token. -/
structure Twin (last : Nat) (s s' : ParserState) : Prop where
  tokens : SameTokens last s.toks s'.toks
  pos_le : s.pos ≤ last
  pos_eq : s'.pos = s.pos
  diagnostics_eq : s'.diagnostics = s.diagnostics

/-- The same results at some place or behind it; the first parser may run out of fuel if it is
short of it. -/
abbrev Alike {α : Type} (short : Prop) (last least : Nat)
    (result result' : EStateM.Result ParseFailure ParserState α) : Prop :=
  Agree (fun failure => short ∧ failure = .outOfFuel) (· ≠ .outOfFuel) (Twin last)
    (least ≤ ·.pos) result result'

section Rules

variable {α β : Type} {short : Prop} {last least : Nat} {s s' : ParserState}

theorem Alike.andThen {first first' : ParserM α} {next next' : α → ParserM β} {middle : Nat}
    (here : Alike short last middle (first s) (first' s'))
    (rest : ∀ value t t', Twin last t t' → middle ≤ t.pos → t.pos ≤ last →
      Alike short last least (next value t) (next' value t')) :
    Alike short last least ((first >>= next) s) ((first' >>= next') s') :=
  Agree.bind here fun value t t' states moved => rest value t t' states moved states.pos_le

theorem Twin.peek_eq (twin : Twin last s s') : s'.peek = s.peek := by
  have inside := twin.tokens.inside
  have inside' := twin.tokens.inside'
  have pos := twin.pos_le
  rw [ParserState.peek, ParserState.peek, twin.pos_eq, Nat.min_eq_left (by omega),
    Nat.min_eq_left (by omega), twin.tokens.same s.pos pos]

/-- Only at the last place stands an end token. -/
theorem Twin.eof_iff (twin : Twin last s s') : s.peek.kind = .eof ↔ s.pos = last := by
  have inside := twin.tokens.inside
  have pos := twin.pos_le
  rw [ParserState.peek, Nat.min_eq_left (by omega)]
  exact twin.tokens.ends s.pos pos

/-- Behind a token that is no end token the states still agree. -/
theorem Twin.next (twin : Twin last s s') (goesOn : s.peek.kind ≠ .eof) :
    Twin last s.next s'.next := by
  have pos := twin.pos_le
  have before : s.pos ≠ last := fun ended => goesOn (twin.eof_iff.mpr ended)
  constructor
  · exact twin.tokens
  · change s.pos + 1 ≤ last
    omega
  · exact congrArg (· + 1) twin.pos_eq
  · exact twin.diagnostics_eq

theorem bind_of_ok {first : ParserM α} {next : α → ParserM β} {t : ParserState} {value : α}
    (ran : first s = .ok value t) : (first >>= next) s = next value t := by
  change EStateM.bind first next s = _
  rw [EStateM.bind, ran]

theorem Twin.pure (twin : Twin last s s') (value : α) (moved : least ≤ s.pos) :
    Alike short last least ((Pure.pure value : ParserM α) s) ((Pure.pure value : ParserM α) s') :=
  .ok twin moved

theorem Twin.fail (twin : Twin last s s') :
    Alike short last least ((Parser.fail : ParserM α) s) (Parser.fail s') := by
  have peek := twin.peek_eq
  change Alike short last least
    (.error (.error { span := s.peek.span })
      { s with diagnostics := s.diagnostics ++ [{ span := s.peek.span }] } : EStateM.Result _ _ α)
    (.error (.error { span := s'.peek.span })
      { s' with diagnostics := s'.diagnostics ++ [{ span := s'.peek.span }] })
  rw [peek, twin.diagnostics_eq]
  exact .error nofun ⟨twin.tokens, twin.pos_le, twin.pos_eq, rfl⟩

/-- Reading the kind of the current token. -/
theorem Twin.peekKind {next next' : TokenKind → ParserM β} (twin : Twin last s s')
    (rest : Alike short last least (next s.peek.kind s) (next' s.peek.kind s')) :
    Alike short last least ((Parser.peekKind >>= next) s) ((Parser.peekKind >>= next') s') := by
  change Alike short last least (next s.peek.kind s) (next' s'.peek.kind s')
  rwa [twin.peek_eq]

theorem Twin.isAt {kind : TokenKind} {next next' : Bool → ParserM β} (twin : Twin last s s')
    (rest : Alike short last least (next (decide (s.peek.kind = kind)) s)
      (next' (decide (s.peek.kind = kind)) s')) :
    Alike short last least ((Parser.isAt kind >>= next) s) ((Parser.isAt kind >>= next') s') := by
  change Alike short last least (next (decide (s.peek.kind = kind)) s)
    (next' (decide (s'.peek.kind = kind)) s')
  rwa [twin.peek_eq]

/-- Looking at the current token. -/
theorem Twin.get {next next' : ParserState → ParserM β} (twin : Twin last s s')
    (rest : s'.peek = s.peek → Alike short last least (next s s) (next' s' s')) :
    Alike short last least ((MonadStateOf.get >>= next) s) ((MonadStateOf.get >>= next') s') :=
  rest twin.peek_eq

/-- Moving on from a token that is no end token. -/
theorem Twin.advance {next next' : Unit → ParserM β} (twin : Twin last s s')
    (goesOn : s.peek.kind ≠ .eof)
    (rest : ∀ t t', Twin last t t' → s.pos + 1 ≤ t.pos → t.pos ≤ last →
      Alike short last least (next () t) (next' () t')) :
    Alike short last least ((Parser.advance >>= next) s) ((Parser.advance >>= next') s') :=
  rest _ _ (twin.next goesOn) (Nat.le_refl _) (twin.next goesOn).pos_le

/-- A token that may be there. -/
theorem Twin.consume {kind : TokenKind} {next next' : Bool → ParserM β} (twin : Twin last s s')
    (noEnd : kind ≠ .eof)
    (taken : ∀ t t', Twin last t t' → s.pos + 1 ≤ t.pos → t.pos ≤ last →
      Alike short last least (next true t) (next' true t'))
    (other : s.peek.kind ≠ kind → Alike short last least (next false s) (next' false s')) :
    Alike short last least ((Parser.consume kind >>= next) s)
      ((Parser.consume kind >>= next') s') := by
  have peek := twin.peek_eq
  by_cases here : s.peek.kind = kind
  · rw [bind_of_ok ((consume_eq kind s).trans (if_pos here)),
      bind_of_ok ((consume_eq kind s').trans (if_pos (peek ▸ here)))]
    have further := twin.next (here ▸ noEnd)
    exact taken _ _ further (Nat.le_refl _) further.pos_le
  · rw [bind_of_ok ((consume_eq kind s).trans (if_neg here)),
      bind_of_ok ((consume_eq kind s').trans (if_neg (peek ▸ here)))]
    exact other here

/-- The state behind a report of the current token. -/
def reported (s : ParserState) : ParserState :=
  { s with diagnostics := s.diagnostics ++ [{ span := s.peek.span }] }

theorem makeErr_eq (t : Token) (s : ParserState) :
    makeErr t s =
      .ok { span := t.span } { s with diagnostics := s.diagnostics ++ [{ span := t.span }] } :=
  rfl

theorem expect_other {kind : TokenKind} (other : s.peek.kind ≠ kind) :
    Parser.expect kind s = .ok s.peek (reported s) := by
  simp [Parser.expect, makeErr_eq, bind, EStateM.bind, get_eq, other, Pure.pure, EStateM.pure,
    reported]

theorem Twin.reported (twin : Twin last s s') :
    Twin last (Parser.reported s) (Parser.reported s') := by
  refine ⟨twin.tokens, twin.pos_le, twin.pos_eq, ?_⟩
  rw [Parser.reported, Parser.reported, twin.peek_eq, twin.diagnostics_eq]

/-- A token that should be there. -/
theorem Twin.expect {kind : TokenKind} {next next' : Token → ParserM β} (twin : Twin last s s')
    (noEnd : kind ≠ .eof)
    (rest : ∀ t t', Twin last t t' → s.pos ≤ t.pos → t.pos ≤ last →
      (s.peek.kind = kind → s.pos + 1 ≤ t.pos) →
        Alike short last least (next s.peek t) (next' s.peek t')) :
    Alike short last least ((Parser.expect kind >>= next) s)
      ((Parser.expect kind >>= next') s') := by
  have peek := twin.peek_eq
  by_cases here : s.peek.kind = kind
  · rw [bind_of_ok (expect_eq here), bind_of_ok (expect_eq (peek ▸ here)), peek]
    have further := twin.next (here ▸ noEnd)
    exact rest _ _ further (Nat.le_succ _) further.pos_le fun _ => Nat.le_refl _
  · rw [bind_of_ok (expect_other here), bind_of_ok (expect_other (peek ▸ here)), peek]
    exact rest _ _ twin.reported (Nat.le_refl _) twin.pos_le fun equal => absurd equal here

/-- An optional part. -/
theorem Twin.afterToken {kind : TokenKind} {part part' : ParserM α}
    {next next' : Option α → ParserM β} (twin : Twin last s s') (noEnd : kind ≠ .eof)
    (present : ∀ t t', Twin last t t' → s.pos + 1 ≤ t.pos → t.pos ≤ last →
      Alike short last s.pos (part t) (part' t'))
    (rest : ∀ value t t', Twin last t t' → s.pos ≤ t.pos → t.pos ≤ last →
      Alike short last least (next value t) (next' value t')) :
    Alike short last least ((Parser.afterToken kind part >>= next) s)
      ((Parser.afterToken kind part' >>= next') s') := by
  rw [Parser.afterToken, Parser.afterToken, bind_assoc, bind_assoc]
  refine twin.consume noEnd (fun t t' further moved inside => ?_) fun _ => ?_
  · simp only [if_true, bind_assoc, pure_bind]
    exact (present t t' further moved inside).andThen (rest ·)
  · simp only [Bool.false_eq_true, if_false, pure_bind]
    exact rest _ s s' twin (Nat.le_refl _) twin.pos_le

end Rules

/-- With enough fuel for the tokens that are left the parser does what it does with any fuel
that it does not run out of, from states that agree, and it takes at least some tokens. -/
def Copies {α : Type} (last rank gain : Nat) (starts : TokenKind → Prop)
    (parse : Nat → ParserM α) (fuel : Nat) : Prop :=
  ∀ (short : Prop) fuel' s s', Twin last s s' → starts s.peek.kind →
    (fuel < 10 * (last - s.pos) + rank → short) → 10 * (last - s.pos) + rank ≤ fuel' →
      Alike short last (s.pos + gain) (parse fuel s) (parse fuel' s')

/-- Any token may be the first one. -/
abbrev Anything (_ : TokenKind) : Prop := True

section Copying

variable {α : Type} {last rank gain fuel : Nat} {starts : TokenKind → Prop}
  {parse : Nat → ParserM α}

theorem copies_zero (some_ : 0 < rank) (gone : parse 0 = outOfFuel) :
    Copies last rank gain starts parse 0 := by
  intro short fuel' s s' _ _ enough _
  rw [gone]
  exact .aborted ⟨enough (by omega), rfl⟩

theorem copies_succ (some_ : 0 < rank)
    (body : ∀ (short : Prop) fuel' s s', Twin last s s' → starts s.peek.kind →
      (fuel + 1 < 10 * (last - s.pos) + rank → short) →
        10 * (last - s.pos) + rank ≤ fuel' + 1 →
          Alike short last (s.pos + gain) (parse (fuel + 1) s) (parse (fuel' + 1) s')) :
    Copies last rank gain starts parse (fuel + 1) := by
  intro short fuel' s s' twin start enough enough'
  obtain ⟨fuel', rfl⟩ : ∃ less, fuel' = less + 1 := ⟨fuel' - 1, by omega⟩
  exact body short fuel' s s' twin start enough enough'

end Copying

variable (intern : List Char → SymbolId) (last : Nat)

theorem segments_copies (fuel : Nat) :
    Copies last 1 0 Anything (parsePathSegments intern) fuel := by
  induction fuel with
  | zero => exact copies_zero Nat.one_pos rfl
  | succ fuel ih =>
      refine copies_succ Nat.one_pos fun short fuel' s s' twin _ enough enough' => ?_
      rw [parsePathSegments, parsePathSegments]
      refine twin.expect nofun fun t t' twin moved inside _ => ?_
      refine twin.consume nofun (fun u u' twin moved' inside' => ?_) fun _ => ?_
      · refine (ih _ fuel' u u' twin trivial (fun less => enough (by omega)) (by omega)).andThen
          fun segments v v' twin moved'' _ => ?_
        exact twin.pure _ (by omega)
      · exact twin.pure _ (by omega)

/-- A pattern has at least one token. -/
theorem pattern_copies (fuel : Nat) : Copies last 1 1 Anything (parsePattern intern) fuel := by
  induction fuel with
  | zero => exact copies_zero Nat.one_pos rfl
  | succ fuel ih =>
      refine copies_succ Nat.one_pos fun short fuel' s s' twin _ enough enough' => ?_
      rw [parsePattern, parsePattern]
      refine twin.consume nofun (fun t t' twin moved inside => ?_) fun _ => ?_
      · refine twin.expect nofun fun u u' twin moved' inside' _ => ?_
        refine twin.consume nofun (fun v v' twin moved'' inside'' => ?_) fun _ => ?_
        · refine (ih _ fuel' v v' twin trivial (fun less => enough (by omega)) (by omega)).andThen
            fun sub w w' twin _ _ => ?_
          refine twin.expect nofun fun x x' twin _ _ _ => ?_
          exact twin.pure _ (by omega)
        · exact twin.pure _ (by omega)
      · refine twin.isAt ?_
        by_cases name : s.peek.kind = .ident
        · rw [decide_eq_true name]
          refine twin.get fun peek => ?_
          simp only [peek]
          refine twin.advance (by rw [name]; nofun) fun t t' twin moved inside => ?_
          refine twin.consume nofun (fun u u' twin moved' inside' => ?_) fun _ => ?_
          · refine (segments_copies intern last fuel _ fuel' u u' twin trivial
              (fun less => enough (by omega))
              (by omega)).andThen fun segments v v' twin moved'' _ => ?_
            refine twin.consume nofun (fun w w' twin _ _ => ?_) fun _ => ?_
            · refine (ih _ fuel' w w' twin trivial (fun less => enough (by omega))
                (by omega)).andThen fun sub x x' twin _ _ => ?_
              refine twin.expect nofun fun y y' twin _ _ _ => ?_
              exact twin.pure _ (by omega)
            · exact twin.pure _ (by omega)
          · exact twin.pure _ (by omega)
        · rw [decide_eq_false name]
          exact twin.fail

/-- The end token is no operator. -/
theorem ne_eof_of_binary {kind op : TokenKind} (known : binaryOpKind kind = some op) :
    kind ≠ .eof := by
  rintro rfl
  cases known

/-- The parsers of statements and expressions, with the fuel they need in front of a token and
the tokens that they take at least. -/
structure GrammarCopies (fuel : Nat) : Prop where
  block : Copies last 9 0 Anything (parseBlock intern) fuel
  blockAt : Copies last 1 1 (· = .lBrace) (parseBlock intern) fuel
  stmts : Copies last 8 0 Anything (parseStmts intern) fuel
  stmt : Copies last 7 1 Anything (parseStmt intern) fuel
  letOrVar : ∀ isVar, Copies last 6 1 (· = if isVar = true then .varKw else .letKw)
    (parseLetOrVarStmt intern isVar) fuel
  typeName : Copies last 5 1 Anything (fun fuel => parseTypeAnnotation intern fuel) fuel
  returnStmt : Copies last 5 1 (· = .returnKw) (parseReturnStmt intern) fuel
  ifStmt : Copies last 5 1 (· = .ifKw) (parseIfStmt intern) fuel
  forStmt : Copies last 5 1 (· = .forKw) (parseForStmt intern) fuel
  matchStmt : Copies last 5 1 (· = .matchKw) (parseMatchStmt intern) fuel
  arms : Copies last 2 0 Anything (parseArms intern) fuel
  expr : ∀ minPrec, Copies last 4 1 Anything (parseExpr intern minPrec) fuel
  operators : ∀ minPrec lhs, Copies last 1 0 Anything (parseOperators intern minPrec lhs) fuel
  unary : Copies last 3 1 Anything (parseUnary intern) fuel
  primary : Copies last 2 1 Anything (parsePrimary intern) fuel
  postfix_ : ∀ base, Copies last 1 0 Anything (parsePostfix intern base) fuel
  args : Copies last 5 0 Anything (parseArgs intern) fuel

section Steps

variable {intern last} {fuel : Nat} (specs : GrammarCopies intern last fuel)

include specs

theorem block_step : Copies last 9 0 Anything (parseBlock intern) (fuel + 1) := by
  refine copies_succ (by decide) fun short fuel' s s' twin _ enough enough' => ?_
  rw [parseBlock, parseBlock]
  refine twin.expect nofun fun t t' twin moved inside _ => ?_
  refine (specs.stmts _ fuel' t t' twin trivial (fun less => enough (by omega)) (by omega)).andThen
    fun stmts u u' twin _ _ => ?_
  refine twin.expect nofun fun v v' twin _ _ _ => ?_
  exact twin.pure _ (by omega)

theorem blockAt_step : Copies last 1 1 (· = .lBrace) (parseBlock intern) (fuel + 1) := by
  refine copies_succ Nat.one_pos fun short fuel' s s' twin brace enough enough' => ?_
  rw [parseBlock, parseBlock]
  refine twin.expect nofun fun t t' twin moved inside taken => ?_
  have further := taken brace
  refine (specs.stmts _ fuel' t t' twin trivial (fun less => enough (by omega)) (by omega)).andThen
    fun stmts u u' twin _ _ => ?_
  refine twin.expect nofun fun v v' twin _ _ _ => ?_
  exact twin.pure _ (by omega)

theorem stmts_step : Copies last 8 0 Anything (parseStmts intern) (fuel + 1) := by
  refine copies_succ (by decide) fun short fuel' s s' twin _ enough enough' => ?_
  rw [parseStmts, parseStmts]
  refine twin.isAt (twin.isAt ?_)
  split
  case isTrue => exact twin.pure _ (by omega)
  case isFalse =>
    refine (specs.stmt _ fuel' s s' twin trivial (fun less => enough (by omega)) (by omega)).andThen
      fun stmt t t' twin _ _ => ?_
    refine (specs.stmts _ fuel' t t' twin trivial (fun less => enough (by omega))
      (by omega)).andThen fun others u u' twin _ _ => ?_
    exact twin.pure _ (by omega)

/-- A statement that is an expression, with a semicolon behind it or without. -/
theorem exprStmt_copies (short : Prop) (fuel' : Nat) {s s' : ParserState}
    (twin : Twin last s s') (enough : fuel < 10 * (last - s.pos) + 4 → short)
    (enough' : 10 * (last - s.pos) + 4 ≤ fuel') :
    Alike short last (s.pos + 1)
      ((do
        let e ← parseExpr intern 0 fuel
        if e.isAssignExpr then
          let _ ← consume .semicolon
          return e
        else if ← consume .semicolon then
          return .exprStmt e
        else
          return e : ParserM Ast) s)
      ((do
        let e ← parseExpr intern 0 fuel'
        if e.isAssignExpr then
          let _ ← consume .semicolon
          return e
        else if ← consume .semicolon then
          return .exprStmt e
        else
          return e : ParserM Ast) s') := by
  refine (specs.expr 0 _ fuel' s s' twin trivial enough enough').andThen
    fun e t t' twin _ _ => ?_
  split
  case isTrue =>
    refine twin.consume nofun (fun u u' twin _ _ => ?_) fun _ => ?_
    · exact twin.pure _ (by omega)
    · exact twin.pure _ (by omega)
  case isFalse =>
    refine twin.consume nofun (fun u u' twin _ _ => ?_) fun _ => ?_
    · exact twin.pure _ (by omega)
    · exact twin.pure _ (by omega)

theorem stmt_step : Copies last 7 1 Anything (parseStmt intern) (fuel + 1) := by
  refine copies_succ (by decide) fun short fuel' s s' twin _ enough enough' => ?_
  have plain := exprStmt_copies specs short fuel' twin (fun less => enough (by omega)) (by omega)
  rw [parseStmt, parseStmt]
  refine twin.peekKind ?_
  cases here : s.peek.kind <;> first
    | exact plain
    | exact specs.letOrVar false _ fuel' s s' twin here (fun less => enough (by omega)) (by omega)
    | exact specs.letOrVar true _ fuel' s s' twin here (fun less => enough (by omega)) (by omega)
    | exact specs.returnStmt _ fuel' s s' twin here (fun less => enough (by omega)) (by omega)
    | exact specs.ifStmt _ fuel' s s' twin here (fun less => enough (by omega)) (by omega)
    | exact specs.forStmt _ fuel' s s' twin here (fun less => enough (by omega)) (by omega)
    | exact specs.matchStmt _ fuel' s s' twin here (fun less => enough (by omega)) (by omega)
    | exact specs.blockAt _ fuel' s s' twin here (fun less => enough (by omega)) (by omega)

theorem letOrVar_step (isVar : Bool) :
    Copies last 6 1 (· = if isVar = true then .varKw else .letKw)
      (parseLetOrVarStmt intern isVar) (fuel + 1) := by
  refine copies_succ (by decide) fun short fuel' s s' twin start enough enough' => ?_
  rw [parseLetOrVarStmt, parseLetOrVarStmt]
  have noEnd : (if isVar = true then TokenKind.varKw else .letKw) ≠ .eof := by
    cases isVar <;> decide
  refine twin.expect noEnd fun t t' twin _ _ taken => ?_
  have further := taken start
  refine twin.expect (by decide) fun u u' twin _ _ _ => ?_
  refine twin.afterToken (by decide) (fun v v' twin _ _ => ?_) fun typeAnn v v' twin _ _ => ?_
  · exact (specs.typeName _ fuel' v v' twin trivial (fun less => enough (by omega))
      (by omega)).imp fun w moved => by omega
  · refine twin.afterToken (by decide) (fun w w' twin _ _ => ?_) fun init w w' twin _ _ => ?_
    · exact (specs.expr 0 _ fuel' w w' twin trivial (fun less => enough (by omega)) (by omega)).imp
        fun x moved => by omega
    · refine twin.consume (by decide) (fun x x' twin _ _ => ?_) fun _ => ?_
      · exact twin.pure _ (by omega)
      · exact twin.pure _ (by omega)

theorem typeAnnotation_step :
    Copies last 5 1 Anything (fun fuel => parseTypeAnnotation intern fuel) (fuel + 1) := by
  refine copies_succ (by decide) fun short fuel' s s' twin _ enough enough' => ?_
  unfold parseTypeAnnotation
  exact specs.expr 0 _ fuel' s s' twin trivial (fun less => enough (by omega)) (by omega)

theorem returnStmt_step :
    Copies last 5 1 (· = .returnKw) (parseReturnStmt intern) (fuel + 1) := by
  refine copies_succ (by decide) fun short fuel' s s' twin start enough enough' => ?_
  rw [parseReturnStmt, parseReturnStmt]
  refine twin.expect nofun fun t t' twin _ _ taken => ?_
  have further := taken start
  refine twin.peekKind ?_
  split
  case isTrue =>
    refine twin.consume nofun (fun u u' twin _ _ => ?_) fun _ => ?_
    · exact twin.pure _ (by omega)
    · exact twin.pure _ (by omega)
  case isFalse =>
    refine (specs.expr 0 _ fuel' t t' twin trivial (fun less => enough (by omega))
      (by omega)).andThen fun e u u' twin _ _ => ?_
    refine twin.consume nofun (fun v v' twin _ _ => ?_) fun _ => ?_
    · exact twin.pure _ (by omega)
    · exact twin.pure _ (by omega)

theorem ifStmt_step : Copies last 5 1 (· = .ifKw) (parseIfStmt intern) (fuel + 1) := by
  refine copies_succ (by decide) fun short fuel' s s' twin start enough enough' => ?_
  rw [parseIfStmt, parseIfStmt]
  refine twin.expect nofun fun t t' twin _ _ taken => ?_
  have further := taken start
  refine (specs.expr 0 _ fuel' t t' twin trivial (fun less => enough (by omega)) (by omega)).andThen
    fun cond u u' twin _ _ => ?_
  refine (specs.block _ fuel' u u' twin trivial (fun less => enough (by omega)) (by omega)).andThen
    fun thenBlock v v' twin _ _ => ?_
  refine twin.afterToken nofun (fun w w' twin _ _ => ?_) fun elseBlock w w' twin _ _ => ?_
  · exact (specs.block _ fuel' w w' twin trivial (fun less => enough (by omega)) (by omega)).imp
      fun x moved => by omega
  · exact twin.pure _ (by omega)

theorem forStmt_step : Copies last 5 1 (· = .forKw) (parseForStmt intern) (fuel + 1) := by
  refine copies_succ (by decide) fun short fuel' s s' twin start enough enough' => ?_
  rw [parseForStmt, parseForStmt]
  refine twin.expect nofun fun t t' twin _ _ taken => ?_
  have further := taken start
  refine twin.expect nofun fun u u' twin _ _ _ => ?_
  refine twin.expect nofun fun v v' twin _ _ _ => ?_
  refine (specs.expr 0 _ fuel' v v' twin trivial (fun less => enough (by omega)) (by omega)).andThen
    fun lo w w' twin _ _ => ?_
  refine twin.expect nofun fun x x' twin _ _ _ => ?_
  refine (specs.expr 0 _ fuel' x x' twin trivial (fun less => enough (by omega)) (by omega)).andThen
    fun hi y y' twin _ _ => ?_
  refine (specs.block _ fuel' y y' twin trivial (fun less => enough (by omega)) (by omega)).andThen
    fun body z z' twin _ _ => ?_
  exact twin.pure _ (by omega)

theorem matchStmt_step : Copies last 5 1 (· = .matchKw) (parseMatchStmt intern) (fuel + 1) := by
  refine copies_succ (by decide) fun short fuel' s s' twin start enough enough' => ?_
  rw [parseMatchStmt, parseMatchStmt]
  refine twin.expect nofun fun t t' twin _ _ taken => ?_
  have further := taken start
  refine (specs.expr 0 _ fuel' t t' twin trivial (fun less => enough (by omega)) (by omega)).andThen
    fun scrutinee u u' twin _ _ => ?_
  refine twin.expect nofun fun v v' twin _ _ _ => ?_
  refine (specs.arms _ fuel' v v' twin trivial (fun less => enough (by omega)) (by omega)).andThen
    fun arms w w' twin _ _ => ?_
  refine twin.expect nofun fun x x' twin _ _ _ => ?_
  exact twin.pure _ (by omega)

theorem arms_step : Copies last 2 0 Anything (parseArms intern) (fuel + 1) := by
  refine copies_succ (by decide) fun short fuel' s s' twin _ enough enough' => ?_
  rw [parseArms, parseArms]
  refine twin.isAt (twin.isAt ?_)
  split
  case isTrue => exact twin.pure _ (by omega)
  case isFalse =>
    refine (pattern_copies intern last fuel _ fuel' s s' twin trivial
      (fun less => enough (by omega))
      (by omega)).andThen fun pattern t t' twin _ _ => ?_
    refine twin.expect nofun fun u u' twin _ _ _ => ?_
    refine (specs.expr 0 _ fuel' u u' twin trivial (fun less => enough (by omega))
      (by omega)).andThen fun body v v' twin _ _ => ?_
    refine twin.consume nofun (fun w w' twin _ _ => ?_) fun _ => ?_
    · refine (specs.arms _ fuel' w w' twin trivial (fun less => enough (by omega))
        (by omega)).andThen fun others x x' twin _ _ => ?_
      exact twin.pure _ (by omega)
    · refine (specs.arms _ fuel' v v' twin trivial (fun less => enough (by omega))
        (by omega)).andThen fun others x x' twin _ _ => ?_
      exact twin.pure _ (by omega)

theorem expr_step (minPrec : Int) :
    Copies last 4 1 Anything (parseExpr intern minPrec) (fuel + 1) := by
  refine copies_succ (by decide) fun short fuel' s s' twin _ enough enough' => ?_
  rw [parseExpr, parseExpr]
  refine (specs.unary _ fuel' s s' twin trivial (fun less => enough (by omega)) (by omega)).andThen
    fun lhs t t' twin _ _ => ?_
  exact (specs.operators minPrec lhs _ fuel' t t' twin trivial (fun less => enough (by omega))
    (by omega)).imp fun u moved => by omega

theorem operators_step (minPrec : Int) (lhs : Ast) :
    Copies last 1 0 Anything (parseOperators intern minPrec lhs) (fuel + 1) := by
  refine copies_succ Nat.one_pos fun short fuel' s s' twin _ enough enough' => ?_
  rw [parseOperators, parseOperators]
  refine twin.peekKind ?_
  cases known : binaryOpKind s.peek.kind with
  | none => exact twin.pure _ (by omega)
  | some op =>
      dsimp only
      split
      case isTrue => exact twin.pure _ (by omega)
      case isFalse =>
        refine twin.advance (ne_eof_of_binary known) fun t t' twin _ _ => ?_
        refine (specs.expr _ _ fuel' t t' twin trivial (fun less => enough (by omega))
          (by omega)).andThen fun rhs u u' twin _ _ => ?_
        split
        case isTrue =>
          exact (specs.operators minPrec _ _ fuel' u u' twin trivial (fun less => enough (by omega))
            (by omega)).imp fun v moved => by omega
        case isFalse =>
          exact (specs.operators minPrec _ _ fuel' u u' twin trivial (fun less => enough (by omega))
            (by omega)).imp fun v moved => by omega

theorem unary_step : Copies last 3 1 Anything (parseUnary intern) (fuel + 1) := by
  refine copies_succ (by decide) fun short fuel' s s' twin _ enough enough' => ?_
  rw [parseUnary, parseUnary]
  refine twin.peekKind ?_
  split
  case isTrue sign =>
    have goesOn : s.peek.kind ≠ .eof := by
      rcases sign with sign | sign | sign
      all_goals
        rw [sign]
        nofun
    refine twin.advance goesOn fun t t' twin _ _ => ?_
    refine (specs.unary _ fuel' t t' twin trivial (fun less => enough (by omega))
      (by omega)).andThen fun operand u u' twin _ _ => ?_
    exact twin.pure _ (by omega)
  case isFalse =>
    refine (specs.primary _ fuel' s s' twin trivial (fun less => enough (by omega))
      (by omega)).andThen fun base t t' twin _ _ => ?_
    exact (specs.postfix_ base _ fuel' t t' twin trivial (fun less => enough (by omega))
      (by omega)).imp fun u moved => by omega

theorem primary_step : Copies last 2 1 Anything (parsePrimary intern) (fuel + 1) := by
  refine copies_succ (by decide) fun short fuel' s s' twin _ enough enough' => ?_
  rw [parsePrimary, parsePrimary]
  refine twin.get fun peek => ?_
  simp only [peek]
  cases here : s.peek.kind <;> first
    | exact twin.fail
    | exact specs.blockAt _ fuel' s s' twin here (fun less => enough (by omega)) (by omega)
    | exact twin.advance (by rw [here]; nofun) fun t t' twin _ _ => twin.pure _ (by omega)
    | skip
  case ident =>
    refine twin.advance (by rw [here]; nofun) fun t t' twin _ _ => ?_
    refine twin.consume nofun (fun u u' twin _ _ => ?_) fun _ => ?_
    · refine (segments_copies intern last fuel _ fuel' u u' twin trivial
        (fun less => enough (by omega))
        (by omega)).andThen fun segments v v' twin _ _ => ?_
      exact twin.pure _ (by omega)
    · exact twin.pure _ (by omega)
  case lParen =>
    refine twin.advance (by rw [here]; nofun) fun t t' twin _ _ => ?_
    refine (specs.expr 0 _ fuel' t t' twin trivial (fun less => enough (by omega))
      (by omega)).andThen fun e u u' twin _ _ => ?_
    refine twin.expect nofun fun v v' twin _ _ _ => ?_
    exact twin.pure _ (by omega)

theorem postfix_step (base : Ast) :
    Copies last 1 0 Anything (parsePostfix intern base) (fuel + 1) := by
  refine copies_succ Nat.one_pos fun short fuel' s s' twin _ enough enough' => ?_
  rw [parsePostfix, parsePostfix]
  refine twin.peekKind ?_
  cases here : s.peek.kind <;> first
    | exact twin.pure _ (by omega)
    | skip
  case lParen =>
    refine twin.advance (by rw [here]; nofun) fun t t' twin _ _ => ?_
    refine (specs.args _ fuel' t t' twin trivial (fun less => enough (by omega)) (by omega)).andThen
      fun args u u' twin _ _ => ?_
    refine twin.expect nofun fun v v' twin _ _ _ => ?_
    exact (specs.postfix_ _ _ fuel' v v' twin trivial (fun less => enough (by omega))
      (by omega)).imp fun w moved => by omega
  case dot =>
    refine twin.advance (by rw [here]; nofun) fun t t' twin _ _ => ?_
    refine twin.expect nofun fun u u' twin _ _ _ => ?_
    exact (specs.postfix_ _ _ fuel' u u' twin trivial (fun less => enough (by omega))
      (by omega)).imp fun v moved => by omega
  case lBracket =>
    refine twin.advance (by rw [here]; nofun) fun t t' twin _ _ => ?_
    refine (specs.expr 0 _ fuel' t t' twin trivial (fun less => enough (by omega))
      (by omega)).andThen fun index u u' twin _ _ => ?_
    refine twin.expect nofun fun v v' twin _ _ _ => ?_
    exact (specs.postfix_ _ _ fuel' v v' twin trivial (fun less => enough (by omega))
      (by omega)).imp fun w moved => by omega

theorem args_step : Copies last 5 0 Anything (parseArgs intern) (fuel + 1) := by
  refine copies_succ (by decide) fun short fuel' s s' twin _ enough enough' => ?_
  rw [parseArgs, parseArgs]
  refine twin.isAt (twin.isAt ?_)
  split
  case isTrue => exact twin.pure _ (by omega)
  case isFalse =>
    refine (specs.expr 0 _ fuel' s s' twin trivial (fun less => enough (by omega))
      (by omega)).andThen fun arg t t' twin _ _ => ?_
    refine twin.consume nofun (fun u u' twin _ _ => ?_) fun _ => ?_
    · refine (specs.args _ fuel' u u' twin trivial (fun less => enough (by omega))
        (by omega)).andThen fun others v v' twin _ _ => ?_
      exact twin.pure _ (by omega)
    · exact twin.pure _ (by omega)

theorem grammar_step : GrammarCopies intern last (fuel + 1) where
  block := block_step specs
  blockAt := blockAt_step specs
  stmts := stmts_step specs
  stmt := stmt_step specs
  letOrVar := letOrVar_step specs
  typeName := typeAnnotation_step specs
  returnStmt := returnStmt_step specs
  ifStmt := ifStmt_step specs
  forStmt := forStmt_step specs
  matchStmt := matchStmt_step specs
  arms := arms_step specs
  expr := expr_step specs
  operators := operators_step specs
  unary := unary_step specs
  primary := primary_step specs
  postfix_ := postfix_step specs
  args := args_step specs

end Steps

theorem grammar_copies (fuel : Nat) : GrammarCopies intern last fuel := by
  induction fuel with
  | zero =>
      constructor
      all_goals
        intros
        exact copies_zero (by decide) rfl
  | succ fuel ih => exact grammar_step ih

end Parser

end Aegis
