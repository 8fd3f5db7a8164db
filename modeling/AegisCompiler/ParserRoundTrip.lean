import AegisCompiler.ParserSteps

/-!
# Reading back what was printed

The expression parser inverts printing.  An expression printed for a place of
some level is read back there whatever minimum the operator loop runs at, as
long as the token behind it cannot be attached to it; the operators behind it
are then left to the loop that goes on.
-/

namespace Aegis

namespace ParserState

/-- The state some tokens further on. -/
def ahead (s : ParserState) (n : Nat) : ParserState := { s with pos := s.pos + n }

/-- The tokens from the read position on. -/
def Facing (s : ParserState) (toks : List Token) : Prop := s.toks.drop s.pos = toks

variable {s : ParserState}

@[simp]
theorem ahead_zero (s : ParserState) : s.ahead 0 = s := rfl

@[simp]
theorem next_ahead (s : ParserState) (n : Nat) : s.next.ahead n = s.ahead (n + 1) := by
  simp only [next, ahead, Nat.add_comm, Nat.add_left_comm]

@[simp]
theorem ahead_next (s : ParserState) (n : Nat) : (s.ahead n).next = s.ahead (n + 1) := rfl

@[simp]
theorem ahead_ahead (s : ParserState) (n m : Nat) :
    (s.ahead n).ahead m = s.ahead (n + m) := by
  simp only [ahead, Nat.add_assoc]

theorem Facing.peek {t : Token} {rest : List Token} (facing : s.Facing (t :: rest)) :
    s.peek = t := by
  have inside : s.pos < s.toks.length := by
    apply Nat.lt_of_not_le
    intro ended
    rw [Facing, List.drop_eq_nil_of_le ended] at facing
    cases facing
  have here : s.toks[s.pos] = t := by
    rw [Facing, List.drop_eq_getElem_cons inside] at facing
    exact (List.cons.inj facing).1
  rw [ParserState.peek, Nat.min_eq_left (by omega), List.getD_eq_getElem?_getD,
    List.getElem?_eq_getElem inside, here, Option.getD_some]

theorem Facing.ahead {toks rest : List Token} (facing : s.Facing (toks ++ rest)) :
    (s.ahead toks.length).Facing rest := by
  change s.toks.drop (s.pos + toks.length) = rest
  rw [← List.drop_drop, facing, List.drop_left]

theorem Facing.next {t : Token} {rest : List Token} (facing : s.Facing (t :: rest)) :
    s.next.Facing rest :=
  @Facing.ahead s [t] rest facing

end ParserState

namespace Parser

open ParserState

/-- The last token is a name that is no field. -/
def EndsInName (toks : List Token) : Prop :=
  ∃ before name, toks = before ++ [name] ∧ name.kind = .ident ∧
    ∀ last ∈ before.getLast?, last.kind ≠ .dot

/-- The following token does not continue the last name to a path. -/
def NoPath (toks : List Token) (t : Token) : Prop :=
  EndsInName toks → t.kind ≠ .doubleColon

/-- The token starts no postfix. -/
def NoPostfix (t : Token) : Prop :=
  t.kind ≠ .lParen ∧ t.kind ≠ .dot ∧ t.kind ≠ .lBracket

/-- If the token is an operator, its loop takes an expression of the level as a
left operand. -/
def Weaker (t : Token) (lvl : Int) : Prop :=
  binaryOpKind t.kind = some t.kind → 2 < lvl ∧ precedence t.kind ≤ lvl

/-- The tokens do not begin with one that ends an argument list. -/
def Starts (toks : List Token) : Prop :=
  ∃ first rest, toks = first :: rest ∧ first.kind ≠ .rParen ∧ first.kind ≠ .eof

theorem Starts.append {toks : List Token} (starts : Starts toks) (more : List Token) :
    Starts (toks ++ more) := by
  obtain ⟨first, rest, rfl, begins⟩ := starts
  exact ⟨first, rest ++ more, rfl, begins⟩

theorem EndsInName.behind {op : Token} {right : List Token} (named : EndsInName right)
    (noDot : op.kind ≠ .dot) (left : List Token) : EndsInName (left ++ op :: right) := by
  obtain ⟨before, name, rfl, isName, noField⟩ := named
  refine ⟨left ++ op :: before, name, by simp, isName, ?_⟩
  intro last isLast
  rcases List.eq_nil_or_concat before with rfl | ⟨front, final, rfl⟩
  · rw [List.getLast?_concat] at isLast
    cases isLast
    exact noDot
  · rw [List.concat_eq_append, ← List.cons_append, ← List.append_assoc,
      List.getLast?_concat] at isLast
    exact noField last (by rwa [List.concat_eq_append, List.getLast?_concat])

variable (intern : List Char → SymbolId)

/-- The tokens are read back as the expression at every place of the level: by
the postfix parser as a base, by the unary parser as an operand, and by the
expression parser in front of any operators that are taken afterwards. -/
structure Reads (lvl : Int) (e : Ast) (toks : List Token) : Prop where
  starts : Starts toks
  base : 15 ≤ lvl → ∀ {s final : ParserState} {t : Token} {rest : List Token} {result : Ast},
    s.Facing (toks ++ t :: rest) → NoPath toks t →
    Yields (parsePostfix intern e) (s.ahead toks.length) result final →
    Yields (parseUnary intern) s result final
  operand : 14 ≤ lvl → ∀ {s : ParserState} {t : Token} {rest : List Token},
    s.Facing (toks ++ t :: rest) → NoPath toks t → NoPostfix t →
    Yields (parseUnary intern) s e (s.ahead toks.length)
  expr : ∀ {needed : Int} {s final : ParserState} {t : Token} {rest : List Token}
    {result : Ast}, needed ≤ lvl → s.Facing (toks ++ t :: rest) → NoPath toks t →
    NoPostfix t → Weaker t lvl →
    Yields (parseOperators intern needed e) (s.ahead toks.length) result final →
    Yields (parseExpr intern needed) s result final

variable {intern} {lvl : Int} {e : Ast} {toks : List Token}

theorem Weaker.mono {t : Token} {low high : Int} (weaker : Weaker t low) (le : low ≤ high) :
    Weaker t high := by
  intro operator
  obtain ⟨tight, weak⟩ := weaker operator
  omega

theorem Reads.mono {low : Int} (reads : Reads intern lvl e toks) (le : low ≤ lvl) :
    Reads intern low e toks where
  starts := reads.starts
  base high := reads.base (by omega)
  operand high := reads.operand (by omega)
  expr high facing noPath noPostfix weaker :=
    reads.expr (by omega) facing noPath noPostfix (weaker.mono le)

/-- What the unary parser reads is read in front of any operator. -/
theorem Reads.of_operand
    (starts : Starts toks)
    (operand : ∀ {s : ParserState} {t : Token} {rest : List Token},
      s.Facing (toks ++ t :: rest) → NoPath toks t → NoPostfix t →
      Yields (parseUnary intern) s e (s.ahead toks.length)) :
    Reads intern 14 e toks where
  starts := starts
  base high := absurd high (by decide)
  operand _ := operand
  expr _ facing noPath noPostfix _ operators :=
    parseExpr_yields (operand facing noPath noPostfix) operators

/-- What the postfix parser takes as a base is read everywhere. -/
theorem Reads.of_base
    (starts : Starts toks)
    (base : ∀ {s final : ParserState} {t : Token} {rest : List Token} {result : Ast},
      s.Facing (toks ++ t :: rest) → NoPath toks t →
      Yields (parsePostfix intern e) (s.ahead toks.length) result final →
      Yields (parseUnary intern) s result final) (lvl : Int) :
    Reads intern lvl e toks := by
  have operand : ∀ {s : ParserState} {t : Token} {rest : List Token},
      s.Facing (toks ++ t :: rest) → NoPath toks t → NoPostfix t →
      Yields (parseUnary intern) s e (s.ahead toks.length) := by
    intro s t rest facing noPath noPostfix
    have here : (s.ahead toks.length).peek = t := facing.ahead.peek
    apply base facing noPath
    exact parsePostfix_ends (here ▸ noPostfix.1) (here ▸ noPostfix.2.1) (here ▸ noPostfix.2.2)
  exact {
    starts
    base := fun _ => base
    operand := fun _ => operand
    expr := fun _ facing noPath noPostfix _ operators =>
      parseExpr_yields (operand facing noPath noPostfix) operators }

/-- In front of a token that is no operator the whole expression is read. -/
theorem Reads.closed {needed : Int} (reads : Reads intern lvl e toks) (le : needed ≤ lvl)
    {s : ParserState} {t : Token} {rest : List Token} (facing : s.Facing (toks ++ t :: rest))
    (noPath : NoPath toks t) (noOperator : binaryOpKind t.kind = none)
    (noPostfix : NoPostfix t) :
    Yields (parseExpr intern needed) s e (s.ahead toks.length) := by
  have stop : (s.ahead toks.length).peek = t := facing.ahead.peek
  apply reads.expr le facing noPath noPostfix
  · intro operator
    rw [noOperator] at operator
    cases operator
  · apply parseOperators_ends
    intro operator
    rw [stop, noOperator] at operator
    cases operator

theorem parens_reads {opening closing : Token} (opens : opening.kind = .lParen)
    (closes : closing.kind = .rParen) (bounded : 0 ≤ lvl) (body : Reads intern lvl e toks)
    (outer : Int) : Reads intern outer e (opening :: (toks ++ [closing])) := by
  apply Reads.of_base ⟨opening, _, rfl, by rw [opens]; decide, by rw [opens]; decide⟩
  intro s final t rest result facing _ postfixes
  have opened : s.peek = opening := facing.peek
  have inner : s.next.Facing (toks ++ closing :: t :: rest) := by
    simpa using facing.next
  have closed : (s.ahead (toks.length + 1)).peek = closing := by
    simpa using inner.ahead.peek
  have read : Yields (parseExpr intern 0) s.next e (s.next.ahead toks.length) :=
    body.closed bounded inner (fun _ => by rw [closes]; decide) (by rw [closes]; rfl)
      (by simp [NoPostfix, closes])
  rw [next_ahead] at read
  apply parseUnary_postfix (by rw [opened, opens]; rfl)
    (parsePrimary_parens (by rw [opened, opens]) read (closed ▸ closes))
  simpa using postfixes

theorem leaf_reads {t : Token} (written : Leaf intern t e) (lvl : Int) :
    Reads intern lvl e [t] := by
  have plain : isPrefixOp t.kind = false ∧ t.kind ≠ .rParen ∧ t.kind ≠ .eof := by
    cases written with
    | ident named =>
        rcases named with name | typeName
        · rw [name]; decide
        · cases kind : t.kind <;> rw [kind] at typeName <;> first
            | decide
            | cases typeName
    | intLit number => rw [number]; decide
    | floatLit number => rw [number]; decide
    | strLit string => rw [string]; decide
    | trueLit truth => rw [truth]; decide
    | falseLit falsity => rw [falsity]; decide
  apply Reads.of_base ⟨t, [], rfl, plain.2⟩
  intro s final next rest result facing noPath postfixes
  have here : s.peek = t := facing.peek
  have behind : s.next.peek = next := facing.next.peek
  apply parseUnary_postfix (here ▸ plain.1) _ postfixes
  apply parsePrimary_leaf (here ▸ written)
  intro named
  rw [behind]
  exact noPath ⟨[], t, rfl, here ▸ named, by simp⟩

theorem unary_reads {op : Token} (operator : isPrefixOp op.kind = true)
    (inner : Reads intern 14 e toks) : Reads intern 14 (.unaryExpr op.kind e) (op :: toks) := by
  have prefixed : op.kind ≠ .rParen ∧ op.kind ≠ .eof ∧ op.kind ≠ .dot := by
    cases kind : op.kind <;> rw [kind] at operator <;> first
      | decide
      | cases operator
  apply Reads.of_operand ⟨op, toks, rfl, prefixed.1, prefixed.2.1⟩
  intro s t rest facing noPath noPostfix
  have here : s.peek = op := facing.peek
  have operand : Yields (parseUnary intern) s.next e (s.next.ahead toks.length) :=
    inner.operand (Int.le_refl _) facing.next
      (fun named => noPath (named.behind prefixed.2.2 [])) noPostfix
  rw [next_ahead] at operand
  rw [← here] at operator ⊢
  exact parseUnary_prefix operator operand

/-- The levels around an operator. -/
structure OperatorLevels (kind : TokenKind) : Prop where
  low : 2 ≤ precedence kind
  high : precedence kind ≤ 13
  left : precedence kind ≤ leftLevel kind
  tight : 2 < leftLevel kind
  right : precedence kind ≤ rightLevel kind
  associative : 2 < precedence kind → precedence kind < rightLevel kind
  noPostfix : kind ≠ .lParen ∧ kind ≠ .dot ∧ kind ≠ .lBracket
  noPath : kind ≠ .doubleColon

theorem operatorLevels {kind : TokenKind} (operator : binaryOpKind kind = some kind) :
    OperatorLevels kind := by
  cases kind <;> first
    | cases operator; done
    | constructor <;> decide

theorem between_reads {op : Token} {lhs rhs : Ast} {left right : List Token}
    (operator : binaryOpKind op.kind = some op.kind)
    (before : Reads intern (leftLevel op.kind) lhs left)
    (behind : Reads intern (rightLevel op.kind) rhs right) :
    Reads intern (precedence op.kind) (infixExpr op.kind lhs rhs) (left ++ op :: right) := by
  have levels := operatorLevels operator
  refine ⟨before.starts.append _, fun high => ?_, fun high => ?_, ?_⟩
  · have := levels.high
    omega
  · have := levels.high
    omega
  intro needed s final t rest result le facing noPath noPostfix weaker operators
  have split : s.Facing (left ++ op :: (right ++ t :: rest)) := by
    simpa using facing
  have here : (s.ahead left.length).peek = op := split.ahead.peek
  have rightwards : (s.ahead (left.length + 1)).Facing (right ++ t :: rest) :=
    split.ahead.next
  have stop : (s.ahead (left.length + 1 + right.length)).peek = t := by
    simpa using rightwards.ahead.peek
  have operand : Yields (parseExpr intern (rightLevel op.kind)) (s.ahead (left.length + 1))
      rhs (s.ahead (left.length + 1 + right.length)) := by
    apply behind.expr (Int.le_refl _) rightwards _ noPostfix (weaker.mono levels.right)
    · rw [ahead_ahead]
      apply parseOperators_ends
      rw [stop]
      intro follows
      obtain ⟨tight, weak⟩ := weaker follows
      have := levels.associative tight
      omega
    · exact fun named => noPath (named.behind levels.noPostfix.2.1 left)
  apply before.expr (by have := levels.left; omega) split (fun _ => levels.noPath)
    levels.noPostfix fun _ => ⟨levels.tight, levels.left⟩
  rw [← here] at operator le operand operators
  apply parseOperators_takes operator le operand
  simpa [Nat.add_assoc, Nat.add_comm right.length] using operators

theorem call_reads {opening closing : Token} {es : List Ast} {given : List Token}
    (opens : opening.kind = .lParen) (closes : closing.kind = .rParen)
    (base : Reads intern 15 e toks)
    (arguments : ∀ {s : ParserState} {rest : List Token},
      s.Facing (given ++ closing :: rest) →
      Yields (parseArgs intern) s es (s.ahead given.length)) (lvl : Int) :
    Reads intern lvl (.callExpr e es) (toks ++ opening :: (given ++ [closing])) := by
  apply Reads.of_base (base.starts.append _)
  intro s final t rest result facing _ postfixes
  have split : s.Facing (toks ++ opening :: (given ++ closing :: t :: rest)) := by
    simpa using facing
  have opened : (s.ahead toks.length).peek = opening := split.ahead.peek
  have inner : (s.ahead (toks.length + 1)).Facing (given ++ closing :: t :: rest) :=
    split.ahead.next
  have closed : ((s.ahead (toks.length + 1)).ahead given.length).peek = closing :=
    inner.ahead.peek
  have read : Yields (parseArgs intern) (s.ahead toks.length).next es
      ((s.ahead (toks.length + 1)).ahead given.length) := arguments inner
  apply base.base (Int.le_refl _) split fun _ => by rw [opens]; decide
  apply parsePostfix_call (opened ▸ opens) read (closed ▸ closes)
  have count : (toks ++ opening :: (given ++ [closing])).length =
      toks.length + 1 + given.length + 1 := by
    simp
    omega
  rw [count] at postfixes
  rwa [ahead_ahead, ahead_next]

theorem field_reads {dot name : Token} (dotted : dot.kind = .dot) (named : name.kind = .ident)
    (base : Reads intern 15 e toks) (lvl : Int) :
    Reads intern lvl (.fieldExpr e (intern name.text)) (toks ++ [dot, name]) := by
  apply Reads.of_base (base.starts.append _)
  intro s final t rest result facing _ postfixes
  have split : s.Facing (toks ++ dot :: name :: t :: rest) := by
    simpa using facing
  have here : (s.ahead toks.length).peek = dot := split.ahead.peek
  have behind : (s.ahead toks.length).next.peek = name := split.ahead.next.peek
  apply base.base (Int.le_refl _) split fun _ => by rw [dotted]; decide
  apply parsePostfix_field (here ▸ dotted) (behind ▸ named)
  rw [behind]
  simpa using postfixes

theorem index_reads {opening closing : Token} {i : Ast} {inner : List Token}
    (opens : opening.kind = .lBracket) (closes : closing.kind = .rBracket)
    (base : Reads intern 15 e toks) (place : Reads intern 0 i inner) (lvl : Int) :
    Reads intern lvl (.indexExpr e i) (toks ++ opening :: (inner ++ [closing])) := by
  apply Reads.of_base (base.starts.append _)
  intro s final t rest result facing _ postfixes
  have split : s.Facing (toks ++ opening :: (inner ++ closing :: t :: rest)) := by
    simpa using facing
  have opened : (s.ahead toks.length).peek = opening := split.ahead.peek
  have within : (s.ahead (toks.length + 1)).Facing (inner ++ closing :: t :: rest) :=
    split.ahead.next
  have closed : ((s.ahead (toks.length + 1)).ahead inner.length).peek = closing :=
    within.ahead.peek
  have read : Yields (parseExpr intern 0) (s.ahead toks.length).next i
      ((s.ahead (toks.length + 1)).ahead inner.length) :=
    place.closed (Int.le_refl _) within (fun _ => by rw [closes]; decide)
      (by rw [closes]; rfl) (by simp [NoPostfix, closes])
  apply base.base (Int.le_refl _) split fun _ => by rw [opens]; decide
  apply parsePostfix_index (opened ▸ opens) read (closed ▸ closes)
  have count : (toks ++ opening :: (inner ++ [closing])).length =
      toks.length + 1 + inner.length + 1 := by
    simp
    omega
  rw [count] at postfixes
  rwa [ahead_ahead, ahead_next]

/-- What it means to read back a phrase. -/
def ReadBack (intern : List Char → SymbolId) : Phrase → List Token → Prop
  | .operand needed e, toks => Reads intern needed e toks
  | .bare e, toks => 2 ≤ level e ∧ Reads intern (level e) e toks
  | .args es, toks => ∀ {s : ParserState} {t : Token} {rest : List Token},
      t.kind = .rParen → s.Facing (toks ++ t :: rest) →
      Yields (parseArgs intern) s es (s.ahead toks.length)

theorem level_infixExpr {op : TokenKind} {lhs rhs : Ast} (operator : binaryOpKind op = some op) :
    level (infixExpr op lhs rhs) = precedence op := by
  cases op <;> cases operator <;> rfl

theorem Starts.facing {toks rest : List Token} (starts : Starts toks) {s : ParserState}
    (facing : s.Facing (toks ++ rest)) : s.peek.kind ≠ .rParen ∧ s.peek.kind ≠ .eof := by
  obtain ⟨first, others, rfl, begins⟩ := starts
  have here : s.peek = first := facing.peek
  rwa [here]

theorem Printed.readBack {phrase : Phrase} (printed : Printed intern phrase toks) :
    ReadBack intern phrase toks := by
  induction printed with
  | @leaf t e written =>
      have tight : level e = 15 := by
        cases written <;> rfl
      exact ⟨by rw [tight]; decide, leaf_reads written _⟩
  | unary operator _ operand => exact ⟨by simp [level], unary_reads operator operand⟩
  | between operator _ _ before behind =>
      rw [ReadBack, level_infixExpr operator]
      exact ⟨(operatorLevels operator).low, between_reads operator before behind⟩
  | call opens closes _ _ base arguments =>
      exact ⟨by simp [level], call_reads opens closes base (arguments closes) _⟩
  | field dotted named _ base => exact ⟨by simp [level], field_reads dotted named base _⟩
  | index opens closes _ _ base place =>
      exact ⟨by simp [level], index_reads opens closes base place _⟩
  | plain tight _ body => exact body.2.mono tight
  | parens _ opens closes _ body =>
      exact parens_reads opens closes (by have := body.1; omega) body.2 _
  | noArgs =>
      intro s t rest closes facing
      have here : s.peek = t := facing.peek
      exact parseArgs_none (here ▸ closes)
  | lastArg _ arg =>
      intro s t rest closes facing
      have stop : (s.ahead _).peek = t := facing.ahead.peek
      obtain ⟨more, goesOn⟩ := arg.starts.facing facing
      apply parseArgs_last more goesOn
      · exact arg.closed (Int.le_refl _) facing (fun _ => by rw [closes]; decide)
          (by rw [closes]; rfl) (by simp [NoPostfix, closes])
      · rw [stop, closes]
        decide
  | @moreArgs comma e next es toks others separated _ _ arg arguments =>
      intro s t rest closes facing
      have split : s.Facing (toks ++ comma :: (others ++ t :: rest)) := by
        simpa using facing
      have stop : (s.ahead toks.length).peek = comma := split.ahead.peek
      obtain ⟨more, goesOn⟩ := arg.starts.facing split
      have read : Yields (parseArgs intern) (s.ahead (toks.length + 1)) (next :: es)
          ((s.ahead (toks.length + 1)).ahead others.length) :=
        arguments closes split.ahead.next
      have count : (toks ++ comma :: others).length = toks.length + 1 + others.length := by
        simp
        omega
      rw [count, ← ahead_ahead]
      apply parseArgs_more more goesOn _ (stop ▸ separated) read
      exact arg.closed (Int.le_refl _) split (fun _ => by rw [separated]; decide)
        (by rw [separated]; rfl) (by simp [NoPostfix, separated])

/-- The expression parser inverts printing: every expression has a printing, in front of a
token that cannot be attached the parser reads it back and stops there, and no other
expression is printed the same. -/
theorem parseExpr_inverts_printing {e : Ast} (writable : Writable intern e) :
    (∃ toks, Printed intern (.operand 0 e) toks) ∧
      ∀ toks, Printed intern (.operand 0 e) toks →
        (∀ (s : ParserState) (t : Token) (rest : List Token), s.Facing (toks ++ t :: rest) →
          binaryOpKind t.kind = none → NoPostfix t → NoPath toks t →
          Yields (parseExpr intern 0) s e (s.ahead toks.length) ∧
            (s.ahead toks.length).peek = t) ∧
        ∀ other, Printed intern (.operand 0 other) toks → other = e := by
  refine ⟨exists_operand writable.exists_bare 0, fun toks printed => ⟨?_, ?_⟩⟩
  · intro s t rest facing noOperator noPostfix noPath
    have reads : Reads intern 0 e toks := printed.readBack
    exact ⟨reads.closed (Int.le_refl _) facing noPath noOperator noPostfix,
      facing.ahead.peek⟩
  · intro other again
    have one : Reads intern 0 e toks := printed.readBack
    have two : Reads intern 0 other toks := again.readBack
    let last : Token := {}
    have ended : (ParserState.mk (toks ++ [last]) 0 []).Facing (toks ++ [last]) := rfl
    have noPath : NoPath toks last := fun _ => by decide
    have noPostfix : NoPostfix last := by
      refine ⟨?_, ?_, ?_⟩ <;> decide
    exact ((two.closed (Int.le_refl _) ended noPath rfl noPostfix).unique
      (one.closed (Int.le_refl _) ended noPath rfl noPostfix)).1

/-- Names for the examples: the length of the text. -/
def lengthIntern (text : List Char) : SymbolId := BitVec.ofNat 32 text.length

/-- A name token. -/
def nameToken (text : List Char) : Token := { kind := .ident, text }

/-- `(a - bb) * ccc` -/
def productTokens : List Token :=
  [{ kind := .lParen }, nameToken ['a'], { kind := .minus }, nameToken ['b', 'b'],
    { kind := .rParen }, { kind := .star }, nameToken ['c', 'c', 'c']]

def productExpr : Ast := .binaryExpr .star (.binaryExpr .minus (.ident 1) (.ident 2)) (.ident 3)

theorem productTokens_printed : Printed lengthIntern (.operand 0 productExpr) productTokens := by
  have named : ∀ (needed : Int) (text : List Char), needed ≤ 15 →
      Printed lengthIntern (.operand needed (.ident (lengthIntern text))) [nameToken text] :=
    fun needed text le => .plain le (.leaf (.ident (.inl rfl)))
  have difference : Printed lengthIntern (.bare (.binaryExpr .minus (.ident 1) (.ident 2)))
      [nameToken ['a'], { kind := .minus }, nameToken ['b', 'b']] :=
    @Printed.between lengthIntern { kind := .minus } _ _ _ _ rfl
      (named _ ['a'] (by decide)) (named _ ['b', 'b'] (by decide))
  exact .plain (by decide) (@Printed.between lengthIntern { kind := .star } _ _ _ _ rfl
    (@Printed.parens lengthIntern _ { kind := .lParen } { kind := .rParen } _ _ (by decide) rfl
      rfl difference) (named _ ['c', 'c', 'c'] (by decide)))

theorem parseExpr_inverts_printing_product :
    Yields (parseExpr lengthIntern 0) { toks := productTokens ++ [{ kind := .semicolon }] }
      productExpr { toks := productTokens ++ [{ kind := .semicolon }], pos := 7 } := by
  have writable : Writable lengthIntern productExpr :=
    .binary rfl rfl (.binary rfl rfl (.ident ['a']) (.ident ['b', 'b']))
      (.ident ['c', 'c', 'c'])
  have noPostfix : NoPostfix { kind := .semicolon } := by
    refine ⟨?_, ?_, ?_⟩ <;> decide
  exact (((parseExpr_inverts_printing writable).2 productTokens productTokens_printed).1
    { toks := productTokens ++ [{ kind := .semicolon }] } { kind := .semicolon } [] rfl rfl
    noPostfix fun _ => by decide).1

/-- In front of `::` a printed name is read as the beginning of a path. -/
theorem path_continues :
    ¬∀ (intern : List Char → SymbolId) (e : Ast), Writable intern e →
      ∀ toks, Printed intern (.operand 0 e) toks →
      ∀ (s : ParserState) (t : Token) (rest : List Token), s.Facing (toks ++ t :: rest) →
        binaryOpKind t.kind = none → NoPostfix t →
        Yields (parseExpr intern 0) s e (s.ahead toks.length) := by
  intro inverts
  have noPostfix : NoPostfix { kind := .doubleColon } := by
    refine ⟨?_, ?_, ?_⟩ <;> decide
  obtain ⟨enough, ran⟩ := inverts lengthIntern (.ident 1) (.ident ['a']) [nameToken ['a']]
    (.plain (by decide) (.leaf (.ident (.inl rfl))))
    { toks := [nameToken ['a'], { kind := .doubleColon }, nameToken ['b', 'b'], {}] }
    { kind := .doubleColon } [nameToken ['b', 'b'], {}] rfl rfl noPostfix
  have path : parseExpr lengthIntern 0 (enough + 5)
      { toks := [nameToken ['a'], { kind := .doubleColon }, nameToken ['b', 'b'], {}] } =
      .ok (.pathExpr [1, 2])
        { toks := [nameToken ['a'], { kind := .doubleColon }, nameToken ['b', 'b'], {}]
          pos := 3 } := rfl
  have read := ran (enough + 5) (by omega)
  rw [path] at read
  injection read with different
  cases different

end Parser

end Aegis
