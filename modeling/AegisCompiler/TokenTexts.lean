import AegisCompiler.TokenScanning

/-!
# The texts of tokens

Words, numbers, strings and operators: which texts the lexer makes a token of,
and in front of which characters it makes the same token of a text.
-/

namespace Aegis

namespace Lexer

/-- The text of an operator or punctuation mark. -/
def operatorText (kind : TokenKind) : Option (List Char) :=
  match kind with
  | .plus => some "+".toList
  | .minus => some "-".toList
  | .star => some "*".toList
  | .slash => some "/".toList
  | .percent => some "%".toList
  | .amp => some "&".toList
  | .pipe => some "|".toList
  | .caret => some "^".toList
  | .tilde => some "~".toList
  | .bang => some "!".toList
  | .shl => some "<<".toList
  | .shr => some ">>".toList
  | .eqEq => some "==".toList
  | .bangEq => some "!=".toList
  | .ltEq => some "<=".toList
  | .gtEq => some ">=".toList
  | .lt => some "<".toList
  | .gt => some ">".toList
  | .andAnd => some "&&".toList
  | .orOr => some "||".toList
  | .eq => some "=".toList
  | .plusEq => some "+=".toList
  | .minusEq => some "-=".toList
  | .starEq => some "*=".toList
  | .arrow => some "->".toList
  | .fatArrow => some "=>".toList
  | .lParen => some "(".toList
  | .rParen => some ")".toList
  | .lBrace => some "\x7b".toList
  | .rBrace => some "\x7d".toList
  | .lBracket => some "[".toList
  | .rBracket => some "]".toList
  | .comma => some ",".toList
  | .semicolon => some ";".toList
  | .colon => some ":".toList
  | .doubleColon => some "::".toList
  | .dot => some ".".toList
  | .dotDot => some "..".toList
  | .atSign => some "@".toList
  | .question => some "?".toList
  | _ => none

/-- The characters that make a longer operator of this one. -/
def joins (kind : TokenKind) (c : Char) : Bool :=
  match kind with
  | .plus | .star | .bang => c = '='
  | .minus | .eq => c = '=' || c = '>'
  | .lt => c = '<' || c = '='
  | .gt => c = '>' || c = '='
  | .amp => c = '&'
  | .pipe => c = '|'
  | .colon => c = ':'
  | .dot => c = '.'
  | _ => false

/-- An operator is scanned as it is exactly in front of a character that makes
no longer one of it. -/
theorem scanOperator_iff {kind : TokenKind} {text : List Char}
    (known : operatorText kind = some text) (tail : List Char) :
    scanOperator (text ++ tail) = some (kind, text.length) ↔ Stops (joins kind) tail := by
  cases kind <;> cases known <;> cases tail <;> simp [scanOperator, Stops, joins]
  all_goals split <;> simp [*]

theorem operator_split {cs : List Char} {c : Char} {kind : TokenKind} {n : Nat}
    (first : cs.head? = some c)
    (known : n = 1 ∧ operatorText kind = some [c] ∨
      ∃ d, cs.tail.head? = some d ∧ n = 2 ∧ operatorText kind = some [c, d]) :
    ∃ text tail, cs = text ++ tail ∧ n = text.length ∧ operatorText kind = some text := by
  cases cs with
  | nil => cases first
  | cons e rest =>
      cases first
      rcases known with ⟨rfl, known⟩ | ⟨d, second, rfl, known⟩
      · exact ⟨[c], rest, rfl, rfl, known⟩
      · cases rest with
        | nil => cases second
        | cons f more =>
            cases second
            exact ⟨[c, d], more, rfl, rfl, known⟩

/-- What is scanned as an operator is its text. -/
theorem scanOperator_text {cs : List Char} {kind : TokenKind} {n : Nat}
    (scanned : scanOperator cs = some (kind, n)) :
    ∃ text tail, cs = text ++ tail ∧ n = text.length ∧ operatorText kind = some text := by
  unfold scanOperator at scanned
  simp only at scanned
  -- One case for each first character, then one for each second character it looks for.
  split at scanned
  all_goals first
    | cases scanned; done
    | apply operator_split ‹_›
      repeat' split at scanned
      all_goals
        cases scanned
        first
          | exact .inl ⟨rfl, rfl⟩
          | exact .inr ⟨_, ‹_›, rfl, rfl⟩

theorem stringLength_quote (rest : List Char) : stringLength ('"' :: rest) = some 1 := by
  rw [stringLength.eq_def]
  rfl

theorem stringLength_plain {c : Char} (noQuote : c ≠ '"') (noEscape : c ≠ '\\')
    (rest : List Char) :
    stringLength (c :: rest) = (stringLength rest).map (· + 1) := by
  rw [stringLength.eq_def]
  simp only [if_neg noQuote, if_neg noEscape]

/-- A closed string is closed at the same place whatever stands behind it. -/
theorem stringLength_text {cs : List Char} {n : Nat} (closed : stringLength cs = some n) :
    ∃ text tail, cs = text ++ tail ∧ n = text.length ∧
      ∀ other, stringLength (text ++ other) = some text.length := by
  induction cs using stringLength.induct generalizing n with
  | case1 => cases closed
  | case2 rest =>
      rw [stringLength_quote, Option.some.injEq] at closed
      subst closed
      exact ⟨['"'], rest, rfl, rfl, stringLength_quote⟩
  | case3 => cases closed
  | case4 c rest noQuote ih =>
      simp only [stringLength, if_neg noQuote, if_true, Option.map_eq_some_iff] at closed
      obtain ⟨m, closed, rfl⟩ := closed
      obtain ⟨text, tail, rfl, rfl, still⟩ := ih closed
      refine ⟨'\\' :: c :: text, tail, rfl, rfl, fun other => ?_⟩
      simp [stringLength, still other]
  | case5 c rest noQuote noEscape ih =>
      rw [stringLength_plain noQuote noEscape, Option.map_eq_some_iff] at closed
      obtain ⟨m, closed, rfl⟩ := closed
      obtain ⟨text, tail, rfl, rfl, still⟩ := ih closed
      refine ⟨c :: text, tail, rfl, rfl, fun other => ?_⟩
      rw [List.cons_append, stringLength_plain noQuote noEscape, still other]
      rfl

/-- The texts that the lexer makes tokens of. -/
inductive TokenText : TokenKind → List Char → Prop
  | word {c : Char} {cs : List Char} (starts : startsWord c = true)
      (all : ∀ d ∈ c :: cs, inWord d = true) : TokenText (matchKeyword (c :: cs)) (c :: cs)
  | number {kind : TokenKind} {text : List Char} (number : NumberText kind text) :
      TokenText kind text
  | string {text : List Char}
      (closed : ∀ other, stringLength (text ++ other) = some text.length) :
      TokenText .strLit ('"' :: text)
  | operator {kind : TokenKind} {text : List Char} (known : operatorText kind = some text) :
      TokenText kind text

theorem inWord_of_startsWord {c : Char} (starts : startsWord c = true) : inWord c = true := by
  simp only [startsWord, inWord, Bool.or_eq_true] at starts ⊢
  rcases starts with alpha | line
  · exact .inl (.inl alpha)
  · exact .inr line

/-- What is scanned as a token is its text. -/
theorem scanToken_text {cs : List Char} {kind : TokenKind} {n : Nat}
    (scanned : scanToken cs = some (kind, n)) :
    ∃ text tail, cs = text ++ tail ∧ n = text.length ∧ TokenText kind text := by
  cases cs with
  | nil => cases scanned
  | cons c rest =>
      simp only [scanToken] at scanned
      split at scanned
      case isTrue starts =>
        obtain ⟨text, tail, rfl, all, -, length⟩ :=
          exists_span_cons (inWord_of_startsWord starts) rest
        rw [length, ← List.cons_append, List.take_left] at scanned
        cases scanned
        exact ⟨c :: text, tail, rfl, rfl, .word starts all⟩
      case isFalse =>
        split at scanned
        case isTrue digit =>
          obtain ⟨known, text, tail, split, number, length⟩ := exists_number digit rest
          rw [length] at scanned
          cases scanned
          exact ⟨text, tail, split, rfl, .number number⟩
        case isFalse =>
          split at scanned
          case isTrue quote =>
            simp only [List.drop_succ_cons, List.drop_zero, Option.map_eq_some_iff] at scanned
            obtain ⟨m, closed, same⟩ := scanned
            obtain ⟨text, tail, rfl, rfl, still⟩ := stringLength_text closed
            cases same
            subst quote
            exact ⟨'"' :: text, tail, rfl, rfl, .string still⟩
          case isFalse =>
            obtain ⟨text, tail, split, length, known⟩ := scanOperator_text scanned
            exact ⟨text, tail, split, length, .operator known⟩

theorem NumberText.first {kind : TokenKind} {text : List Char} (number : NumberText kind text) :
    ∃ c rest, text = c :: rest ∧ isDigit c = true := by
  cases number with
  | hex mark all => exact ⟨'0', _, rfl, rfl⟩
  | decimal digits => exact ⟨_, _, rfl, digits _ List.mem_cons_self⟩

/-- The first character of an operator begins nothing else. -/
theorem operatorText_first {kind : TokenKind} {text : List Char}
    (known : operatorText kind = some text) :
    ∃ c rest, text = c :: rest ∧ startsWord c = false ∧ isDigit c = false ∧ c ≠ '"' := by
  cases kind <;> cases known <;> exact ⟨_, _, rfl, rfl, rfl, by decide⟩

theorem TokenText.nonempty {kind : TokenKind} {text : List Char} (token : TokenText kind text) :
    text ≠ [] := by
  cases token with
  | word => exact List.cons_ne_nil _ _
  | number number =>
      obtain ⟨c, rest, rfl, -⟩ := number.first
      exact List.cons_ne_nil c rest
  | string => exact List.cons_ne_nil _ _
  | operator known =>
      obtain ⟨c, rest, rfl, -⟩ := operatorText_first known
      exact List.cons_ne_nil c rest

theorem startsWord_of_isDigit {c : Char} (digit : isDigit c = true) : startsWord c = false := by
  have zero : '0'.val.toNat = 48 := rfl
  have nine : '9'.val.toNat = 57 := rfl
  have smallA : 'a'.val.toNat = 97 := rfl
  have bigA : 'A'.val.toNat = 65 := rfl
  have noLine : c ≠ '_' := by
    rintro rfl
    cases digit
  simp only [isDigit, Bool.and_eq_true, decide_eq_true_eq, Char.le_def,
    UInt32.le_iff_toNat_le] at digit
  simp only [startsWord, isAlpha, Bool.or_eq_false_iff, Bool.and_eq_false_iff,
    decide_eq_false_iff_not, Char.le_def, UInt32.le_iff_toNat_le]
  exact ⟨⟨.inl (by omega), .inl (by omega)⟩, noLine⟩

theorem scanToken_word_iff {c : Char} {cs : List Char} (starts : startsWord c = true)
    (all : ∀ d ∈ c :: cs, inWord d = true) (tail : List Char) :
    scanToken (c :: cs ++ tail) = some (matchKeyword (c :: cs), (c :: cs).length) ↔
      Stops inWord tail := by
  have scan : scanToken (c :: cs ++ tail) =
      some (matchKeyword ((c :: cs ++ tail).take (spanLength inWord (c :: cs ++ tail))),
        spanLength inWord (c :: cs ++ tail)) := if_pos starts
  rw [scan, ← spanLength_eq_iff all]
  constructor
  · intro same
    exact (Prod.mk.inj (Option.some.inj same)).2
  · intro length
    rw [length, List.take_left]

theorem scanToken_number_iff {kind : TokenKind} {text : List Char}
    (number : NumberText kind text) (tail : List Char) :
    scanToken (text ++ tail) = some (kind, text.length) ↔ ¬NumberContinues text tail := by
  rw [← scanNumber_iff number]
  obtain ⟨c, rest, rfl, digit⟩ := number.first
  have scan : scanToken (c :: rest ++ tail) = some (scanNumber (c :: rest ++ tail)) := by
    rw [List.cons_append, scanToken, startsWord_of_isDigit digit, if_neg Bool.false_ne_true,
      if_pos digit]
  rw [scan, Option.some.injEq]

theorem scanToken_string {text : List Char}
    (closed : ∀ other, stringLength (text ++ other) = some text.length) (tail : List Char) :
    scanToken ('"' :: text ++ tail) = some (.strLit, ('"' :: text).length) := by
  have scan : scanToken ('"' :: text ++ tail) =
      (stringLength (text ++ tail)).map fun n => (.strLit, n + 1) := rfl
  rw [scan, closed]
  rfl

theorem scanToken_operator_iff {kind : TokenKind} {text : List Char}
    (known : operatorText kind = some text) (tail : List Char) :
    scanToken (text ++ tail) = some (kind, text.length) ↔ Stops (joins kind) tail := by
  rw [← scanOperator_iff known]
  obtain ⟨c, rest, rfl, noWord, noDigit, noQuote⟩ := operatorText_first known
  have scan : scanToken (c :: rest ++ tail) = scanOperator (c :: rest ++ tail) := by
    rw [List.cons_append, scanToken, noWord, if_neg Bool.false_ne_true, noDigit,
      if_neg Bool.false_ne_true, if_neg noQuote]
  rw [scan]

end Lexer

end Aegis
