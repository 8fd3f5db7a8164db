import AegisCompiler.FormattedTokens

/-!
# What the formatter keeps

Lexing the output of the formatter gives the tokens of the source again
exactly if no token runs into the next one.  Two words always do.
-/

namespace Aegis

namespace Formatter

open Lexer

/-- The first character of a word goes on with a number. -/
def goesOn (number : List Char) (c : Char) : Bool :=
  if startsHex number then isXDigit c
  else number = ['0'] && isHexMark c || !number.any isExponentLetter && isExponentLetter c

/-- The token is read on into the next one when no blank is written between
them. -/
def runsInto (t : Token) (rest : List Token) : Bool :=
  match rest with
  | [] => false
  | b :: more =>
      if isWord t.kind then isWord b.kind || isNumber b.kind
      else if isNumber t.kind then
        isNumber b.kind || isWord b.kind && b.text.head?.any (goesOn t.text) ||
          (b.kind = .plusEq || b.kind = .minusEq) && !startsHex t.text &&
            t.text.getLast?.any isExponentLetter ||
          t.text.all isDigit && (b.kind = .dot && more.head?.any fun c => isNumber c.kind)
      else
        match t.kind with
        | .amp => b.kind = .amp
        | .pipe => b.kind = .pipe
        | .dot => b.kind = .dot || b.kind = .dotDot
        | _ => false

/-- No token runs into the next one. -/
def keptApart : List Token → Bool
  | [] => true
  | t :: rest => !runsInto t rest && keptApart rest

theorem isBlank_cases {c : Char} (blank : isBlank c = true) :
    c = ' ' ∨ c = '\t' ∨ c = '\r' ∨ c = '\n' := by
  simpa [isBlank, or_assoc] using blank

theorem Loose.stops {tail : List Char} (loose : Loose tail) {holds : Char → Bool}
    (noBlank : holds ' ' = false ∧ holds '\t' = false ∧ holds '\r' = false ∧ holds '\n' = false) :
    Stops holds tail := by
  intro c first
  rcases isBlank_cases (loose c first) with rfl | rfl | rfl | rfl
  · exact noBlank.1
  · exact noBlank.2.1
  · exact noBlank.2.2.1
  · exact noBlank.2.2.2

theorem Loose.fraction {tail : List Char} (loose : Loose tail) : fractionLength tail = 0 := by
  cases tail with
  | nil => rfl
  | cons c rest =>
      apply fractionLength_of_ne
      rintro rfl
      cases loose '.' rfl

theorem joins_blank (kind : TokenKind) : joins kind ' ' = false ∧ joins kind '\t' = false ∧
    joins kind '\r' = false ∧ joins kind '\n' = false := by
  cases kind <;> decide

/-- In front of a blank every token is scanned as it is. -/
theorem scanned_loose {kind : TokenKind} {text tail : List Char} (token : TokenText kind text)
    (loose : Loose tail) : scanToken (text ++ tail) = some (kind, text.length) := by
  cases token with
  | word starts all => exact (scanToken_word_iff starts all tail).mpr (loose.stops (by decide))
  | number number =>
      rw [scanToken_number_iff number, NumberContinues]
      split
      · exact fun stops => stops (loose.stops (by decide))
      · rintro (digit | ⟨-, mark⟩ | ⟨-, letter⟩ | ⟨-, sign⟩ | ⟨-, fraction⟩)
        · exact digit (loose.stops (by decide))
        · exact mark (loose.stops (by decide))
        · exact letter (loose.stops (by decide))
        · exact sign (loose.stops (by decide))
        · exact fraction loose.fraction
  | string closed => exact scanToken_string closed tail
  | operator known =>
      exact (scanToken_operator_iff known tail).mpr (loose.stops (joins_blank kind))

/-- The kinds that run into others or are run into. -/
def isJoining (kind : TokenKind) : Bool :=
  isWord kind || isNumber kind ||
    match kind with
    | .amp | .pipe | .dot | .dotDot | .plusEq | .minusEq => true
    | _ => false

theorem tight_of_isJoining {kind : TokenKind} (joining : isJoining kind = true) :
    blankBefore kind = false ∧ blankBehind kind = false ∧ kind ≠ .eof := by
  cases kind <;> first
    | cases joining; done
    | decide

theorem isJoining_of_runsInto {t b : Token} {more : List Token}
    (runs : runsInto t (b :: more) = true) :
    isJoining t.kind = true ∧ isJoining b.kind = true := by
  simp only [runsInto] at runs
  split at runs
  case isTrue word =>
    simp only [Bool.or_eq_true] at runs
    rcases runs with word' | number
    · simp [isJoining, word, word']
    · simp [isJoining, word, number]
  case isFalse =>
    split at runs
    case isTrue number =>
      simp only [Bool.or_eq_true, Bool.and_eq_true, decide_eq_true_eq] at runs
      rcases runs with ((number' | ⟨word, -⟩) | ⟨⟨plus | minus, -⟩, -⟩) | ⟨-, dot, -⟩
      · simp [isJoining, number, number']
      · simp [isJoining, number, word]
      · simp [isJoining, number, plus]
      · simp [isJoining, number, minus]
      · simp [isJoining, number, dot]
    case isFalse =>
      split at runs
      case h_1 amp => simp_all [isJoining]
      case h_2 pipe => simp_all [isJoining]
      case h_3 dot =>
        simp only [Bool.or_eq_true, decide_eq_true_eq] at runs
        rcases runs with one | two
        · simp [isJoining, dot, one]
        · simp [isJoining, dot, two]
      case h_4 => cases runs

/-- What runs into the next token is written in front of it without a blank. -/
theorem nextTight_of_runsInto {t b : Token} {more : List Token}
    (runs : runsInto t (b :: more) = true) : NextTight t b := by
  obtain ⟨left, right⟩ := isJoining_of_runsInto runs
  exact ⟨(tight_of_isJoining left).2.1, (tight_of_isJoining right).1,
    (tight_of_isJoining right).2.2⟩

/-- The first character of a token, by its class. -/
theorem first_cases {kind : TokenKind} {text : List Char} (token : TokenText kind text) :
    ∃ c cs, text = c :: cs ∧
      (isWord kind = true ∧ startsWord c = true ∨ isNumber kind = true ∧ isDigit c = true ∨
        kind = .strLit ∧ c = '"' ∨ operatorText kind = some text) := by
  cases token with
  | word starts => exact ⟨_, _, rfl, .inl ⟨isWord_matchKeyword _, starts⟩⟩
  | number number =>
      obtain ⟨c, cs, rfl, digit⟩ := number.first
      exact ⟨c, cs, rfl, .inr (.inl ⟨isNumber_of_text number, digit⟩)⟩
  | string => exact ⟨_, _, rfl, .inr (.inr (.inl ⟨rfl, rfl⟩))⟩
  | operator known =>
      obtain ⟨c, cs, rfl, -⟩ := operatorText_first known
      exact ⟨c, cs, rfl, .inr (.inr (.inr known))⟩

/-- What the first character of an operator is not, and whose it can be. -/
structure OperatorFirst (kind : TokenKind) (c : Char) : Prop where
  noWord : isWord kind = false ∧ isNumber kind = false
  outside : inWord c = false ∧ isDigit c = false ∧ isXDigit c = false
  noLetter : isHexMark c = false ∧ isExponentLetter c = false
  sign : blankBefore kind = false → isSign c = (kind = .plusEq || kind = .minusEq)
  dot : c = '.' ↔ kind = .dot ∨ kind = .dotDot
  amp : blankBefore kind = false → (c = '&' ↔ kind = .amp)
  pipe : blankBefore kind = false → (c = '|' ↔ kind = .pipe)
  equals : blankBefore kind = false → c ≠ '='
  solid : isBlank c = false
  slash : c = '/' → kind = .slash

theorem operatorFirst {kind : TokenKind} {c : Char} {cs : List Char}
    (known : operatorText kind = some (c :: cs)) : OperatorFirst kind c := by
  cases kind <;> first
    | cases known; done
    | cases known
      constructor <;> decide

/-- What the first character of a word is not. -/
theorem startsWord_ne {c : Char} (starts : startsWord c = true) :
    isDigit c = false ∧ isSign c = false ∧ c ≠ '.' ∧ ∀ kind, joins kind c = false := by
  have other : ∀ d, startsWord d = false → c ≠ d := by
    rintro d plain rfl
    rw [starts] at plain
    cases plain
  refine ⟨?_, ?_, other '.' (by decide), fun kind => ?_⟩
  · exact eq_false_of_ne_true fun digit => by
      rw [startsWord_of_isDigit digit] at starts
      cases starts
  · simp [isSign, other '+' (by decide), other '-' (by decide)]
  · cases kind <;> simp [joins, other '=' (by decide), other '>' (by decide),
      other '<' (by decide), other '&' (by decide), other '|' (by decide),
      other ':' (by decide), other '.' (by decide)]

/-- What the first character of a number is not. -/
theorem isDigit_ne {c : Char} (digit : isDigit c = true) :
    isXDigit c = true ∧ inWord c = true ∧ ∀ kind, joins kind c = false := by
  have other : ∀ d, isDigit d = false → c ≠ d := by
    rintro d plain rfl
    rw [digit] at plain
    cases plain
  refine ⟨by simp [isXDigit, digit], by simp [inWord, digit], fun kind => ?_⟩
  cases kind <;> simp [joins, other '=' (by decide), other '>' (by decide),
    other '<' (by decide), other '&' (by decide), other '|' (by decide),
    other ':' (by decide), other '.' (by decide)]

section Next

variable {b : Token} {more : List Token} {tail : List Char}

/-- A word goes on exactly in words and numbers. -/
theorem inWord_next (token : TokenText b.kind b.text) :
    Stops inWord (b.text ++ tail) ↔ (isWord b.kind || isNumber b.kind) = false := by
  obtain ⟨c, cs, text, ⟨word, starts⟩ | ⟨number, digit⟩ | ⟨string, rfl⟩ | known⟩ :=
    first_cases token
  · simp [text, stops_cons, inWord_of_startsWord starts, word]
  · simp [text, stops_cons, (isDigit_ne digit).2.1, number]
  · simp only [text, List.cons_append, stops_cons, string]
    decide
  · rw [text] at known
    have facts := operatorFirst known
    simp [text, stops_cons, facts.outside.1, facts.noWord.1, facts.noWord.2]

/-- The first characters that make a longer operator, and whose they are. -/
structure JoiningFirst (kind : TokenKind) (c : Char) : Prop where
  amp : c = '&' ↔ kind = .amp
  pipe : c = '|' ↔ kind = .pipe
  dot : c = '.' ↔ kind = .dot ∨ kind = .dotDot
  equals : c ≠ '='

theorem joiningFirst_of_plain {kind : TokenKind} {c : Char}
    (plain : isWord kind = true ∨ isNumber kind = true ∨ kind = .strLit)
    (other : c ≠ '&' ∧ c ≠ '|' ∧ c ≠ '.' ∧ c ≠ '=') : JoiningFirst kind c := by
  obtain ⟨noAmp, noPipe, noDot, noEquals⟩ := other
  have apart : kind ≠ .amp ∧ kind ≠ .pipe ∧ kind ≠ .dot ∧ kind ≠ .dotDot := by
    revert plain
    cases kind <;> decide
  constructor
  · exact iff_of_false noAmp apart.1
  · exact iff_of_false noPipe apart.2.1
  · exact iff_of_false noDot (not_or.mpr apart.2.2)
  · exact noEquals

theorem joiningFirst {kind : TokenKind} {c : Char} {cs : List Char}
    (token : TokenText kind (c :: cs)) (tight : blankBefore kind = false) :
    JoiningFirst kind c := by
  obtain ⟨d, ds, same, ⟨word, starts⟩ | ⟨number, digit⟩ | ⟨string, rfl⟩ | known⟩ :=
    first_cases token
  · cases same
    have other : ∀ d, startsWord d = false → c ≠ d := by
      rintro d plain rfl
      rw [starts] at plain
      cases plain
    exact joiningFirst_of_plain (.inl word)
      ⟨other '&' rfl, other '|' rfl, other '.' rfl, other '=' rfl⟩
  · cases same
    have other : ∀ d, isDigit d = false → c ≠ d := by
      rintro d plain rfl
      rw [digit] at plain
      cases plain
    exact joiningFirst_of_plain (.inr (.inl number))
      ⟨other '&' rfl, other '|' rfl, other '.' rfl, other '=' rfl⟩
  · cases same
    exact joiningFirst_of_plain (.inr (.inr string)) (by decide)
  · cases same
    have facts := operatorFirst known
    exact ⟨facts.amp tight, facts.pipe tight, facts.dot, facts.equals tight⟩

/-- The operators that join exactly run into their like. -/
theorem joins_next {t : Token} {text : List Char} (known : operatorText t.kind = some text)
    (next : NextTight t b) (token : TokenText b.kind b.text) :
    Stops (joins t.kind) (b.text ++ tail) ↔ runsInto t (b :: more) = false := by
  obtain ⟨c, cs, first, -⟩ := first_cases token
  rw [first] at token
  have facts := joiningFirst token next.2.1
  obtain ⟨d, ds, rfl, -⟩ := operatorText_first known
  have noWord := (operatorFirst known).noWord
  simp only [runsInto, noWord.1, noWord.2, first, List.cons_append, stops_cons,
    Bool.false_eq_true, if_false]
  have tight := next.1
  generalize t.kind = kind at tight ⊢
  cases kind <;> first
    | cases tight; done
    | simp [joins]; done
    | simp [joins, facts.amp, facts.pipe, facts.dot, facts.equals]

theorem not_digits_of_startsHex {text : List Char} (hex : startsHex text = true) :
    text.all isDigit = false := by
  unfold startsHex at hex
  split at hex
  case h_1 x rest =>
    cases digit : isDigit x with
    | true =>
        rw [not_isHexMark_of_isDigit digit] at hex
        cases hex
    | false => simp [digit]
  case h_2 => cases hex

/-- What a number goes on in, in terms of the next token and its first character. -/
theorem numberContinues_next {kind : TokenKind} {text : List Char} {c : Char} {cs : List Char}
    (token : TokenText kind (c :: cs)) (tight : blankBefore kind = false) :
    NumberContinues text (c :: cs ++ tail) ↔
      ((isNumber kind = true ∨ isWord kind = true ∧ goesOn text c = true) ∨
        ((kind = .plusEq ∨ kind = .minusEq) ∧ startsHex text = false) ∧
          text.getLast?.any isExponentLetter = true) ∨
        text.all isDigit = true ∧ fractionLength (c :: cs ++ tail) ≠ 0 := by
  have broken := @not_digits_of_startsHex text
  rw [NumberContinues, List.cons_append]
  simp only [stops_cons, Bool.not_eq_false]
  obtain ⟨d, ds, same, ⟨word, starts⟩ | ⟨number, digit⟩ | ⟨string, rfl⟩ | known⟩ :=
    first_cases token
  · cases same
    obtain ⟨noDigit, noSign, noDot, -⟩ := startsWord_ne starts
    have apart : kind ≠ .plusEq ∧ kind ≠ .minusEq ∧ isNumber kind = false := by
      revert word
      cases kind <;> decide
    cases hex : startsHex text <;>
      simp [hex, goesOn, fractionLength_of_ne noDot, noDigit, noSign, apart, word]
  · cases same
    cases hex : startsHex text <;> simp [number, digit, (isDigit_ne digit).1]
  · cases same
    subst string
    have quote : isXDigit '"' = false ∧ isDigit '"' = false ∧ isHexMark '"' = false ∧
        isExponentLetter '"' = false ∧ isSign '"' = false := by decide
    have noDot : fractionLength ('"' :: (cs ++ tail)) = 0 := fractionLength_of_ne (by decide) _
    cases hex : startsHex text <;> simp [quote, noDot, isWord, isNumber, keywords]
  · cases same
    have facts := operatorFirst known
    have sign := facts.sign tight
    cases hex : startsHex text with
    | false => simp [facts.outside, facts.noLetter, facts.noWord, sign, and_comm]
    | true => simp [facts.outside, facts.noWord, broken hex]

theorem isDigit_next (token : TokenText b.kind b.text) :
    Stops isDigit (b.text ++ tail) ↔ isNumber b.kind = false := by
  obtain ⟨c, cs, text, ⟨word, starts⟩ | ⟨number, digit⟩ | ⟨string, rfl⟩ | known⟩ :=
    first_cases token
  · simp [text, stops_cons, (startsWord_ne starts).1, (unspaced_word word).2.2.2]
  · simp [text, stops_cons, digit, number]
  · simp only [text, List.cons_append, stops_cons, string]
    decide
  · rw [text] at known
    have facts := operatorFirst known
    simp [text, stops_cons, facts.outside.2.1, facts.noWord.2]

end Next

theorem fractionLength_dot (cs : List Char) :
    fractionLength ('.' :: cs) = 0 ↔ Stops isDigit cs := by
  cases cs with
  | nil => simp [fractionLength, Stops]
  | cons c rest =>
      rw [stops_cons]
      by_cases digit : isDigit c = true <;> simp [fractionLength, digit]

/-- Behind a dot written tightly in front of a number the output goes on with a digit. -/
theorem stops_isDigit_iff {b : Token} {next next' : Int} {before behind : List Char}
    {atLineStart newLine : Bool} {more : List Token} (dot : b.kind = .dot)
    (written : Written b next atLineStart before behind next' newLine) (others : TokenList more) :
    Stops isDigit (behind ++ format more next' newLine) ↔
      (more.head?.any fun c => isNumber c.kind) = false := by
  rcases written.tail_cases others with ⟨loose, apart⟩ | ⟨c, rest, behind', next'', newLine', rfl,
    -, token, -, -, tail⟩
  · refine iff_of_true (loose.stops (by decide)) ?_
    rw [Option.any_eq_false]
    intro c first
    cases number : isNumber c.kind with
    | false => decide
    | true =>
        refine absurd ⟨by rw [dot]; rfl, ?_⟩ (apart c first)
        revert number
        cases c.kind <;> decide
  · rw [tail, isDigit_next token]
    simp

/-- The fraction that a whole number gets from the tokens behind it. -/
theorem fraction_next {b : Token} {next next' : Int} {behind : List Char} {newLine : Bool}
    {more : List Token} (token : TokenText b.kind b.text) (tight : blankBefore b.kind = false)
    (written : Written b next false [] behind next' newLine) (others : TokenList more) :
    fractionLength (b.text ++ (behind ++ format more next' newLine)) ≠ 0 ↔
      b.kind = .dot ∧ (more.head?.any fun c => isNumber c.kind) = true := by
  obtain ⟨c, cs, text, -⟩ := first_cases token
  have facts := joiningFirst (text ▸ token) tight
  by_cases dot : b.kind = .dot
  · have known : b.text = ['.'] := by
      rcases token_cases token with word | number | string | known
      · rw [dot] at word; cases word
      · rw [dot] at number; cases number
      · rw [dot] at string; cases string
      · rw [dot] at known
        exact (Option.some.inj known).symm
    rw [known, List.singleton_append, Ne, fractionLength_dot, stops_isDigit_iff dot written others,
      Bool.not_eq_false]
    exact (and_iff_right dot).symm
  · refine iff_of_false (not_not_intro ?_) fun dotted => dot dotted.1
    rw [text, List.cons_append]
    by_cases point : c = '.'
    · have dots : b.kind = .dotDot := (facts.dot.mp point).resolve_left dot
      have known : b.text = ['.', '.'] := by
        rcases token_cases token with word | number | string | known
        · rw [dots] at word; cases word
        · rw [dots] at number; cases number
        · rw [dots] at string; cases string
        · rw [dots] at known
          exact (Option.some.inj known).symm
      rw [known] at text
      cases text
      rw [fractionLength_dot]
      exact stops_cons.mpr rfl
    · exact fractionLength_of_ne point _

/-- A token of the output is scanned as it is exactly if it does not run into
the next one. -/
theorem scanned_iff {t : Token} {indent next : Int} {atLineStart newLine : Bool}
    {before behind : List Char} {rest : List Token} (token : TokenText t.kind t.text)
    (written : Written t indent atLineStart before behind next newLine)
    (others : TokenList rest) :
    scanToken (t.text ++ (behind ++ format rest next newLine)) =
      some (t.kind, t.text.length) ↔ runsInto t rest = false := by
  rcases written.tail_cases others with ⟨loose, apart⟩ | ⟨b, more, behind', next', newLine', rfl,
    tight, nextToken, others', written', tail⟩
  · refine iff_of_true (scanned_loose token loose) ?_
    cases rest with
    | nil => rfl
    | cons b more => exact eq_false_of_ne_true fun runs => apart b rfl (nextTight_of_runsInto runs)
  · rw [tail]
    obtain ⟨kind, span, text⟩ := t
    simp only at token tight ⊢
    cases token with
    | @word c cs starts all =>
        rw [scanToken_word_iff starts all, inWord_next nextToken, runsInto,
          if_pos (isWord_matchKeyword _)]
    | number number =>
        have known := isNumber_of_text number
        have noWord : isWord kind = false := by
          revert known
          cases kind <;> decide
        have fraction := fraction_next nextToken tight.2.1 written' others'
        obtain ⟨c, cs, first, -⟩ := first_cases nextToken
        rw [scanToken_number_iff number]
        rw [first] at nextToken fraction ⊢
        rw [numberContinues_next nextToken tight.2.1, fraction,
          ← Bool.not_eq_true (runsInto _ _), not_iff_not]
        simp only [runsInto, noWord, known, first, Bool.false_eq_true, if_false, if_true,
          Bool.or_eq_true, Bool.and_eq_true, decide_eq_true_eq, List.head?_cons, Option.any_some,
          Bool.not_eq_true']
    | @string text closed =>
        refine iff_of_true (scanToken_string closed _) ?_
        simp [runsInto, isWord, isNumber, keywords]
    | operator known =>
        rw [scanToken_operator_iff known]
        exact joins_next (t := ⟨kind, span, text⟩) known tight nextToken

theorem not_blank_of_plain {c : Char} (plain : startsWord c = true ∨ isDigit c = true ∨ c = '"') :
    isBlank c = false ∧ c ≠ '/' := by
  constructor
  · cases blank : isBlank c with
    | false => rfl
    | true =>
        rcases isBlank_cases blank with rfl | rfl | rfl | rfl <;> revert plain <;> decide
  · rintro rfl
    revert plain
    decide

/-- No token is taken for a comment or a blank. -/
theorem solid_token {t : Token} {indent next : Int} {atLineStart newLine : Bool}
    {before behind : List Char} (token : TokenText t.kind t.text)
    (written : Written t indent atLineStart before behind next newLine) (tail : List Char) :
    Solid (t.text ++ (behind ++ tail)) := by
  intro c cs same
  obtain ⟨d, ds, text, shape⟩ := first_cases token
  rw [text, List.cons_append] at same
  obtain ⟨rfl, rfl⟩ := List.cons.inj same
  have plain : (startsWord d = true ∨ isDigit d = true ∨ d = '"') ∨
      operatorText t.kind = some t.text := by
    rcases shape with ⟨-, starts⟩ | ⟨-, digit⟩ | ⟨-, quote⟩ | known
    · exact .inl (.inl starts)
    · exact .inl (.inr (.inl digit))
    · exact .inl (.inr (.inr quote))
    · exact .inr known
  rcases plain with plain | known
  · obtain ⟨solid, noSlash⟩ := not_blank_of_plain plain
    exact ⟨solid, fun comment => noSlash comment.1⟩
  · have facts := operatorFirst (text ▸ known)
    refine ⟨facts.solid, ?_⟩
    rintro ⟨slash, comment⟩
    have kind : t.kind = .slash := facts.slash slash
    have alone : d :: ds = ['/'] := by
      rw [kind, text] at known
      exact (Option.some.inj known).symm
    obtain ⟨-, rfl⟩ := List.cons.inj alone
    have some : behind ≠ [] := fun none => by
      have tight := written.tightBehind.mp none
      rw [kind] at tight
      cases tight
    have loose := loose_blanks written.blanksBehind some tail
    rcases comment with line | block
    · cases loose '/' line
    · cases loose '*' block

theorem toks_le_format {toks : List Token} (tokens : TokenList toks) (indent : Int)
    (atLineStart : Bool) : toks.length ≤ (format toks indent atLineStart).length + 1 := by
  induction tokens generalizing indent atLineStart with
  | last => simp
  | @cons t rest token others ih =>
      obtain ⟨before, behind, next, newLine, written⟩ := exists_written token indent atLineStart
      have shorter := ih next newLine
      have some : 0 < t.text.length := List.length_pos_iff.mpr token.nonempty
      rw [written.output]
      simp only [List.length_cons, List.length_append]
      omega

/-- Lexing the formatted tokens gives the same kinds and texts exactly if no
token runs into the next one. -/
theorem relexed_iff {fileId : SymbolId} {toks : List Token} (tokens : TokenList toks)
    {indent : Int} {atLineStart : Bool} {lex : Lexer} {blanks : List Char}
    (blank : ∀ c ∈ blanks, isBlank c = true)
    (here : lex.rest = blanks ++ format toks indent atLineStart) {fuel : Nat}
    (enough : toks.length ≤ fuel) :
    (∃ again, lex.tokenizeFrom fileId fuel = .ok again ∧ again.map shape = toks.map shape) ↔
      keptApart toks = true := by
  induction tokens generalizing indent atLineStart lex blanks fuel with
  | @last e ends =>
      have nothing : format [e] indent atLineStart = [] := by
        simp [format, (Prod.mk.inj ends).1]
      rw [nothing] at here
      have ended : (lex.skipWsAndComments lex.rest.length).rest = [] :=
        skip_blanks blank solid_nil here (by rw [here]; simp)
      obtain ⟨fuel, rfl⟩ : ∃ m, fuel = m + 1 := ⟨fuel - 1, by simp at enough; omega⟩
      obtain ⟨last, ran, shaped⟩ := tokenizeFrom_ended fileId fuel ended
      refine iff_of_true ⟨[last], ran, ?_⟩ rfl
      rw [List.map_singleton, List.map_singleton, shaped, ends]
  | @cons t rest token others ih =>
      obtain ⟨before, behind, next, newLine, written⟩ := exists_written token indent atLineStart
      have scanned := scanned_iff token written others
      have skipped : (lex.skipWsAndComments lex.rest.length).rest =
          t.text ++ (behind ++ format rest next newLine) := by
        rw [written.output, ← List.append_assoc] at here
        apply skip_blanks _ (solid_token token written _) here
        · rw [here]
          simp
        · intro c inside
          rcases List.mem_append.mp inside with outer | inner
          · exact blank c outer
          · exact written.blanksBefore c inner
      obtain ⟨fuel, rfl⟩ : ∃ m, fuel = m + 1 := ⟨fuel - 1, by simp at enough; omega⟩
      rw [← skipped] at scanned
      cases runs : runsInto t rest with
      | false =>
          obtain ⟨first, lex', shaped, further, ran⟩ :=
            tokenizeFrom_token fileId fuel (scanned.mpr runs)
          rw [skipped, List.take_left] at shaped
          rw [skipped, List.drop_left] at further
          have rest_iff := ih written.blanksBehind further (by simp at enough; exact enough)
          rw [keptApart, runs, Bool.not_false, Bool.true_and, ← rest_iff, ran]
          constructor
          · rintro ⟨again, accepted, same⟩
            cases read : Lexer.tokenizeFrom fileId fuel lex' with
            | error => rw [read] at accepted; cases accepted
            | ok again' =>
                rw [read] at accepted
                cases accepted
                exact ⟨again', rfl, (List.cons.inj same).2⟩
          · rintro ⟨again, accepted, same⟩
            refine ⟨first :: again, by rw [accepted]; rfl, ?_⟩
            rw [List.map_cons, List.map_cons, shaped, same]
            rfl
      | true =>
          refine iff_of_false ?_ (by simp [keptApart, runs])
          rintro ⟨again, accepted, same⟩
          cases found : scanToken (lex.skipWsAndComments lex.rest.length).rest with
          | none =>
              have some : (lex.skipWsAndComments lex.rest.length).rest ≠ [] := by
                rw [skipped]
                exact List.append_ne_nil_of_left_ne_nil token.nonempty _
              obtain ⟨line, col, message, failed⟩ := tokenizeFrom_none fileId fuel some found
              rw [failed] at accepted
              cases accepted
          | some token' =>
              obtain ⟨kind, n⟩ := token'
              obtain ⟨text, tail, split, rfl, -⟩ := scanToken_text found
              obtain ⟨first, lex', shaped, -, ran⟩ := tokenizeFrom_token fileId fuel found
              rw [ran] at accepted
              cases read : Lexer.tokenizeFrom fileId fuel lex' with
              | error => rw [read] at accepted; cases accepted
              | ok again' =>
                  rw [read] at accepted
                  cases accepted
                  -- The same shape would be the scan of the token as it is.
                  have shapes : shape first = shape t := (List.cons.inj same).1
                  rw [shaped, split, List.take_left] at shapes
                  obtain ⟨rfl, rfl⟩ := Prod.mk.inj shapes
                  rw [scanned.mp found] at runs
                  cases runs

/-- The output depends on kinds and texts only. -/
theorem format_congr {toks others : List Token} (same : toks.map shape = others.map shape)
    (indent : Int) (atLineStart : Bool) :
    format toks indent atLineStart = format others indent atLineStart := by
  induction toks generalizing others indent atLineStart with
  | nil =>
      cases others with
      | nil => rfl
      | cons => cases same
  | cons t toks ih =>
      cases others with
      | nil => cases same
      | cons u others =>
          obtain ⟨shapes, rest⟩ := List.cons.inj same
          obtain ⟨kind, text⟩ := Prod.mk.inj shapes
          have emitted : emitToken t = emitToken u := by
            rw [emitToken, emitToken, kind, text]
          have tails := fun indent atLineStart => ih rest indent atLineStart
          rw [format, format, kind, emitted]
          split
          · rfl
          · rw [tails]
          · rw [tails]
          · rw [tails, tails]

/-- The formatter keeps the tokens of a source, and formats its own output to
itself, exactly if no token of the source runs into the next one. -/
theorem main_keeps_iff {fileId : SymbolId} {src : List Char} {toks : List Token}
    (accepted : tokenize fileId src = .ok toks) :
    (∃ out, main fileId src = .ok out ∧
      (∃ again, tokenize fileId out = .ok again ∧ again.map shape = toks.map shape) ∧
        main fileId out = .ok out) ↔ keptApart toks = true := by
  have formatted : main fileId src = .ok (format toks 0 true) := by
    rw [main, accepted]
    rfl
  have tokens : TokenList toks := tokenizeFrom_tokens accepted
  have relexed := @relexed_iff fileId toks tokens 0 true { rest := format toks 0 true } []
    (by simp) rfl ((format toks 0 true).length + 1) (toks_le_format tokens 0 true)
  rw [← relexed, formatted]
  constructor
  · rintro ⟨out, same, kept, -⟩
    cases same
    exact kept
  · rintro ⟨again, read, same⟩
    refine ⟨_, rfl, ⟨again, read, same⟩, ?_⟩
    have reread : tokenize fileId (format toks 0 true) = .ok again := read
    rw [main, reread]
    exact congrArg Except.ok (format_congr same 0 true)

/-- The tokens of a source that is accepted. -/
def tokensOf (src : List Char) : List Token :=
  match tokenize 0 src with
  | .ok toks => toks
  | .error _ => []

/-- A block without two words in a row. -/
def apartSource : List Char := "\x7b x=1+y; f(x).g [2]; \x7d // end".toList

theorem main_keeps_iff_apart :
    ∃ out, main 0 apartSource = .ok out ∧
      (∃ again, tokenize 0 out = .ok again ∧
        again.map shape = (tokensOf apartSource).map shape) ∧
        main 0 out = .ok out := by
  have accepted : tokenize 0 apartSource = .ok (tokensOf apartSource) := by decide
  exact (main_keeps_iff accepted).mpr (by decide)

/-- A binding begins with two words in a row, which become one. -/
def letX : List Char := "let x = 1;".toList

theorem letX_joined :
    ¬∀ (fileId : SymbolId) (src : List Char) (toks : List Token),
      tokenize fileId src = .ok toks →
        ∃ out, main fileId src = .ok out ∧
          (∃ again, tokenize fileId out = .ok again ∧ again.map shape = toks.map shape) ∧
            main fileId out = .ok out := by
  intro keeps
  have accepted : tokenize 0 letX = .ok (tokensOf letX) := by decide
  have joined : main 0 letX = .ok "letx = 1;\n".toList := by decide
  have reread : tokenize 0 "letx = 1;\n".toList = .ok (tokensOf "letx = 1;\n".toList) := by
    decide
  obtain ⟨out, formatted, ⟨again, read, same⟩, -⟩ := keeps 0 letX (tokensOf letX) accepted
  rw [joined] at formatted
  cases formatted
  rw [reread] at read
  cases read
  revert same
  decide

end Formatter

end Aegis
