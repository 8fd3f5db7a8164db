import AegisCompiler.FormattedTokens
import AegisCompiler.Parser
import AegisCompiler.PositionalNumerals

/-!
# The values of integer literals

The lexer takes decimal and hexadecimal numerals of any length.  The parser multiplies
decimal digits together modulo `2 ^ 64` and passes over all other characters, so
hexadecimal numerals of ten and more have another value than they are written with.
-/

namespace Aegis

namespace Parser

open Lexer (isDigit isXDigit isHexMark startsHex NumberText)
open PositionalNumerals

def baseOf (text : List Char) : Nat := if startsHex text then 16 else 10

/-- The characters behind the mark of a base. -/
def digitChars (text : List Char) : List Char := if startsHex text then text.drop 2 else text

def digitValue (c : Char) : Nat :=
  if isDigit c then c.toNat - 48
  else if 'a' ≤ c then c.toNat - 97 + 10
  else c.toNat - 65 + 10

def digitsOf (text : List Char) : List Nat := (digitChars text).map digitValue

/-- The value that a numeral is written with. -/
def numeralValue (text : List Char) : Nat := value (baseOf text) (digitsOf text)

/-- The numeral has digits, and its value fits into 64 bits. -/
def InRange (text : List Char) : Prop := digitsOf text ≠ [] ∧ numeralValue text < 2 ^ 64

theorem isDigit_iff {c : Char} : isDigit c = true ↔ '0' ≤ c ∧ c ≤ '9' := by
  rw [isDigit, Bool.and_eq_true, decide_eq_true_iff, decide_eq_true_iff]

theorem digitValue_digit {c : Char} (digit : isDigit c = true) :
    digitValue c = c.toNat - 48 ∧ digitValue c < 10 := by
  rw [digitValue, if_pos digit]
  refine ⟨rfl, ?_⟩
  have high := (isDigit_iff.mp digit).2
  have nine : '9'.toNat = 57 := rfl
  have bound : c.toNat ≤ '9'.toNat := high
  omega

/-- The letters among the hexadecimal digits stand for ten and more. -/
theorem digitValue_letter {c : Char} (known : isXDigit c = true) (letter : isDigit c = false) :
    10 ≤ digitValue c ∧ digitValue c < 16 := by
  rw [isXDigit, letter, Bool.false_or, Bool.or_eq_true, Bool.and_eq_true, Bool.and_eq_true,
    decide_eq_true_iff, decide_eq_true_iff, decide_eq_true_iff, decide_eq_true_iff] at known
  have smallA : 'a'.toNat = 97 := rfl
  have smallF : 'f'.toNat = 102 := rfl
  have bigF : 'F'.toNat = 70 := rfl
  rw [digitValue, letter, if_neg Bool.false_ne_true]
  rcases known with ⟨low, high⟩ | ⟨low, high⟩
  · rw [if_pos low]
    have bound : c.toNat ≤ 'f'.toNat := high
    omega
  · have bound : c.toNat ≤ 'F'.toNat := high
    have noSmall : ¬ 'a' ≤ c := by
      intro small
      have other : 'a'.toNat ≤ c.toNat := small
      omega
    rw [if_neg noSmall]
    omega

theorem digitValue_lt_ten_iff {c : Char} (known : isXDigit c = true) :
    digitValue c < 10 ↔ isDigit c = true := by
  cases digit : isDigit c with
  | true => simp [(digitValue_digit digit).2]
  | false =>
      have letter := (digitValue_letter known digit).1
      simp only [Bool.false_eq_true, iff_false]
      omega

theorem digitValue_lt {c : Char} (known : isXDigit c = true) : digitValue c < 16 := by
  cases digit : isDigit c with
  | true => exact (digitValue_digit digit).2.trans (by decide)
  | false => exact (digitValue_letter known digit).2

/-- The decimal digits are read, and nothing else. -/
theorem intLiteral_eq (text : List Char) :
    intLiteral text = BitVec.ofNat 64 (value 10 ((text.filter isDigit).map digitValue)) := by
  induction text using List.reverseRecOn with
  | nil => rfl
  | append_singleton text c ih =>
      unfold intLiteral at ih ⊢
      rw [List.foldl_append, List.foldl_cons, List.foldl_nil, ih, List.filter_append,
        List.map_append]
      cases digit : isDigit c with
      | true =>
          rw [if_pos (isDigit_iff.mp digit), List.filter_singleton, digit, cond_true,
            List.map_singleton, value_concat, (digitValue_digit digit).1]
          rw [Nat.add_comm, Nat.mul_comm, BitVec.ofNat_add, BitVec.ofNat_mul]
          rfl
      | false =>
          have other : ¬('0' ≤ c ∧ c ≤ '9') := fun inside => by
            rw [isDigit_iff.mpr inside] at digit
            cases digit
          rw [if_neg other, List.filter_singleton, digit, cond_false, List.map_nil,
            List.append_nil]

/-- An integer literal is a mark with hexadecimal digits, or some decimal digits. -/
theorem intLit_cases {kind : TokenKind} {text : List Char} (number : NumberText kind text)
    (integer : kind = .intLit) :
    (∃ x hs, text = '0' :: x :: hs ∧ isHexMark x = true ∧ ∀ c ∈ hs, isXDigit c = true) ∨
      (text ≠ [] ∧ ∀ c ∈ text, isDigit c = true) := by
  cases number with
  | @hex x hs mark all => exact .inl ⟨x, hs, rfl, mark, all⟩
  | @decimal d whole fraction exponent digits =>
      split at integer
      case isFalse => cases integer
      case isTrue none =>
        obtain ⟨rfl, rfl⟩ := none
        rw [List.append_nil, List.append_nil]
        exact .inr ⟨List.cons_ne_nil _ _, digits⟩

theorem isDigit_of_isHexMark {x : Char} (mark : isHexMark x = true) : isDigit x = false := by
  simp only [isHexMark, Bool.or_eq_true, decide_eq_true_eq] at mark
  rcases mark with rfl | rfl <;> rfl

section Hexadecimal

variable {x : Char} {hs : List Char} (mark : isHexMark x = true)

include mark

theorem startsHex_hex : startsHex ('0' :: x :: hs) = true := mark

theorem digitsOf_hex : digitsOf ('0' :: x :: hs) = hs.map digitValue := by
  rw [digitsOf, digitChars, if_pos (startsHex_hex mark)]
  rfl

theorem baseOf_hex : baseOf ('0' :: x :: hs) = 16 := if_pos (startsHex_hex mark)

/-- Of a hexadecimal numeral the decimal digits are read. -/
theorem intLiteral_hex (all : ∀ c ∈ hs, isXDigit c = true) :
    intLiteral ('0' :: x :: hs) =
      BitVec.ofNat 64 (value 10 ((digitsOf ('0' :: x :: hs)).filter (· < 10))) := by
  have other : ¬ isDigit x = true := by
    rw [isDigit_of_isHexMark mark]
    exact Bool.false_ne_true
  have same : hs.filter ((decide <| · < 10) ∘ digitValue) = hs.filter isDigit := by
    refine List.filter_congr fun c member => ?_
    rw [Function.comp_apply, Bool.eq_iff_iff, decide_eq_true_iff]
    exact digitValue_lt_ten_iff (all c member)
  rw [intLiteral_eq, digitsOf_hex mark, List.filter_map, same, List.filter_cons_of_pos rfl,
    List.filter_cons_of_neg other, List.map_cons]
  exact congrArg (BitVec.ofNat 64) (value_zero_cons 10 _)

end Hexadecimal

/-- A decimal numeral is read as it is written. -/
theorem numeral_decimal {text : List Char} (all : ∀ c ∈ text, isDigit c = true) :
    startsHex text = false ∧ baseOf text = 10 ∧ digitsOf text = text.map digitValue ∧
      intLiteral text = BitVec.ofNat 64 (numeralValue text) := by
  have noHex : startsHex text = false := by
    cases known : startsHex text with
    | false => rfl
    | true =>
        unfold startsHex at known
        split at known
        case h_1 x rest =>
          have second := all x (List.mem_cons_of_mem _ List.mem_cons_self)
          rw [isDigit_of_isHexMark known] at second
          cases second
        case h_2 => cases known
  have base : baseOf text = 10 := by
    rw [baseOf, noHex]
    rfl
  have digits : digitsOf text = text.map digitValue := by
    rw [digitsOf, digitChars, noHex]
    rfl
  refine ⟨noHex, base, digits, ?_⟩
  rw [intLiteral_eq, List.filter_eq_self.mpr all, numeralValue, base, digits]

theorem ofNat_inj_of_lt {a b : Nat} (bounded : a < 2 ^ 64) (bounded' : b < 2 ^ 64) :
    BitVec.ofNat 64 a = BitVec.ofNat 64 b ↔ a = b := by
  constructor
  · intro same
    have values := congrArg BitVec.toNat same
    rwa [BitVec.toNat_ofNat, BitVec.toNat_ofNat, Nat.mod_eq_of_lt bounded,
      Nat.mod_eq_of_lt bounded'] at values
  · rintro rfl
    rfl

/-- The value that is read is the right one unless a hexadecimal numeral is ten or more. -/
theorem intLiteral_right_iff {text : List Char} (number : NumberText .intLit text)
    (fits : numeralValue text < 2 ^ 64) :
    intLiteral text = BitVec.ofNat 64 (numeralValue text) ↔
      (startsHex text = true → numeralValue text < 10) := by
  rcases intLit_cases number rfl with ⟨x, hs, rfl, mark, all⟩ | ⟨-, all⟩
  · have read := value_filter (by decide : 0 < 10) (by decide : 10 < 16)
      (digitsOf ('0' :: x :: hs))
    rw [← baseOf_hex mark, ← numeralValue] at read
    rw [intLiteral_hex mark all, ofNat_inj_of_lt (read.1.trans_lt fits) fits, read.2]
    exact ⟨fun small _ => small, fun small => small (startsHex_hex mark)⟩
  · obtain ⟨noHex, -, -, right⟩ := numeral_decimal all
    rw [noHex]
    exact ⟨fun _ => nofun, fun _ => right⟩

/-- The lexer takes the text as an integer literal. -/
def Accepted (text : List Char) : Prop :=
  ∃ fileId src toks, Lexer.tokenize fileId src = .ok toks ∧
    ∃ t ∈ toks, t.kind = .intLit ∧ t.text = text

theorem token_text {toks : List Token} (tokens : Lexer.TokenList toks) {t : Token}
    (member : t ∈ toks) (goesOn : t.kind ≠ .eof) : Lexer.TokenText t.kind t.text := by
  induction tokens with
  | last ends =>
      obtain rfl := List.mem_singleton.mp member
      exact absurd (congrArg Prod.fst ends) goesOn
  | cons token others ih =>
      rcases List.mem_cons.mp member with rfl | later
      · exact token
      · exact ih later

/-- Only numbers are integer literals. -/
theorem number_of_intLit {kind : TokenKind} {text : List Char} (token : Lexer.TokenText kind text)
    (literal : kind = .intLit) : NumberText .intLit text := by
  cases token with
  | number number => exact literal ▸ number
  | string => cases literal
  | @word c cs =>
      have word := Formatter.isWord_matchKeyword (c :: cs)
      rw [literal] at word
      cases word
  | operator known =>
      rw [literal] at known
      cases known

theorem number_of_accepted {text : List Char} (accepted : Accepted text) :
    NumberText .intLit text := by
  obtain ⟨fileId, src, toks, ran, t, member, literal, rfl⟩ := accepted
  have tokens := Lexer.tokenizeFrom_tokens ran
  exact number_of_intLit (token_text tokens member (by rw [literal]; decide)) literal

/-- The parser yields the value of a numeral if it is in range, and an error otherwise. -/
def ReadRightly (text : List Char) : Prop :=
  ∀ (intern : List Char → SymbolId) (s : ParserState) (fuel : Nat),
    s.peek.kind = .intLit → s.peek.text = text →
      (InRange text → parsePrimary intern (fuel + 1) s =
        .ok (.intLit (BitVec.ofNat 64 (numeralValue text))) s.next) ∧
      (¬ InRange text →
        ∃ reported s', parsePrimary intern (fuel + 1) s = .error (.error reported) s')

/-- Different numerals of one base have different values. -/
def ReadApart (text other : List Char) : Prop :=
  InRange text → InRange other → baseOf text = baseOf other →
    NoLeadingZeros (digitsOf text) → NoLeadingZeros (digitsOf other) →
      digitsOf text ≠ digitsOf other → intLiteral text ≠ intLiteral other

/-- A numeral in range that is decimal or less than ten. -/
def Readable (text : List Char) : Prop :=
  InRange text ∧ (startsHex text = true → numeralValue text < 10)

theorem parsePrimary_intLit (intern : List Char → SymbolId) {s : ParserState} (fuel : Nat)
    (literal : s.peek.kind = .intLit) :
    parsePrimary intern (fuel + 1) s = .ok (.intLit (intLiteral s.peek.text)) s.next := by
  have read : (EStateM.get : ParserM ParserState) s = .ok s s := rfl
  rw [parsePrimary]
  change EStateM.bind EStateM.get _ s = _
  simp only [EStateM.bind, read, literal]
  rfl

theorem readRightly_iff {text : List Char} (number : NumberText .intLit text) :
    ReadRightly text ↔ Readable text := by
  constructor
  · intro right
    obtain ⟨yields, reports⟩ := right (fun _ => 0) { toks := [{ kind := .intLit, text }] } 0 rfl rfl
    rw [parsePrimary_intLit _ 0 rfl] at yields reports
    by_cases inRange : InRange text
    · refine ⟨inRange, (intLiteral_right_iff number inRange.2).mp ?_⟩
      have same := yields inRange
      injection same with value
      injection value
    · obtain ⟨reported, s', failed⟩ := reports inRange
      cases failed
  · rintro ⟨inRange, small⟩ intern s fuel literal rfl
    refine ⟨fun _ => ?_, fun outside => absurd inRange outside⟩
    rw [parsePrimary_intLit intern fuel literal, (intLiteral_right_iff number inRange.2).mpr small]

theorem digitsOf_lt {text : List Char} (number : NumberText .intLit text) :
    ∀ d ∈ digitsOf text, d < baseOf text := by
  rcases intLit_cases number rfl with ⟨x, hs, rfl, mark, all⟩ | ⟨-, all⟩
  · rw [digitsOf_hex mark, baseOf_hex mark]
    intro d member
    obtain ⟨c, among, rfl⟩ := List.mem_map.mp member
    exact digitValue_lt (all c among)
  · obtain ⟨-, base, digits, -⟩ := numeral_decimal all
    rw [base, digits]
    intro d member
    obtain ⟨c, among, rfl⟩ := List.mem_map.mp member
    exact (digitValue_digit (all c among)).2

theorem baseOf_large (text : List Char) : 1 < baseOf text := by
  unfold baseOf
  split <;> decide

/-- Numerals that are read rightly are read apart. -/
theorem readApart_of_readable {text other : List Char} (number : NumberText .intLit text)
    (number' : NumberText .intLit other) (readable : Readable text) (readable' : Readable other) :
    ReadApart text other := by
  intro inRange inRange' base leading leading' different same
  rw [(intLiteral_right_iff number inRange.2).mpr readable.2,
    (intLiteral_right_iff number' inRange'.2).mpr readable'.2,
    ofNat_inj_of_lt inRange.2 inRange'.2, numeralValue, numeralValue, ← base] at same
  have small := digitsOf_lt number'
  rw [← base] at small
  exact different (value_injective (baseOf_large text) inRange.1 inRange'.1 (digitsOf_lt number)
    small leading leading' same)

/-- Two numerals are read rightly, and apart from each other, exactly when both are in range
and decimal or less than ten. -/
theorem numerals_read_iff {text other : List Char} (accepted : Accepted text)
    (accepted' : Accepted other) :
    (ReadRightly text ∧ ReadRightly other ∧ ReadApart text other) ↔
      Readable text ∧ Readable other := by
  have number := number_of_accepted accepted
  have number' := number_of_accepted accepted'
  rw [readRightly_iff number, readRightly_iff number']
  constructor
  · rintro ⟨readable, readable', -⟩
    exact ⟨readable, readable'⟩
  · rintro ⟨readable, readable'⟩
    exact ⟨readable, readable', readApart_of_readable number number' readable readable'⟩

/-- Two decimal numerals. -/
theorem numerals_read_seven :
    (ReadRightly ['7'] ∧ ReadRightly ['8'] ∧ ReadApart ['7'] ['8']) ↔
      Readable ['7'] ∧ Readable ['8'] :=
  numerals_read_iff ⟨0, ['7'], _, rfl, _, List.mem_cons_self, rfl, rfl⟩
    ⟨0, ['8'], _, rfl, _, List.mem_cons_self, rfl, rfl⟩

/-- The numeral `0x1F` is accepted, in range, and read as one. -/
theorem hexadecimal_misread :
    Accepted ['0', 'x', '1', 'F'] ∧ numeralValue ['0', 'x', '1', 'F'] = 31 ∧
      intLiteral ['0', 'x', '1', 'F'] = 1 ∧ ¬ ReadRightly ['0', 'x', '1', 'F'] := by
  have accepted : Accepted ['0', 'x', '1', 'F'] :=
    ⟨0, ['0', 'x', '1', 'F'], _, rfl, _, List.mem_cons_self, rfl, rfl⟩
  have value : numeralValue ['0', 'x', '1', 'F'] = 31 := by decide
  refine ⟨accepted, value, by decide, ?_⟩
  rw [readRightly_iff (number_of_accepted accepted)]
  rintro ⟨-, small⟩
  have bounded := small rfl
  rw [value] at bounded
  exact absurd bounded (by decide)

end Parser

end Aegis
