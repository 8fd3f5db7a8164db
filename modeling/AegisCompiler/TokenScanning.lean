import AegisCompiler.Lexer

/-!
# The extent of a token

The lexer decides kind and length of a token by looking at the characters from
its beginning on.  A text that was scanned as a token in front of some
characters is scanned the same in front of others, unless these continue it.
-/

namespace Aegis

namespace Lexer

/-- Kind and length of the token at the beginning of the characters. -/
def scanToken (cs : List Char) : Option (TokenKind × Nat) :=
  match cs with
  | [] => none
  | c :: _ =>
      if startsWord c then
        some (matchKeyword (cs.take (spanLength inWord cs)), spanLength inWord cs)
      else if isDigit c then some (scanNumber cs)
      else if c = '"' then (stringLength (cs.drop 1)).map fun n => (.strLit, n + 1)
      else scanOperator cs

section Spans

variable {holds : Char → Bool} {text tail : List Char}

theorem spanLength_append (all : ∀ c ∈ text, holds c = true) :
    spanLength holds (text ++ tail) = text.length + spanLength holds tail := by
  rw [spanLength, List.takeWhile_append_of_pos all, List.length_append, spanLength]

/-- The next character does not have the property. -/
def Stops (holds : Char → Bool) (tail : List Char) : Prop := ∀ c ∈ tail.head?, holds c = false

theorem spanLength_eq_zero_iff : spanLength holds tail = 0 ↔ Stops holds tail := by
  cases tail with
  | nil => simp [spanLength, Stops]
  | cons c rest => cases known : holds c <;> simp [spanLength, Stops, known]

/-- Every list splits behind the leading characters with the property. -/
theorem exists_span (holds : Char → Bool) (cs : List Char) :
    ∃ text tail, cs = text ++ tail ∧ (∀ c ∈ text, holds c = true) ∧ Stops holds tail ∧
      spanLength holds cs = text.length := by
  refine ⟨cs.takeWhile holds, cs.dropWhile holds, (List.takeWhile_append_dropWhile).symm,
    List.all_eq_true.mp List.all_takeWhile, ?_, rfl⟩
  intro c first
  have stopped := List.head?_dropWhile_not holds cs
  rw [first] at stopped
  exact stopped

theorem exists_span_cons {c : Char} (known : holds c = true) (cs : List Char) :
    ∃ text tail, cs = text ++ tail ∧ (∀ d ∈ c :: text, holds d = true) ∧ Stops holds tail ∧
      spanLength holds (c :: cs) = (c :: text).length := by
  obtain ⟨text, tail, rfl, all, stops, -⟩ := exists_span holds cs
  have every : ∀ d ∈ c :: text, holds d = true := List.forall_mem_cons.mpr ⟨known, all⟩
  refine ⟨text, tail, rfl, every, stops, ?_⟩
  rw [← List.cons_append, spanLength_append every, spanLength_eq_zero_iff.mpr stops, Nat.add_zero]

theorem spanLength_eq_iff (all : ∀ c ∈ text, holds c = true) :
    spanLength holds (text ++ tail) = text.length ↔ Stops holds tail := by
  rw [spanLength_append all, ← spanLength_eq_zero_iff]
  omega

end Spans

/-- The fraction of a number. -/
inductive IsFraction : List Char → Prop
  | none : IsFraction []
  | digits {d : Char} {ds : List Char} (all : ∀ c ∈ d :: ds, isDigit c = true) :
      IsFraction ('.' :: d :: ds)

/-- The exponent of a number. -/
inductive IsExponent : List Char → Prop
  | none : IsExponent []
  | letter {e : Char} (known : isExponentLetter e = true) : IsExponent [e]
  | digits {e d : Char} {ds : List Char} (known : isExponentLetter e = true)
      (all : ∀ c ∈ d :: ds, isDigit c = true) : IsExponent (e :: d :: ds)
  | signed {e s : Char} {ds : List Char} (known : isExponentLetter e = true)
      (sign : isSign s = true) (all : ∀ c ∈ ds, isDigit c = true) : IsExponent (e :: s :: ds)

/-- The texts of numbers. -/
inductive NumberText : TokenKind → List Char → Prop
  | hex {x : Char} {hs : List Char} (mark : isHexMark x = true)
      (all : ∀ c ∈ hs, isXDigit c = true) : NumberText .intLit ('0' :: x :: hs)
  | decimal {d : Char} {whole fraction exponent : List Char}
      (digits : ∀ c ∈ d :: whole, isDigit c = true) (frac : IsFraction fraction)
      (expo : IsExponent exponent) :
      NumberText (if fraction = [] ∧ exponent = [] then .intLit else .floatLit)
        (d :: whole ++ (fraction ++ exponent))

theorem not_isSign_of_isDigit {c : Char} (digit : isDigit c = true) : isSign c = false := by
  cases sign : isSign c with
  | false => rfl
  | true =>
      simp only [isSign, Bool.or_eq_true, decide_eq_true_eq] at sign
      rcases sign with rfl | rfl <;> cases digit

theorem not_isDigit_of_isExponentLetter {c : Char} (letter : isExponentLetter c = true) :
    isDigit c = false ∧ c ≠ '.' ∧ isHexMark c = false := by
  simp only [isExponentLetter, Bool.or_eq_true, decide_eq_true_eq] at letter
  rcases letter with rfl | rfl <;> decide

theorem not_isHexMark_of_isDigit {c : Char} (digit : isDigit c = true) :
    isHexMark c = false := by
  cases mark : isHexMark c with
  | false => rfl
  | true =>
      simp only [isHexMark, Bool.or_eq_true, decide_eq_true_eq] at mark
      rcases mark with rfl | rfl <;> cases digit

theorem exists_fraction (cs : List Char) :
    ∃ fraction rest, cs = fraction ++ rest ∧ IsFraction fraction ∧
      fractionLength cs = fraction.length := by
  unfold fractionLength
  split
  case h_1 d rest =>
    split
    case isTrue digit =>
      obtain ⟨ds, tail, rfl, all, -, length⟩ := exists_span_cons digit rest
      exact ⟨'.' :: d :: ds, tail, rfl, .digits all, by rw [length]; rfl⟩
    case isFalse => exact ⟨[], _, rfl, .none, rfl⟩
  case h_2 => exact ⟨[], cs, rfl, .none, rfl⟩

theorem exists_exponent (cs : List Char) :
    ∃ exponent rest, cs = exponent ++ rest ∧ IsExponent exponent ∧
      exponentLength cs = exponent.length := by
  cases cs with
  | nil => exact ⟨[], [], rfl, .none, rfl⟩
  | cons e cs =>
      by_cases letter : isExponentLetter e = true
      · cases cs with
        | nil => exact ⟨[e], [], rfl, .letter letter, by simp [exponentLength, letter]⟩
        | cons s more =>
            by_cases sign : isSign s = true
            · obtain ⟨ds, tail, rfl, all, -, length⟩ := exists_span isDigit more
              refine ⟨e :: s :: ds, tail, rfl, .signed letter sign all, ?_⟩
              simp [exponentLength, letter, sign, length]
            · by_cases digit : isDigit s = true
              · obtain ⟨ds, tail, rfl, all, -, length⟩ := exists_span_cons digit more
                refine ⟨e :: s :: ds, tail, rfl, .digits letter all, ?_⟩
                simp [exponentLength, letter, sign, length]
              · refine ⟨[e], s :: more, rfl, .letter letter, ?_⟩
                have none : spanLength isDigit (s :: more) = 0 := by
                  simp [spanLength, digit]
                simp [exponentLength, letter, sign, none]
      · exact ⟨[], e :: cs, rfl, .none, by simp [exponentLength, letter]⟩

/-- A number is scanned off the front of what begins with a digit. -/
theorem exists_number {d : Char} (digit : isDigit d = true) (cs : List Char) :
    ∃ kind text tail, d :: cs = text ++ tail ∧ NumberText kind text ∧
      scanNumber (d :: cs) = (kind, text.length) := by
  by_cases hex : startsHex (d :: cs) = true
  · obtain ⟨x, rest, rfl, rfl, mark⟩ : ∃ x rest, d = '0' ∧ cs = x :: rest ∧
        isHexMark x = true := by
      unfold startsHex at hex
      split at hex
      case h_1 x rest same =>
        obtain ⟨rfl, rfl⟩ := List.cons.inj same
        exact ⟨x, rest, rfl, rfl, hex⟩
      case h_2 => cases hex
    obtain ⟨hs, tail, rfl, all, -, length⟩ := exists_span isXDigit rest
    refine ⟨.intLit, '0' :: x :: hs, tail, rfl, .hex mark all, ?_⟩
    simp [scanNumber, hex, length]
  · obtain ⟨whole, rest, rfl, digits, -, wholeLength⟩ := exists_span_cons digit cs
    obtain ⟨fraction, behind, rfl, frac, fractionLen⟩ := exists_fraction rest
    obtain ⟨exponent, tail, rfl, expo, exponentLen⟩ := exists_exponent behind
    refine ⟨_, d :: whole ++ (fraction ++ exponent), tail, by simp, .decimal digits frac expo, ?_⟩
    rw [scanNumber, if_neg hex]
    simp only [wholeLength]
    rw [← List.cons_append, List.drop_left, fractionLen, ← List.drop_drop, List.drop_left,
      List.drop_left, exponentLen]
    simp only [List.length_eq_zero_iff, List.length_append, Nat.add_assoc]

/-- The characters go on with a number. -/
def NumberContinues (text tail : List Char) : Prop :=
  if startsHex text then ¬Stops isXDigit tail
  else ¬Stops isDigit tail ∨ text = ['0'] ∧ ¬Stops isHexMark tail ∨
    text.any isExponentLetter = false ∧ ¬Stops isExponentLetter tail ∨
      text.getLast?.any isExponentLetter = true ∧ ¬Stops isSign tail ∨
        text.all isDigit = true ∧ fractionLength tail ≠ 0

theorem stops_cons {holds : Char → Bool} {c : Char} {rest : List Char} :
    Stops holds (c :: rest) ↔ holds c = false := by
  simp [Stops]

theorem startsHex_append {text : List Char} (some : text ≠ [])
    (second : ∀ c ∈ text.tail.head?, isHexMark c = false) (tail : List Char) :
    startsHex (text ++ tail) = true ↔ text = ['0'] ∧ ¬Stops isHexMark tail := by
  unfold startsHex
  match text with
  | [] => exact absurd rfl some
  | d :: c :: more =>
      have noMark : isHexMark c = false := second c rfl
      constructor
      · intro hex
        split at hex
        case h_1 x rest same =>
          obtain ⟨-, same⟩ := List.cons.inj same
          obtain ⟨rfl, -⟩ := List.cons.inj same
          rw [noMark] at hex
          cases hex
        case h_2 => cases hex
      · rintro ⟨impossible, -⟩
        cases impossible
  | [d] =>
      cases tail with
      | nil => simp [Stops]
      | cons c rest =>
          rw [stops_cons]
          constructor
          · intro hex
            split at hex
            case h_1 x rest same =>
              cases same
              exact ⟨rfl, by rw [hex]; decide⟩
            case h_2 => cases hex
          · rintro ⟨zero, mark⟩
            cases zero
            exact eq_true_of_ne_false mark

theorem scanNumber_whole {whole rest : List Char} (digits : ∀ c ∈ whole, isDigit c = true)
    (noHex : startsHex (whole ++ rest) = false) (stops : Stops isDigit rest) :
    scanNumber (whole ++ rest) =
      (if fractionLength rest = 0 ∧ exponentLength (rest.drop (fractionLength rest)) = 0
        then .intLit else .floatLit,
        whole.length + fractionLength rest +
          exponentLength (rest.drop (fractionLength rest))) := by
  rw [scanNumber, noHex, if_neg Bool.false_ne_true]
  simp only [(spanLength_eq_iff digits).mpr stops, List.drop_left, ← List.drop_drop]

/-- A number does not get shorter in front of more digits. -/
theorem lt_scanNumber {whole rest : List Char} (digits : ∀ c ∈ whole, isDigit c = true)
    (noHex : startsHex (whole ++ rest) = false) (goesOn : ¬Stops isDigit rest) :
    whole.length < (scanNumber (whole ++ rest)).2 := by
  have more : spanLength isDigit rest ≠ 0 := by rwa [Ne, spanLength_eq_zero_iff]
  have length := @spanLength_append isDigit whole rest digits
  rw [scanNumber, noHex, if_neg Bool.false_ne_true]
  simp only
  omega

theorem exponentLength_eq_zero_iff {tail : List Char} :
    exponentLength tail = 0 ↔ Stops isExponentLetter tail := by
  cases tail with
  | nil => simp [exponentLength, Stops]
  | cons c rest =>
      rw [stops_cons]
      by_cases letter : isExponentLetter c = true
      · cases rest with
        | nil => simp [exponentLength, letter]
        | cons s more => by_cases sign : isSign s = true <;> simp [exponentLength, letter, sign]
      · simp [exponentLength, letter]

theorem fractionLength_digits {d : Char} {ds : List Char}
    (all : ∀ c ∈ d :: ds, isDigit c = true) (rest : List Char) :
    fractionLength ('.' :: d :: (ds ++ rest)) =
      ('.' :: d :: ds).length + spanLength isDigit rest := by
  have digit : isDigit d = true := all d List.mem_cons_self
  rw [fractionLength, if_pos digit, ← List.cons_append, spanLength_append all]
  simp only [List.length_cons]
  omega

theorem fractionLength_of_ne {c : Char} (noDot : c ≠ '.') (rest : List Char) :
    fractionLength (c :: rest) = 0 := by
  unfold fractionLength
  split
  case h_1 same => exact absurd (List.cons.inj same).1 noDot
  case h_2 => rfl

theorem stops_of_fraction {fraction rest : List Char} (frac : IsFraction fraction)
    (stops : Stops isDigit rest) : Stops isDigit (fraction ++ rest) := by
  cases frac with
  | none => exact stops
  | digits => exact stops_cons.mpr rfl

theorem stops_of_exponent {exponent : List Char} (expo : IsExponent exponent)
    (some : exponent ≠ []) (rest : List Char) : Stops isDigit (exponent ++ rest) := by
  cases expo with
  | none => exact absurd rfl some
  | letter known => exact stops_cons.mpr (not_isDigit_of_isExponentLetter known).1
  | digits known => exact stops_cons.mpr (not_isDigit_of_isExponentLetter known).1
  | signed known => exact stops_cons.mpr (not_isDigit_of_isExponentLetter known).1

/-- In front of what is no digit a fraction keeps its length, and in front of an
exponent there is none. -/
theorem fractionLength_append {fraction rest : List Char} (frac : IsFraction fraction)
    (stops : Stops isDigit rest) (none : fraction = [] → fractionLength rest = 0) :
    fractionLength (fraction ++ rest) = fraction.length := by
  cases frac with
  | none => exact none rfl
  | digits all =>
      change fractionLength ('.' :: _ :: (_ ++ rest)) = _
      rw [fractionLength_digits all, spanLength_eq_zero_iff.mpr stops, Nat.add_zero]

theorem fractionLength_exponent {exponent : List Char} (expo : IsExponent exponent)
    (some : exponent ≠ []) (rest : List Char) : fractionLength (exponent ++ rest) = 0 := by
  cases expo with
  | none => exact absurd rfl some
  | letter known => exact fractionLength_of_ne (not_isDigit_of_isExponentLetter known).2.1 _
  | digits known => exact fractionLength_of_ne (not_isDigit_of_isExponentLetter known).2.1 _
  | signed known => exact fractionLength_of_ne (not_isDigit_of_isExponentLetter known).2.1 _

theorem not_isExponentLetter {c : Char} (known : isDigit c = true ∨ isSign c = true) :
    isExponentLetter c = false := by
  cases letter : isExponentLetter c with
  | false => rfl
  | true =>
      simp only [isExponentLetter, Bool.or_eq_true, decide_eq_true_eq] at letter
      rcases letter with rfl | rfl <;> rcases known with digit | sign <;> contradiction

/-- A list does not end in an exponent letter if there is none behind its
first character. -/
theorem getLast_any_eq_false {e c : Char} {cs : List Char}
    (none : ∀ d ∈ c :: cs, isExponentLetter d = false) :
    (e :: c :: cs).getLast?.any isExponentLetter = false := by
  rw [List.getLast?_cons_cons, Option.any_eq_false]
  intro last isLast
  exact none last (List.mem_of_getLast? isLast)

/-- An exponent keeps its length exactly in front of what is no digit, and if
it is a letter only, no sign either. -/
theorem exponentLength_append_iff {exponent : List Char} (expo : IsExponent exponent)
    (some : exponent ≠ []) (tail : List Char) :
    exponentLength (exponent ++ tail) = exponent.length ↔
      Stops isDigit tail ∧
        (exponent.getLast?.any isExponentLetter = true → Stops isSign tail) := by
  cases expo with
  | none => exact absurd rfl some
  | @letter e known =>
      cases tail with
      | nil => simp [exponentLength, known, Stops]
      | cons c rest =>
          by_cases sign : isSign c = true
          · simp [exponentLength, known, sign, stops_cons]
          · simp [exponentLength, known, sign, stops_cons, spanLength_eq_zero_iff]
  | @digits e d ds known all =>
      have sign : isSign d = false := not_isSign_of_isDigit (all d List.mem_cons_self)
      have closed := getLast_any_eq_false (e := e) fun c inside =>
        not_isExponentLetter (.inl (all c inside))
      have length := @spanLength_eq_iff isDigit _ tail all
      rw [closed]
      simp only [List.cons_append, exponentLength, known, sign, if_true, Bool.false_eq_true,
        if_false, false_implies, and_true, ← length, List.length_cons]
      omega
  | @signed e s ds known sign all =>
      have closed := @getLast_any_eq_false e s ds fun c inside =>
        not_isExponentLetter ((List.mem_cons.mp inside).elim (fun same => .inr (same ▸ sign))
          fun digit => .inl (all c digit))
      have length := @spanLength_eq_iff isDigit _ tail all
      rw [closed]
      simp only [List.cons_append, exponentLength, known, sign, if_true, Bool.false_eq_true,
        false_implies, and_true, ← length, List.length_cons]
      omega

theorem isHexMark_second {d : Char} {whole fraction exponent : List Char}
    (digits : ∀ c ∈ d :: whole, isDigit c = true) (frac : IsFraction fraction)
    (expo : IsExponent exponent) :
    ∀ c ∈ (d :: whole ++ (fraction ++ exponent)).tail.head?, isHexMark c = false := by
  intro c second
  cases whole with
  | cons next more =>
      cases second
      exact not_isHexMark_of_isDigit (digits c (by simp))
  | nil =>
      cases frac with
      | digits all =>
          cases second
          rfl
      | none =>
          cases expo with
          | none => cases second
          | letter known =>
              cases second
              exact (not_isDigit_of_isExponentLetter known).2.2
          | digits known =>
              cases second
              exact (not_isDigit_of_isExponentLetter known).2.2
          | signed known =>
              cases second
              exact (not_isDigit_of_isExponentLetter known).2.2

theorem scanNumber_ne_of_lt {cs : List Char} {kind : TokenKind} {n : Nat}
    (longer : n < (scanNumber cs).2) : scanNumber cs ≠ (kind, n) := by
  intro same
  rw [same] at longer
  exact Nat.lt_irrefl n longer

section Decimal

variable {d : Char} {whole fraction exponent tail : List Char}

/-- A whole number in front of some characters. -/
theorem scanNumber_digits_iff (digits : ∀ c ∈ d :: whole, isDigit c = true)
    (noHex : startsHex (d :: whole ++ tail) = false) :
    scanNumber (d :: whole ++ tail) = (.intLit, (d :: whole).length) ↔
      Stops isDigit tail ∧ Stops isExponentLetter tail ∧ fractionLength tail = 0 := by
  by_cases stops : Stops isDigit tail
  · rw [scanNumber_whole digits noHex stops, Prod.mk.injEq]
    constructor
    · rintro ⟨-, length⟩
      have noFraction : fractionLength tail = 0 := by omega
      rw [noFraction, List.drop_zero] at length
      exact ⟨stops, exponentLength_eq_zero_iff.mp (by omega), noFraction⟩
    · rintro ⟨-, noExponent, noFraction⟩
      rw [noFraction, List.drop_zero, exponentLength_eq_zero_iff.mpr noExponent]
      exact ⟨rfl, rfl⟩
  · exact iff_of_false (scanNumber_ne_of_lt (lt_scanNumber digits noHex stops))
      fun stopped => stops stopped.1

/-- A number with a fraction and no exponent in front of some characters. -/
theorem scanNumber_fraction_iff (digits : ∀ c ∈ d :: whole, isDigit c = true)
    (frac : IsFraction fraction) (some : fraction ≠ [])
    (noHex : startsHex (d :: whole ++ (fraction ++ tail)) = false) :
    scanNumber (d :: whole ++ (fraction ++ tail)) =
        (.floatLit, (d :: whole).length + fraction.length) ↔
      Stops isDigit tail ∧ Stops isExponentLetter tail := by
  cases frac with
  | none => exact absurd rfl some
  | @digits first ds all =>
      have stops : Stops isDigit ('.' :: first :: ds ++ tail) := stops_cons.mpr rfl
      have length : fractionLength ('.' :: first :: ds ++ tail) =
          ('.' :: first :: ds).length + spanLength isDigit tail := fractionLength_digits all tail
      rw [scanNumber_whole digits noHex stops, Prod.mk.injEq, length]
      rw [← @spanLength_eq_zero_iff isDigit, ← exponentLength_eq_zero_iff]
      by_cases stopped : spanLength isDigit tail = 0
      · rw [stopped, Nat.add_zero, List.drop_left, if_neg (by simp)]
        simp
      · simp only [stopped, false_and, iff_false, not_and]
        omega

/-- A number with an exponent in front of some characters. -/
theorem scanNumber_exponent_iff (digits : ∀ c ∈ d :: whole, isDigit c = true)
    (frac : IsFraction fraction) (expo : IsExponent exponent) (some : exponent ≠ [])
    (noHex : startsHex (d :: whole ++ (fraction ++ (exponent ++ tail))) = false) :
    scanNumber (d :: whole ++ (fraction ++ (exponent ++ tail))) =
        (.floatLit, (d :: whole).length + fraction.length + exponent.length) ↔
      Stops isDigit tail ∧
        (exponent.getLast?.any isExponentLetter = true → Stops isSign tail) := by
  have behind : Stops isDigit (exponent ++ tail) := stops_of_exponent expo some tail
  have length : fractionLength (fraction ++ (exponent ++ tail)) = fraction.length :=
    fractionLength_append frac behind fun _ => fractionLength_exponent expo some tail
  have starts : exponentLength (exponent ++ tail) ≠ 0 := by
    rw [Ne, exponentLength_eq_zero_iff]
    cases expo with
    | none => exact absurd rfl some
    | letter known => simp [Stops, known]
    | digits known => simp [Stops, known]
    | signed known => simp [Stops, known]
  rw [scanNumber_whole digits noHex (stops_of_fraction frac behind), length, List.drop_left,
    if_neg fun none => starts none.2, Prod.mk.injEq, ← exponentLength_append_iff expo some,
    Nat.add_left_cancel_iff]
  exact and_iff_right rfl

end Decimal

theorem any_eq_false {holds : Char → Bool} {text : List Char}
    (none : ∀ c ∈ text, holds c = false) : text.any holds = false := by
  rw [List.any_eq_false]
  intro c inside
  rw [none c inside]
  decide

theorem getLast_any_of_none {holds : Char → Bool} {text : List Char}
    (none : ∀ c ∈ text, holds c = false) : text.getLast?.any holds = false := by
  rw [Option.any_eq_false]
  intro last isLast
  exact none last (List.mem_of_getLast? isLast)

theorem IsFraction.noLetter {fraction : List Char} (frac : IsFraction fraction) :
    ∀ c ∈ fraction, isExponentLetter c = false := by
  cases frac with
  | none => simp
  | digits all =>
      intro c inside
      rcases List.mem_cons.mp inside with rfl | digit
      · rfl
      · exact not_isExponentLetter (.inl (all c digit))

theorem IsExponent.any_letter {exponent : List Char} (expo : IsExponent exponent)
    (some : exponent ≠ []) : exponent.any isExponentLetter = true := by
  cases expo with
  | none => exact absurd rfl some
  | letter known => simp [known]
  | digits known => simp [known]
  | signed known => simp [known]

theorem not_all_digits {front behind : List Char} {c : Char} (other : isDigit c = false) :
    (front ++ c :: behind).all isDigit = false := by
  simp [other]

theorem IsExponent.not_all_digits {exponent : List Char} (expo : IsExponent exponent)
    (some : exponent ≠ []) (front : List Char) :
    (front ++ exponent).all isDigit = false := by
  cases expo with
  | none => exact absurd rfl some
  | letter known => exact Lexer.not_all_digits (not_isDigit_of_isExponentLetter known).1
  | digits known => exact Lexer.not_all_digits (not_isDigit_of_isExponentLetter known).1
  | signed known => exact Lexer.not_all_digits (not_isDigit_of_isExponentLetter known).1

/-- A number is scanned as it is exactly in front of characters that do not go
on with it. -/
theorem scanNumber_iff {kind : TokenKind} {text : List Char} (number : NumberText kind text)
    (tail : List Char) :
    scanNumber (text ++ tail) = (kind, text.length) ↔ ¬NumberContinues text tail := by
  cases number with
  | @hex x hs mark all =>
      have starts : startsHex ('0' :: x :: (hs ++ tail)) = true := mark
      have same : startsHex ('0' :: x :: hs) = true := mark
      rw [NumberContinues, if_pos same, Classical.not_not, ← spanLength_eq_iff all]
      simp [scanNumber, starts]
  | @decimal d whole fraction exponent digits frac expo =>
      have second := isHexMark_second digits frac expo
      have nonempty : d :: whole ++ (fraction ++ exponent) ≠ [] := List.cons_ne_nil _ _
      have noHexText : ¬startsHex (d :: whole ++ (fraction ++ exponent)) = true := by
        have starts := startsHex_append nonempty second []
        rw [List.append_nil] at starts
        rw [starts]
        simp [Stops]
      rw [NumberContinues, if_neg noHexText]
      have starts := startsHex_append nonempty second tail
      by_cases hex : startsHex (d :: whole ++ (fraction ++ exponent) ++ tail) = true
      · have begun := starts.mp hex
        refine iff_of_false (scanNumber_ne_of_lt ?_) fun stopped => stopped (.inr (.inl begun))
        rw [begun.1, scanNumber, if_pos (begun.1 ▸ hex)]
        exact Nat.lt_add_left _ (by decide)
      · have noMark := mt starts.mpr hex
        rw [Bool.not_eq_true] at hex
        simp only [noMark, false_or, not_or, not_and, Classical.not_not]
        have noLetter : ∀ c ∈ d :: whole ++ fraction, isExponentLetter c = false := by
          intro c inside
          rcases List.mem_append.mp inside with digit | dotted
          · exact not_isExponentLetter (.inl (digits c digit))
          · exact frac.noLetter c dotted
        by_cases some : exponent = []
        · subst some
          simp only [List.append_nil] at hex ⊢
          rw [any_eq_false noLetter, getLast_any_of_none noLetter]
          by_cases dotted : fraction = []
          · subst dotted
            simp only [List.append_nil] at hex ⊢
            rw [if_pos ⟨trivial, trivial⟩, scanNumber_digits_iff digits hex,
              List.all_eq_true.mpr digits]
            simp
          · have broken : (d :: whole ++ fraction).all isDigit = false := by
              cases frac with
              | none => exact absurd rfl dotted
              | digits => exact Lexer.not_all_digits rfl
            rw [List.append_assoc] at hex
            rw [if_neg fun none => dotted none.1, List.append_assoc, List.length_append,
              scanNumber_fraction_iff digits frac dotted hex, broken]
            simp
        · have lettered : (d :: whole ++ (fraction ++ exponent)).any isExponentLetter = true := by
            rw [← List.append_assoc, List.any_append, expo.any_letter some, Bool.or_true]
          have broken : (d :: whole ++ (fraction ++ exponent)).all isDigit = false := by
            rw [← List.append_assoc]
            exact expo.not_all_digits some _
          have last : (d :: whole ++ (fraction ++ exponent)).getLast? = exponent.getLast? := by
            rw [← List.append_assoc, List.getLast?_append_of_ne_nil _ some]
          rw [List.append_assoc, List.append_assoc] at hex
          rw [if_neg fun none => some none.2, List.append_assoc, List.append_assoc,
            List.length_append, List.length_append, ← Nat.add_assoc,
            scanNumber_exponent_iff digits frac expo some hex, lettered, broken, last]
          simp

end Lexer

end Aegis
