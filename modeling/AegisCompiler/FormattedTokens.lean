import AegisCompiler.Formatter
import AegisCompiler.LexerRuns

/-!
# Tokens in the formatter's output

The formatter writes every token as its own text, with blanks on the sides
where its kind asks for them.  Two tokens without a blank between them are read
back as they were unless the second one continues the first.
-/

namespace Aegis

namespace Formatter

open Lexer

/-- The operators with a blank on both sides. -/
def isSpaced (kind : TokenKind) : Bool :=
  match kind with
  | .plus | .minus | .star | .slash | .percent | .eq | .eqEq | .bangEq
  | .lt | .ltEq | .gt | .gtEq | .andAnd | .orOr | .arrow | .fatArrow => true
  | _ => false

def isBrace (kind : TokenKind) : Bool :=
  match kind with
  | .lBrace | .rBrace => true
  | _ => false

/-- A blank or line break is written in front of these tokens. -/
def blankBefore (kind : TokenKind) : Bool := isSpaced kind || isBrace kind

/-- A blank or line break is written behind these tokens. -/
def blankBehind (kind : TokenKind) : Bool :=
  isSpaced kind || isBrace kind || kind = .semicolon || kind = .colon || kind = .comma

/-- A blank where the condition holds. -/
def blankIf (wanted : Bool) : List Char := if wanted then [' '] else []

/-- The kinds of identifiers and keywords. -/
def isWord (kind : TokenKind) : Bool := kind = .ident || (keywords.map Prod.snd).contains kind

def isNumber (kind : TokenKind) : Bool := kind = .intLit || kind = .floatLit

theorem isWord_matchKeyword (text : List Char) : isWord (matchKeyword text) = true := by
  rw [matchKeyword]
  cases found : keywords.lookup text with
  | none => rfl
  | some kind =>
      obtain ⟨before, behind, listed, -⟩ := List.lookup_eq_some_iff.mp found
      simp [isWord, listed]

/-- A keyword is written as its text. -/
theorem emitToken_word {t : Token} (word : t.kind = matchKeyword t.text) :
    emitToken t = t.text := by
  have written : ∀ entry ∈ keywords, emitToken { kind := entry.2, text := entry.1 } = entry.1 := by
    decide
  rw [matchKeyword] at word
  cases found : keywords.lookup t.text with
  | none =>
      rw [found] at word
      simp only [emitToken, word, Option.getD_none]
  | some kind =>
      rw [found] at word
      obtain ⟨before, behind, listed, -⟩ := List.lookup_eq_some_iff.mp found
      have entry := written (t.text, kind) (by rw [listed]; simp)
      change emitToken { kind, text := t.text } = t.text at entry
      have same : t.kind = kind := word
      rw [← same] at entry
      exact entry

theorem isNumber_of_text {kind : TokenKind} {text : List Char}
    (number : NumberText kind text) : isNumber kind = true := by
  cases number with
  | hex => rfl
  | decimal => split <;> rfl

theorem unspaced_word {kind : TokenKind} (word : isWord kind = true) :
    isSpaced kind = false ∧ isBrace kind = false ∧ blankBehind kind = false ∧
      isNumber kind = false := by
  cases kind <;> first
    | cases word; done
    | decide

theorem unspaced_number {kind : TokenKind} (number : isNumber kind = true) :
    isSpaced kind = false ∧ isBrace kind = false ∧ blankBehind kind = false := by
  cases kind <;> first
    | cases number; done
    | decide

/-- Every token but a brace is written as its own text between the blanks of
its kind. -/
theorem emitToken_eq {t : Token} (token : TokenText t.kind t.text)
    (noBrace : isBrace t.kind = false) :
    emitToken t = blankIf (isSpaced t.kind) ++ (t.text ++
      blankIf (isSpaced t.kind || t.kind = .colon || t.kind = .comma)) := by
  obtain ⟨kind, span, text⟩ := t
  simp only at token noBrace ⊢
  have plain : ∀ kind, (isWord kind = true ∨ isNumber kind = true ∨ kind = .strLit) →
      (isSpaced kind || kind = .colon || kind = .comma) = false ∧ isSpaced kind = false := by
    intro kind
    cases kind <;> decide
  cases token with
  | word starts all =>
      obtain ⟨tight, unspaced⟩ := plain _ (.inl (isWord_matchKeyword _))
      rw [tight, unspaced, emitToken_word rfl]
      simp [blankIf]
  | number number =>
      have known := isNumber_of_text number
      obtain ⟨tight, unspaced⟩ := plain _ (.inr (.inl known))
      rw [tight, unspaced]
      simp only [isNumber, Bool.or_eq_true, decide_eq_true_eq] at known
      rcases known with rfl | rfl <;> simp [blankIf, emitToken]
  | string => simp [blankIf, emitToken, isSpaced]
  | operator known =>
      cases kind <;> first
        | cases known; done
        | cases noBrace; done
        | cases known; rfl

/-- Where a token stands in the output: the blanks in front of it and behind
it, and how the output goes on. -/
structure Written (t : Token) (indent : Int) (atLineStart : Bool) (before behind : List Char)
    (next : Int) (newLine : Bool) : Prop where
  output : ∀ rest, format (t :: rest) indent atLineStart =
    before ++ (t.text ++ (behind ++ format rest next newLine))
  blanksBefore : ∀ c ∈ before, isBlank c = true
  blanksBehind : ∀ c ∈ behind, isBlank c = true
  tightBefore : atLineStart = false → (before = [] ↔ blankBefore t.kind = false)
  tightBehind : behind = [] ↔ blankBehind t.kind = false
  sameLine : behind = [] → newLine = false

theorem blank_of_mem_indentation {indent : Int} {c : Char} (inside : c ∈ indentation indent) :
    isBlank c = true := by
  rw [List.eq_of_mem_replicate inside]
  rfl

theorem blank_of_mem_blankIf {wanted : Bool} {c : Char} (inside : c ∈ blankIf wanted) :
    isBlank c = true := by
  cases wanted with
  | false => cases inside
  | true =>
      cases inside with
      | head => rfl
      | tail _ none => cases none

theorem blankIf_eq_nil {wanted : Bool} : blankIf wanted = [] ↔ wanted = false := by
  cases wanted <;> simp [blankIf]

/-- What is written for a token that is no brace. -/
theorem format_plain {t : Token} (noBrace : isBrace t.kind = false) (noEnd : t.kind ≠ .eof)
    (rest : List Token) (indent : Int) (atLineStart : Bool) :
    format (t :: rest) indent atLineStart =
      (if atLineStart then indentation indent else []) ++ emitToken t ++
        (if t.kind = .semicolon then "\n".toList ++ format rest indent true
        else format rest indent false) := by
  rw [format]
  split
  case h_1 ended => exact absurd ended noEnd
  case h_2 opens => rw [opens] at noBrace; cases noBrace
  case h_3 closes => rw [closes] at noBrace; cases noBrace
  case h_4 => rfl

/-- The classes of tokens. -/
theorem token_cases {kind : TokenKind} {text : List Char} (token : TokenText kind text) :
    isWord kind = true ∨ isNumber kind = true ∨ kind = .strLit ∨
      operatorText kind = some text := by
  cases token with
  | word => exact .inl (isWord_matchKeyword _)
  | number number => exact .inr (.inl (isNumber_of_text number))
  | string => exact .inr (.inr (.inl rfl))
  | operator known => exact .inr (.inr (.inr known))

theorem ne_eof_of_text {kind : TokenKind} {text : List Char} (token : TokenText kind text) :
    kind ≠ .eof := by
  rintro rfl
  rcases token_cases token with word | number | string | known
  · cases word
  · cases number
  · cases string
  · cases known

theorem text_of_brace {kind : TokenKind} {text : List Char} (token : TokenText kind text)
    (brace : isBrace kind = true) : operatorText kind = some text := by
  rcases token_cases token with word | number | rfl | known
  · rw [(unspaced_word word).2.1] at brace
    cases brace
  · rw [(unspaced_number number).2.1] at brace
    cases brace
  · cases brace
  · exact known

theorem exists_written {t : Token} (token : TokenText t.kind t.text) (indent : Int)
    (atLineStart : Bool) :
    ∃ before behind next newLine, Written t indent atLineStart before behind next newLine := by
  cases brace : isBrace t.kind with
  | true =>
      have known := text_of_brace token brace
      obtain ⟨kind, span, text⟩ := t
      cases kind <;> first
        | cases brace; done
        | cases known
      · exact ⟨[' '], ['\n'], indent + 1, true, fun rest => rfl, by simp [isBlank],
          by simp [isBlank], by simp [blankBefore, isBrace],
          by simp [blankBehind, isBrace], by simp⟩
      · refine ⟨(if atLineStart then [] else ['\n']) ++ indentation (indent - 1), ['\n'],
          indent - 1, true, ?_, ?_, by simp [isBlank], ?_, by simp [blankBehind, isBrace],
          by simp⟩
        · intro rest
          simp [format]
          rfl
        · intro c inside
          rcases List.mem_append.mp inside with line | indented
          · split at line
            · cases line
            · rw [List.mem_singleton.mp line]
              rfl
          · exact blank_of_mem_indentation indented
        · rintro rfl
          simp [blankBefore, isBrace]
  | false =>
      refine ⟨(if atLineStart then indentation indent else []) ++ blankIf (isSpaced t.kind),
        blankIf (isSpaced t.kind || t.kind = .colon || t.kind = .comma) ++
          (if t.kind = .semicolon then ['\n'] else []),
        indent, decide (t.kind = .semicolon), ?_⟩
      constructor
      · intro rest
        rw [format_plain brace (ne_eof_of_text token), emitToken_eq token brace]
        by_cases ends : t.kind = .semicolon
        · simp [ends]
        · simp [ends]
      · intro c inside
        rcases List.mem_append.mp inside with indented | spaced
        · split at indented
          · exact blank_of_mem_indentation indented
          · cases indented
        · exact blank_of_mem_blankIf spaced
      · intro c inside
        rcases List.mem_append.mp inside with spaced | line
        · exact blank_of_mem_blankIf spaced
        · split at line
          · rw [List.mem_singleton.mp line]
            rfl
          · cases line
      · rintro rfl
        rw [if_neg Bool.false_ne_true, List.nil_append, blankIf_eq_nil, blankBefore, brace,
          Bool.or_false]
      · rw [List.append_eq_nil_iff, blankIf_eq_nil, blankBehind, brace]
        by_cases ends : t.kind = .semicolon <;> simp [ends]
      · intro none
        have noLine := (List.append_eq_nil_iff.mp none).2
        by_cases ends : t.kind = .semicolon
        · rw [if_pos ends] at noLine
          cases noLine
        · exact decide_eq_false ends

/-- The end, or a blank. -/
def Loose (tail : List Char) : Prop := ∀ c ∈ tail.head?, isBlank c = true

theorem loose_blanks {blanks : List Char} (blank : ∀ c ∈ blanks, isBlank c = true)
    (some : blanks ≠ []) (tail : List Char) : Loose (blanks ++ tail) := by
  cases blanks with
  | nil => exact absurd rfl some
  | cons c rest =>
      intro d first
      cases first
      exact blank c List.mem_cons_self

/-- The next token, if there is one and both are written without a blank
between them. -/
def NextTight (t b : Token) : Prop :=
  blankBehind t.kind = false ∧ blankBefore b.kind = false ∧ b.kind ≠ .eof

/-- Behind a token stand a blank or the end, or else the text of the next token. -/
theorem Written.tail_cases {t : Token} {indent next : Int} {atLineStart newLine : Bool}
    {before behind : List Char} {rest : List Token}
    (written : Written t indent atLineStart before behind next newLine)
    (others : TokenList rest) :
    (Loose (behind ++ format rest next newLine) ∧ ∀ b ∈ rest.head?, ¬NextTight t b) ∨
    ∃ b more behind' next' newLine', rest = b :: more ∧ NextTight t b ∧
      TokenText b.kind b.text ∧ TokenList more ∧
      Written b next false [] behind' next' newLine' ∧
      behind ++ format rest next newLine =
        b.text ++ (behind' ++ format more next' newLine') := by
  by_cases tight : blankBehind t.kind = false
  · have none := written.tightBehind.mpr tight
    rw [none, written.sameLine none, List.nil_append]
    cases others with
    | @last e ends =>
        have kind : e.kind = .eof := (Prod.mk.inj ends).1
        have nothing : format [e] next false = [] := by
          simp [format, kind]
        left
        rw [nothing]
        refine ⟨fun c first => (by cases first), ?_⟩
        rintro b found ⟨-, -, noEnd⟩
        cases found
        exact noEnd kind
    | @cons b more token others =>
        obtain ⟨before', behind', next', newLine', written'⟩ := exists_written token next false
        by_cases apart : blankBefore b.kind = false
        · right
          obtain rfl := (written'.tightBefore rfl).mpr apart
          refine ⟨b, more, behind', next', newLine', rfl, ⟨tight, apart, ne_eof_of_text token⟩,
            token, others, written', ?_⟩
          rw [written'.output, List.nil_append]
        · left
          have some : before' ≠ [] := fun none => apart ((written'.tightBefore rfl).mp none)
          rw [written'.output]
          refine ⟨loose_blanks written'.blanksBefore some _, ?_⟩
          rintro c found ⟨-, tight', -⟩
          cases found
          exact apart tight'
  · left
    have some : behind ≠ [] := fun none => tight (written.tightBehind.mp none)
    exact ⟨loose_blanks written.blanksBehind some _, fun b _ next => tight next.1⟩

end Formatter

end Aegis
