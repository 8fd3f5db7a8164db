import AegisCompiler.LexerRuns
import Mathlib.Data.List.Infix

/-!
# Places in a source

The lexer reads a source from left to right.  Between its elements (blanks, comments and
tokens) the state of the lexer is given by the part that has been read.
-/

namespace Aegis

namespace Lexer

/-- The line of the character behind a text. -/
def lineAfter (before : List Char) : Nat := before.count '\n' + 1

/-- The column of the character behind a text. -/
def colAfter (before : List Char) : Nat := (before.reverse.takeWhile (· ≠ '\n')).length + 1

/-- The lexer when it has read a part of the source. -/
def standing (before rest : List Char) : Lexer := ⟨rest, lineAfter before, colAfter before⟩

theorem advance_char (before : List Char) (c : Char) (rest : List Char) :
    (standing before (c :: rest)).advance 1 = standing (before ++ [c]) rest := by
  rw [standing, advance]
  simp only [advance]
  split
  case isTrue newline =>
    subst newline
    simp [standing, lineAfter, colAfter]
  case isFalse other =>
    simp [standing, lineAfter, colAfter, other]

theorem advance_add (n m : Nat) (lex : Lexer) :
    lex.advance (n + m) = (lex.advance n).advance m := by
  induction n generalizing lex with
  | zero => rw [Nat.zero_add, advance]
  | succ n ih =>
      rw [Nat.add_right_comm, advance, advance]
      split
      case h_1 ended =>
        cases m with
        | zero => rfl
        | succ m => rw [advance, ended]
      case h_2 =>
        split
        · exact ih _
        · exact ih _

/-- Stepping over a text. -/
theorem advance_standing (before text rest : List Char) :
    (standing before (text ++ rest)).advance text.length = standing (before ++ text) rest := by
  induction text generalizing before with
  | nil => rw [List.length_nil, advance, List.nil_append, List.append_nil]
  | cons c text ih =>
      rw [List.length_cons, Nat.add_comm, advance_add, List.cons_append, advance_char, ih,
        List.append_assoc, List.singleton_append]

/-- No block comment is closed in these characters. -/
def Unclosed (body : List Char) : Prop := ¬ ['*', '/'] <:+: body

/-- A blank or a complete comment in front of other characters. -/
inductive Filler : List Char → List Char → Prop
  | blank {c : Char} {tail : List Char} (blank : isBlank c = true) : Filler [c] tail
  | line {text tail : List Char} (noBreak : '\n' ∉ text)
      (ends : ∀ c ∈ tail.head?, c = '\n') : Filler ('/' :: '/' :: text) tail
  | block {text tail : List Char} (first : Unclosed (text ++ ['*'])) :
      Filler ('/' :: '*' :: (text ++ ['*', '/'])) tail

/-- Some blanks and complete comments in front of other characters. -/
inductive Gap (behind : List Char) : List Char → Prop
  | nil : Gap behind []
  | cons {text gap : List Char} (first : Filler text (gap ++ behind)) (others : Gap behind gap) :
      Gap behind (text ++ gap)

/-- The lexer comes to stand between two parts of the source. -/
inductive Place (src : List Char) : List Char → List Char → Prop
  | start : Place src [] src
  | filler {before text rest : List Char} (place : Place src before (text ++ rest))
      (filler : Filler text rest) : Place src (before ++ text) rest
  | token {before text rest : List Char} {kind : TokenKind}
      (place : Place src before (text ++ rest)) (solid : Solid (text ++ rest))
      (scanned : scanToken (text ++ rest) = some (kind, text.length)) :
      Place src (before ++ text) rest

theorem Place.split {src before rest : List Char} (place : Place src before rest) :
    src = before ++ rest := by
  induction place with
  | start => rfl
  | filler _ _ ih => rw [ih, List.append_assoc]
  | token _ _ _ ih => rw [ih, List.append_assoc]

theorem Place.gap {src before gap behind : List Char} (place : Place src before (gap ++ behind))
    (filled : Gap behind gap) : Place src (before ++ gap) behind := by
  induction filled generalizing before with
  | nil =>
      rw [List.append_nil]
      exact place
  | cons first others ih =>
      rw [List.append_assoc] at place
      rw [← List.append_assoc]
      exact ih (place.filler first)

theorem unclosed_of_short {body : List Char} (short : body.length ≤ 1) : Unclosed body := by
  intro inside
  have long := inside.length_le
  simp only [List.length_cons, List.length_nil] at long
  omega

/-- A block comment ends behind the first closing mark. -/
theorem blockCommentLength_closed {text tail : List Char} (first : Unclosed (text ++ ['*'])) :
    blockCommentLength (text ++ '*' :: '/' :: tail) = text.length + 2 := by
  induction text with
  | nil => rfl
  | cons c text ih =>
      have later : Unclosed (text ++ ['*']) := fun inside =>
        first (List.infix_cons_iff.mpr (.inr inside))
      obtain ⟨d, more, behind, same, same'⟩ : ∃ d more behind, text ++ ['*'] = d :: more ∧
          text ++ '*' :: '/' :: tail = d :: behind := by
        cases text with
        | nil => exact ⟨'*', [], '/' :: tail, rfl, rfl⟩
        | cons e text => exact ⟨e, text ++ ['*'], text ++ '*' :: '/' :: tail, rfl, rfl⟩
      have apart : c = '*' → d = '/' → False := by
        rintro rfl rfl
        apply first
        rw [List.cons_append, same]
        exact List.infix_cons_iff.mpr (.inl ⟨more, rfl⟩)
      rw [List.cons_append, same', blockCommentLength.eq_2 _ _ _ apart, ← same', ih later]
      rfl

/-- An unclosed block comment ends in front of the last character. -/
theorem blockCommentLength_unclosed {body : List Char} (unclosed : Unclosed body) :
    blockCommentLength body = body.length - 1 := by
  induction body using blockCommentLength.induct with
  | case1 tail => exact absurd (List.infix_cons_iff.mpr (.inl ⟨tail, rfl⟩)) unclosed
  | case2 c d rest other ih =>
      rw [blockCommentLength.eq_2 _ _ _ other, ih fun inside =>
        unclosed (List.infix_cons_iff.mpr (.inr inside))]
      rfl
  | case3 body notClosed short =>
      rw [blockCommentLength.eq_3 body notClosed short]
      cases body with
      | nil => rfl
      | cons c body =>
          cases body with
          | nil => rfl
          | cons d rest => exact absurd rfl (short c d rest)

/-- A comment is closed for the first time somewhere, or unclosed. -/
theorem closed_or_unclosed (body : List Char) :
    (∃ text tail, body = text ++ '*' :: '/' :: tail ∧ Unclosed (text ++ ['*'])) ∨
      Unclosed body := by
  induction body with
  | nil => exact .inr (unclosed_of_short (Nat.zero_le 1))
  | cons c body ih =>
      by_cases start : ['*', '/'] <+: c :: body
      · obtain ⟨tail, same⟩ := start
        exact .inl ⟨[], tail, same.symm, unclosed_of_short (Nat.le_refl 1)⟩
      · rcases ih with ⟨text, tail, rfl, first⟩ | unclosed
        · refine .inl ⟨c :: text, tail, rfl, fun inside => ?_⟩
          rcases List.infix_cons_iff.mp inside with here | later
          · apply start
            have longer : c :: (text ++ ['*']) <+: c :: (text ++ '*' :: '/' :: tail) :=
              ⟨'/' :: tail, by simp⟩
            exact here.trans longer
          · exact first later
        · refine .inr fun inside => ?_
          rcases List.infix_cons_iff.mp inside with here | later
          · exact start here
          · exact unclosed later

theorem solid_cons {c : Char} {rest : List Char} (noBlank : isBlank c = false)
    (noComment : ¬(c = '/' ∧ (rest.head? = some '/' ∨ rest.head? = some '*'))) :
    Solid (c :: rest) := by
  intro d behind same
  obtain ⟨rfl, rfl⟩ := List.cons.inj same
  exact ⟨noBlank, noComment⟩

theorem skip_line {lex : Lexer} {rest : List Char} (here : lex.rest = '/' :: '/' :: rest)
    (fuel : Nat) : lex.skipWsAndComments (fuel + 1) =
      (lex.advance (spanLength (· ≠ '\n') lex.rest)).skipWsAndComments fuel := by
  rw [skipWsAndComments, here]
  rfl

theorem skip_block {lex : Lexer} {rest : List Char} (here : lex.rest = '/' :: '*' :: rest)
    (fuel : Nat) : lex.skipWsAndComments (fuel + 1) =
      (lex.advance (blockCommentLength rest + 2)).skipWsAndComments fuel := by
  rw [skipWsAndComments, here]
  rfl

theorem skip_advance {before text tail : List Char} {n : Nat} (length : n = text.length)
    (fuel : Nat) : ((standing before (text ++ tail)).advance n).skipWsAndComments fuel =
      (standing (before ++ text) tail).skipWsAndComments fuel := by
  rw [length, advance_standing]

/-- One round of skipping takes a blank or a complete comment. -/
theorem skip_filler {text tail : List Char} (filler : Filler text tail) (before : List Char)
    (fuel : Nat) : (standing before (text ++ tail)).skipWsAndComments (fuel + 1) =
      (standing (before ++ text) tail).skipWsAndComments fuel := by
  cases filler with
  | @blank c _ blank =>
      rw [skipWsAndComments]
      simp only [standing, List.singleton_append, blank, if_true]
      exact congrArg (skipWsAndComments fuel) (advance_char before c tail)
  | @line text _ noBreak ends =>
      rw [skip_line rfl]
      refine skip_advance ?_ fuel
      have every : ∀ d ∈ '/' :: '/' :: text, decide (d ≠ '\n') = true := by
        intro d member
        rw [decide_eq_true_iff]
        rintro rfl
        simp at member
        exact noBreak member
      exact (spanLength_eq_iff every).mpr fun c first => decide_eq_false (not_not.mpr (ends c first))
  | @block text _ first =>
      have split : '/' :: '*' :: (text ++ ['*', '/']) ++ tail =
          '/' :: '*' :: (text ++ '*' :: '/' :: tail) := by simp
      have here : (standing before ('/' :: '*' :: (text ++ ['*', '/']) ++ tail)).rest =
          '/' :: '*' :: (text ++ '*' :: '/' :: tail) := split
      rw [skip_block here, blockCommentLength_closed first]
      exact skip_advance (by simp) fuel

/-- One round of skipping takes an unclosed comment but for its last character. -/
theorem skip_unclosed {body : List Char} (unclosed : Unclosed body) (before : List Char)
    (fuel : Nat) :
    (standing before ('/' :: '*' :: body)).skipWsAndComments (fuel + 1) =
      (standing (before ++ '/' :: '*' :: body.take (body.length - 1))
        (body.drop (body.length - 1))).skipWsAndComments fuel := by
  rw [skip_block rfl, blockCommentLength_unclosed unclosed]
  have split : '/' :: '*' :: body =
      '/' :: '*' :: body.take (body.length - 1) ++ body.drop (body.length - 1) := by
    rw [List.cons_append, List.cons_append, List.take_append_drop]
  rw [split]
  refine skip_advance ?_ fuel
  simp

/-- What the lexer comes to: the end or a token, a blank or complete comment, or an unclosed
comment. -/
theorem place_cases (rest : List Char) :
    Solid rest ∨
    (∃ text tail, rest = text ++ tail ∧ text ≠ [] ∧ Filler text tail) ∨
    ∃ body, rest = '/' :: '*' :: body ∧ Unclosed body := by
  cases rest with
  | nil => exact .inl solid_nil
  | cons c rest =>
      cases blank : isBlank c with
      | true => exact .inr (.inl ⟨[c], rest, rfl, List.cons_ne_nil _ _, .blank blank⟩)
      | false =>
          by_cases line : c = '/' ∧ rest.head? = some '/'
          · obtain ⟨rfl, second⟩ := line
            obtain ⟨comment, rfl⟩ := List.head?_eq_some_iff.mp second
            obtain ⟨text, tail, rfl, all, stops, -⟩ := exists_span (· ≠ '\n') comment
            refine .inr (.inl ⟨'/' :: '/' :: text, tail, rfl, List.cons_ne_nil _ _,
              .line ?_ ?_⟩)
            · exact fun newline => absurd (all '\n' newline) (by decide)
            · exact fun d first => of_not_not (of_decide_eq_false (stops d first))
          · by_cases block : c = '/' ∧ rest.head? = some '*'
            · obtain ⟨rfl, second⟩ := block
              obtain ⟨body, rfl⟩ := List.head?_eq_some_iff.mp second
              rcases closed_or_unclosed body with ⟨text, tail, rfl, first⟩ | unclosed
              · refine .inr (.inl ⟨'/' :: '*' :: (text ++ ['*', '/']), tail, by simp,
                  List.cons_ne_nil _ _, .block first⟩)
              · exact .inr (.inr ⟨body, rfl, unclosed⟩)
            · refine .inl (solid_cons blank ?_)
              rintro ⟨slash, second | second⟩
              · exact line ⟨slash, second⟩
              · exact block ⟨slash, second⟩

/-- More rounds than characters make no difference. -/
theorem skip_enough {lex : Lexer} {fuel fuel' : Nat} (enough : lex.rest.length ≤ fuel)
    (enough' : lex.rest.length ≤ fuel') :
    lex.skipWsAndComments fuel = lex.skipWsAndComments fuel' := by
  induction fuel generalizing lex fuel' with
  | zero =>
      have ended : lex.rest = [] := List.length_eq_zero_iff.mp (Nat.le_zero.mp enough)
      have solid : Solid lex.rest := ended ▸ solid_nil
      rw [skip_solid solid, skip_solid solid]
  | succ fuel ih =>
      cases fuel' with
      | zero =>
          have ended : lex.rest = [] := List.length_eq_zero_iff.mp (Nat.le_zero.mp enough')
          have solid : Solid lex.rest := ended ▸ solid_nil
          rw [skip_solid solid, skip_solid solid]
      | succ fuel' =>
          have shorter (n : Nat) (some_ : 0 < n) :
              (lex.advance n).skipWsAndComments fuel =
                (lex.advance n).skipWsAndComments fuel' := by
            apply ih
            · rw [advance_rest, List.length_drop]
              omega
            · rw [advance_rest, List.length_drop]
              omega
          rw [skipWsAndComments, skipWsAndComments]
          split
          case h_1 => rfl
          case h_2 c rest here =>
            split
            case isTrue => exact shorter 1 Nat.one_pos
            case isFalse =>
              split
              case isTrue comment =>
                apply shorter
                rw [here, comment.1]
                exact Nat.succ_pos _
              case isFalse =>
                split
                case isTrue => exact shorter _ (Nat.succ_pos _)
                case isFalse => rfl

/-- Skipping only steps over a part of the source. -/
theorem skip_split (fuel : Nat) (before rest : List Char) :
    ∃ text tail, rest = text ++ tail ∧
      (standing before rest).skipWsAndComments fuel = standing (before ++ text) tail := by
  induction fuel generalizing before rest with
  | zero => exact ⟨[], rest, rfl, by rw [List.append_nil]; rfl⟩
  | succ fuel ih =>
      rcases place_cases rest with solid | ⟨text, tail, rfl, -, filler⟩ | ⟨body, rfl, unclosed⟩
      · exact ⟨[], rest, rfl, by rw [List.append_nil]; exact skip_solid solid _⟩
      · obtain ⟨more, behind, rfl, skipped⟩ := ih (before ++ text) tail
        refine ⟨text ++ more, behind, (List.append_assoc _ _ _).symm, ?_⟩
        rw [skip_filler filler, skipped, List.append_assoc]
      · obtain ⟨more, behind, split, skipped⟩ :=
          ih (before ++ '/' :: '*' :: body.take (body.length - 1)) (body.drop (body.length - 1))
        refine ⟨'/' :: '*' :: body.take (body.length - 1) ++ more, behind, ?_, ?_⟩
        · rw [List.append_assoc, ← split, List.cons_append, List.cons_append,
            List.take_append_drop]
        · rw [skip_unclosed unclosed, skipped, List.append_assoc]

/-- Every block comment that the lexer comes to is closed. -/
def Terminated (src : List Char) : Prop :=
  ∀ before body, Place src before ('/' :: '*' :: body) → ¬ Unclosed body

/-- In a source without unclosed comments the lexer skips blanks and complete comments. -/
theorem skip_gap {src : List Char} (terminated : Terminated src) {fuel : Nat}
    {before rest : List Char} (place : Place src before rest) (enough : rest.length ≤ fuel) :
    ∃ gap behind, rest = gap ++ behind ∧ Gap behind gap ∧ Solid behind ∧
      (standing before rest).skipWsAndComments fuel = standing (before ++ gap) behind := by
  induction fuel generalizing before rest with
  | zero =>
      obtain rfl := List.length_eq_zero_iff.mp (Nat.le_zero.mp enough)
      exact ⟨[], [], rfl, .nil, solid_nil, by rw [List.append_nil]; rfl⟩
  | succ fuel ih =>
      rcases place_cases rest with solid | ⟨text, tail, rfl, some_, filler⟩ |
        ⟨body, rfl, unclosed⟩
      · exact ⟨[], rest, rfl, .nil, solid, by rw [List.append_nil]; exact skip_solid solid _⟩
      · have longer := List.length_pos_iff.mpr some_
        rw [List.length_append] at enough
        obtain ⟨gap, behind, rfl, filled, solid, skipped⟩ := ih (place.filler filler) (by omega)
        refine ⟨text ++ gap, behind, (List.append_assoc _ _ _).symm, .cons filler filled, solid,
          ?_⟩
        rw [skip_filler filler, skipped, List.append_assoc]
      · exact absurd unclosed (terminated _ _ place)

end Lexer

end Aegis
