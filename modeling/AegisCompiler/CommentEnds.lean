import AegisCompiler.Parser
import AegisCompiler.TokenTiling

/-!
# Unclosed comments and the longest operator

An unclosed block comment is skipped but for its last character, which is read as program
text.  Of the operators that the parser knows the lexer takes the longest one, except that it
takes no `/=`.
-/

namespace Aegis

namespace Lexer

open Aegis.Parser (binaryOpKind)

section Continuing

variable {fileId : SymbolId} {src before rest : List Char}

theorem tokenizeFrom_congr {lex lex' : Lexer} (fuel : Nat)
    (same : lex.skipWsAndComments lex.rest.length = lex'.skipWsAndComments lex'.rest.length) :
    lex.tokenizeFrom fileId (fuel + 1) = lex'.tokenizeFrom fileId (fuel + 1) := by
  rw [tokenizeFrom, tokenizeFrom, same]

/-- The lexer comes to every place, with the tokens in front of it. -/
theorem Place.continues (place : Place src before rest) :
    ∃ toks fuel, rest.length < fuel ∧ tokenize fileId src =
      ((standing before rest).tokenizeFrom fileId fuel).map (toks ++ ·) := by
  induction place with
  | start =>
      refine ⟨[], src.length + 1, Nat.lt_succ_self _, ?_⟩
      change (standing [] src).tokenizeFrom fileId (src.length + 1) = _
      cases (standing [] src).tokenizeFrom fileId (src.length + 1) <;> rfl
  | @filler before text rest place filler ih =>
      obtain ⟨toks, fuel, enough, same⟩ := ih
      obtain ⟨fuel, rfl⟩ : ∃ less, fuel = less + 1 := ⟨fuel - 1, by omega⟩
      rw [List.length_append] at enough
      refine ⟨toks, fuel + 1, by omega, ?_⟩
      rw [same]
      refine congrArg (Except.map _) (tokenizeFrom_congr fuel ?_)
      have more : (text ++ rest).length ≤ (text ++ rest).length + 1 := Nat.le_succ _
      have less : rest.length ≤ (text ++ rest).length := by
        rw [List.length_append]
        omega
      calc
        (standing before (text ++ rest)).skipWsAndComments (text ++ rest).length =
            (standing before (text ++ rest)).skipWsAndComments ((text ++ rest).length + 1) :=
          skip_enough (Nat.le_refl _) more
        _ = (standing (before ++ text) rest).skipWsAndComments (text ++ rest).length :=
          skip_filler filler before _
        _ = (standing (before ++ text) rest).skipWsAndComments rest.length :=
          skip_enough less (Nat.le_refl _)
  | @token before text rest kind place solid scanned ih =>
      obtain ⟨toks, fuel, enough, same⟩ := ih
      obtain ⟨fuel, rfl⟩ : ∃ less, fuel = less + 1 := ⟨fuel - 1, by omega⟩
      obtain ⟨read, tail, split, length, token⟩ := scanToken_text scanned
      have some_ := List.length_pos_iff.mpr token.nonempty
      rw [List.length_append] at enough
      refine ⟨toks ++ [tokenAt fileId kind before text], fuel, by omega, ?_⟩
      rw [same, tokenizeFrom_take fileId fuel (skip_solid solid _) scanned]
      cases (standing (before ++ text) rest).tokenizeFrom fileId fuel with
      | error failure => rfl
      | ok others =>
          exact congrArg Except.ok (by simp [List.append_assoc])

end Continuing

/-- The lexer reports an error whenever it comes to an unclosed block comment, so that no
character of it becomes part of a token. -/
def ReportsUnclosed (fileId : SymbolId) (src : List Char) : Prop :=
  ∀ before body, Place src before ('/' :: '*' :: body) → Unclosed body →
    ∃ failure, tokenize fileId src = .error failure

/-- No token begins with the last character of an unclosed comment, and it is no blank. -/
def EndsUnreadable (src : List Char) : Prop :=
  ∀ before body, Place src before ('/' :: '*' :: body) → Unclosed body →
    ∃ c, body.getLast? = some c ∧ isBlank c = false ∧ scanToken [c] = none

section Comments

variable {fileId : SymbolId} {src : List Char}

theorem map_error_iff {α β ε : Type} {f : α → β} {result : Except ε α} :
    (∃ failure, result.map f = .error failure) ↔ ∃ failure, result = .error failure := by
  cases result with
  | ok value =>
      constructor
      · rintro ⟨failure, impossible⟩
        cases impossible
      · rintro ⟨failure, impossible⟩
        cases impossible
  | error failure => exact ⟨fun _ => ⟨failure, rfl⟩, fun _ => ⟨failure, rfl⟩⟩

theorem not_error_of_ok {α ε : Type} {result : Except ε α} {value : α} (ok : result = .ok value) :
    ¬ ∃ failure, result = .error failure := by
  rintro ⟨failure, failed⟩
  rw [ok] at failed
  cases failed

/-- The lexer skips an unclosed comment but for its last character. -/
theorem skip_to_last {front : List Char} {c : Char} (unclosed : Unclosed (front ++ [c]))
    (before : List Char) (fuel : Nat) :
    (standing before ('/' :: '*' :: (front ++ [c]))).skipWsAndComments (fuel + 2) =
      if isBlank c = true then standing (before ++ '/' :: '*' :: front ++ [c]) []
      else standing (before ++ '/' :: '*' :: front) [c] := by
  have length : (front ++ [c]).length - 1 = front.length := by
    rw [List.length_append, List.length_singleton, Nat.add_sub_cancel]
  rw [skip_unclosed unclosed, length, List.take_left, List.drop_left]
  split
  case isTrue blank =>
    have step := skip_filler (.blank blank : Filler [c] []) (before ++ '/' :: '*' :: front) fuel
    exact step.trans (skip_solid solid_nil fuel)
  case isFalse noBlank =>
    exact skip_solid (solid_cons (Bool.eq_false_iff.mpr noBlank) (by simp)) _

theorem tokenizeFrom_ended_ok {before rest read : List Char} (fuel : Nat)
    (skipped : (standing before rest).skipWsAndComments rest.length = standing read []) :
    ¬ ∃ failure, (standing before rest).tokenizeFrom fileId (fuel + 1) = .error failure :=
  not_error_of_ok (tokenizeFrom_end fileId fuel skipped)

/-- What the lexer does in front of an unclosed comment depends on its last character. -/
theorem tokenizeFrom_unclosed {body : List Char} (unclosed : Unclosed body)
    (before : List Char) {fuel : Nat} (enough : ('/' :: '*' :: body).length < fuel) :
    (∃ failure, (standing before ('/' :: '*' :: body)).tokenizeFrom fileId fuel =
      .error failure) ↔
        ∃ c, body.getLast? = some c ∧ isBlank c = false ∧ scanToken [c] = none := by
  obtain ⟨fuel, rfl⟩ : ∃ less, fuel = less + 2 := ⟨fuel - 2, by simp at enough; omega⟩
  rcases List.eq_nil_or_concat' body with rfl | ⟨front, c, rfl⟩
  · refine iff_of_false (tokenizeFrom_ended_ok (fuel + 1) (skip_unclosed unclosed before 1)) ?_
    rintro ⟨c, last, -⟩
    cases last
  · have skipped : (standing before ('/' :: '*' :: (front ++ [c]))).skipWsAndComments
        ('/' :: '*' :: (front ++ [c])).length = _ :=
      skip_to_last unclosed before (front ++ [c]).length
    rw [List.getLast?_concat]
    cases blank : isBlank c with
    | true =>
        rw [if_pos blank] at skipped
        refine iff_of_false (tokenizeFrom_ended_ok (fuel + 1) skipped) ?_
        rintro ⟨d, last, noBlank, -⟩
        cases last
        rw [blank] at noBlank
        cases noBlank
    | false =>
        rw [if_neg (by rw [blank]; exact Bool.false_ne_true)] at skipped
        cases scanned : scanToken [c] with
        | none =>
            obtain ⟨message, -, failed⟩ :=
              tokenizeFrom_offends fileId (fuel + 1) skipped scanned
            exact iff_of_true ⟨_, failed⟩ ⟨c, rfl, blank, scanned⟩
        | some found =>
            obtain ⟨kind, n⟩ := found
            obtain ⟨text, tail, split, rfl, token⟩ := scanToken_text scanned
            obtain ⟨d, more, rfl⟩ := List.exists_cons_of_ne_nil token.nonempty
            obtain ⟨rfl, rest⟩ := List.cons.inj split
            obtain ⟨rfl, rfl⟩ := List.append_eq_nil_iff.mp rest.symm
            have taken := @tokenizeFrom_take fileId _ _ _ (fuel + 1) [c] [] _ skipped scanned
            refine iff_of_false (fun failed => ?_) ?_
            · rw [taken, map_error_iff] at failed
              exact tokenizeFrom_ended_ok fuel rfl failed
            · rintro ⟨d, last, -, none⟩
              cases last
              rw [scanned] at none
              cases none

theorem reportsUnclosed_iff : ReportsUnclosed fileId src ↔ EndsUnreadable src := by
  refine forall_congr' fun before => forall_congr' fun body => forall_congr' fun place =>
    forall_congr' fun unclosed => ?_
  obtain ⟨toks, fuel, enough, same⟩ := @Place.continues fileId _ _ _ place
  rw [same, map_error_iff, tokenizeFrom_unclosed unclosed before enough]

end Comments

/-- How an operator is spelled, also `/=`, which the lexer never takes. -/
def spelling (kind : TokenKind) : Option (List Char) :=
  if kind = .slashEq then some ['/', '='] else operatorText kind

/-- A binary operator of the parser begins here. -/
def Begins (kind : TokenKind) (text rest : List Char) : Prop :=
  binaryOpKind kind = some kind ∧ spelling kind = some text ∧ text <+: rest

/-- An arrow begins here, as in types and match arms. -/
def ArrowBegins (rest : List Char) : Prop := ['-', '>'] <+: rest ∨ ['=', '>'] <+: rest

/-- The token that the lexer takes at a place. -/
def Takes (fileId : SymbolId) (before rest : List Char) (t : Token) : Prop :=
  ∃ c tail behind, rest = c :: tail ∧ (standing before rest).lexToken fileId c = .ok (t, behind)

/-- Where an operator of the parser begins, and no arrow, the lexer takes the one with the
longest spelling. -/
def TakesLongest (fileId : SymbolId) (src : List Char) : Prop :=
  ∀ before rest, Place src before rest → Solid rest → ¬ ArrowBegins rest →
    (∃ kind text, Begins kind text rest) →
      ∃ t, Takes fileId before rest t ∧ Begins t.kind t.text rest ∧
        ∀ kind text, Begins kind text rest → text.length ≤ t.text.length

/-- The lexer never comes to `/=`. -/
def NoSlashEq (src : List Char) : Prop := ∀ before tail, ¬ Place src before ('/' :: '=' :: tail)

/-- An operator of two characters is scanned as such, but for `/=`. -/
theorem scanOperator_two {kind : TokenKind} {c d : Char} (known : spelling kind = some [c, d])
    (noSlashEq : kind ≠ .slashEq) (tail : List Char) :
    scanOperator (c :: d :: tail) = some (kind, 2) := by
  cases kind <;> first
    | exact absurd rfl noSlashEq
    | cases known; rfl
    | cases known

/-- Where an operator begins, and no arrow, an operator is scanned. -/
theorem scanOperator_binary {kind : TokenKind} {text rest : List Char}
    (begins : Begins kind text rest) (noArrow : ¬ ArrowBegins rest) :
    ∃ scanned n, scanOperator rest = some (scanned, n) ∧
      binaryOpKind scanned = some scanned := by
  obtain ⟨binary, known, tail, rfl⟩ := begins
  have noArrow' {c : Char} (spelled : text = [c]) (first : c = '-' ∨ c = '=') :
      tail.head? ≠ some '>' := by
    rintro second
    obtain ⟨more, rfl⟩ := List.head?_eq_some_iff.mp second
    rw [spelled] at noArrow
    rcases first with rfl | rfl
    · exact noArrow (.inl ⟨more, rfl⟩)
    · exact noArrow (.inr ⟨more, rfl⟩)
  by_cases slash : kind = .slashEq
  · subst slash
    cases known
    exact ⟨.slash, 1, rfl, rfl⟩
  · rw [spelling, if_neg slash] at known
    by_cases stops : Stops (joins kind) tail
    · exact ⟨kind, text.length, (scanOperator_iff known tail).mpr stops, binary⟩
    · -- The next character makes a longer operator of this one.
      obtain ⟨d, first, joined⟩ : ∃ d, tail.head? = some d ∧ joins kind d = true := by
        simpa [Stops] using stops
      obtain ⟨more, rfl⟩ := List.head?_eq_some_iff.mp first
      cases kind <;> first
        | cases joined
        | cases binary; done
        | cases known
      all_goals
        simp only [joins, Bool.or_eq_true, decide_eq_true_eq] at joined
        rcases joined with rfl | rfl
        all_goals first
          | exact ⟨_, _, rfl, rfl⟩
          | exact absurd rfl (noArrow' rfl (.inl rfl))
          | exact absurd rfl (noArrow' rfl (.inr rfl))

theorem length_spelling {kind : TokenKind} {text : List Char} (known : spelling kind = some text) :
    text.length = 1 ∨ text.length = 2 := by
  cases kind <;> cases known <;> first | exact .inl rfl | exact .inr rfl

/-- The characters that operators begin with begin nothing else. -/
theorem scanToken_operator {kind : TokenKind} {text rest : List Char}
    (known : spelling kind = some text) (start : text <+: rest) :
    scanToken rest = scanOperator rest := by
  obtain ⟨tail, rfl⟩ := start
  have first : ∃ c more, text = c :: more ∧ startsWord c = false ∧ isDigit c = false ∧ c ≠ '"' := by
    by_cases slash : kind = .slashEq
    · subst slash
      cases known
      exact ⟨'/', ['='], rfl, rfl, rfl, by decide⟩
    · rw [spelling, if_neg slash] at known
      exact operatorText_first known
  obtain ⟨c, more, rfl, noWord, noNumber, noQuote⟩ := first
  rw [List.cons_append, scanToken, noWord, noNumber, if_neg Bool.false_ne_true,
    if_neg Bool.false_ne_true, if_neg noQuote]

section Longest

variable {fileId : SymbolId} {src : List Char}

/-- The token that is scanned is the one that is taken. -/
theorem takes_iff {before text behind : List Char} {kind : TokenKind}
    (scanned : scanToken (text ++ behind) = some (kind, text.length)) (t : Token) :
    Takes fileId before (text ++ behind) t ↔ t = tokenAt fileId kind before text := by
  cases here : text ++ behind with
  | nil =>
      rw [here] at scanned
      cases scanned
  | cons c tail =>
      have found : scanToken (standing before (c :: tail)).rest = some (kind, text.length) :=
        here ▸ scanned
      have first : (standing before (c :: tail)).rest = c :: tail := rfl
      rcases lexToken_eq fileId first with ⟨known, n, again, taken⟩ | ⟨none, -⟩
      · rw [found] at again
        cases again
        rw [← here, makeToken_standing] at taken
        constructor
        · rintro ⟨d, more, last, same, took⟩
          cases same
          rw [← here, taken] at took
          cases took
          rfl
        · rintro rfl
          exact ⟨c, tail, _, rfl, here ▸ taken⟩
      · rw [found] at none
        cases none

theorem takesLongest_iff : TakesLongest fileId src ↔ NoSlashEq src := by
  constructor
  · intro longest before tail place
    have solid : Solid ('/' :: '=' :: tail) := solid_cons rfl (by simp)
    have noArrow : ¬ ArrowBegins ('/' :: '=' :: tail) := by
      rintro (⟨more, same⟩ | ⟨more, same⟩)
      · cases same
      · cases same
    have begins : Begins .slashEq ['/', '='] ('/' :: '=' :: tail) := ⟨rfl, rfl, tail, rfl⟩
    obtain ⟨t, takes, -, all⟩ := longest before _ place solid noArrow ⟨_, _, begins⟩
    have slash : scanToken (['/'] ++ '=' :: tail) = some (.slash, 1) := rfl
    obtain rfl := (takes_iff slash t).mp takes
    exact absurd (all _ _ begins) (Nat.lt_irrefl 1)
  · rintro noSlashEq before rest place solid noArrow ⟨kind, text, begins⟩
    obtain ⟨scanned, n, scan, binary⟩ := scanOperator_binary begins noArrow
    have found : scanToken rest = some (scanned, n) :=
      (scanToken_operator begins.2.1 begins.2.2).trans scan
    obtain ⟨taken, tail, rfl, rfl, known⟩ := scanOperator_text scan
    have spelled : spelling scanned = some taken := by
      rw [spelling, if_neg (by rintro rfl; cases known)]
      exact known
    refine ⟨_, (takes_iff found _).mpr rfl, ⟨binary, spelled, tail, rfl⟩,
      fun other word begins' => ?_⟩
    by_contra longer
    change ¬ word.length ≤ taken.length at longer
    have small := length_spelling spelled
    have large := length_spelling begins'.2.1
    obtain ⟨-, known', more, split⟩ := begins'
    obtain ⟨c, d, rfl⟩ := List.length_eq_two.mp (by omega : word.length = 2)
    have other_ : other ≠ .slashEq := by
      rintro rfl
      cases known'
      rw [← split] at place
      exact noSlashEq _ _ place
    have two := scanOperator_two known' other_ more
    rw [← split] at scan
    rw [List.cons_append, List.cons_append, List.nil_append] at scan
    have one := congrArg Prod.snd (Option.some.inj (two.symm.trans scan))
    change 2 = taken.length at one
    simp only [List.length_cons, List.length_nil] at longer
    omega

/-- The lexer reports every unclosed comment and takes the longest operator exactly when no
token begins with the last character of an unclosed comment and it never comes to `/=`. -/
theorem comments_operators_iff (fileId : SymbolId) (src : List Char) :
    (ReportsUnclosed fileId src ∧ TakesLongest fileId src) ↔
      EndsUnreadable src ∧ NoSlashEq src := by
  rw [reportsUnclosed_iff, takesLongest_iff]

/-- The last character of an unclosed comment becomes an identifier. -/
theorem comment_identifier :
    (∃ t last, tokenize 0 ['/', '*', 'a'] = .ok [t, last] ∧ t.kind = .ident ∧ t.text = ['a']) ∧
      ¬ ReportsUnclosed 0 ['/', '*', 'a'] := by
  refine ⟨⟨_, _, rfl, rfl, rfl⟩, fun reports => ?_⟩
  have unclosed : Unclosed ['a'] := unclosed_of_short (Nat.le_refl 1)
  exact not_error_of_ok rfl (reports [] ['a'] .start unclosed)

end Longest

end Lexer

end Aegis
