import AegisCompiler.TokenTexts

/-!
# Runs of the lexer

One round of the lexer skips blanks and comments and takes one token; which
one depends on the characters only.  Every accepted source gives a list of
tokens with the texts of tokens and the end token behind them, and the rounds
that the lexer is given are enough.
-/

namespace Aegis

namespace Lexer

/-- Kind and text of a token. -/
def shape (t : Token) : TokenKind × List Char := (t.kind, t.text)

theorem advance_rest (n : Nat) (lex : Lexer) : (lex.advance n).rest = lex.rest.drop n := by
  induction n generalizing lex with
  | zero => rfl
  | succ n ih =>
      rw [advance]
      split
      case h_1 ended => rw [ended, List.drop_nil]
      case h_2 c rest here =>
        rw [here, List.drop_succ_cons]
        split
        · exact ih _
        · exact ih _

/-- Nothing is skipped in front of these characters. -/
def Solid (cs : List Char) : Prop :=
  ∀ c rest, cs = c :: rest → isBlank c = false ∧
    ¬(c = '/' ∧ (rest.head? = some '/' ∨ rest.head? = some '*'))

theorem solid_nil : Solid [] := by
  intro c rest impossible
  cases impossible

theorem skip_solid {lex : Lexer} (solid : Solid lex.rest) (fuel : Nat) :
    lex.skipWsAndComments fuel = lex := by
  cases fuel with
  | zero => rfl
  | succ fuel =>
      rw [skipWsAndComments]
      split
      case h_1 => rfl
      case h_2 c rest here =>
        obtain ⟨noBlank, noComment⟩ := solid c rest here
        rw [noBlank, if_neg Bool.false_ne_true,
          if_neg fun comment => noComment ⟨comment.1, .inl comment.2⟩,
          if_neg fun comment => noComment ⟨comment.1, .inr comment.2⟩]

/-- Blanks in front of a token are skipped. -/
theorem skip_blanks {blanks cs : List Char} (blank : ∀ c ∈ blanks, isBlank c = true)
    (solid : Solid cs) {lex : Lexer} (here : lex.rest = blanks ++ cs) {fuel : Nat}
    (enough : blanks.length ≤ fuel) : (lex.skipWsAndComments fuel).rest = cs := by
  induction blanks generalizing lex fuel with
  | nil => rw [skip_solid (here ▸ solid), here, List.nil_append]
  | cons c blanks ih =>
      obtain ⟨rest, rfl⟩ : ∃ rest, fuel = rest + 1 := ⟨fuel - 1, by simp at enough; omega⟩
      rw [skipWsAndComments]
      split
      case h_1 ended => rw [ended] at here; cases here
      case h_2 d behind found =>
        obtain ⟨rfl, rfl⟩ := List.cons.inj (found.symm.trans here)
        rw [if_pos (blank d List.mem_cons_self)]
        apply ih (fun e inside => blank e (List.mem_cons_of_mem d inside))
        · rw [advance_rest, found]
          rfl
        · simp at enough
          exact enough

/-- Skipping ends in front of something solid. -/
theorem solid_skip {lex : Lexer} {fuel : Nat} (enough : lex.rest.length ≤ fuel) :
    Solid (lex.skipWsAndComments fuel).rest ∧
      (lex.skipWsAndComments fuel).rest.length ≤ lex.rest.length := by
  induction fuel generalizing lex with
  | zero =>
      have ended : lex.rest = [] := List.length_eq_zero_iff.mp (by omega)
      rw [skipWsAndComments, ended]
      exact ⟨solid_nil, Nat.le_refl _⟩
  | succ fuel ih =>
      rw [skipWsAndComments]
      split
      case h_1 ended =>
        rw [ended]
        exact ⟨solid_nil, Nat.le_refl _⟩
      case h_2 c rest here =>
        have smaller : ∀ n, 0 < n →
            Solid ((lex.advance n).skipWsAndComments fuel).rest ∧
              ((lex.advance n).skipWsAndComments fuel).rest.length ≤ lex.rest.length := by
          intro n some
          have dropped : (lex.advance n).rest.length = lex.rest.length - n := by
            rw [advance_rest, List.length_drop]
          have length : lex.rest.length = rest.length + 1 := by rw [here, List.length_cons]
          obtain ⟨solid, shorter⟩ := @ih (lex.advance n) (by omega)
          exact ⟨solid, by omega⟩
        split
        case isTrue => exact smaller 1 (by decide)
        case isFalse noBlank =>
          split
          case isTrue comment =>
            apply smaller
            rw [here, comment.1]
            exact Nat.succ_pos _
          case isFalse noLine =>
            split
            case isTrue => exact smaller _ (Nat.succ_pos _)
            case isFalse noBlock =>
              refine ⟨?_, Nat.le_refl _⟩
              intro d behind found
              obtain ⟨rfl, rfl⟩ := List.cons.inj (found.symm.trans here)
              refine ⟨Bool.not_eq_true _ ▸ noBlank, ?_⟩
              rintro ⟨slash, line | block⟩
              · exact noLine ⟨slash, line⟩
              · exact noBlock ⟨slash, block⟩

section Rounds

variable (fileId : SymbolId)

/-- The lexer takes the token that is scanned, and fails if there is none. -/
theorem lexToken_eq {lex : Lexer} {c : Char} {rest : List Char} (here : lex.rest = c :: rest) :
    (∃ kind n, scanToken lex.rest = some (kind, n) ∧
      lex.lexToken fileId c = .ok (lex.makeToken fileId kind n)) ∨
    (scanToken lex.rest = none ∧
      ∃ line col message, lex.lexToken fileId c = .error (.at line col message)) := by
  rw [here, scanToken, lexToken]
  split
  case isTrue => exact .inl ⟨_, _, rfl, by rw [lexIdentOrKw, here]⟩
  case isFalse =>
    split
    case isTrue =>
      rw [lexNumber, here]
      exact .inl ⟨(scanNumber (c :: rest)).1, (scanNumber (c :: rest)).2, rfl, rfl⟩
    case isFalse =>
      split
      case isTrue =>
        rw [lexStringLit, here]
        cases stringLength ((c :: rest).drop 1) with
        | none => exact .inr ⟨rfl, _, _, _, rfl⟩
        | some n => exact .inl ⟨_, _, rfl, rfl⟩
      case isFalse =>
        rw [lexOperator, here]
        cases scanOperator (c :: rest) with
        | none => exact .inr ⟨rfl, _, _, _, rfl⟩
        | some found => exact .inl ⟨_, _, rfl, rfl⟩

/-- A round at the end of the source. -/
theorem tokenizeFrom_ended (fuel : Nat) {lex : Lexer}
    (ended : (lex.skipWsAndComments lex.rest.length).rest = []) :
    ∃ last, lex.tokenizeFrom fileId (fuel + 1) = .ok [last] ∧ shape last = (.eof, []) := by
  rw [tokenizeFrom]
  simp only [ended]
  exact ⟨_, rfl, rfl⟩

/-- A round in front of a token. -/
theorem tokenizeFrom_token (fuel : Nat) {lex : Lexer} {n : Nat} {kind : TokenKind}
    (scanned : scanToken (lex.skipWsAndComments lex.rest.length).rest = some (kind, n)) :
    ∃ t behind, shape t = (kind, (lex.skipWsAndComments lex.rest.length).rest.take n) ∧
      behind.rest = (lex.skipWsAndComments lex.rest.length).rest.drop n ∧
      lex.tokenizeFrom fileId (fuel + 1) =
        (Lexer.tokenizeFrom fileId fuel behind).map (t :: ·) := by
  rw [tokenizeFrom]
  generalize lex.skipWsAndComments lex.rest.length = start at scanned ⊢
  simp only
  split
  case h_1 ended => rw [ended] at scanned; cases scanned
  case h_2 c rest here =>
    rcases lexToken_eq fileId here with ⟨known, m, found, taken⟩ | ⟨none, -⟩
    · rw [scanned] at found
      cases found
      refine ⟨(start.makeToken fileId kind n).1, start.advance n, rfl, advance_rest n start, ?_⟩
      rw [taken]
      change (do
        let others ← Lexer.tokenizeFrom fileId fuel (start.advance n)
        return (start.makeToken fileId kind n).1 :: others) = _
      cases Lexer.tokenizeFrom fileId fuel (start.advance n) <;> rfl
    · rw [scanned] at none
      cases none

/-- A round in front of characters that are no token. -/
theorem tokenizeFrom_none (fuel : Nat) {lex : Lexer}
    (goesOn : (lex.skipWsAndComments lex.rest.length).rest ≠ [])
    (none : scanToken (lex.skipWsAndComments lex.rest.length).rest = none) :
    ∃ line col message,
      lex.tokenizeFrom fileId (fuel + 1) = .error (.at line col message) := by
  rw [tokenizeFrom]
  generalize lex.skipWsAndComments lex.rest.length = start at goesOn none ⊢
  simp only
  split
  case h_1 ended => exact absurd ended goesOn
  case h_2 c rest here =>
    rcases lexToken_eq fileId here with ⟨known, m, found, -⟩ | ⟨-, line, col, message,
      failed⟩
    · rw [none] at found
      cases found
    · exact ⟨line, col, message, by rw [failed]; rfl⟩

/-- Tokens with the texts of tokens, and the end token behind them. -/
inductive TokenList : List Token → Prop
  | last {t : Token} (ends : shape t = (.eof, [])) : TokenList [t]
  | cons {t : Token} {rest : List Token} (token : TokenText t.kind t.text)
      (others : TokenList rest) : TokenList (t :: rest)

theorem tokenizeFrom_tokens {fileId : SymbolId} {fuel : Nat} {lex : Lexer} {toks : List Token}
    (accepted : lex.tokenizeFrom fileId fuel = .ok toks) : TokenList toks := by
  induction fuel generalizing lex toks with
  | zero => cases accepted
  | succ fuel ih =>
      by_cases ended : (lex.skipWsAndComments lex.rest.length).rest = []
      · obtain ⟨last, ran, ends⟩ := tokenizeFrom_ended fileId fuel ended
        rw [ran] at accepted
        cases accepted
        exact .last ends
      · cases scanned : scanToken (lex.skipWsAndComments lex.rest.length).rest with
        | none =>
            obtain ⟨line, col, message, failed⟩ :=
              tokenizeFrom_none fileId fuel ended scanned
            rw [failed] at accepted
            cases accepted
        | some found =>
            obtain ⟨kind, n⟩ := found
            obtain ⟨text, tail, split, rfl, token⟩ := scanToken_text scanned
            obtain ⟨t, behind, shaped, -, ran⟩ :=
              tokenizeFrom_token fileId fuel scanned
            rw [split, List.take_left] at shaped
            cases shaped
            rw [ran] at accepted
            cases others : Lexer.tokenizeFrom fileId fuel behind with
            | error => rw [others] at accepted; cases accepted
            | ok rest =>
                rw [others] at accepted
                cases accepted
                exact .cons token (ih others)

/-- The rounds that the lexer is given are enough. -/
theorem tokenizeFrom_ends {fileId : SymbolId} {fuel : Nat} {lex : Lexer} (enough : lex.rest.length < fuel) :
    lex.tokenizeFrom fileId fuel ≠ .error .outOfFuel := by
  induction fuel generalizing lex with
  | zero => omega
  | succ fuel ih =>
      intro exhausted
      by_cases ended : (lex.skipWsAndComments lex.rest.length).rest = []
      · obtain ⟨last, ran, -⟩ := tokenizeFrom_ended fileId fuel ended
        rw [ran] at exhausted
        cases exhausted
      · cases scanned : scanToken (lex.skipWsAndComments lex.rest.length).rest with
        | none =>
            obtain ⟨line, col, message, failed⟩ :=
              tokenizeFrom_none fileId fuel ended scanned
            rw [failed] at exhausted
            cases exhausted
        | some found =>
            obtain ⟨kind, n⟩ := found
            obtain ⟨text, tail, split, rfl, token⟩ := scanToken_text scanned
            obtain ⟨t, behind, -, further, ran⟩ :=
              tokenizeFrom_token fileId fuel scanned
            have some : 0 < text.length := List.length_pos_iff.mpr token.nonempty
            have shorter := (solid_skip (Nat.le_refl lex.rest.length)).2
            have behindLength : behind.rest.length < fuel := by
              rw [split, List.length_append] at shorter
              rw [further, split, List.drop_left]
              omega
            rw [ran] at exhausted
            cases others : Lexer.tokenizeFrom fileId fuel behind with
            | error failure =>
                rw [others] at exhausted
                cases exhausted
                exact ih behindLength others
            | ok rest => rw [others] at exhausted; cases exhausted

theorem tokenize_ends (fileId : SymbolId) (src : List Char) :
    tokenize fileId src ≠ .error .outOfFuel :=
  tokenizeFrom_ends (Nat.lt_succ_self _)

end Rounds

end Lexer

end Aegis
