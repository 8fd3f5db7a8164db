import AegisCompiler.FormattedTokens
import AegisCompiler.SourcePlaces

/-!
# Tokens tile the source

The texts of the tokens lie in the source one after the other, with blanks and complete
comments between them, and every token knows where it begins, modulo `2 ^ 32`.
-/

namespace Aegis

namespace Lexer

section Rounds

variable (fileId : SymbolId)

/-- The token of a text behind another one. -/
def tokenAt (kind : TokenKind) (before text : List Char) : Token where
  kind := kind
  span := {
    fileId
    line := BitVec.ofNat 32 (lineAfter before)
    col := BitVec.ofNat 32 (colAfter before)
    len := BitVec.ofNat 32 text.length }
  text := text

/-- The end token behind a text. -/
def endToken (before : List Char) : Token where
  kind := .eof
  span := {
    line := BitVec.ofNat 32 (lineAfter before)
    col := BitVec.ofNat 32 (colAfter before) }

theorem makeToken_standing (kind : TokenKind) (before text rest : List Char) :
    (standing before (text ++ rest)).makeToken fileId kind text.length =
      (tokenAt fileId kind before text, standing (before ++ text) rest) := by
  rw [makeToken, advance_standing]
  simp only [standing, List.take_left]
  rfl

/-- A character at which the lexer fails: the quote of a string that is not closed, or one that
begins nothing. -/
inductive Offends (c : Char) (tail : List Char) : String → Prop
  | quote (quote : c = '"') (unclosed : stringLength tail = none) :
      Offends c tail "unterminated string literal"
  | unknown (noWord : startsWord c = false) (noNumber : isDigit c = false) (noQuote : c ≠ '"')
      (noOperator : scanOperator (c :: tail) = none) : Offends c tail "unexpected character"

/-- Where no token begins, the lexer reports the character. -/
theorem lexToken_offends {before tail : List Char} {c : Char}
    (none : scanToken (c :: tail) = none) :
    ∃ message, Offends c tail message ∧ (standing before (c :: tail)).lexToken fileId c =
      .error (.at (BitVec.ofNat 32 (lineAfter before)) (BitVec.ofNat 32 (colAfter before))
        message) := by
  rw [scanToken] at none
  split at none
  case isTrue => cases none
  case isFalse noWord =>
    split at none
    case isTrue => cases none
    case isFalse noNumber =>
      rw [lexToken, if_neg noWord, if_neg noNumber]
      split at none
      case isTrue quote =>
        have unclosed : stringLength tail = .none := Option.map_eq_none_iff.mp none
        refine ⟨_, .quote quote unclosed, ?_⟩
        rw [if_pos quote, lexStringLit]
        simp only [standing, List.drop_succ_cons, List.drop_zero, unclosed]
        rfl
      case isFalse noQuote =>
        refine ⟨_, .unknown (Bool.eq_false_iff.mpr noWord) (Bool.eq_false_iff.mpr noNumber)
          noQuote none, ?_⟩
        rw [if_neg noQuote, lexOperator]
        simp only [standing, none]
        rfl

section Steps

variable {before rest read : List Char} (fuel : Nat)

theorem tokenizeFrom_end
    (skipped : (standing before rest).skipWsAndComments rest.length = standing read []) :
    (standing before rest).tokenizeFrom fileId (fuel + 1) = .ok [endToken read] := by
  have same : (standing before rest).rest.length = rest.length := rfl
  rw [tokenizeFrom, same, skipped]
  rfl

theorem tokenizeFrom_char {c : Char} {tail : List Char}
    (skipped : (standing before rest).skipWsAndComments rest.length = standing read (c :: tail)) :
    (standing before rest).tokenizeFrom fileId (fuel + 1) =
      (standing read (c :: tail)).lexToken fileId c >>= fun taken =>
        (taken.2.tokenizeFrom fileId fuel).map (taken.1 :: ·) := by
  have same : (standing before rest).rest.length = rest.length := rfl
  rw [tokenizeFrom, same, skipped]
  change (standing read (c :: tail)).lexToken fileId c >>= _ = _
  refine congrArg _ (funext fun taken => ?_)
  obtain ⟨t, lex⟩ := taken
  change (do return t :: (← lex.tokenizeFrom fileId fuel)) = _
  cases lex.tokenizeFrom fileId fuel <;> rfl

theorem tokenizeFrom_take {text behind : List Char} {kind : TokenKind}
    (skipped : (standing before rest).skipWsAndComments rest.length =
      standing read (text ++ behind))
    (scanned : scanToken (text ++ behind) = some (kind, text.length)) :
    (standing before rest).tokenizeFrom fileId (fuel + 1) =
      ((standing (read ++ text) behind).tokenizeFrom fileId fuel).map
        (tokenAt fileId kind read text :: ·) := by
  cases here : text ++ behind with
  | nil =>
      rw [here] at scanned
      cases scanned
  | cons c tail =>
      rw [here] at skipped
      rw [tokenizeFrom_char fileId fuel skipped]
      have found : scanToken (standing read (c :: tail)).rest = some (kind, text.length) :=
        here ▸ scanned
      have first : (standing read (c :: tail)).rest = c :: tail := rfl
      rcases lexToken_eq fileId first with ⟨known, n, again, taken⟩ | ⟨none, -⟩
      · rw [found] at again
        cases again
        rw [taken, ← here, makeToken_standing]
        rfl
      · rw [found] at none
        cases none

theorem tokenizeFrom_offends {c : Char} {tail : List Char}
    (skipped : (standing before rest).skipWsAndComments rest.length = standing read (c :: tail))
    (none : scanToken (c :: tail) = none) :
    ∃ message, Offends c tail message ∧
      (standing before rest).tokenizeFrom fileId (fuel + 1) =
        .error (.at (BitVec.ofNat 32 (lineAfter read)) (BitVec.ofNat 32 (colAfter read))
          message) := by
  obtain ⟨message, offends, failed⟩ := @lexToken_offends fileId read tail c none
  refine ⟨message, offends, ?_⟩
  rw [tokenizeFrom_char fileId fuel skipped, failed]
  rfl

end Steps

end Rounds

/-- The tokens lie in the unread part of a source, behind the part that was read, with blanks
and complete comments between them and the end token behind them.  Each stands where its first
character stands, as far as lines and columns fit into 32 bits. -/
inductive Tiles : List Char → List Char → List Token → Prop
  | last {before gap : List Char} (filled : Gap [] gap) : Tiles before gap [endToken (before ++ gap)]
  | token {before gap text behind : List Char} {t : Token} {toks : List Token}
      (filled : Gap (text ++ behind) gap) (goesOn : t.kind ≠ .eof) (some_ : text ≠ [])
      (text_eq : t.text = text)
      (line : t.span.line.toNat = lineAfter (before ++ gap) % 2 ^ 32)
      (col : t.span.col.toNat = colAfter (before ++ gap) % 2 ^ 32)
      (others : Tiles (before ++ gap ++ text) behind toks) :
      Tiles before (gap ++ (text ++ behind)) (t :: toks)

/-- What the lexer may answer: tokens that tile the source, if its block comments are closed,
or the place of an offending character. -/
inductive Answer (src : List Char) : Except LexError (List Token) → Prop
  | tokens {toks : List Token} (tiles : Terminated src → Tiles [] src toks) : Answer src (.ok toks)
  | failure {read tail : List Char} {c : Char} {line col : BitVec 32} {message : String}
      (split : src = read ++ c :: tail) (offends : Offends c tail message)
      (place : Terminated src → Place src read (c :: tail))
      (line_eq : line.toNat = lineAfter read % 2 ^ 32)
      (col_eq : col.toNat = colAfter read % 2 ^ 32) :
      Answer src (.error (.at line col message))

section Sources

variable {fileId : SymbolId} {src : List Char}

/-- Where the lexer stands behind blanks and comments. -/
theorem skip_read (before rest : List Char) :
    ∃ gap behind, rest = gap ++ behind ∧
      (standing before rest).skipWsAndComments rest.length = standing (before ++ gap) behind ∧
      (Terminated src → Place src before rest → Gap behind gap ∧ Solid behind) := by
  obtain ⟨gap, behind, rfl, skipped⟩ := skip_split rest.length before rest
  refine ⟨gap, behind, rfl, skipped, fun terminated place => ?_⟩
  obtain ⟨gap', behind', split, filled, solid, skipped'⟩ :=
    skip_gap terminated place (Nat.le_refl _)
  obtain rfl : behind = behind' := congrArg Lexer.rest (skipped.symm.trans skipped')
  obtain rfl := List.append_cancel_right split
  exact ⟨filled, solid⟩

theorem tokenizeFrom_tiles {fuel : Nat} {before rest : List Char} {toks : List Token}
    (terminated : Terminated src) (place : Place src before rest)
    (ran : (standing before rest).tokenizeFrom fileId fuel = .ok toks) :
    Tiles before rest toks := by
  induction fuel generalizing before rest toks with
  | zero => cases ran
  | succ fuel ih =>
      obtain ⟨gap, behind, rfl, skipped, read⟩ := @skip_read src before rest
      obtain ⟨filled, solid⟩ := read terminated place
      cases scanned : scanToken behind with
      | none =>
          cases behind with
          | nil =>
              rw [tokenizeFrom_end fileId fuel skipped] at ran
              cases ran
              rw [List.append_nil]
              exact .last filled
          | cons c tail =>
              obtain ⟨message, -, failed⟩ := tokenizeFrom_offends fileId fuel skipped scanned
              rw [failed] at ran
              cases ran
      | some found =>
          obtain ⟨kind, n⟩ := found
          obtain ⟨text, tail, rfl, rfl, token⟩ := scanToken_text scanned
          rw [tokenizeFrom_take fileId fuel skipped scanned] at ran
          have further := (place.gap filled).token solid scanned
          cases others : (standing (before ++ gap ++ text) tail).tokenizeFrom fileId fuel with
          | error => rw [others] at ran; cases ran
          | ok rest =>
              rw [others] at ran
              cases ran
              exact .token filled (Formatter.ne_eof_of_text token) token.nonempty rfl
                (BitVec.toNat_ofNat _ _) (BitVec.toNat_ofNat _ _) (ih further others)

/-- The lexer fails at an offending character of the source. -/
theorem tokenizeFrom_failure {fuel : Nat} {before rest : List Char} {failure : LexError}
    (split : src = before ++ rest) (enough : rest.length < fuel)
    (failed : (standing before rest).tokenizeFrom fileId fuel = .error failure) :
    ∃ read c tail message, src = read ++ c :: tail ∧ Offends c tail message ∧
      failure = .at (BitVec.ofNat 32 (lineAfter read)) (BitVec.ofNat 32 (colAfter read)) message ∧
      (Terminated src → Place src before rest → Place src read (c :: tail)) := by
  induction fuel generalizing before rest with
  | zero => omega
  | succ fuel ih =>
      obtain ⟨gap, behind, rfl, skipped, read⟩ := @skip_read src before rest
      rw [← List.append_assoc] at split
      cases scanned : scanToken behind with
      | none =>
          cases behind with
          | nil =>
              rw [tokenizeFrom_end fileId fuel skipped] at failed
              cases failed
          | cons c tail =>
              obtain ⟨message, offends, here⟩ := tokenizeFrom_offends fileId fuel skipped scanned
              rw [here] at failed
              cases failed
              exact ⟨_, c, tail, message, split, offends, rfl, fun terminated place =>
                place.gap (read terminated place).1⟩
      | some found =>
          obtain ⟨kind, n⟩ := found
          obtain ⟨text, tail, rfl, rfl, token⟩ := scanToken_text scanned
          have some_ := List.length_pos_iff.mpr token.nonempty
          rw [tokenizeFrom_take fileId fuel skipped scanned] at failed
          cases others : (standing (before ++ gap ++ text) tail).tokenizeFrom fileId fuel with
          | ok => rw [others] at failed; cases failed
          | error later =>
              rw [others] at failed
              cases failed
              rw [← List.append_assoc] at split
              simp only [List.length_append] at enough
              obtain ⟨read', c, rest, message, split', offends, same, further⟩ :=
                ih split (by omega) others
              refine ⟨read', c, rest, message, split', offends, same, fun terminated place => ?_⟩
              obtain ⟨filled, solid⟩ := read terminated place
              exact further terminated ((place.gap filled).token solid scanned)

/-- The tokens of a source tile it, and a failure is at an offending character. -/
theorem tokenize_answer (fileId : SymbolId) (src : List Char) :
    Answer src (tokenize fileId src) := by
  cases ran : tokenize fileId src with
  | ok toks => exact .tokens fun terminated => tokenizeFrom_tiles terminated .start ran
  | error failure =>
      have started : (standing [] src).tokenizeFrom fileId (src.length + 1) = .error failure := ran
      obtain ⟨read, c, tail, message, split, offends, rfl, place⟩ :=
        @tokenizeFrom_failure fileId src _ [] src _ rfl (Nat.lt_succ_self _) started
      exact .failure split offends (fun terminated => place terminated .start)
        (BitVec.toNat_ofNat _ _) (BitVec.toNat_ofNat _ _)

end Sources

/-- An identifier behind many line breaks. -/
def lowSource (n : Nat) : List Char := List.replicate n '\n' ++ ['x']

theorem terminated_lowSource (n : Nat) : Terminated (lowSource n) := by
  intro before body place
  exfalso
  have inside : '/' ∈ lowSource n := by
    rw [place.split]
    simp
  simp [lowSource, List.mem_replicate] at inside

theorem lineAfter_newlines (n : Nat) : lineAfter (List.replicate n '\n') = n + 1 := by
  rw [lineAfter, List.count_replicate_self]

theorem tokenize_lowSource (fileId : SymbolId) (n : Nat) :
    tokenize fileId (lowSource n) = .ok [tokenAt fileId .ident (List.replicate n '\n') ['x'],
      endToken (lowSource n)] := by
  have solid : Solid ['x'] := solid_cons rfl (by simp)
  have skipped : (standing [] (lowSource n)).skipWsAndComments (lowSource n).length =
      standing (List.replicate n '\n') (['x'] ++ []) := by
    obtain ⟨text, tail, split, skipped⟩ := skip_split (lowSource n).length [] (lowSource n)
    have last : ((standing [] (lowSource n)).skipWsAndComments (lowSource n).length).rest =
        ['x'] := by
      refine skip_blanks (fun c member => ?_) solid rfl ?_
      · rw [List.eq_of_mem_replicate member]
        rfl
      · simp [lowSource]
    rw [skipped] at last ⊢
    obtain rfl : tail = ['x'] := last
    obtain rfl := List.append_cancel_right split
    rfl
  have taken := tokenizeFrom_take fileId (lowSource n).length skipped
    (rfl : scanToken (['x'] ++ []) = some (.ident, ['x'].length))
  change (standing [] (lowSource n)).tokenizeFrom fileId _ = _
  have length : (lowSource n).length = n + 1 := by simp [lowSource]
  rw [taken, length, tokenizeFrom_end fileId n rfl]
  rfl

/-- Behind `2 ^ 32` line breaks a token is on line 1. -/
theorem line_truncated :
    Terminated (lowSource (2 ^ 32)) ∧ ∃ t last, tokenize 0 (lowSource (2 ^ 32)) = .ok [t, last] ∧
      t.text = ['x'] ∧ lowSource (2 ^ 32) = List.replicate (2 ^ 32) '\n' ++ t.text ∧
        lineAfter (List.replicate (2 ^ 32) '\n') = 2 ^ 32 + 1 ∧ t.span.line.toNat = 1 := by
  refine ⟨terminated_lowSource _, _, _, tokenize_lowSource 0 _, rfl, rfl, lineAfter_newlines _, ?_⟩
  change (BitVec.ofNat 32 (lineAfter (List.replicate (2 ^ 32) '\n'))).toNat = 1
  rw [lineAfter_newlines]
  rfl

end Lexer

end Aegis
