import AegisCompiler.ParserBounds

/-!
# The parser ends in front of the end token

Declarations and modules stay in front of the end token, and every round of every loop of
the parser takes a token, leaves the loop, or fails.
-/

namespace Aegis

namespace Parser

section Declarations

variable (intern : List Char → SymbolId) (last fuel : Nat)

theorem params_copies : Copies last 6 0 Anything (parseParams intern) fuel := by
  induction fuel with
  | zero => exact copies_zero (by decide) rfl
  | succ fuel ih =>
      have specs := grammar_copies intern last fuel
      refine copies_succ (by decide) fun short fuel' s s' twin _ enough enough' => ?_
      rw [parseParams, parseParams]
      refine twin.isAt (twin.isAt ?_)
      split
      case isTrue => exact twin.pure _ (by omega)
      case isFalse =>
        -- Whether the parameter is mutable has no bearing on what comes behind it.
        have tail (mutable : Bool) (t t' : ParserState) (twin : Twin last t t')
            (moved : s.pos ≤ t.pos) (inside : t.pos ≤ last) :
            Alike short last (s.pos + 0)
              ((do
                let name ← expect .ident
                let _ ← expect .colon
                let typeAnn ← parseTypeAnnotation intern fuel
                let param := Ast.param (intern name.text) typeAnn mutable
                if ← consume .comma then
                  return param :: (← parseParams intern fuel)
                else
                  return [param] : ParserM (List Ast)) t)
              ((do
                let name ← expect .ident
                let _ ← expect .colon
                let typeAnn ← parseTypeAnnotation intern fuel'
                let param := Ast.param (intern name.text) typeAnn mutable
                if ← consume .comma then
                  return param :: (← parseParams intern fuel')
                else
                  return [param] : ParserM (List Ast)) t') := by
          refine twin.expect nofun fun u u' twin _ _ _ => ?_
          refine twin.expect nofun fun v v' twin _ _ _ => ?_
          refine (specs.typeName _ fuel' v v' twin trivial (fun less => enough (by omega))
            (by omega)).andThen fun typeAnn w w' twin _ _ => ?_
          refine twin.consume nofun (fun x x' twin _ _ => ?_) fun _ => ?_
          · refine (ih _ fuel' x x' twin trivial (fun less => enough (by omega))
              (by omega)).andThen fun others y y' twin _ _ => ?_
            exact twin.pure _ (by omega)
          · exact twin.pure _ (by omega)
        refine twin.consume nofun (fun t t' twin _ _ => ?_) fun _ => ?_
        · exact tail true t t' twin (by omega) (by omega)
        · exact tail false s s' twin (Nat.le_refl _) twin.pos_le

theorem fnDecl_copies (isPub : Bool) :
    Copies last 9 1 (· = .fnKw) (parseFnDecl intern isPub) fuel := by
  have specs := grammar_copies intern last fuel
  intro short fuel' s s' twin start enough enough'
  rw [parseFnDecl, parseFnDecl]
  refine twin.expect nofun fun t t' twin _ _ taken => ?_
  have further := taken start
  refine twin.expect nofun fun u u' twin _ _ _ => ?_
  refine twin.expect nofun fun v v' twin _ _ _ => ?_
  refine (params_copies intern last fuel _ fuel' v v' twin trivial (fun less => enough (by omega))
    (by omega)).andThen fun params w w' twin _ _ => ?_
  refine twin.expect nofun fun x x' twin _ _ _ => ?_
  refine twin.afterToken nofun (fun y y' twin _ _ => ?_) fun returnType y y' twin _ _ => ?_
  · exact (specs.typeName _ fuel' y y' twin trivial (fun less => enough (by omega))
      (by omega)).imp fun z moved => by omega
  · refine (specs.block _ fuel' y y' twin trivial (fun less => enough (by omega))
      (by omega)).andThen fun body z z' twin _ _ => ?_
    exact twin.pure _ (by omega)

theorem fields_copies : Copies last 6 0 Anything (parseFields intern) fuel := by
  induction fuel with
  | zero => exact copies_zero (by decide) rfl
  | succ fuel ih =>
      have specs := grammar_copies intern last fuel
      refine copies_succ (by decide) fun short fuel' s s' twin _ enough enough' => ?_
      rw [parseFields, parseFields]
      refine twin.isAt (twin.isAt ?_)
      split
      case isTrue => exact twin.pure _ (by omega)
      case isFalse =>
        refine twin.expect nofun fun t t' twin _ _ _ => ?_
        refine twin.expect nofun fun u u' twin _ _ _ => ?_
        refine (specs.typeName _ fuel' u u' twin trivial (fun less => enough (by omega))
          (by omega)).andThen fun typeAnn v v' twin _ _ => ?_
        refine twin.consume nofun (fun w w' twin _ _ => ?_) fun _ => ?_
        · refine (ih _ fuel' w w' twin trivial (fun less => enough (by omega))
            (by omega)).andThen fun others x x' twin _ _ => ?_
          exact twin.pure _ (by omega)
        · exact twin.pure _ (by omega)

theorem structDecl_copies :
    Copies last 9 1 (· = .structKw) (parseStructDecl intern) fuel := by
  intro short fuel' s s' twin start enough enough'
  rw [parseStructDecl, parseStructDecl]
  refine twin.expect nofun fun t t' twin _ _ taken => ?_
  have further := taken start
  refine twin.expect nofun fun u u' twin _ _ _ => ?_
  refine twin.expect nofun fun v v' twin _ _ _ => ?_
  refine (fields_copies intern last fuel _ fuel' v v' twin trivial (fun less => enough (by omega))
    (by omega)).andThen fun fields w w' twin _ _ => ?_
  refine twin.expect nofun fun x x' twin _ _ _ => ?_
  exact twin.pure _ (by omega)

theorem payloadTypes_copies : Copies last 6 0 Anything (parsePayloadTypes intern) fuel := by
  induction fuel with
  | zero => exact copies_zero (by decide) rfl
  | succ fuel ih =>
      have specs := grammar_copies intern last fuel
      refine copies_succ (by decide) fun short fuel' s s' twin _ enough enough' => ?_
      rw [parsePayloadTypes, parsePayloadTypes]
      refine twin.isAt (twin.isAt ?_)
      split
      case isTrue => exact twin.pure _ (by omega)
      case isFalse =>
        refine (specs.typeName _ fuel' s s' twin trivial (fun less => enough (by omega))
          (by omega)).andThen fun payload t t' twin _ _ => ?_
        refine twin.consume nofun (fun u u' twin _ _ => ?_) fun _ => ?_
        · refine (ih _ fuel' u u' twin trivial (fun less => enough (by omega))
            (by omega)).andThen fun others v v' twin _ _ => ?_
          exact twin.pure _ (by omega)
        · exact twin.pure _ (by omega)

theorem variants_copies : Copies last 1 0 Anything (parseVariants intern) fuel := by
  induction fuel with
  | zero => exact copies_zero (by decide) rfl
  | succ fuel ih =>
      refine copies_succ (by decide) fun short fuel' s s' twin _ enough enough' => ?_
      rw [parseVariants, parseVariants]
      refine twin.isAt (twin.isAt ?_)
      split
      case isTrue => exact twin.pure _ (by omega)
      case isFalse =>
        have tail (entry : SymbolId × List Ast) (t t' : ParserState) (twin : Twin last t t')
            (moved : s.pos ≤ t.pos) (inside : t.pos ≤ last) :
            Alike short last (s.pos + 0)
              ((do
                if ← consume .comma then
                  return entry :: (← parseVariants intern fuel)
                else
                  return [entry] : ParserM (List (SymbolId × List Ast))) t)
              ((do
                if ← consume .comma then
                  return entry :: (← parseVariants intern fuel')
                else
                  return [entry] : ParserM (List (SymbolId × List Ast))) t') := by
          refine twin.consume nofun (fun u u' twin _ _ => ?_) fun _ => ?_
          · refine (ih _ fuel' u u' twin trivial (fun less => enough (by omega))
              (by omega)).andThen fun others v v' twin _ _ => ?_
            exact twin.pure _ (by omega)
          · exact twin.pure _ (by omega)
        refine twin.expect nofun fun t t' twin _ _ _ => ?_
        refine twin.consume nofun (fun u u' twin _ _ => ?_) fun _ => ?_
        · simp only [if_true, pure_bind]
          refine (payloadTypes_copies intern last fuel _ fuel' u u' twin trivial
            (fun less => enough (by omega)) (by omega)).andThen fun types v v' twin _ _ => ?_
          refine twin.expect nofun fun w w' twin _ _ _ => ?_
          exact tail _ w w' twin (by omega) (by omega)
        · simp only [Bool.false_eq_true, if_false, pure_bind]
          exact tail _ t t' twin (by omega) (by omega)

theorem enumDecl_copies : Copies last 9 1 (· = .enumKw) (parseEnumDecl intern) fuel := by
  intro short fuel' s s' twin start enough enough'
  rw [parseEnumDecl, parseEnumDecl]
  refine twin.expect nofun fun t t' twin _ _ taken => ?_
  have further := taken start
  refine twin.expect nofun fun u u' twin _ _ _ => ?_
  refine twin.expect nofun fun v v' twin _ _ _ => ?_
  refine (variants_copies intern last fuel _ fuel' v v' twin trivial
    (fun less => enough (by omega)) (by omega)).andThen fun variants w w' twin _ _ => ?_
  refine twin.expect nofun fun x x' twin _ _ _ => ?_
  exact twin.pure _ (by omega)

theorem topLevelItem_copies : Copies last 9 1 Anything (parseTopLevelItem intern) fuel := by
  intro short fuel' s s' twin _ enough enough'
  rw [parseTopLevelItem, parseTopLevelItem]
  refine twin.consume nofun (fun t t' twin _ _ => ?_) fun _ => ?_
  · refine twin.peekKind ?_
    cases here : t.peek.kind <;> first
      | exact twin.fail
      | exact (fnDecl_copies intern last fuel true _ fuel' t t' twin here
          (fun less => enough (by omega)) (by omega)).imp fun u moved => by omega
  · refine twin.peekKind ?_
    cases here : s.peek.kind <;> first
      | exact twin.fail
      | exact fnDecl_copies intern last fuel false _ fuel' s s' twin here enough enough'
      | exact structDecl_copies intern last fuel _ fuel' s s' twin here enough enough'
      | exact enumDecl_copies intern last fuel _ fuel' s s' twin here enough enough'

theorem items_copies : Copies last 10 0 Anything (parseItems intern) fuel := by
  induction fuel with
  | zero => exact copies_zero (by decide) rfl
  | succ fuel ih =>
      refine copies_succ (by decide) fun short fuel' s s' twin _ enough enough' => ?_
      rw [parseItems, parseItems]
      refine twin.isAt ?_
      split
      case isTrue => exact twin.pure _ (by omega)
      case isFalse =>
        refine (topLevelItem_copies intern last fuel _ fuel' s s' twin trivial
          (fun less => enough (by omega)) (by omega)).andThen fun item t t' twin _ _ => ?_
        refine (ih _ fuel' t t' twin trivial (fun less => enough (by omega))
          (by omega)).andThen fun others u u' twin _ _ => ?_
        exact twin.pure _ (by omega)

theorem module_copies : Copies last 10 0 Anything (parseModule intern) fuel := by
  intro short fuel' s s' twin _ enough enough'
  rw [parseModule, parseModule]
  refine (items_copies intern last fuel _ fuel' s s' twin trivial enough enough').andThen
    fun items t t' twin _ _ => ?_
  exact twin.pure _ (by omega)

end Declarations

/-- What a round of a loop does: leave the loop, or go round again. -/
inductive Round (α β : Type) where
  | leave (value : α)
  | again (item : β)

/-- The loop goes from round to round until it is left. -/
def IsLoop {α β : Type} (loop : Nat → ParserM α) (round : Nat → ParserM (Round α β))
    (next : β → Nat → ParserM α) : Prop :=
  ∀ fuel, loop (fuel + 1) = round fuel >>= fun result =>
    match result with
    | .leave value => pure value
    | .again item => next item fuel

/-- A loop that collects an item in every round but the last. -/
def collecting {β : Type} (loop : Nat → ParserM (List β)) (item : β) (fuel : Nat) :
    ParserM (List β) := do
  return item :: (← loop fuel)

/-- The state is not behind the end token, which has its first place at `last`. -/
structure InBounds (last : Nat) (s : ParserState) : Prop where
  inside : last < s.toks.length
  ends : ∀ i ≤ last, (s.toks.getD i {}).kind = .eof ↔ i = last
  pos_le : s.pos ≤ last

theorem InBounds.twin {last : Nat} {s : ParserState} (bounds : InBounds last s) :
    Twin last s s :=
  ⟨⟨bounds.inside, bounds.inside, fun _ _ => rfl, bounds.ends⟩, bounds.pos_le, rfl, rfl⟩

theorem Twin.inBounds {last : Nat} {s s' : ParserState} (twin : Twin last s s') :
    InBounds last s :=
  ⟨twin.tokens.inside, twin.tokens.ends, twin.pos_le⟩

/-- A round that goes on has taken a token, and has not come behind the end token. -/
def Progresses {α β : Type} (round : Nat → ParserM (Round α β)) : Prop :=
  ∀ fuel last s item t, InBounds last s → round fuel s = .ok (.again item) t →
    s.pos < t.pos ∧ InBounds last t

section Rounds

variable (intern : List Char → SymbolId)

def segmentsRound (_ : Nat) : ParserM (Round (List SymbolId) SymbolId) := do
  let segment ← expect .ident
  if ← consume .doubleColon then
    return .again (intern segment.text)
  else
    return .leave [intern segment.text]

def stmtsRound (fuel : Nat) : ParserM (Round (List Ast) Ast) := do
  if (← isAt .rBrace) || (← isAt .eof) then
    return .leave []
  else
    return .again (← parseStmt intern fuel)

def armsRound (fuel : Nat) : ParserM (Round (List (Ast × Ast)) (Ast × Ast)) := do
  if (← isAt .rBrace) || (← isAt .eof) then
    return .leave []
  else
    let pattern ← parsePattern intern fuel
    let _ ← expect .fatArrow
    let body ← parseExpr intern 0 fuel
    let _ ← consume .comma
    return .again (pattern, body)

def operatorsRound (minPrec : Int) (lhs : Ast) (fuel : Nat) : ParserM (Round Ast Ast) := do
  match binaryOpKind (← peekKind) with
  | none => return .leave lhs
  | some op =>
      let prec := precedence op
      if prec < minPrec then
        return .leave lhs
      else
        advance
        let rhsPrec := if isAssignOp op then prec else prec + 1
        let rhs ← parseExpr intern rhsPrec fuel
        if isAssignOp op then
          return .again (.assignExpr op lhs rhs)
        else
          return .again (.binaryExpr op lhs rhs)

def postfixRound (base : Ast) (fuel : Nat) : ParserM (Round Ast Ast) := do
  match ← peekKind with
  | .lParen =>
      advance
      let args ← parseArgs intern fuel
      let _ ← expect .rParen
      return .again (.callExpr base args)
  | .dot =>
      advance
      let field ← expect .ident
      return .again (.fieldExpr base (intern field.text))
  | .lBracket =>
      advance
      let index ← parseExpr intern 0 fuel
      let _ ← expect .rBracket
      return .again (.indexExpr base index)
  | _ => return .leave base

def argsRound (fuel : Nat) : ParserM (Round (List Ast) Ast) := do
  if (← isAt .rParen) || (← isAt .eof) then
    return .leave []
  else
    let arg ← parseExpr intern 0 fuel
    if ← consume .comma then
      return .again arg
    else
      return .leave [arg]

def paramsRound (fuel : Nat) : ParserM (Round (List Ast) Ast) := do
  if (← isAt .rParen) || (← isAt .eof) then
    return .leave []
  else
    let mutable ← consume .mutKw
    let name ← expect .ident
    let _ ← expect .colon
    let typeAnn ← parseTypeAnnotation intern fuel
    let param := Ast.param (intern name.text) typeAnn mutable
    if ← consume .comma then
      return .again param
    else
      return .leave [param]

def fieldsRound (fuel : Nat) : ParserM (Round (List (SymbolId × Ast)) (SymbolId × Ast)) := do
  if (← isAt .rBrace) || (← isAt .eof) then
    return .leave []
  else
    let field ← expect .ident
    let _ ← expect .colon
    let typeAnn ← parseTypeAnnotation intern fuel
    let entry := (intern field.text, typeAnn)
    if ← consume .comma then
      return .again entry
    else
      return .leave [entry]

def payloadTypesRound (fuel : Nat) : ParserM (Round (List Ast) Ast) := do
  if (← isAt .rParen) || (← isAt .eof) then
    return .leave []
  else
    let payload ← parseTypeAnnotation intern fuel
    if ← consume .comma then
      return .again payload
    else
      return .leave [payload]

def variantsRound (fuel : Nat) :
    ParserM (Round (List (SymbolId × List Ast)) (SymbolId × List Ast)) := do
  if (← isAt .rBrace) || (← isAt .eof) then
    return .leave []
  else
    let variant ← expect .ident
    let payload ←
      if ← consume .lParen then
        let types ← parsePayloadTypes intern fuel
        let _ ← expect .rParen
        pure types
      else
        pure []
    let entry := (intern variant.text, payload)
    if ← consume .comma then
      return .again entry
    else
      return .leave [entry]

def itemsRound (fuel : Nat) : ParserM (Round (List Ast) Ast) := do
  if ← isAt .eof then
    return .leave []
  else
    return .again (← parseTopLevelItem intern fuel)

theorem bind_ite {α β : Type} (c : Prop) [Decidable c] (first second : ParserM α)
    (next : α → ParserM β) :
    (if c then first else second) >>= next = if c then first >>= next else second >>= next := by
  split <;> rfl

theorem segments_loop :
    IsLoop (parsePathSegments intern) (segmentsRound intern)
      (collecting (parsePathSegments intern)) := by
  intro fuel
  simp only [parsePathSegments, segmentsRound, collecting, bind_assoc, pure_bind, bind_ite]

theorem stmts_loop :
    IsLoop (parseStmts intern) (stmtsRound intern) (collecting (parseStmts intern)) := by
  intro fuel
  simp only [parseStmts, stmtsRound, collecting, bind_assoc, pure_bind, bind_ite]

theorem arms_loop :
    IsLoop (parseArms intern) (armsRound intern) (collecting (parseArms intern)) := by
  intro fuel
  simp only [parseArms, armsRound, collecting, bind_assoc, pure_bind, bind_ite]

theorem operators_loop (minPrec : Int) (lhs : Ast) :
    IsLoop (parseOperators intern minPrec lhs) (operatorsRound intern minPrec lhs)
      (parseOperators intern minPrec) := by
  intro fuel
  simp only [parseOperators, operatorsRound, bind_assoc]
  refine bind_congr fun kind => ?_
  cases binaryOpKind kind with
  | none => rfl
  | some op => simp only [bind_ite, bind_assoc, pure_bind]

theorem postfix_loop (base : Ast) :
    IsLoop (parsePostfix intern base) (postfixRound intern base) (parsePostfix intern) := by
  intro fuel
  simp only [parsePostfix, postfixRound, bind_assoc]
  refine bind_congr fun kind => ?_
  cases kind <;> simp only [bind_assoc, pure_bind]

theorem args_loop :
    IsLoop (parseArgs intern) (argsRound intern) (collecting (parseArgs intern)) := by
  intro fuel
  simp only [parseArgs, argsRound, collecting, bind_assoc, pure_bind, bind_ite]

theorem params_loop :
    IsLoop (parseParams intern) (paramsRound intern) (collecting (parseParams intern)) := by
  intro fuel
  simp only [parseParams, paramsRound, collecting, bind_assoc, pure_bind, bind_ite]

theorem fields_loop :
    IsLoop (parseFields intern) (fieldsRound intern) (collecting (parseFields intern)) := by
  intro fuel
  simp only [parseFields, fieldsRound, collecting, bind_assoc, pure_bind, bind_ite]

theorem payloadTypes_loop :
    IsLoop (parsePayloadTypes intern) (payloadTypesRound intern)
      (collecting (parsePayloadTypes intern)) := by
  intro fuel
  simp only [parsePayloadTypes, payloadTypesRound, collecting, bind_assoc, pure_bind, bind_ite]

theorem variants_loop :
    IsLoop (parseVariants intern) (variantsRound intern) (collecting (parseVariants intern)) := by
  intro fuel
  simp only [parseVariants, variantsRound, collecting, bind_assoc, pure_bind, bind_ite]

theorem items_loop :
    IsLoop (parseItems intern) (itemsRound intern) (collecting (parseItems intern)) := by
  intro fuel
  simp only [parseItems, itemsRound, collecting, bind_assoc, pure_bind, bind_ite]

/-- Go on behind a round that goes on; a round that leaves the loop gives up. -/
def goingOn {α β : Type} : Round α β → ParserM Unit
  | .leave _ => outOfFuel
  | .again _ => pure ()

theorem left {α β : Type} {last least : Nat} {value : α} {s : ParserState}
    {result : EStateM.Result ParseFailure ParserState Unit} :
    Alike True last least (goingOn (.leave value : Round α β) s) result :=
  .aborted ⟨trivial, rfl⟩

/-- A round progresses if it does whenever it does not run out of fuel. -/
theorem progresses_of {α β : Type} {round : Nat → ParserM (Round α β)}
    (moves : ∀ fuel last s, Twin last s s →
      Alike True last (s.pos + 1) ((round fuel >>= goingOn) s)
        ((round (10 * last + 10) >>= goingOn) s)) :
    Progresses round := by
  intro fuel last s item t bounds ran
  have here : (round fuel >>= goingOn) s = .ok () t := bind_of_ok ran
  obtain ⟨t', _, states, moved⟩ := (moves fuel last s bounds.twin).of_ok here
  exact ⟨moved, states.inBounds⟩

/-- A round that goes on behind a token that may be there. -/
theorem Twin.goOnAfter {α β : Type} {last least : Nat} {s s' : ParserState} {kind : TokenKind}
    {again again' : β} {leave leave' : α} (twin : Twin last s s') (noEnd : kind ≠ .eof)
    (moved : least ≤ s.pos + 1) :
    Alike True last least
      ((Parser.consume kind >>= fun found =>
        if found = true then goingOn (.again again : Round α β)
        else goingOn (.leave leave : Round α β)) s)
      ((Parser.consume kind >>= fun found =>
        if found = true then goingOn (.again again' : Round α β)
        else goingOn (.leave leave' : Round α β)) s') := by
  refine twin.consume noEnd (fun t t' twin _ _ => ?_) fun _ => ?_
  · exact twin.pure _ (by omega)
  · exact .aborted ⟨trivial, rfl⟩

theorem segments_progress : Progresses (segmentsRound intern) := by
  refine progresses_of fun fuel last s twin => ?_
  simp only [segmentsRound, bind_assoc, bind_ite, pure_bind]
  refine twin.expect nofun fun t t' twin _ _ _ => ?_
  exact twin.goOnAfter nofun (by omega)

theorem stmts_progress : Progresses (stmtsRound intern) := by
  refine progresses_of fun fuel last s twin => ?_
  have specs := grammar_copies intern last fuel
  simp only [stmtsRound, bind_assoc, bind_ite, pure_bind]
  refine twin.isAt (twin.isAt ?_)
  split
  case isTrue => exact left
  case isFalse =>
    refine (specs.stmt _ _ s s twin trivial (fun _ => trivial) (by omega)).andThen
      fun stmt t t' twin _ _ => ?_
    exact twin.pure _ (by omega)

theorem arms_progress : Progresses (armsRound intern) := by
  refine progresses_of fun fuel last s twin => ?_
  have specs := grammar_copies intern last fuel
  simp only [armsRound, bind_assoc, bind_ite, pure_bind]
  refine twin.isAt (twin.isAt ?_)
  split
  case isTrue => exact left
  case isFalse =>
    refine (pattern_copies intern last fuel _ _ s s twin trivial (fun _ => trivial)
      (by omega)).andThen fun pattern t t' twin _ _ => ?_
    refine twin.expect nofun fun u u' twin _ _ _ => ?_
    refine (specs.expr 0 _ _ u u' twin trivial (fun _ => trivial) (by omega)).andThen
      fun body v v' twin _ _ => ?_
    refine twin.consume nofun (fun w w' twin _ _ => ?_) fun _ => ?_
    · exact twin.pure _ (by omega)
    · exact twin.pure _ (by omega)

theorem operators_progress (minPrec : Int) (lhs : Ast) :
    Progresses (operatorsRound intern minPrec lhs) := by
  refine progresses_of fun fuel last s twin => ?_
  have specs := grammar_copies intern last fuel
  simp only [operatorsRound, bind_assoc]
  refine twin.peekKind ?_
  cases known : binaryOpKind s.peek.kind with
  | none =>
      simp only [pure_bind]
      exact left
  | some op =>
      simp only [bind_ite, bind_assoc, pure_bind]
      split
      case isTrue => exact left
      case isFalse =>
        refine twin.advance (ne_eof_of_binary known) fun t t' twin _ _ => ?_
        refine (specs.expr _ _ _ t t' twin trivial (fun _ => trivial) (by omega)).andThen
          fun rhs u u' twin _ _ => ?_
        split
        case isTrue => exact twin.pure _ (by omega)
        case isFalse => exact twin.pure _ (by omega)

theorem postfix_progress (base : Ast) : Progresses (postfixRound intern base) := by
  refine progresses_of fun fuel last s twin => ?_
  have specs := grammar_copies intern last fuel
  simp only [postfixRound, bind_assoc]
  refine twin.peekKind ?_
  cases here : s.peek.kind <;> simp only [bind_assoc, pure_bind] <;> first
    | exact left
    | skip
  case lParen =>
    refine twin.advance (by rw [here]; nofun) fun t t' twin _ _ => ?_
    refine (specs.args _ _ t t' twin trivial (fun _ => trivial) (by omega)).andThen
      fun args u u' twin _ _ => ?_
    refine twin.expect nofun fun v v' twin _ _ _ => ?_
    exact twin.pure _ (by omega)
  case dot =>
    refine twin.advance (by rw [here]; nofun) fun t t' twin _ _ => ?_
    refine twin.expect nofun fun u u' twin _ _ _ => ?_
    exact twin.pure _ (by omega)
  case lBracket =>
    refine twin.advance (by rw [here]; nofun) fun t t' twin _ _ => ?_
    refine (specs.expr 0 _ _ t t' twin trivial (fun _ => trivial) (by omega)).andThen
      fun index u u' twin _ _ => ?_
    refine twin.expect nofun fun v v' twin _ _ _ => ?_
    exact twin.pure _ (by omega)

theorem args_progress : Progresses (argsRound intern) := by
  refine progresses_of fun fuel last s twin => ?_
  have specs := grammar_copies intern last fuel
  simp only [argsRound, bind_assoc, bind_ite, pure_bind]
  refine twin.isAt (twin.isAt ?_)
  split
  case isTrue => exact left
  case isFalse =>
    refine (specs.expr 0 _ _ s s twin trivial (fun _ => trivial) (by omega)).andThen
      fun arg t t' twin _ _ => ?_
    exact twin.goOnAfter nofun (by omega)

theorem params_progress : Progresses (paramsRound intern) := by
  refine progresses_of fun fuel last s twin => ?_
  have specs := grammar_copies intern last fuel
  simp only [paramsRound, bind_assoc, bind_ite, pure_bind]
  refine twin.isAt (twin.isAt ?_)
  split
  case isTrue => exact left
  case isFalse =>
    refine twin.consume nofun (fun t t' twin _ _ => ?_) fun _ => ?_
    · refine twin.expect nofun fun u u' twin _ _ _ => ?_
      refine twin.expect nofun fun v v' twin _ _ _ => ?_
      refine (specs.typeName _ _ v v' twin trivial (fun _ => trivial) (by omega)).andThen
        fun typeAnn w w' twin _ _ => ?_
      exact twin.goOnAfter nofun (by omega)
    · refine twin.expect nofun fun u u' twin _ _ _ => ?_
      refine twin.expect nofun fun v v' twin _ _ _ => ?_
      refine (specs.typeName _ _ v v' twin trivial (fun _ => trivial) (by omega)).andThen
        fun typeAnn w w' twin _ _ => ?_
      exact twin.goOnAfter nofun (by omega)

theorem fields_progress : Progresses (fieldsRound intern) := by
  refine progresses_of fun fuel last s twin => ?_
  have specs := grammar_copies intern last fuel
  simp only [fieldsRound, bind_assoc, bind_ite, pure_bind]
  refine twin.isAt (twin.isAt ?_)
  split
  case isTrue => exact left
  case isFalse =>
    refine twin.expect nofun fun t t' twin _ _ _ => ?_
    refine twin.expect nofun fun u u' twin _ _ _ => ?_
    refine (specs.typeName _ _ u u' twin trivial (fun _ => trivial) (by omega)).andThen
      fun typeAnn v v' twin _ _ => ?_
    exact twin.goOnAfter nofun (by omega)

theorem payloadTypes_progress : Progresses (payloadTypesRound intern) := by
  refine progresses_of fun fuel last s twin => ?_
  have specs := grammar_copies intern last fuel
  simp only [payloadTypesRound, bind_assoc, bind_ite, pure_bind]
  refine twin.isAt (twin.isAt ?_)
  split
  case isTrue => exact left
  case isFalse =>
    refine (specs.typeName _ _ s s twin trivial (fun _ => trivial) (by omega)).andThen
      fun payload t t' twin _ _ => ?_
    exact twin.goOnAfter nofun (by omega)

theorem variants_progress : Progresses (variantsRound intern) := by
  refine progresses_of fun fuel last s twin => ?_
  simp only [variantsRound, bind_assoc, bind_ite, pure_bind]
  refine twin.isAt (twin.isAt ?_)
  split
  case isTrue => exact left
  case isFalse =>
    refine twin.expect nofun fun t t' twin _ _ _ => ?_
    refine twin.consume nofun (fun u u' twin _ _ => ?_) fun _ => ?_
    · refine (payloadTypes_copies intern last fuel _ _ u u' twin trivial (fun _ => trivial)
        (by omega)).andThen fun types v v' twin _ _ => ?_
      refine twin.expect nofun fun w w' twin _ _ _ => ?_
      exact twin.goOnAfter nofun (by omega)
    · exact twin.goOnAfter nofun (by omega)

theorem items_progress : Progresses (itemsRound intern) := by
  refine progresses_of fun fuel last s twin => ?_
  simp only [itemsRound, bind_assoc, bind_ite, pure_bind]
  refine twin.isAt ?_
  split
  case isTrue => exact left
  case isFalse =>
    refine (topLevelItem_copies intern last fuel _ _ s s twin trivial (fun _ => trivial)
      (by omega)).andThen fun item t t' twin _ _ => ?_
    exact twin.pure _ (by omega)

/-- A loop that goes round by round, where a round that goes on takes a token. -/
def Advances {α β : Type} (loop : Nat → ParserM α) (round : Nat → ParserM (Round α β))
    (next : β → Nat → ParserM α) : Prop :=
  IsLoop loop round next ∧ Progresses round

/-- All loops of the parser take tokens. -/
structure LoopsAdvance (intern : List Char → SymbolId) : Prop where
  segments : Advances (parsePathSegments intern) (segmentsRound intern)
    (collecting (parsePathSegments intern))
  stmts : Advances (parseStmts intern) (stmtsRound intern) (collecting (parseStmts intern))
  arms : Advances (parseArms intern) (armsRound intern) (collecting (parseArms intern))
  operators : ∀ minPrec lhs, Advances (parseOperators intern minPrec lhs)
    (operatorsRound intern minPrec lhs) (parseOperators intern minPrec)
  postfix_ : ∀ base, Advances (parsePostfix intern base) (postfixRound intern base)
    (parsePostfix intern)
  args : Advances (parseArgs intern) (argsRound intern) (collecting (parseArgs intern))
  params : Advances (parseParams intern) (paramsRound intern) (collecting (parseParams intern))
  fields : Advances (parseFields intern) (fieldsRound intern) (collecting (parseFields intern))
  payloadTypes : Advances (parsePayloadTypes intern) (payloadTypesRound intern)
    (collecting (parsePayloadTypes intern))
  variants : Advances (parseVariants intern) (variantsRound intern)
    (collecting (parseVariants intern))
  items : Advances (parseItems intern) (itemsRound intern) (collecting (parseItems intern))

theorem loops_advance : LoopsAdvance intern where
  segments := ⟨segments_loop intern, segments_progress intern⟩
  stmts := ⟨stmts_loop intern, stmts_progress intern⟩
  arms := ⟨arms_loop intern, arms_progress intern⟩
  operators minPrec lhs :=
    ⟨operators_loop intern minPrec lhs, operators_progress intern minPrec lhs⟩
  postfix_ base := ⟨postfix_loop intern base, postfix_progress intern base⟩
  args := ⟨args_loop intern, args_progress intern⟩
  params := ⟨params_loop intern, params_progress intern⟩
  fields := ⟨fields_loop intern, fields_progress intern⟩
  payloadTypes := ⟨payloadTypes_loop intern, payloadTypes_progress intern⟩
  variants := ⟨variants_loop intern, variants_progress intern⟩
  items := ⟨items_loop intern, items_progress intern⟩

end Rounds

section Modules

variable {front : List Token} {eof : Token}

/-- The tokens in front of the end token and that token, whatever stands behind it. -/
theorem sameTokens_append (ends : eof.kind = .eof) (inner : ∀ t ∈ front, t.kind ≠ .eof)
    (behind behind' : List Token) :
    SameTokens front.length (front ++ eof :: behind) (front ++ eof :: behind') where
  inside := by simp
  inside' := by simp
  same i inside := by
    rcases Nat.lt_or_eq_of_le inside with before | rfl
    · simp only [List.getD_eq_getElem?_getD, List.getElem?_append_left before]
    · simp
  ends i inside := by
    rcases Nat.lt_or_eq_of_le inside with before | rfl
    · have other := inner _ (List.getElem_mem before)
      simp only [List.getD_eq_getElem?_getD, List.getElem?_append_left before,
        List.getElem?_eq_getElem before, Option.getD_some, other, false_iff]
      omega
    · simpa using ends

/-- A parse that ends with a tree or with a reported error. -/
def ended (outcome : Except ParseError Ast) (s : ParserState) :
    EStateM.Result ParseFailure ParserState Ast :=
  match outcome with
  | .ok tree => .ok tree s
  | .error reported => .error (.error reported) s

theorem ended_inj {outcome outcome' : Except ParseError Ast} {s s' : ParserState}
    (same : ended outcome s = ended outcome' s') : outcome = outcome' ∧ s = s' := by
  cases outcome <;> cases outcome' <;> cases same <;> exact ⟨rfl, rfl⟩

/-- From twins the parses of a module end in the same way. -/
theorem module_ends (intern : List Char → SymbolId) {last : Nat} {s s' : ParserState}
    (twin : Twin last s s') {fuel fuel' : Nat} (enough : 10 * last + 10 ≤ fuel)
    (enough' : 10 * last + 10 ≤ fuel') :
    ∃ outcome t t', Twin last t t' ∧ parseModule intern fuel s = ended outcome t ∧
      parseModule intern fuel' s' = ended outcome t' := by
  have agree := module_copies intern last fuel False fuel' s s' twin trivial
    (fun less => by omega) (by omega)
  generalize parseModule intern fuel s = result at agree
  generalize parseModule intern fuel' s' = result' at agree
  cases agree with
  | @ok tree t t' states => exact ⟨.ok tree, t, t', states, rfl, rfl⟩
  | @error failure t t' allowed states =>
      cases failure with
      | error reported => exact ⟨.error reported, t, t', states, rfl, rfl⟩
      | outOfFuel => exact absurd rfl allowed
  | aborted allowed => exact allowed.1.elim

/-- On tokens that end in the only end token the parser ends with a tree or a reported error,
whatever stands behind that token, no further than there, with diagnostics that depend on
nothing behind it; every round of every loop of the parser leaves the loop, takes a token, or
fails. -/
theorem parseModule_in_bounds (intern : List Char → SymbolId) (ends : eof.kind = .eof)
    (inner : ∀ t ∈ front, t.kind ≠ .eof) :
    (∃ outcome pos diagnostics, pos ≤ front.length ∧
      ∀ behind fuel, 10 * (front.length + 1) ≤ fuel →
        ∃ s, parseModule intern fuel { toks := front ++ eof :: behind } = ended outcome s ∧
          s.pos = pos ∧ s.diagnostics = diagnostics) ∧
      LoopsAdvance intern := by
  refine ⟨?_, loops_advance intern⟩
  have twin (behind : List Token) : Twin front.length { toks := front ++ [eof] }
      { toks := front ++ eof :: behind } :=
    ⟨sameTokens_append ends inner [] behind, Nat.zero_le _, rfl, rfl⟩
  obtain ⟨outcome, t, _, states, ran, _⟩ :=
    module_ends intern (twin []) (Nat.le_refl _) (Nat.le_refl _)
  refine ⟨outcome, t.pos, t.diagnostics, states.pos_le, fun behind fuel enough => ?_⟩
  obtain ⟨outcome', t', u, states', ran', ran''⟩ :=
    module_ends intern (twin behind) (Nat.le_refl _) (show 10 * front.length + 10 ≤ fuel by omega)
  have same : ended outcome t = ended outcome' t' := ran.symm.trans ran'
  obtain ⟨rfl, rfl⟩ := ended_inj same
  exact ⟨u, ran'', states'.pos_eq, states'.diagnostics_eq⟩

/-- A struct, and a function with a loop, a branch and a call.  The parenthesis in the `else`
branch is not closed. -/
def cutOff : List Token :=
  ([.structKw, .ident, .lBrace, .ident, .colon, .i64Kw, .rBrace,
    .fnKw, .ident, .lParen, .ident, .colon, .i64Kw, .rParen, .arrow, .i64Kw, .lBrace,
    .varKw, .ident, .eq, .intLit, .semicolon,
    .forKw, .ident, .inKw, .intLit, .dotDot, .ident, .lBrace,
    .ifKw, .ident, .lt, .intLit, .lBrace,
    .ident, .plusEq, .ident, .lParen, .ident, .comma, .intLit, .rParen, .semicolon, .rBrace,
    .elseKw, .lBrace, .ident, .eq, .lParen, .ident, .star, .intLit, .rBrace, .rBrace,
    .returnKw, .ident, .semicolon, .rBrace] : List TokenKind).map fun kind => { kind }

theorem parseModule_in_bounds_cutOff :
    (∃ outcome pos diagnostics, pos ≤ 58 ∧
      ∀ behind fuel, 590 ≤ fuel →
        ∃ s, parseModule (fun _ => 0) fuel { toks := cutOff ++ {} :: behind } =
          ended outcome s ∧ s.pos = pos ∧ s.diagnostics = diagnostics) ∧
      LoopsAdvance fun _ => 0 :=
  @parseModule_in_bounds cutOff {} (fun _ => 0) rfl (by decide)

end Modules

end Parser

end Aegis
