import AegisCompiler.MoveCycles
import AegisCompiler.PredictedFailures

/-!
# Explained failures

The encoder is made with a copy of the caller's error string.  Operands without a
register are reported to the copy, which the caller never sees; everything else is
reported to the caller.
-/

namespace Aegis

namespace ExecEncoder

open PredictedFailures
open X86 (Byte Reg)

/-- What is wrong with an instruction: an operand has no register, or something else. -/
inductive Fault where
  | home | other
  deriving DecidableEq, Repr

/-- The operand is missing, spilled, or beyond the homes. -/
def homeFault (ra : LinearScan.ScanState) : Option VRegId → Option Fault
  | none => some .home
  | some v =>
      if ra.spilled v ∨ ra.assignment v = LinearScan.kNoPReg ∨
          kExecHomeRegCount ≤ ra.assignment v then some .home
      else none

/-- The fault of an instruction that only computes a register. -/
def dataFault (ra : LinearScan.ScanState) (mi : MachineInstr) : Option Fault :=
  let homes := List.findSome? (homeFault ra)
  match mi.op with
  | .movImm => if mi.imm = none then some .other else homes [mi.result]
  | .add | .sub | .and | .or | .xor | .mul | .div | .mod | .udiv | .umod
  | .cmpEq | .cmpNe | .cmpLt | .cmpLe | .cmpGt | .cmpGe =>
      homes [mi.result, useAt mi 0, useAt mi 1]
  | .shl | .sar | .shr =>
      if useAt mi 1 ≠ none ∨ mi.imm = none ∨ mi.imm.getD 0 < 0 then some .other
      else homes [mi.result, useAt mi 0]
  | .neg | .bnot | .lnot | .mov => homes [mi.result, useAt mi 0]
  | .select => homes [mi.result, useAt mi 0, useAt mi 1, useAt mi 2]
  | .other name =>
      if name.startsWith "cmp_" then
        (homes [mi.result, useAt mi 0, useAt mi 1]).or (some .other)
      else some .other
  | _ => some .other

/-- The fault of an instruction in a function with these parameter moves. -/
def instrFault (ra : LinearScan.ScanState) (pmoves : List Move) (mi : MachineInstr) :
    Option Fault :=
  let homes := List.findSome? (homeFault ra)
  match mi.op with
  | .param => match parallelMove pmoves with
    | none => some .other
    | some _ => none
  | .ret => homes [useAt mi 0]
  | .call =>
      if mi.imm = none then some .other
      else (homes (argUses mi)).or
        (match (argMoves ra "" mi).toOption.bind parallelMove with
          | none => some .other
          | some _ => homes [mi.result])
  | .label | .jmp => if mi.imm = none then some .other else none
  | .jz => if mi.imm = none then some .other else homes [useAt mi 0]
  | _ => dataFault ra mi

/-- The fault of a parameter. -/
def paramFault (ra : LinearScan.ScanState) (mi : MachineInstr) : Option Fault :=
  if mi.imm = none ∨ mi.imm.getD 0 < 0 ∨ kAbiMaxArgs ≤ mi.imm.getD 0 then some .other
  else homeFault ra mi.result

/-- The first fault of a function: its parameters are looked at first. -/
def firstFault (fn : MachineFunction) (ra : LinearScan.ScanState) : Option Fault :=
  ((fn.instrs.filter fun mi => decide (mi.op = .param)).findSome? (paramFault ra)).or
    (fn.instrs.findSome?
      (instrFault ra ((paramMoves ra fn.instrs).toOption.getD [])))

/-- The error of a fault has a text, and is in the copy when a register is missing. -/
def Told (fault : Fault) (failure : EncodeError) : Prop :=
  failure.inCopy = decide (fault = .home) ∧ failure.text ≠ ""

theorem append_ne_empty (front : String) {back : String} (some_ : back ≠ "") :
    front ++ back ≠ "" := by
  intro empty
  exact some_ (String.append_eq_empty_iff.mp empty).2

theorem failWith_told {α : Type} (front : String) {back : String} (some_ : back ≠ "") :
    Predicts Told (some .other) (failWith (front ++ back) : Except EncodeError α) :=
  .error ⟨rfl, append_ne_empty front some_⟩

theorem homeOf_predicts (ra : LinearScan.ScanState) (v : Option VRegId) (ctx : String) :
    Predicts Told (homeFault ra v) (homeOf ra v ctx) := by
  cases v with
  | none => exact .error ⟨rfl, append_ne_empty _ (by decide)⟩
  | some v =>
      simp only [homeOf, homeFault]
      by_cases spilled : ra.spilled v = true
      · rw [if_pos spilled, if_pos (Or.inl spilled)]
        exact .error ⟨rfl, append_ne_empty _ (by decide)⟩
      · rw [if_neg spilled]
        by_cases none : ra.assignment v = LinearScan.kNoPReg ∨
            kExecHomeRegCount ≤ ra.assignment v
        · rw [if_pos none, if_pos (Or.inr none)]
          exact .error ⟨rfl, append_ne_empty _ (by decide)⟩
        · rw [if_neg none, if_neg (not_or.mpr ⟨spilled, none⟩)]
          exact .ok _

section Operands

variable {ra : LinearScan.ScanState} {ctx : String} {α : Type}

/-- One more operand is looked up. -/
theorem operand_predicts {v : Option VRegId} {others : List (Option VRegId)}
    {next : Reg → Except EncodeError α}
    (later : ∀ r, Predicts Told (others.findSome? (homeFault ra)) (next r)) :
    Predicts Told ((v :: others).findSome? (homeFault ra)) (homeOf ra v ctx >>= next) := by
  rw [findSome?_cons_or]
  exact (homeOf_predicts ra v ctx).bind fun r _ => later r

theorem encodeData_predicts (ra : LinearScan.ScanState) (ctx : String) (mi : MachineInstr) :
    Predicts Told (dataFault ra mi) (encodeData ra ctx mi) := by
  cases op : mi.op <;> simp only [dataFault, encodeData, op]
  case movImm =>
    cases mi.imm with
    | none => exact failWith_told _ (by decide)
    | some imm => exact operand_predicts fun _ => .ok _
  case mov | neg | lnot | bnot =>
    exact operand_predicts fun _ => operand_predicts fun _ => .ok _
  case shl | sar | shr =>
    by_cases amount : useAt mi 1 = none
    · simp only [amount, ne_eq, not_true_eq_false, if_false, false_or]
      cases mi.imm with
      | none => exact failWith_told _ (by decide)
      | some imm =>
          simp only [Option.getD_some, reduceCtorEq, false_or]
          split
          · exact failWith_told _ (by decide)
          · exact operand_predicts fun _ => operand_predicts fun _ => .ok _
    · rw [if_pos (Or.inl amount), if_pos amount]
      exact failWith_told _ (by decide)
  case select =>
    exact operand_predicts fun _ => operand_predicts fun _ => operand_predicts fun _ =>
      operand_predicts fun _ => .ok _
  case load | store => exact failWith_told _ (by decide)
  case other name =>
    split
    · have unsigned : Predicts Told (some .other) (failWith (ctx ++
          ": unsigned compare forms are not emitted " ++
            "by instruction selection yet") : Except EncodeError (List Byte)) :=
        failWith_told _ (by decide)
      have third := (homeOf_predicts ra (useAt mi 1) ctx).bind fun _ _ => unsigned
      have second := (homeOf_predicts ra (useAt mi 0) ctx).bind fun _ _ => third
      have first := (homeOf_predicts ra mi.result ctx).bind fun _ _ => second
      simpa only [findSome?_cons_or, List.findSome?_nil, Option.or_none, Option.or_assoc]
        using first
    · exact failWith_told _ (by decide)
  case call | param | ret | label | jmp | jz => exact failWith_told _ (by decide)
  all_goals
    exact operand_predicts fun _ => operand_predicts fun _ => operand_predicts fun _ => .ok _

theorem argMoves_predicts (ra : LinearScan.ScanState) (ctx : String) (mi : MachineInstr) :
    Predicts Told ((argUses mi).findSome? (homeFault ra)) (argMoves ra ctx mi) := by
  have within : (argUses mi).length ≤ kAbiArgRegs.length :=
    (argUses_length_le mi).trans (by decide)
  rw [← List.map_fst_zip within, List.findSome?_map]
  exact Predicts.mapM
    (fun (arg : Option VRegId × Reg) => (homeOf_predicts ra arg.1 ctx).bind_ok fun r => (⟨r, arg.2⟩ : Move)) _

end Operands

/-- The state of the encoder fits the moves: they were emitted only if they could be. -/
def Fits (pmoves : List Move) (enc : Encoder) : Prop :=
  enc.paramBlockEmitted = true → parallelMove pmoves ≠ none

theorem encodeInstr_predicts {ra : LinearScan.ScanState} {pmoves : List Move} {enc : Encoder}
    (fits : Fits pmoves enc) (entry : MachineInstr × Nat) :
    Predicts Told (instrFault ra pmoves entry.1) (encodeInstr ra pmoves enc entry) := by
  obtain ⟨mi, idx⟩ := entry
  cases op : mi.op <;> simp only [instrFault, encodeInstr, op]
  case param =>
    by_cases emitted : enc.paramBlockEmitted = true
    · obtain ⟨bytes, found⟩ := Option.ne_none_iff_exists'.mp (fits emitted)
      rw [if_pos emitted, found]
      exact .ok enc
    · rw [if_neg emitted]
      cases parallelMove pmoves with
      | none => exact .error ⟨rfl, by decide⟩
      | some bytes => exact .ok _
  case ret => exact operand_predicts fun _ => .ok _
  case call =>
    cases mi.imm with
    | none => exact failWith_told _ (by decide)
    | some callee =>
        refine (argMoves_predicts ra _ mi).bind fun moves found => ?_
        rw [argMoves_ctx found "", Except.toOption, Option.bind_some]
        cases parallelMove moves with
        | none => exact failWith_told _ (by decide)
        | some bytes => exact operand_predicts fun _ => .ok _
  case label =>
    cases mi.imm with
    | none => exact failWith_told _ (by decide)
    | some id => exact .ok _
  case jmp =>
    cases mi.imm with
    | none => exact failWith_told _ (by decide)
    | some target => exact .ok _
  case jz =>
    cases mi.imm with
    | none => exact failWith_told _ (by decide)
    | some target => exact operand_predicts fun _ => .ok _
  all_goals
    exact (encodeData_predicts ra _ mi).bind_ok fun _ => _


theorem encodeInstr_fits {ra : LinearScan.ScanState} {pmoves : List Move}
    {enc after : Encoder} (fits : Fits pmoves enc) {entry : MachineInstr × Nat}
    (encoded : encodeInstr ra pmoves enc entry = .ok after) : Fits pmoves after := by
  obtain ⟨mi, idx⟩ := entry
  cases op : mi.op <;> simp only [encodeInstr, op] at encoded
  case param =>
    split at encoded
    case isTrue =>
      cases encoded
      exact fits
    case isFalse =>
      split at encoded
      case h_1 => cases encoded
      case h_2 bytes found => exact fun _ => found ▸ Option.some_ne_none bytes
  case call =>
    split at encoded
    case h_1 => cases encoded
    case h_2 callee given =>
      obtain ⟨moves, args, encoded⟩ := except_bind_ok.mp encoded
      split at encoded
      case h_1 => cases encoded
      case h_2 bytes found =>
        obtain ⟨res, home, encoded⟩ := except_bind_ok.mp encoded
        cases encoded
        exact fits
  case label =>
    split at encoded
    case h_1 => cases encoded
    case h_2 id given =>
      cases encoded
      unfold Encoder.defineLabel
      split
      · exact fits
      · exact fits
  case jmp =>
    split at encoded
    case h_1 => cases encoded
    case h_2 target given =>
      cases encoded
      exact fits
  case jz =>
    split at encoded
    case h_1 => cases encoded
    case h_2 target given =>
      obtain ⟨cond, -, encoded⟩ := except_bind_ok.mp encoded
      cases encoded
      exact fits
  all_goals
    obtain ⟨_, -, encoded⟩ := except_bind_ok.mp encoded
    cases encoded
    exact fits

theorem paramMoves_predicts (ra : LinearScan.ScanState) (instrs : List MachineInstr) :
    Predicts Told ((instrs.filter fun mi => decide (mi.op = .param)).findSome? (paramFault ra))
      (paramMoves ra instrs) := by
  refine Predicts.mapM (fun mi => ?_) _
  cases imm : mi.imm with
  | none =>
      simp only [paramFault, imm, true_or, if_true]
      exact failWith_told _ (by decide)
  | some index =>
      simp only [paramFault, imm, Option.getD_some, reduceCtorEq, false_or]
      split
      · exact failWith_told _ (by decide)
      · exact (homeOf_predicts ra mi.result _).bind_ok _

theorem encodeInstrs_predicts (ra : LinearScan.ScanState) (pmoves : List Move)
    (instrs : List MachineInstr) :
    Predicts Told (instrs.findSome? (instrFault ra pmoves))
      (instrs.zipIdx.foldlM (encodeInstr ra pmoves) { buf := prologue }) := by
  have start : Fits pmoves { buf := prologue } := nofun
  have all : Predicts Told (instrs.zipIdx.findSome? fun entry => instrFault ra pmoves entry.1)
      (instrs.zipIdx.foldlM (encodeInstr ra pmoves) { buf := prologue }) :=
    Predicts.foldlM (fun enc entry fits => encodeInstr_predicts fits entry)
      (fun enc entry after fits encoded => encodeInstr_fits fits encoded) instrs.zipIdx start
  have same := List.findSome?_map (f := Prod.fst) (p := instrFault ra pmoves)
    (l := instrs.zipIdx)
  rw [List.zipIdx_map_fst] at same
  rw [same]
  exact all

/-- Every error is written to the caller's string, with a text. -/
def Loud {α : Type} (result : Except EncodeError α) : Prop :=
  ∀ failure, result = .error failure → failure.inCopy = false ∧ failure.text ≠ ""

section Loud

variable {α β : Type}

theorem loud_error_iff {failure : EncodeError} :
    Loud (.error failure : Except EncodeError α) ↔
      failure.inCopy = false ∧ failure.text ≠ "" := by
  constructor
  · exact fun loud => loud failure rfl
  · rintro told other same
    cases same
    exact told

theorem loud_failWith {text : String} (some_ : text ≠ "") :
    Loud (failWith text : Except EncodeError α) :=
  loud_error_iff.mpr ⟨rfl, some_⟩

theorem loud_ok (value : α) : Loud (.ok value : Except EncodeError α) := by
  rintro failure same
  cases same

theorem Loud.bind {first : Except EncodeError α} {next : α → Except EncodeError β}
    (here : Loud first) (later : ∀ value, Loud (next value)) : Loud (first >>= next) := by
  cases first with
  | ok value => exact later value
  | error failure => exact loud_error_iff.mpr (here failure rfl)

theorem Loud.foldlM {σ : Type} {step : σ → α → Except EncodeError σ}
    (each : ∀ s x, Loud (step s x)) (xs : List α) (s : σ) : Loud (xs.foldlM step s) := by
  induction xs generalizing s with
  | nil => exact loud_ok s
  | cons x xs ih =>
      rw [List.foldlM_cons]
      exact (each s x).bind ih

/-- A step that is loud in itself comes last. -/
theorem loud_bind_left {first : Except EncodeError α} {next : α → Except EncodeError β}
    (later : ∀ value, Loud (next value)) : Loud (first >>= next) ↔ Loud first := by
  constructor
  · intro loud failure same
    rw [same] at loud
    exact loud failure rfl
  · exact fun loud => loud.bind later

/-- An error is loud unless an operand without a register is the first fault. -/
theorem loud_bind_iff {fault other : Option Fault} {first : Except EncodeError α}
    {next : α → Except EncodeError β} (predicted : Predicts Told fault first)
    (later : ∀ value, first = .ok value → (Loud (next value) ↔ other ≠ some .home)) :
    Loud (first >>= next) ↔ fault.or other ≠ some .home := by
  cases predicted with
  | ok value => exact later value rfl
  | @error fault failure told =>
      rw [Option.some_or]
      constructor
      · intro loud same
        obtain rfl := Option.some.inj same
        have silent := (loud failure rfl).1
        rw [told.1] at silent
        cases silent
      · intro differ
        refine loud_error_iff.mpr ⟨?_, told.2⟩
        exact told.1.trans (decide_eq_false fun same => differ (congrArg some same))

end Loud

theorem prefix_ne_empty {front : String} (some_ : front ≠ "") (back : String) :
    front ++ back ≠ "" := by
  intro empty
  exact some_ (String.append_eq_empty_iff.mp empty).1

theorem resolveJump_loud (enc : Encoder) (out : List Byte) (fixup : Nat × Int) :
    Loud (resolveJump enc out fixup) := by
  unfold resolveJump
  split
  case h_1 => exact loud_failWith (prefix_ne_empty (by decide) _)
  case h_2 =>
    split
    case h_1 => exact loud_failWith (by decide)
    case h_2 => exact loud_ok _

theorem encodeOne_loud_iff (fn : MachineFunction) (ra : LinearScan.ScanState) :
    Loud (encodeOne fn ra) ↔ firstFault fn ra ≠ some .home := by
  refine loud_bind_iff (paramMoves_predicts ra fn.instrs) fun pmoves found => ?_
  rw [found, Except.toOption, Option.getD_some]
  refine (loud_bind_left fun enc => ?_).trans ?_
  · split
    · exact loud_failWith (append_ne_empty _ (by decide))
    · refine Loud.bind (Loud.foldlM (resolveJump_loud enc) _ _) fun out => loud_ok _
  · have last := @loud_bind_iff _ _ _ none _ (fun enc => .ok enc)
      (encodeInstrs_predicts ra pmoves fn.instrs) fun enc _ =>
        ⟨fun _ => nofun, fun _ => loud_ok enc⟩
    rw [loud_bind_left loud_ok, Option.or_none] at last
    exact last

theorem encodeExecutable_loud_iff (fn : MachineFunction) (ra : LinearScan.ScanState) :
    Loud (encodeExecutable fn ra) ↔ firstFault fn ra ≠ some .home := by
  rw [← encodeOne_loud_iff]
  have noCalls : "call requires module linking (encode_module)" ≠ "" := by decide
  refine loud_bind_left fun encoded => ?_
  obtain ⟨out, calls⟩ := encoded
  dsimp only
  split
  · exact loud_failWith noCalls
  · exact loud_ok _

/-- The function is encoded. -/
def Encodes (f : ModuleFunction) : Prop :=
  ∃ mf ra encoded, f.mf = some mf ∧ f.ra = some ra ∧ encodeOne mf ra = .ok encoded

/-- An operand without a register is the first fault of the function. -/
def LacksHome (f : ModuleFunction) : Prop :=
  ∃ mf ra, f.mf = some mf ∧ f.ra = some ra ∧ firstFault mf ra = some .home

/-- The first function that is not encoded lacks a home. -/
def StopsAtHome (fns : List ModuleFunction) : Prop :=
  ∃ before f after, fns = before ++ f :: after ∧ (∀ g ∈ before, Encodes g) ∧ LacksHome f

theorem stopsAtHome_cons (f : ModuleFunction) (fns : List ModuleFunction) :
    StopsAtHome (f :: fns) ↔ LacksHome f ∨ (Encodes f ∧ StopsAtHome fns) := by
  constructor
  · rintro ⟨before, g, after, split, encoded, lacks⟩
    cases before with
    | nil =>
        obtain ⟨rfl, -⟩ := List.cons.inj split
        exact .inl lacks
    | cons h before =>
        obtain ⟨rfl, rest⟩ := List.cons.inj split
        exact .inr ⟨encoded f List.mem_cons_self, before, g, after, rest,
          fun g member => encoded g (List.mem_cons_of_mem _ member), lacks⟩
  · rintro (lacks | ⟨encodes, before, g, after, rfl, encoded, lacks⟩)
    · exact ⟨[], f, fns, rfl, nofun, lacks⟩
    · refine ⟨f :: before, g, after, rfl, fun h member => ?_, lacks⟩
      rcases List.mem_cons.mp member with rfl | member
      · exact encodes
      · exact encoded h member

theorem lacksHome_iff {symbol : SymbolId} {mf : MachineFunction}
    {ra : LinearScan.ScanState} :
    LacksHome ⟨symbol, some mf, some ra⟩ ↔ ¬ Loud (encodeOne mf ra) := by
  rw [encodeOne_loud_iff, not_not]
  constructor
  · rintro ⟨mf', ra', given, given', lacks⟩
    obtain rfl := Option.some.inj given
    obtain rfl := Option.some.inj given'
    exact lacks
  · exact fun lacks => ⟨mf, ra, rfl, rfl, lacks⟩

theorem encodes_iff {symbol : SymbolId} {mf : MachineFunction}
    {ra : LinearScan.ScanState} :
    Encodes ⟨symbol, some mf, some ra⟩ ↔ ∃ encoded, encodeOne mf ra = .ok encoded := by
  constructor
  · rintro ⟨mf', ra', encoded, given, given', done⟩
    obtain rfl := Option.some.inj given
    obtain rfl := Option.some.inj given'
    exact ⟨encoded, done⟩
  · rintro ⟨encoded, done⟩
    exact ⟨mf, ra, encoded, rfl, rfl, done⟩

theorem emitFunctions_loud_iff (fns : List ModuleFunction)
    (state : List Byte × List Emitted) :
    Loud (fns.foldlM emitFunction state) ↔ ¬ StopsAtHome fns := by
  induction fns generalizing state with
  | nil =>
      refine ⟨fun _ => ?_, fun _ => loud_ok state⟩
      rintro ⟨before, f, after, split, -⟩
      cases before <;> cases split
  | cons f fns ih =>
      rw [List.foldlM_cons, stopsAtHome_cons]
      have missing (null : f.mf = none ∨ f.ra = none) :
          ¬ (LacksHome f ∨ (Encodes f ∧ StopsAtHome fns)) := by
        rintro (⟨mf, ra, given, given', -⟩ | ⟨⟨mf, ra, -, given, given', -⟩, -⟩)
        all_goals
          rcases null with null | null
          · exact Option.some_ne_none mf (given.symm.trans null)
          · exact Option.some_ne_none ra (given'.symm.trans null)
      have nullEntry : Loud (failWith "module: null function/allocator entry" :
          Except EncodeError (List Byte × List Emitted)) := loud_failWith (by decide)
      obtain ⟨symbol, mf, ra⟩ := f
      cases mf with
      | none => exact ⟨fun _ => missing (.inl rfl), fun _ => nullEntry⟩
      | some mf =>
          cases ra with
          | none => exact ⟨fun _ => missing (.inr rfl), fun _ => nullEntry⟩
          | some ra =>
              rw [lacksHome_iff, encodes_iff, not_or, not_not, not_and]
              cases done : encodeOne mf ra with
              | ok encoded =>
                  simp only [emitFunction, done]
                  refine (ih _).trans ⟨fun free => ⟨loud_ok _, fun _ => free⟩, ?_⟩
                  rintro ⟨-, free⟩
                  exact free ⟨encoded, rfl⟩
              | error failure =>
                  simp only [emitFunction, done]
                  change Loud (.error failure) ↔ _
                  rw [loud_error_iff, loud_error_iff]
                  refine ⟨fun told => ⟨told, ?_⟩, And.left⟩
                  rintro ⟨encoded, impossible⟩
                  cases impossible

theorem resolveCall_loud (fns : List ModuleFunction) (emitted : List Emitted) (offset : Nat)
    (out : List Byte) (call : Nat × Int) :
    Loud (resolveCall fns emitted offset out call) := by
  unfold resolveCall
  split
  case h_1 => exact loud_failWith (prefix_ne_empty (by decide) _)
  case h_2 =>
    split
    case h_1 => exact loud_failWith (by decide)
    case h_2 => exact loud_ok _

theorem encodeModule_loud_iff (fns : List ModuleFunction) :
    Loud (encodeModule fns) ↔ ¬ StopsAtHome fns := by
  unfold encodeModule
  split
  case isTrue none =>
    rw [none, ← emitFunctions_loud_iff [] ([], [])]
    exact ⟨fun _ => loud_ok _, fun _ => loud_failWith (by decide)⟩
  case isFalse =>
    rw [← emitFunctions_loud_iff fns ([], [])]
    refine loud_bind_left fun laid => Loud.bind ?_ fun out => loud_ok _
    exact Loud.foldlM (fun out e => Loud.foldlM (resolveCall_loud fns _ _) _ _) _ _

/-- Whenever the call fails, the caller's error string receives the text of that failure,
whatever it held before. -/
def Explains {α : Type} (result : Except EncodeError α) : Prop :=
  ∀ failure, result = .error failure →
    failure.text ≠ "" ∧ ∀ err, reported err result = failure.text

theorem explains_iff_loud {α : Type} (result : Except EncodeError α) :
    Explains result ↔ Loud result := by
  constructor
  · rintro explains failure rfl
    obtain ⟨some_, told⟩ := explains failure rfl
    refine ⟨?_, some_⟩
    cases copied : failure.inCopy with
    | false => rfl
    | true =>
        -- The string of the caller keeps what it held, for instance nothing.
        have kept := told ""
        rw [reported, copied, if_pos rfl] at kept
        exact absurd kept.symm some_
  · rintro loud failure rfl
    obtain ⟨seen, some_⟩ := loud failure rfl
    refine ⟨some_, fun err => ?_⟩
    rw [reported, seen, if_neg Bool.false_ne_true]

/-- A failure is explained to the caller unless an operand without a register is the
first fault. -/
theorem failures_explained_iff (fn : MachineFunction) (ra : LinearScan.ScanState)
    (fns : List ModuleFunction) :
    (Explains (encodeExecutable fn ra) ↔ firstFault fn ra ≠ some .home) ∧
      (Explains (encodeModule fns) ↔ ¬ StopsAtHome fns) := by
  constructor
  · rw [explains_iff_loud, encodeExecutable_loud_iff]
  · rw [explains_iff_loud, encodeModule_loud_iff]

/-- A function that returns a register without a home. -/
def spilling : MachineFunction where
  name := "f"
  instrs := [{ op := .movImm, result := some 0, imm := some 7 },
    { op := .ret, uses := [some 1] }]

/-- The second register is spilled. -/
def spillingHomes : LinearScan.ScanState where
  spilled := fun v => v = 1

theorem spilling_unexplained :
    encodeExecutable spilling spillingHomes = .error
        { text := "instr 1 (ret): vreg 1 is spilled — executable path requires zero spills"
          inCopy := true } ∧
      reported "" (encodeExecutable spilling spillingHomes) = "" := ⟨rfl, rfl⟩

end ExecEncoder

end Aegis
