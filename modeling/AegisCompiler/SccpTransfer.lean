import AegisCompiler.SccpValuation

/-!
# What the transfer function decides

The operand scan and the phi meet, read as conditions on the lattice values of
the operands.
-/

namespace Aegis

namespace Sccp

variable {g : Graph}

theorem applyBinop_eq_evalBinop (kind : NodeKind) (a b : Word) :
    applyBinop kind a b = evalBinop kind a b := by
  cases kind <;>
    simp [applyBinop, evalBinop, ofTruth, ite_not]

theorem applyUnop_eq_evalUnop (kind : NodeKind) (a : Word) :
    applyUnop kind a = evalUnop kind a := by
  cases kind <;> simp [applyUnop, evalUnop, ofTruth]

theorem isUnop_iff (kind : NodeKind) :
    kind.isUnop = true ↔ kind = .neg ∨ kind = .not ∨ kind = .bitNot := by
  cases kind <;> simp [NodeKind.isUnop]

/-- The constant held by a lattice value. -/
def LatticeVal.payload : LatticeVal → Word
  | .const value => value
  | _ => 0

/-- Every listed node has a constant lattice value. -/
def AllConst (state : State) (inputs : List NodeId) : Prop :=
  ∀ input ∈ inputs,
    state.valueAt input = .const (state.valueAt input).payload

/-- The constants held by the listed nodes. -/
def payloads (state : State) (inputs : List NodeId) : List Word :=
  inputs.map fun input => (state.valueAt input).payload

/-- Folding from an accumulator that may still be empty. -/
def foldFrom (kind : NodeKind) : Option Word → List Word → Option Word
  | none, values => evalOperands kind values
  | some accumulator, values => values.foldlM (evalBinop kind) accumulator

theorem foldFrom_cons_none (kind : NodeKind) (value : Word)
    (values : List Word) :
    foldFrom kind none (value :: values) = foldFrom kind (some value) values :=
  rfl

theorem foldFrom_cons_some (kind : NodeKind) (accumulator value : Word)
    (values : List Word) :
    foldFrom kind (some accumulator) (value :: values) =
      (evalBinop kind accumulator value).bind fun folded =>
        foldFrom kind (some folded) values := by
  simp only [foldFrom, List.foldlM_cons]
  rfl

/-- Once an operand is unknown the scan can no longer succeed. -/
theorem scanOperands_notConst (state : State) (kind : NodeKind)
    (accumulator : Option Word) (refs : List NodeRef) :
    (scanOperands g state kind false accumulator refs).allConst = false := by
  induction refs generalizing accumulator with
  | nil => rfl
  | cons ref refs ih =>
      simp only [scanOperands]
      split
      · exact ih accumulator
      · split
        · exact ih accumulator
        · rfl
        · split
          · exact ih _
          · split
            · rfl
            · exact ih _

/-- A successful scan has folded constants only. -/
theorem scanOperands_success {state : State} {kind : NodeKind}
    {accumulator : Option Word} {refs : List NodeRef}
    (noBottom : (scanOperands g state kind true accumulator refs).anyBottom =
      false)
    (allConst : (scanOperands g state kind true accumulator refs).allConst =
      true) :
    AllConst state (refs.filterMap g.inRange) ∧
      (scanOperands g state kind true accumulator refs).accumulator =
        foldFrom kind accumulator
          (payloads state (refs.filterMap g.inRange)) := by
  induction refs generalizing accumulator with
  | nil => cases accumulator <;> simp [AllConst, payloads, scanOperands,
      foldFrom, evalOperands]
  | cons ref refs ih =>
      cases range : g.inRange ref with
      | none =>
          simp only [scanOperands, range] at noBottom allConst ⊢
          simpa [range] using ih noBottom allConst
      | some input =>
          simp only [scanOperands, range] at noBottom allConst ⊢
          cases value : state.valueAt input with
          | top =>
              simp only [value, scanOperands_notConst] at allConst
              exact absurd allConst (by simp)
          | bottom => simp [value] at noBottom
          | const constant =>
              have head : state.valueAt input =
                  .const (state.valueAt input).payload := by
                rw [value]
                rfl
              have extend (rest : AllConst state (refs.filterMap g.inRange)) :
                  AllConst state ((ref :: refs).filterMap g.inRange) := by
                simpa [AllConst, range, head.symm] using rest
              cases accumulator with
              | none =>
                  simp only [value] at noBottom allConst ⊢
                  obtain ⟨rest, folded⟩ := ih noBottom allConst
                  refine ⟨extend rest, ?_⟩
                  rw [folded]
                  simp [range, payloads, value, LatticeVal.payload,
                    foldFrom_cons_none]
              | some previous =>
                  simp only [value] at noBottom allConst ⊢
                  cases step : applyBinop kind previous constant with
                  | none => simp [step] at allConst
                  | some result =>
                      simp only [step] at noBottom allConst ⊢
                      obtain ⟨rest, folded⟩ := ih noBottom allConst
                      refine ⟨extend rest, ?_⟩
                      rw [applyBinop_eq_evalBinop] at step
                      rw [folded]
                      simp [range, payloads, value, LatticeVal.payload,
                        foldFrom_cons_some, step]

/-- Constant operands with a result make the scan succeed. -/
theorem scanOperands_of_allConst {state : State} {kind : NodeKind}
    {accumulator : Option Word} {refs : List NodeRef} {result : Word}
    (constants : AllConst state (refs.filterMap g.inRange))
    (folded : foldFrom kind accumulator
      (payloads state (refs.filterMap g.inRange)) = some result) :
    scanOperands g state kind true accumulator refs =
      ⟨false, true, some result⟩ := by
  induction refs generalizing accumulator with
  | nil =>
      cases accumulator with
      | none => simp [payloads, foldFrom, evalOperands] at folded
      | some value =>
          simp [payloads, foldFrom] at folded
          simp [scanOperands, folded]
  | cons ref refs ih =>
      cases range : g.inRange ref with
      | none =>
          simp only [scanOperands, range]
          exact ih (by simpa [range] using constants)
            (by simpa [range] using folded)
      | some input =>
          simp only [AllConst, List.filterMap_cons, range, List.mem_cons,
            forall_eq_or_imp] at constants
          obtain ⟨head, rest⟩ := constants
          simp only [payloads, List.filterMap_cons, range, List.map_cons]
            at folded
          rw [scanOperands]
          simp only [range]
          rw [head]
          cases accumulator with
          | none =>
              rw [foldFrom_cons_none] at folded
              exact ih rest folded
          | some previous =>
              rw [foldFrom_cons_some] at folded
              obtain ⟨next, step, folded⟩ := Option.bind_eq_some_iff.mp folded
              simp only [applyBinop_eq_evalBinop, step]
              exact ih rest folded

/-- The scan is overdefined only because of some operand. -/
theorem scanOperands_bottom {state : State} {kind : NodeKind}
    {allConst : Bool} {accumulator : Option Word} {refs : List NodeRef}
    (bottom : (scanOperands g state kind allConst accumulator refs).anyBottom =
      true) :
    ∃ input ∈ refs.filterMap g.inRange, state.valueAt input = .bottom := by
  induction refs generalizing allConst accumulator with
  | nil => simp [scanOperands] at bottom
  | cons ref refs ih =>
      cases range : g.inRange ref with
      | none =>
          simp only [scanOperands, range] at bottom
          simpa [range] using ih bottom
      | some input =>
          have later (found : ∃ input ∈ refs.filterMap g.inRange,
              state.valueAt input = .bottom) :
              ∃ input ∈ (ref :: refs).filterMap g.inRange,
                state.valueAt input = .bottom := by
            obtain ⟨other, member, value⟩ := found
            exact ⟨other, by simp [range, member], value⟩
          simp only [scanOperands, range] at bottom
          cases value : state.valueAt input with
          | top =>
              simp only [value] at bottom
              exact later (ih bottom)
          | bottom => exact ⟨input, by simp [range], value⟩
          | const constant =>
              simp only [value] at bottom
              cases accumulator with
              | none => exact later (ih bottom)
              | some previous =>
                  cases step : applyBinop kind previous constant with
                  | none => simp [step] at bottom
                  | some folded =>
                      simp only [step] at bottom
                      exact later (ih bottom)

/-- The data inputs among which a phi chooses. -/
def valueInputs (g : Graph) (refs : List NodeRef) : List NodeId :=
  (refs.filterMap g.inRange).filter
    fun input => !isMergeNode (g.node input).kind

/-- The meet is a constant exactly when all value inputs hold it. -/
theorem phiMeet_eq_some_iff {state : State} {meet : Option Word}
    {refs : List NodeRef} {value : Word} :
    phiMeet g state meet refs = some (some value) ↔
      (∀ input ∈ valueInputs g refs, state.valueAt input = .const value) ∧
        (meet = some value ∨ meet = none ∧ valueInputs g refs ≠ []) := by
  induction refs generalizing meet with
  | nil => simp [phiMeet, valueInputs]
  | cons ref refs ih =>
      cases range : g.inRange ref with
      | none =>
          simp only [phiMeet, range]
          simpa [valueInputs, range] using ih
      | some input =>
          cases merges : isMergeNode (g.node input).kind with
          | true =>
              simp only [phiMeet, range, merges, if_true]
              simpa [valueInputs, range, merges] using ih
          | false =>
              have values : valueInputs g (ref :: refs) =
                  input :: valueInputs g refs := by
                simp [valueInputs, range, merges]
              simp only [phiMeet, range, merges, values, List.mem_cons,
                forall_eq_or_imp, Bool.false_eq_true, if_false]
              cases known : state.valueAt input with
              | top => simp
              | bottom => simp
              | const constant =>
                  cases meet with
                  | none =>
                      simp only [ih, LatticeVal.const.injEq]
                      constructor
                      · rintro ⟨rest, same | impossible⟩
                        · cases same
                          exact ⟨⟨rfl, rest⟩, Or.inr ⟨trivial, by simp⟩⟩
                        · cases impossible.1
                      · rintro ⟨⟨rfl, rest⟩, -⟩
                        exact ⟨rest, Or.inl rfl⟩
                  | some previous =>
                      by_cases same : previous = constant
                      · subst same
                        simp only [ne_eq, not_true_eq_false, if_false, ih,
                          LatticeVal.const.injEq]
                        constructor
                        · rintro ⟨rest, equal | impossible⟩
                          · cases equal
                            exact ⟨⟨rfl, rest⟩, Or.inl rfl⟩
                          · cases impossible.1
                        · rintro ⟨⟨rfl, rest⟩, -⟩
                          exact ⟨rest, Or.inl rfl⟩
                      · simp only [ne_eq, same, not_false_eq_true, if_true,
                          reduceCtorEq, false_iff, LatticeVal.const.injEq,
                          not_and, not_or]
                        rintro ⟨rfl, -⟩
                        exact ⟨by simpa using same, by simp⟩

/-- The operands of a node decide the given constant. -/
def Decides (g : Graph) (state : State) (id : NodeId) (value : Word) : Prop :=
  let n := g.node id
  if n.kind = .phi then
    phiValues g n ≠ [] ∧
      ∀ input ∈ phiValues g n, state.valueAt input = .const value
  else if n.kind.isUnop then
    ∃ input operand, firstOperand g n = some input ∧
      state.valueAt input = .const operand ∧
      evalUnop n.kind operand = some value
  else
    AllConst state (operands g n) ∧
      evalOperands n.kind (payloads state (operands g n)) = some value

theorem transfer_eq_const_iff {state : State} {id : NodeId} {value : Word} :
    transfer g state id = some (.const value) ↔ Decides g state id value := by
  simp only [transfer, Decides, ← isUnop_iff]
  split
  case isTrue isPhi =>
    have meets :=
      @phiMeet_eq_some_iff g state none (g.node id).dataIns value
    simp only [reduceCtorEq, false_or, true_and] at meets
    constructor
    · intro decided
      split at decided
      case h_1 meet found =>
        cases decided
        exact (meets.mp found).symm
      case h_2 => cases decided
    · intro decided
      rw [meets.mpr decided.symm]
  case isFalse =>
    split
    case isTrue isUnary =>
      cases first : firstOperand g (g.node id) with
      | none => simp
      | some input =>
          cases known : state.valueAt input with
          | top => simp [known]
          | bottom => simp [known]
          | const operand => simp [known, applyUnop_eq_evalUnop]
    case isFalse =>
      constructor
      · intro decided
        split at decided
        case isTrue => cases decided
        case isFalse noBottom =>
          split at decided
          case isTrue allConst =>
            obtain ⟨constants, folded⟩ :=
              scanOperands_success (by simpa using noBottom) allConst
            rw [folded] at decided
            exact ⟨constants, by simpa [foldFrom, operands] using decided⟩
          case isFalse => cases decided
      · rintro ⟨constants, folded⟩
        have scanned : scanOperands g state (g.node id).kind true none
            (g.node id).dataIns = ⟨false, true, some value⟩ :=
          scanOperands_of_allConst constants folded
        simp [scanned]

theorem shape_of_isUnop {kind : NodeKind} (unary : kind.isUnop = true) :
    kind ≠ .constant ∧ kind ≠ .phi := by
  cases kind <;> simp_all [NodeKind.isUnop]

theorem shape_of_isBinop {kind : NodeKind} (binary : kind.isBinop = true) :
    kind ≠ .constant ∧ kind ≠ .phi ∧ kind.isUnop = false := by
  cases kind <;> simp_all [NodeKind.isBinop, NodeKind.isUnop]

theorem decides_phi {state : State} {id : NodeId} {value : Word}
    (isPhi : (g.node id).kind = .phi)
    (nonempty : phiValues g (g.node id) ≠ [])
    (known : ∀ input ∈ phiValues g (g.node id),
      state.valueAt input = .const value) :
    Decides g state id value := by
  simp only [Decides, isPhi, if_true]
  exact ⟨nonempty, known⟩

theorem decides_unop {state : State} {id input : NodeId}
    {operand value : Word} (unary : (g.node id).kind.isUnop = true)
    (first : firstOperand g (g.node id) = some input)
    (known : state.valueAt input = .const operand)
    (folded : evalUnop (g.node id).kind operand = some value) :
    Decides g state id value := by
  simp only [Decides, (shape_of_isUnop unary).2, unary, if_false, if_true]
  exact ⟨input, operand, first, known, folded⟩

theorem decides_binop {state : State} {id : NodeId} {value : Word}
    {values : NodeId → Word} (binary : (g.node id).kind.isBinop = true)
    (known : ∀ input ∈ operands g (g.node id),
      state.valueAt input = .const (values input))
    (folded : evalOperands (g.node id).kind
      ((operands g (g.node id)).map values) = some value) :
    Decides g state id value := by
  obtain ⟨-, notPhi, notUnary⟩ := shape_of_isBinop binary
  simp only [Decides, notPhi, notUnary, if_false, Bool.false_eq_true]
  refine ⟨fun input member => ?_, ?_⟩
  · rw [known input member]
    rfl
  · have same : payloads state (operands g (g.node id)) =
        (operands g (g.node id)).map values :=
      List.map_congr_left fun input member => by
        rw [known input member]
        rfl
    rw [same]
    exact folded

theorem transfer_bottom {state : State} {id : NodeId}
    (notConstant : (g.node id).kind ≠ .constant)
    (bottom : transfer g state id = some .bottom) :
    (g.node id).kind = .phi ∨
      ∃ input ∈ consulted g (g.node id), state.valueAt input = .bottom := by
  simp only [transfer, ← isUnop_iff] at bottom
  split at bottom
  case isTrue isPhi => exact Or.inl isPhi
  case isFalse notPhi =>
    right
    simp only [consulted, notConstant, notPhi, if_false]
    split at bottom
    case isTrue isUnary =>
      simp only [isUnary, if_true]
      cases first : firstOperand g (g.node id) with
      | none => simp [first] at bottom
      | some input =>
          cases known : state.valueAt input with
          | top => simp [first, known] at bottom
          | bottom => exact ⟨input, by simp, known⟩
          | const operand => simp [first, known] at bottom
    case isFalse notUnary =>
      simp only [notUnary, Bool.false_eq_true, if_false]
      split at bottom
      case isTrue overdefined => exact scanOperands_bottom overdefined
      case isFalse => split at bottom <;> simp at bottom

theorem transfer_ne_top {state : State} {id : NodeId} :
    transfer g state id ≠ some .top := by
  simp only [transfer]
  intro top
  split at top
  case isTrue => split at top <;> cases top
  case isFalse =>
    split at top
    case isTrue =>
      split at top
      · cases top
      · split at top <;> simp at top
    case isFalse =>
      split at top
      · cases top
      · split at top <;> simp at top

end Sccp

end Aegis
