import AegisCompiler.LoweringFrame
import AegisCompiler.MachineExec
import AegisCompiler.SccpTransfer

/-!
# Where constant folding is defined

The compiler folds with the signed arithmetic of its own language, in which a result that
does not fit in 64 bits and a shift by 64 or more have no defined value.  The fold is right
exactly when the operands stay clear of these.
-/

namespace Aegis

namespace Sccp

/-- What the evaluation of a fold amounts to: it is undefined, it refuses, or it yields a
value. -/
inductive Evaluation where
  | undefined
  | refused
  | value (w : Word)
  deriving DecidableEq, Repr

/-- The integer fits in a signed word. -/
def Fits (i : Int) : Prop := -2 ^ 63 ≤ i ∧ i < 2 ^ 63

instance (i : Int) : Decidable (Fits i) := inferInstanceAs (Decidable (_ ∧ _))

namespace Evaluation

/-- A signed result; overflow is undefined. -/
def signed (i : Int) : Evaluation :=
  if Fits i then value (BitVec.ofInt 64 i) else undefined

/-- A shift; counts from 64 on, and negative ones, are undefined. -/
def shifted (count : Word) (result : Nat → Word) : Evaluation :=
  if count.toNat < 64 then value (result count.toNat) else undefined

/-- A comparison, as one or zero. -/
def truth (holds : Bool) : Evaluation := value (if holds then 1 else 0)

end Evaluation

open Evaluation (signed shifted truth)

/-- The evaluation of a binary fold, case by case as the compiler does it. -/
def evaluateBinop (kind : NodeKind) (a b : Word) : Evaluation :=
  match kind with
  | .add => signed (a.toInt + b.toInt)
  | .sub => signed (a.toInt - b.toInt)
  | .mul => signed (a.toInt * b.toInt)
  | .div => if b ≠ 0 then signed (a.toInt.tdiv b.toInt) else .refused
  | .mod =>
      -- A remainder is undefined when the quotient is.
      if b ≠ 0 then
        if Fits (a.toInt.tdiv b.toInt) then signed (a.toInt.tmod b.toInt) else .undefined
      else .refused
  | .udiv => if b ≠ 0 then .value (a / b) else .refused
  | .umod => if b ≠ 0 then .value (a % b) else .refused
  | .and => .value (a &&& b)
  | .or => .value (a ||| b)
  | .xor => .value (a ^^^ b)
  | .shl => shifted b (a <<< ·)
  | .shr => shifted b a.sshiftRight
  | .lshr => shifted b (a >>> ·)
  | .cmpEq => truth (decide (a.toInt = b.toInt))
  | .cmpNe => truth (decide (a.toInt ≠ b.toInt))
  | .cmpLt => truth (decide (a.toInt < b.toInt))
  | .cmpLe => truth (decide (a.toInt ≤ b.toInt))
  | .cmpGt => truth (decide (b.toInt < a.toInt))
  | .cmpGe => truth (decide (b.toInt ≤ a.toInt))
  | .cmpUlt => truth (decide (a.toNat < b.toNat))
  | .cmpUle => truth (decide (a.toNat ≤ b.toNat))
  | .cmpUgt => truth (decide (b.toNat < a.toNat))
  | .cmpUge => truth (decide (b.toNat ≤ a.toNat))
  | _ => .refused

/-- The evaluation of a unary fold. -/
def evaluateUnop (kind : NodeKind) (a : Word) : Evaluation :=
  match kind with
  | .neg => signed (-a.toInt)
  | .not => truth (decide (a.toInt = 0))
  | .bitNot => .value (~~~a)
  | _ => .refused

/-- The fold yields the value of the compiled instruction, and refuses when there is
none. -/
def Agrees (compiled : Option Word) : Evaluation → Prop
  | .undefined => False
  | .refused => compiled = none
  | .value w => compiled = some w

/-- The operands of a binary fold stay clear of overflow and of wide shifts. -/
def IsClear (kind : NodeKind) (a b : Word) : Prop :=
  match kind with
  | .add => Fits (a.toInt + b.toInt)
  | .sub => Fits (a.toInt - b.toInt)
  | .mul => Fits (a.toInt * b.toInt)
  | .div | .mod => ¬(a = BitVec.intMin 64 ∧ b = -1)
  | .shl | .shr | .lshr => b.toNat < 64
  | _ => True

/-- The operand of a unary fold has a negation. -/
def IsClearUnop (kind : NodeKind) (a : Word) : Prop :=
  kind = .neg → a ≠ BitVec.intMin 64

theorem fits_toInt (a : Word) : Fits a.toInt :=
  ⟨a.le_toInt, BitVec.toInt_lt⟩

theorem agrees_signed {compiled : Option Word} {i : Int}
    (wraps : compiled = some (BitVec.ofInt 64 i)) : Agrees compiled (signed i) ↔ Fits i := by
  unfold signed
  split
  case isTrue fits => exact iff_of_true wraps fits
  case isFalse apart => exact iff_of_false (fun agrees => agrees) apart

theorem agrees_shifted {kind : NodeKind} {a b : Word} {result : Nat → Word}
    (shifts : machineBinop kind a b = some (result (shiftCount b))) :
    Agrees (machineBinop kind a b) (shifted b result) ↔ b.toNat < 64 := by
  unfold shifted
  split
  case isTrue small =>
    rw [shiftCount, Nat.mod_eq_of_lt small] at shifts
    exact iff_of_true shifts small
  case isFalse wide => exact iff_of_false (fun agrees => agrees) wide

theorem agrees_unsigned {b : Word} (w : Word) :
    Agrees (if b = 0 then none else some w) (if b ≠ 0 then .value w else .refused) := by
  by_cases zero : b = 0
  · rw [if_pos zero, if_neg (not_not.mpr zero)]
    rfl
  · rw [if_neg zero, if_pos zero]
    rfl

theorem beq_toInt (a b : Word) : (a == b) = decide (a.toInt = b.toInt) := by
  rw [Bool.eq_iff_iff, beq_iff_eq, decide_eq_true_eq, BitVec.toInt_inj]

/-- The quotient of two signed words fits, but for one pair. -/
theorem fits_tdiv_iff (a b : Word) :
    Fits (a.toInt.tdiv b.toInt) ↔ ¬(a = BitVec.intMin 64 ∧ b = -1) := by
  constructor
  · rintro fits ⟨rfl, rfl⟩
    revert fits
    decide
  · intro apart
    rw [← BitVec.toInt_sdiv_of_ne_or_ne a b (not_and_or.mp apart)]
    exact fits_toInt _

theorem ofInt_tdiv (a b : Word) : BitVec.ofInt 64 (a.toInt.tdiv b.toInt) = a.sdiv b := by
  apply BitVec.eq_of_toInt_eq
  rw [BitVec.toInt_ofInt, BitVec.toInt_sdiv]

theorem ofInt_tmod (a b : Word) : BitVec.ofInt 64 (a.toInt.tmod b.toInt) = a.srem b := by
  rw [← BitVec.toInt_srem, BitVec.ofInt_toInt]

theorem divOverflows_iff {kind : NodeKind} (division : kind = .div ∨ kind = .mod)
    (a b : Word) : divOverflows kind a b = true ↔ a = BitVec.intMin 64 ∧ b = -1 := by
  rcases division with rfl | rfl <;> simp [divOverflows]

theorem machineBinop_other {kind : NodeKind} (notDiv : kind ≠ .div) (notMod : kind ≠ .mod)
    (a b : Word) : machineBinop kind a b = evalBinop kind a b := by
  have fine : divOverflows kind a b = false := by simp [divOverflows, notDiv, notMod]
  rw [machineBinop, fine]
  rfl

theorem agrees_division {kind : NodeKind} (division : kind = .div ∨ kind = .mod) (a b : Word) :
    Agrees (machineBinop kind a b) (evaluateBinop kind a b) ↔
      ¬(a = BitVec.intMin 64 ∧ b = -1) := by
  by_cases zero : b = 0
  · subst zero
    have refused : evaluateBinop kind a 0 = .refused := by rcases division with rfl | rfl <;> rfl
    have apart : ¬(a = BitVec.intMin 64 ∧ (0 : Word) = -1) := fun both => absurd both.2 (by decide)
    rw [refused]
    refine iff_of_true ?_ apart
    rw [Agrees, machineBinop]
    rcases division with rfl | rfl <;> simp [evalBinop]
  · by_cases overflow : a = BitVec.intMin 64 ∧ b = -1
    · obtain ⟨rfl, rfl⟩ := overflow
      refine iff_of_false ?_ fun apart => apart ⟨rfl, rfl⟩
      have undefined : evaluateBinop kind (BitVec.intMin 64) (-1) = .undefined := by
        rcases division with rfl | rfl <;> decide
      rw [undefined]
      exact fun agrees => agrees
    · have fits := (fits_tdiv_iff a b).mpr overflow
      have fine : divOverflows kind a b = false := by
        rw [← Bool.not_eq_true, divOverflows_iff division]
        exact overflow
      refine iff_of_true ?_ overflow
      rw [machineBinop, fine]
      rcases division with rfl | rfl
      · simp only [evaluateBinop, evalBinop, ne_eq, zero, not_false_eq_true, if_true, if_false]
        exact (agrees_signed (congrArg some (ofInt_tdiv a b).symm)).mpr fits
      · simp only [evaluateBinop, evalBinop, ne_eq, zero, not_false_eq_true, if_true, if_false,
          fits]
        refine (agrees_signed (congrArg some (ofInt_tmod a b).symm)).mpr ?_
        rw [← BitVec.toInt_srem]
        exact fits_toInt _

theorem agrees_binop_iff (kind : NodeKind) (a b : Word) :
    Agrees (machineBinop kind a b) (evaluateBinop kind a b) ↔ IsClear kind a b := by
  by_cases division : kind = .div ∨ kind = .mod
  · rw [agrees_division division]
    rcases division with rfl | rfl <;> rfl
  · rw [not_or] at division
    rw [machineBinop_other division.1 division.2]
    cases kind with
    | add => exact agrees_signed (by simp [evalBinop, BitVec.ofInt_add])
    | sub => exact agrees_signed (by simp [evalBinop, sub_eq_add_neg, BitVec.ofInt_add,
        BitVec.ofInt_neg])
    | mul => exact agrees_signed (by simp [evalBinop, BitVec.ofInt_mul])
    | shl => exact agrees_shifted (machineBinop_other division.1 division.2 a b)
    | shr => exact agrees_shifted (machineBinop_other division.1 division.2 a b)
    | lshr => exact agrees_shifted (machineBinop_other division.1 division.2 a b)
    | div => exact absurd rfl division.1
    | mod => exact absurd rfl division.2
    | udiv => exact iff_of_true (agrees_unsigned (a / b)) trivial
    | umod => exact iff_of_true (agrees_unsigned (a % b)) trivial
    | cmpEq => exact iff_of_true (congrArg some (congrArg ofTruth (beq_toInt a b))) trivial
    | cmpNe =>
        refine iff_of_true (congrArg some (congrArg ofTruth ?_)) trivial
        rw [bne, beq_toInt, ← decide_not]
    | _ => exact iff_of_true rfl trivial

theorem agrees_unop_iff (kind : NodeKind) (a : Word) :
    Agrees (evalUnop kind a) (evaluateUnop kind a) ↔ IsClearUnop kind a := by
  cases kind with
  | neg =>
      have fits : Fits (-a.toInt) ↔ a ≠ BitVec.intMin 64 := by
        have bounds := fits_toInt a
        have lowest : (BitVec.intMin 64).toInt = -2 ^ 63 := by decide
        rw [Ne, ← BitVec.toInt_inj, lowest]
        unfold Fits at bounds ⊢
        omega
      simp only [IsClearUnop, true_imp_iff]
      rw [← fits]
      exact agrees_signed (by simp [evalUnop, BitVec.ofInt_neg])
  | not =>
      exact iff_of_true (congrArg some (congrArg ofTruth (beq_toInt a 0)))
        fun other => by cases other
  | _ => exact iff_of_true rfl (fun other => by cases other)

/-- Each fold is defined and yields the value of the compiled instruction, refusing when it
has none, exactly when the operands stay clear: the exact sum, difference or product fits, a
division is not that of the least integer by minus one, a shift count is below 64, and the
least integer is not negated. -/
theorem folds_agree_iff (kind : NodeKind) (a b : Word) :
    (Agrees (machineBinop kind a b) (evaluateBinop kind a b) ↔ IsClear kind a b) ∧
      (Agrees (evalUnop kind a) (evaluateUnop kind a) ↔ IsClearUnop kind a) :=
  ⟨agrees_binop_iff kind a b, agrees_unop_iff kind a⟩

/-- On such operands the evaluation is the fold of the pass. -/
theorem evaluateBinop_eq_applyBinop {kind : NodeKind} {a b : Word} (clear : IsClear kind a b) :
    evaluateBinop kind a b = (applyBinop kind a b).elim .refused .value := by
  have agrees := (agrees_binop_iff kind a b).mpr clear
  have same : machineBinop kind a b = applyBinop kind a b := by
    rw [applyBinop_eq_evalBinop, machineBinop]
    split
    case isTrue overflow =>
      have division : kind = .div ∨ kind = .mod := by
        by_contra other
        rw [not_or] at other
        simp [divOverflows, other] at overflow
      have apart := (divOverflows_iff division a b).mp overflow
      rcases division with rfl | rfl <;> exact absurd apart clear
    case isFalse => rfl
  rw [same] at agrees
  cases evaluated : evaluateBinop kind a b with
  | undefined =>
      rw [evaluated] at agrees
      exact agrees.elim
  | refused =>
      rw [evaluated] at agrees
      rw [show applyBinop kind a b = none from agrees]
      rfl
  | value w =>
      rw [evaluated] at agrees
      rw [show applyBinop kind a b = some w from agrees]
      rfl

/-- A function that returns the sum of the greatest integer and one. -/
def greatestPlusOne : Ast :=
  .fnDecl 0 [] none (.block [
    .returnStmt (some (.binaryExpr .plus (.intLit 0x7FFFFFFFFFFFFFFF) (.intLit 1)))]) false

/-- The sum of its two literals is folded, and the addition overflows; so does the division
of the least integer by minus one, on which the compiled instruction traps. -/
theorem greatestPlusOne_undefined :
    (∃ add lhs rhs, let g := Lowerer.loweredGraph .asListed greatestPlusOne
      (g.node add).kind = .add ∧ (g.node add).dataIns = [some lhs, some rhs] ∧
        (g.node lhs).kind = .constant ∧ (g.node rhs).kind = .constant ∧
          evaluateBinop .add (g.node lhs).payload (g.node rhs).payload = .undefined ∧
            machineBinop .add (g.node lhs).payload (g.node rhs).payload =
              some (BitVec.intMin 64)) ∧
      evaluateBinop .div (BitVec.intMin 64) (-1) = .undefined ∧
        machineBinop .div (BitVec.intMin 64) (-1) = none := by
  refine ⟨⟨5, 3, 4, ?_⟩, by decide, by decide⟩
  decide

end Sccp

end Aegis
