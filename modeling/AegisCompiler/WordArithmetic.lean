import AegisCompiler.NodeKind

/-!
# Meaning of the arithmetic node kinds

The values of the IR are 64-bit words with wrap-around arithmetic.  Division
and remainder by zero have no value.  A shift takes its count modulo 64, as
the shift instructions of the target do.
-/

namespace Aegis

/-- The truth value of a comparison, as a word. -/
def ofTruth (truth : Bool) : Word := if truth then 1 else 0

/-- The six low bits of a shift count. -/
def shiftCount (count : Word) : Nat := count.toNat % 64

/-- The value of a binary node on two operand values, or `none` when the kind
is not binary or the operands have no result. -/
def evalBinop (kind : NodeKind) (a b : Word) : Option Word :=
  match kind with
  | .add => some (a + b)
  | .sub => some (a - b)
  | .mul => some (a * b)
  | .div => if b = 0 then none else some (a.sdiv b)
  | .udiv => if b = 0 then none else some (a / b)
  | .mod => if b = 0 then none else some (a.srem b)
  | .umod => if b = 0 then none else some (a % b)
  | .and => some (a &&& b)
  | .or => some (a ||| b)
  | .xor => some (a ^^^ b)
  | .shl => some (a <<< shiftCount b)
  | .shr => some (a.sshiftRight (shiftCount b))
  | .lshr => some (a >>> shiftCount b)
  | .cmpEq => some (ofTruth (a == b))
  | .cmpNe => some (ofTruth (a != b))
  | .cmpLt => some (ofTruth (a.slt b))
  | .cmpLe => some (ofTruth (a.sle b))
  | .cmpGt => some (ofTruth (b.slt a))
  | .cmpGe => some (ofTruth (b.sle a))
  | .cmpUlt => some (ofTruth (a.ult b))
  | .cmpUle => some (ofTruth (a.ule b))
  | .cmpUgt => some (ofTruth (b.ult a))
  | .cmpUge => some (ofTruth (b.ule a))
  | _ => none

/-- The value of a unary node on its operand value. -/
def evalUnop (kind : NodeKind) (a : Word) : Option Word :=
  match kind with
  | .neg => some (-a)
  | .not => some (ofTruth (a == 0))
  | .bitNot => some (~~~a)
  | _ => none

namespace NodeKind

/-- The kinds with a binary meaning. -/
def isBinop : NodeKind → Bool
  | .add | .sub | .mul | .div | .udiv | .mod | .umod
  | .and | .or | .xor | .shl | .shr | .lshr
  | .cmpEq | .cmpNe | .cmpLt | .cmpLe | .cmpGt | .cmpGe
  | .cmpUlt | .cmpUle | .cmpUgt | .cmpUge => true
  | _ => false

/-- The kinds with a unary meaning. -/
def isUnop : NodeKind → Bool
  | .neg | .not | .bitNot => true
  | _ => false

/-- The three kinds of calls. -/
def isCall : NodeKind → Bool
  | .callPure | .callAltered | .callCrowded => true
  | _ => false

end NodeKind

theorem evalBinop_eq_none_of_not_isBinop {kind : NodeKind}
    (notBinary : kind.isBinop = false) (a b : Word) :
    evalBinop kind a b = none := by
  cases kind <;> first | rfl | simp [NodeKind.isBinop] at notBinary

theorem evalUnop_isSome {kind : NodeKind} (unary : kind.isUnop = true)
    (a : Word) : (evalUnop kind a).isSome = true := by
  cases kind <;> first | rfl | simp [NodeKind.isUnop] at unary

/-- The value of a binary kind on any number of operands, combined from left
to right. -/
def evalOperands (kind : NodeKind) : List Word → Option Word
  | [] => none
  | value :: values => values.foldlM (evalBinop kind) value

@[simp]
theorem evalOperands_pair (kind : NodeKind) (a b : Word) :
    evalOperands kind [a, b] = evalBinop kind a b := by
  simp [evalOperands]

end Aegis
