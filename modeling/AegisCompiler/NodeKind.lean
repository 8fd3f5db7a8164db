import Mathlib.Data.BitVec

/-!
# Node kinds of the sea-of-nodes IR

The IR keeps one flat enumeration of node kinds.  Every kind has an effect
class: pure nodes float freely, altered nodes are ordered by the effect chain,
and crowded nodes synchronize with everything.
-/

namespace Aegis

/-- A 64-bit machine word, the only runtime value of the IR. -/
abbrev Word := BitVec 64

/-- An interned identifier. -/
abbrev SymbolId := BitVec 32

/-- The symbol that names nothing. -/
def kInvalidSymbolId : SymbolId := BitVec.allOnes 32

/-- An index into the type table. -/
abbrev TypeId := BitVec 32

/-- The type of a node whose type was never resolved. -/
def kInvalidTypeId : TypeId := BitVec.allOnes 32

/-- The kinds of IR nodes. -/
inductive NodeKind where
  | start | region | loop | ifNode | proj | returnNode | branch | stop
  | constant | parameter | phi
  | add | sub | mul | div | udiv | mod | umod
  | and | or | xor | shl | shr | lshr
  | cmpEq | cmpNe | cmpLt | cmpLe | cmpGt | cmpGe
  | cmpUlt | cmpUle | cmpUgt | cmpUge
  | neg | not | bitNot
  | load | store | alloc | stackAlloc | getElementPtr | getFieldPtr
  | cast | select | callPure | callAltered | callCrowded
  | atomicLoad | atomicStore | atomicRmw | fence
  | guard | deopt | frameState | profiledEntry | machineOp
  deriving DecidableEq, Repr

/-- How a node takes part in the effect chain. -/
inductive EffectClass where
  | pure | altered | crowded
  deriving DecidableEq, Repr

/-- The effect class a node of the given kind is created with. -/
def effectClassOf : NodeKind → EffectClass
  | .load | .store | .alloc | .callAltered => .altered
  | .callCrowded | .atomicLoad | .atomicStore | .atomicRmw | .fence
  | .guard | .deopt => .crowded
  | _ => .pure

/-- One bit of orthogonal node state. -/
inductive NodeFlagBit where
  | isLive | isConst | isHashed | isGuarded | isDead | hasFrameState
  | isPgoSpeculated | isMonomorphic | isNoReturn | canOverflow | isBuiltin
  | isAffineMove | isStackPromoted | isBoundsChecked | isLowered
  | isTailCall | isHoisted
  deriving DecidableEq, Repr

/-- The position of a flag in the bit mask. -/
def NodeFlagBit.index : NodeFlagBit → Nat
  | .isLive => 0 | .isConst => 1 | .isHashed => 2 | .isGuarded => 3
  | .isDead => 4 | .hasFrameState => 5 | .isPgoSpeculated => 6
  | .isMonomorphic => 7 | .isNoReturn => 8 | .canOverflow => 9
  | .isBuiltin => 10 | .isAffineMove => 11 | .isStackPromoted => 12
  | .isBoundsChecked => 13 | .isLowered => 14 | .isTailCall => 15
  | .isHoisted => 16

/-- The node flags, one bit per `NodeFlagBit`. -/
abbrev NodeFlags := BitVec 32

namespace NodeFlags

/-- Test one flag. -/
def has (flags : NodeFlags) (bit : NodeFlagBit) : Bool :=
  flags.getLsbD bit.index

/-- Set one flag. -/
def set (flags : NodeFlags) (bit : NodeFlagBit) : NodeFlags :=
  flags ||| BitVec.twoPow 32 bit.index

end NodeFlags

theorem NodeFlagBit.index_lt (bit : NodeFlagBit) : bit.index < 32 := by
  cases bit <;> decide

theorem NodeFlagBit.index_injective {first second : NodeFlagBit}
    (equal : first.index = second.index) : first = second := by
  cases first <;> cases second <;> first | rfl | (simp [index] at equal)

@[simp]
theorem NodeFlags.has_set (flags : NodeFlags) (bit other : NodeFlagBit) :
    (flags.set bit).has other = (flags.has other || decide (bit = other)) := by
  have bound := other.index_lt
  by_cases same : bit = other
  · subst same
    simp [NodeFlags.has, NodeFlags.set, bound]
  · have apart : other.index ≠ bit.index :=
      fun equal => same (NodeFlagBit.index_injective equal.symm)
    simp [NodeFlags.has, NodeFlags.set, same, apart, bound]

@[simp]
theorem NodeFlags.has_zero (bit : NodeFlagBit) :
    NodeFlags.has 0 bit = false := by
  simp [NodeFlags.has]

end Aegis
