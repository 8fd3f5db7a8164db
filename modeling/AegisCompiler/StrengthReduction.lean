import AegisCompiler.NodeEquations

/-!
# Strength reduction

One sweep over the nodes replaces multiplications and divisions by powers of two
with shifts, and operations with a neutral or absorbing operand by an operand or
a constant.  Every valuation of the graph extends to the graph after the sweep.
-/

namespace Aegis

namespace StrengthReduction

open NodeEquations (Meaning Valuation Satisfies Computes valueOf operandsOf specified)

def isPowerOfTwo (v : Word) : Bool := v != 0 && v &&& (v - 1) == 0

/-- Count how often the value can be halved, with 64 rounds at most. -/
def halvings : Nat → Word → Nat → Nat
  | 0, _, r => r
  | rounds + 1, v, r => if 1 < v then halvings rounds (v >>> 1) (r + 1) else r

def log2Pow2 (v : Word) : Nat := halvings 64 v 0

/-- The value of a constant node. -/
def constVal (n : Node) : Option Word := if n.kind = .constant then some n.payload else none

/-- A shift of a node by a new constant. -/
def makeShift (g : Graph) (kind : NodeKind) (lhs : NodeId) (count : Nat) (ty : TypeId) :
    NodeId × Graph :=
  let (shiftAmt, g) := g.makeConstant (BitVec.ofNat 64 count) ty
  g.makeBinop kind (some lhs) (some shiftAmt) ty

/-- What replaces an operation on two operands. -/
def newNode (g : Graph) (kind : NodeKind) (lhs rhs : NodeId) (ty : TypeId) :
    Option (NodeId × Graph) :=
  let lval := constVal (g.node lhs)
  let rval := constVal (g.node rhs)
  match kind with
  | .mul =>
      if rval = some 1 then some (lhs, g)
      else if rval = some 0 then some (g.makeConstant 0 ty)
      else rval.bind fun value =>
        if isPowerOfTwo value then some (makeShift g .shl lhs (log2Pow2 value) ty)
        else none
  | .udiv =>
      rval.bind fun value =>
        if isPowerOfTwo value && (0 : Word).slt value then
          some (makeShift g .lshr lhs (log2Pow2 value) ty)
        else none
  | .add =>
      if rval = some 0 then some (lhs, g)
      else if lval = some 0 then some (rhs, g)
      else none
  | .sub =>
      if rval = some 0 then some (lhs, g)
      else if lhs = rhs then some (g.makeConstant 0 ty)
      else none
  | .and =>
      if rval = some 0 then some (g.makeConstant 0 ty)
      else if rval = some (-1) then some (lhs, g)
      else if lval = some 0 then some (g.makeConstant 0 ty)
      else if lval = some (-1) then some (rhs, g)
      else none
  | .or =>
      if rval = some 0 then some (lhs, g)
      else if rval = some (-1) then some (g.makeConstant (-1) ty)
      else if lval = some 0 then some (rhs, g)
      else if lval = some (-1) then some (g.makeConstant (-1) ty)
      else none
  | .xor =>
      if rval = some 0 then some (lhs, g)
      else if lval = some 0 then some (rhs, g)
      else if lhs = rhs then some (g.makeConstant 0 ty)
      else none
  | _ => none

/-- The two operands of a pure live operation. -/
def operands (g : Graph) (id : NodeId) : Option (NodeId × NodeId) :=
  let n := g.node id
  if n.isDead || !n.isPure then none
  else match n.dataIns with
    | [some lhs, some rhs] => if lhs < g.size ∧ rhs < g.size then some (lhs, rhs) else none
    | _ => none

/-- The graph and the number of nodes replaced so far. -/
structure Progress where
  graph : Graph
  replaced : Nat := 0
  deriving DecidableEq, Repr

/-- Visit one node. -/
def visit (progress : Progress) (id : NodeId) : Progress :=
  let g := progress.graph
  match operands g id with
  | none => progress
  | some (lhs, rhs) =>
      match newNode g (g.node id).kind lhs rhs (g.node id).typeId with
      | none => progress
      | some (new, g) =>
          { graph := (InductionVariables.replaceUses g id new).markDead id
            replaced := progress.replaced + 1 }

/-- Visit the nodes from an id on, also those that the sweep appends. -/
def sweep : Nat → NodeId → Progress → Progress
  | 0, _, progress => progress
  | fuel + 1, id, progress =>
      if id < progress.graph.size then sweep fuel (id + 1) (visit progress id)
      else progress

/-- The pass.  Each of the first nodes appends at most two, a constant and a shift by it, and
visiting these changes nothing. -/
def run (g : Graph) : Progress := sweep (3 * g.size) 0 { graph := g }

theorem halvings_twoPow {k : Nat} (small : k < 64) {rounds : Nat} (enough : k ≤ rounds)
    (r : Nat) : halvings rounds (BitVec.twoPow 64 k) r = r + k := by
  induction k generalizing rounds r with
  | zero =>
      have done : ¬ (1 : Word) < BitVec.twoPow 64 0 := by decide
      cases rounds with
      | zero => rfl
      | succ rounds => rw [halvings, if_neg done, Nat.add_zero]
  | succ k ih =>
      obtain ⟨rounds, rfl⟩ : ∃ fewer, rounds = fewer + 1 := ⟨rounds - 1, by omega⟩
      have more : (1 : Word) < BitVec.twoPow 64 (k + 1) := by
        rw [BitVec.lt_def, BitVec.toNat_twoPow_of_lt small]
        exact Nat.one_lt_two_pow (Nat.succ_ne_zero k)
      have half : BitVec.twoPow 64 (k + 1) >>> 1 = BitVec.twoPow 64 k := by
        apply BitVec.eq_of_toNat_eq
        rw [BitVec.toNat_ushiftRight, BitVec.toNat_twoPow_of_lt small,
          BitVec.toNat_twoPow_of_lt (Nat.lt_of_succ_lt small), Nat.shiftRight_eq_div_pow,
          Nat.pow_succ, Nat.pow_one, Nat.mul_div_cancel _ (by decide)]
      rw [halvings, if_pos more, half, ih (Nat.lt_of_succ_lt small) (by omega)]
      omega

/-- A power of two is two to its logarithm. -/
theorem isPowerOfTwo_log2 {v : Word} (power : isPowerOfTwo v = true) :
    log2Pow2 v < 64 ∧ v = BitVec.twoPow 64 (log2Pow2 v) := by
  rw [isPowerOfTwo, Bool.and_eq_true, bne_iff_ne, beq_iff_eq] at power
  obtain ⟨nonzero, bits⟩ := power
  have positive : v.toNat ≠ 0 := fun zero => nonzero (BitVec.eq_of_toNat_eq zero)
  have pred : (v - 1).toNat = v.toNat - 1 := by bv_omega
  have natBits : v.toNat &&& (v.toNat - 1) = 0 := by
    rw [← pred, ← BitVec.toNat_and, bits]
    rfl
  obtain ⟨k, power⟩ := (Nat.and_sub_one_eq_zero_iff_isPowerOfTwo positive).mp natBits
  have small : k < 64 := by
    apply (Nat.pow_lt_pow_iff_right (a := 2) (by decide)).mp
    rw [← power]
    exact v.isLt
  have same : v = BitVec.twoPow 64 k := by
    apply BitVec.eq_of_toNat_eq
    rw [power, BitVec.toNat_twoPow_of_lt small]
  have log : log2Pow2 v = k := by
    rw [log2Pow2, same, halvings_twoPow small (Nat.le_of_lt small), Nat.zero_add]
  rw [log]
  exact ⟨small, same⟩

theorem shiftCount_ofNat {k : Nat} (small : k < 64) : shiftCount (BitVec.ofNat 64 k) = k := by
  rw [shiftCount, BitVec.toNat_ofNat]
  omega

/-- The second graph grows the first, and so does its valuation. -/
structure Extends (meaning : Meaning) (g : Graph) (v : Valuation) (h : Graph)
    (v' : Valuation) : Prop where
  satisfies : Satisfies meaning h v'
  size : g.size ≤ h.size
  nodes : ∀ id, id < g.size → h.node id = g.node id
  agree : ∀ id, id < g.size → v' id = v id

section

variable {meaning : Meaning} {g : Graph} {v : Valuation}

theorem Extends.refl (satisfies : Satisfies meaning g v) : Extends meaning g v g v :=
  ⟨satisfies, le_rfl, fun _ _ => rfl, fun _ _ => rfl⟩

theorem Extends.trans {h k : Graph} {v' v'' : Valuation} (first : Extends meaning g v h v')
    (second : Extends meaning h v' k v'') : Extends meaning g v k v'' where
  satisfies := second.satisfies
  size := first.size.trans second.size
  nodes id inside := (second.nodes id (Nat.lt_of_lt_of_le inside first.size)).trans
    (first.nodes id inside)
  agree id inside := (second.agree id (Nat.lt_of_lt_of_le inside first.size)).trans
    (first.agree id inside)

theorem Extends.valueOf {h : Graph} {v' : Valuation} (grown : Extends meaning g v h v')
    {id : NodeId} (inside : id < g.size) :
    NodeEquations.valueOf h v' id = NodeEquations.valueOf g v id := by
  rw [NodeEquations.valueOf, NodeEquations.valueOf, grown.nodes id inside,
    grown.agree id inside]

/-- The node has this value in an extension. -/
def Replaces (meaning : Meaning) (g : Graph) (v : Valuation) (new : NodeId) (h : Graph)
    (w : Word) : Prop :=
  ∃ v', Extends meaning g v h v' ∧ new < h.size ∧ valueOf h v' new = w

theorem replaces_push (satisfies : Satisfies meaning g v) {n : Node} {w : Word}
    (inside : ∀ input, some input ∈ n.inputs → input < g.size)
    (computes : Computes meaning n (operandsOf g v n.inputs) w) :
    Replaces meaning g v g.size (g.pushNode n).2 w := by
  refine ⟨Function.update v g.size w, ⟨satisfies.push inside computes, ?_, ?_, ?_⟩, ?_, ?_⟩
  · rw [Graph.pushNode_size]
    exact Nat.le_succ _
  · exact fun id old => g.pushNode_node_of_lt n old
  · exact fun id old => Function.update_of_ne (Nat.ne_of_lt old) _ _
  · rw [Graph.pushNode_size]
    exact Nat.lt_succ_self _
  · rw [valueOf, Graph.pushNode_node_size, Function.update_self]
    split
    case isTrue constant =>
      apply Eq.symm
      apply computes.demanded
      rw [NodeEquations.demanded, constant]
    case isFalse => rfl

theorem replaces_constant (satisfies : Satisfies meaning g v) (value : Word)
    (ty : TypeId) :
    Replaces meaning g v (g.makeConstant value ty).1 (g.makeConstant value ty).2 value := by
  apply replaces_push satisfies
  · exact fun input member => absurd member List.not_mem_nil
  · refine ⟨fun result demand => ?_, nofun⟩
    cases demand
    rfl

theorem replaces_shift (satisfies : Satisfies meaning g v) {kind : NodeKind}
    (shift : kind = .shl ∨ kind = .lshr) {lhs : NodeId} (inside : lhs < g.size) {count : Nat}
    (small : count < 64) (ty : TypeId) {w : Word}
    (value : evalBinop kind (valueOf g v lhs) (BitVec.ofNat 64 count) = some w) :
    Replaces meaning g v (makeShift g kind lhs count ty).1
      (makeShift g kind lhs count ty).2 w := by
  obtain ⟨v', grown, amount, valued⟩ :=
    replaces_constant satisfies (BitVec.ofNat 64 count) ty
  let shiftAmt := g.makeConstant (BitVec.ofNat 64 count) ty
  have wide : lhs < shiftAmt.2.size := Nat.lt_of_lt_of_le inside grown.size
  have small' : (BitVec.ofNat 64 count).toNat < 64 := by
    rw [BitVec.toNat_ofNat]
    omega
  have pushed : Replaces meaning shiftAmt.2 v' (makeShift g kind lhs count ty).1
      (makeShift g kind lhs count ty).2 w := by
    apply replaces_push grown.satisfies
    · intro input member
      rcases List.mem_cons.mp member with same | member
      · cases same
        exact wide
      · cases List.mem_singleton.mp member
        exact amount
    · have operands : operandsOf shiftAmt.2 v' [some lhs, some shiftAmt.1] =
          [some (valueOf g v lhs), some (BitVec.ofNat 64 count)] := by
        rw [operandsOf, List.map_cons, List.map_singleton, Option.map_some, Option.map_some,
          grown.valueOf inside, valued]
      refine ⟨fun result demand => ?_, fun isOpen => ?_⟩
      · change NodeEquations.demanded _
          (operandsOf shiftAmt.2 v' [some lhs, some shiftAmt.1]) = _ at demand
        rw [operands] at demand
        have shifted : specified kind (valueOf g v lhs) (BitVec.ofNat 64 count) = some w := by
          rcases shift with rfl | rfl <;> exact (if_pos small').trans value
        have same : some w = some result := by
          rcases shift with rfl | rfl <;> exact shifted.symm.trans demand
        exact Option.some.inj same
      · rcases shift with rfl | rfl <;> cases isOpen
  obtain ⟨v'', grown', inRange, valued'⟩ := pushed
  exact ⟨v'', grown.trans grown', inRange, valued'⟩

theorem constVal_valueOf {id : NodeId} {value : Word}
    (found : constVal (g.node id) = some value) : valueOf g v id = value := by
  unfold constVal at found
  split at found
  case isTrue constant =>
    cases found
    rw [valueOf, if_pos constant]
  case isFalse => cases found

/-- The replacement of an operation has its value. -/
theorem newNode_replaces (satisfies : Satisfies meaning g v) {kind : NodeKind}
    {lhs rhs : NodeId} (left : lhs < g.size) (right : rhs < g.size) {ty : TypeId}
    {new : NodeId} {h : Graph} (made : newNode g kind lhs rhs ty = some (new, h)) {w : Word}
    (value : ∀ result, specified kind (valueOf g v lhs) (valueOf g v rhs) = some result →
      w = result) : Replaces meaning g v new h w := by
  let a := valueOf g v lhs
  let b := valueOf g v rhs
  have rconst {c : Word} (found : constVal (g.node rhs) = some c) : b = c :=
    constVal_valueOf found
  have lconst {c : Word} (found : constVal (g.node lhs) = some c) : a = c :=
    constVal_valueOf found
  have keepLeft (same : w = a) (isLeft : some (lhs, g) = some (new, h)) :
      Replaces meaning g v new h w := by
    cases isLeft
    exact ⟨v, .refl satisfies, left, same.symm⟩
  have keepRight (same : w = b) (isRight : some (rhs, g) = some (new, h)) :
      Replaces meaning g v new h w := by
    cases isRight
    exact ⟨v, .refl satisfies, right, same.symm⟩
  have constant {c : Word} (same : w = c)
      (isConstant : some (g.makeConstant c ty) = some (new, h)) :
      Replaces meaning g v new h w := by
    cases isConstant
    rw [same]
    exact replaces_constant satisfies c ty
  unfold newNode at made
  cases kind
  case mul =>
    have product : w = a * b := value _ rfl
    simp only at made
    split at made
    case isTrue one =>
      exact keepLeft (by rw [product, rconst one]; exact BitVec.mul_one a) made
    case isFalse =>
      split at made
      case isTrue zero =>
        exact constant (by rw [product, rconst zero]; exact BitVec.mul_zero) made
      case isFalse =>
        obtain ⟨factor, found, made⟩ := Option.bind_eq_some_iff.mp made
        split at made
        case isFalse => cases made
        case isTrue power =>
          cases made
          obtain ⟨small, isPower⟩ := isPowerOfTwo_log2 power
          apply replaces_shift satisfies (.inl rfl) left small ty
          have shifted : w = a <<< log2Pow2 factor := by
            rw [product, rconst found, ← BitVec.mul_twoPow_eq_shiftLeft, ← isPower]
          rw [shifted, evalBinop, shiftCount_ofNat small]
  case udiv =>
    simp only at made
    obtain ⟨divisor, found, made⟩ := Option.bind_eq_some_iff.mp made
    split at made
    case isFalse => cases made
    case isTrue power =>
      cases made
      have isPower := (Bool.and_eq_true_iff.mp power).1
      obtain ⟨small, power⟩ := isPowerOfTwo_log2 isPower
      have nonzero : b ≠ 0 := by
        rw [rconst found]
        exact bne_iff_ne.mp (Bool.and_eq_true_iff.mp isPower).1
      have quotient : w = a / b := value _ (if_neg nonzero)
      apply replaces_shift satisfies (.inr rfl) left small ty
      have shifted : w = a >>> log2Pow2 divisor := by
        rw [quotient, rconst found, ← BitVec.udiv_twoPow_eq_of_lt small, ← power]
      rw [shifted, evalBinop, shiftCount_ofNat small]
  case add =>
    have sum : w = a + b := value _ rfl
    simp only at made
    split at made
    case isTrue zero =>
      exact keepLeft (by rw [sum, rconst zero]; exact BitVec.add_zero a) made
    case isFalse =>
      split at made
      case isTrue zero =>
        exact keepRight (by rw [sum, lconst zero]; exact BitVec.zero_add b) made
      case isFalse => cases made
  case sub =>
    have difference : w = a - b := value _ rfl
    simp only at made
    split at made
    case isTrue zero =>
      exact keepLeft (by rw [difference, rconst zero]; exact BitVec.sub_zero a) made
    case isFalse =>
      split at made
      case isTrue same =>
        subst same
        exact constant (by rw [difference]; exact BitVec.sub_self a) made
      case isFalse => cases made
  case and =>
    have meet : w = a &&& b := value _ rfl
    simp only at made
    split at made
    case isTrue zero =>
      exact constant (by rw [meet, rconst zero]; exact BitVec.and_zero) made
    case isFalse =>
      split at made
      case isTrue ones =>
        exact keepLeft (by rw [meet, rconst ones]; exact BitVec.and_allOnes) made
      case isFalse =>
        split at made
        case isTrue zero =>
          exact constant (by rw [meet, lconst zero]; exact BitVec.zero_and) made
        case isFalse =>
          split at made
          case isTrue ones =>
            exact keepRight (by rw [meet, lconst ones]; exact BitVec.allOnes_and) made
          case isFalse => cases made
  case or =>
    have join : w = a ||| b := value _ rfl
    simp only at made
    split at made
    case isTrue zero =>
      exact keepLeft (by rw [join, rconst zero]; exact BitVec.or_zero) made
    case isFalse =>
      split at made
      case isTrue ones =>
        exact constant (by rw [join, rconst ones]; exact BitVec.or_allOnes) made
      case isFalse =>
        split at made
        case isTrue zero =>
          exact keepRight (by rw [join, lconst zero]; exact BitVec.zero_or) made
        case isFalse =>
          split at made
          case isTrue ones =>
            exact constant (by rw [join, lconst ones]; exact BitVec.allOnes_or) made
          case isFalse => cases made
  case xor =>
    have differing : w = a ^^^ b := value _ rfl
    simp only at made
    split at made
    case isTrue zero =>
      exact keepLeft (by rw [differing, rconst zero]; exact BitVec.xor_zero) made
    case isFalse =>
      split at made
      case isTrue zero =>
        exact keepRight (by rw [differing, lconst zero]; exact BitVec.zero_xor) made
      case isFalse =>
        split at made
        case isTrue same =>
          subst same
          exact constant (by rw [differing]; exact BitVec.xor_self) made
        case isFalse => cases made
  all_goals cases made

/-- The operands are the inputs of a live operation. -/
theorem operands_eq {id lhs rhs : NodeId} (found : operands g id = some (lhs, rhs)) :
    (g.node id).isDead = false ∧ (g.node id).inputs = [some lhs, some rhs] ∧
      lhs < g.size ∧ rhs < g.size := by
  unfold operands at found
  simp only at found
  split at found
  case isTrue => cases found
  case isFalse active =>
    rw [Bool.or_eq_true, not_or, Bool.not_eq_true, Bool.not_eq_true'] at active
    split at found
    case h_2 => cases found
    case h_1 first second inputs =>
      split at found
      case isFalse => cases found
      case isTrue inside =>
        cases found
        have pure : (g.node id).isPure = true := by simpa using active.2
        rw [Node.dataIns, if_pos pure] at inputs
        exact ⟨active.1, inputs, inside⟩

/-- The kinds that the pass replaces are operations. -/
theorem newNode_computed {kind : NodeKind} {lhs rhs : NodeId} {ty : TypeId}
    (made : (newNode g kind lhs rhs ty).isSome = true) :
    ∀ a b n, n.kind = kind → NodeEquations.demanded n [some a, some b] = specified kind a b := by
  intro a b n isKind
  rw [NodeEquations.demanded, isKind]
  cases kind <;> first | rfl | cases made

theorem newNode_open {kind : NodeKind} {lhs rhs : NodeId} {ty : TypeId}
    (made : (newNode g kind lhs rhs ty).isSome = true) : kind ≠ .constant := by
  rintro rfl
  cases made

/-- Visiting a node keeps a valuation, and gives the new nodes values. -/
theorem visit_satisfies {progress : Progress} (satisfies : Satisfies meaning progress.graph v)
    {id : NodeId} (inside : id < progress.graph.size) :
    ∃ v', Satisfies meaning (visit progress id).graph v' ∧
      progress.graph.size ≤ (visit progress id).graph.size ∧
        ∀ other, other < progress.graph.size → v' other = v other := by
  let g := progress.graph
  unfold visit
  simp only
  split
  case h_1 => exact ⟨v, satisfies, le_rfl, fun _ _ => rfl⟩
  case h_2 lhs rhs found =>
    split
    case h_1 => exact ⟨v, satisfies, le_rfl, fun _ _ => rfl⟩
    case h_2 new h made =>
      obtain ⟨alive, inputs, left, right⟩ := operands_eq found
      have isSome : (newNode g (g.node id).kind lhs rhs (g.node id).typeId).isSome = true := by
        rw [made]
        rfl
      have computes := (satisfies.computes id ⟨inside, alive⟩).demanded
      rw [inputs] at computes
      change ∀ result, NodeEquations.demanded _
        [some (valueOf g v lhs), some (valueOf g v rhs)] = some result → _ at computes
      rw [newNode_computed isSome _ _ _ rfl] at computes
      obtain ⟨v', grown, inRange, valued⟩ := newNode_replaces satisfies left right made computes
      have same : valueOf h v' new = valueOf h v' id := by
        rw [valued, grown.valueOf inside, valueOf, if_neg (newNode_open isSome)]
      refine ⟨v', (grown.satisfies.replaceUses inRange same).markDead id, ?_, grown.agree⟩
      rw [Graph.markDead, Graph.setFlag_size, InductionVariables.replaceUses_size]
      exact grown.size

theorem sweep_satisfies {fuel : Nat} {id : NodeId} {progress : Progress}
    (satisfies : Satisfies meaning progress.graph v) :
    ∃ v', Satisfies meaning (sweep fuel id progress).graph v' ∧
      ∀ other, other < progress.graph.size → v' other = v other := by
  induction fuel generalizing id progress v with
  | zero => exact ⟨v, satisfies, fun _ _ => rfl⟩
  | succ fuel ih =>
      unfold sweep
      split
      case isFalse => exact ⟨v, satisfies, fun _ _ => rfl⟩
      case isTrue inside =>
        obtain ⟨v', visited, size, agree⟩ := visit_satisfies satisfies inside
        obtain ⟨v'', swept, agree'⟩ :
            ∃ v'', Satisfies meaning (sweep fuel (id + 1) (visit progress id)).graph v'' ∧
              ∀ other, other < (visit progress id).graph.size → v'' other = v' other :=
          ih visited
        refine ⟨v'', swept, fun other old => ?_⟩
        rw [agree' other (Nat.lt_of_lt_of_le old size), agree other old]

theorem newNode_shape {kind : NodeKind} {lhs rhs : NodeId} {ty : TypeId} {new : NodeId}
    {h : Graph} (made : newNode g kind lhs rhs ty = some (new, h)) :
    h = g ∨ (∃ value, h = (g.makeConstant value ty).2) ∨
      ∃ kind count, (kind = .shl ∨ kind = .lshr) ∧ h = (makeShift g kind lhs count ty).2 := by
  have shift {kind : NodeKind} {found : Option Word} {test : Word → Bool}
      (isShift : kind = .shl ∨ kind = .lshr)
      (made : (found.bind fun value => if test value then
        some (makeShift g kind lhs (log2Pow2 value) ty) else none) = some (new, h)) :
      ∃ kind count, (kind = .shl ∨ kind = .lshr) ∧
        h = (makeShift g kind lhs count ty).2 := by
    obtain ⟨value, -, made⟩ := Option.bind_eq_some_iff.mp made
    split at made <;> cases made
    exact ⟨kind, _, isShift, rfl⟩
  unfold newNode at made
  cases kind
  case mul =>
    simp only at made
    split at made
    case isTrue =>
      cases made
      exact .inl rfl
    case isFalse =>
      split at made
      case isTrue =>
        cases made
        exact .inr (.inl ⟨_, rfl⟩)
      case isFalse => exact .inr (.inr (shift (.inl rfl) made))
  case udiv => exact .inr (.inr (shift (.inr rfl) made))
  case add | sub | and | or | xor =>
    simp only at made
    split_ifs at made <;> cases made <;> first | exact .inl rfl | exact .inr (.inl ⟨_, rfl⟩)
  all_goals cases made

/-- A valuation of the graph before the pass extends to the graph after it. -/
theorem run_satisfies (satisfies : Satisfies meaning g v) :
    ∃ v', Satisfies meaning (run g).graph v' ∧
      ∀ id, g.Live id → (run g).graph.Live id → v' id = v id := by
  have start : Satisfies meaning ({ graph := g } : Progress).graph v := satisfies
  obtain ⟨v', swept, agree⟩ := sweep_satisfies start
  exact ⟨v', swept, fun id live _ => agree id live.1⟩

end

/-- The product of a parameter and two to the 63rd. -/
def doubling : Graph :=
  let (x, g) := Graph.fresh.pushNode { kind := .parameter, inputs := [] }
  let (c, g) := g.makeConstant (BitVec.twoPow 64 63) 0
  let (product, g) := g.makeBinop .mul (some x) (some c) 0
  (g.makeReturn (some kStartNodeId) none (some product)).2

/-- A valuation with an odd parameter. -/
def odd : Valuation := fun id => [0, 3, BitVec.twoPow 64 63, BitVec.twoPow 64 63, 0].getD id 0

theorem run_satisfies_doubling :
    ∃ v', Satisfies (fun _ _ _ _ => True) (run doubling).graph v' ∧
      v' 1 = 3 ∧ v' 6 = BitVec.twoPow 64 63 := by
  have before : Satisfies (fun _ _ _ _ => True) doubling odd :=
    NodeEquations.satisfies_of_check (by decide)
  obtain ⟨v', satisfies, agree⟩ := run_satisfies before
  have parameter : v' 1 = 3 := agree 1 ⟨by decide, by decide⟩ ⟨by decide, by decide⟩
  have operands : operandsOf (run doubling).graph v' ((run doubling).graph.node 6).inputs =
      [some (v' 1), some 63] := rfl
  refine ⟨v', satisfies, parameter, ?_⟩
  apply (satisfies.computes 6 ⟨by decide, by decide⟩).demanded
  rw [operands, parameter]
  decide

end StrengthReduction

end Aegis
