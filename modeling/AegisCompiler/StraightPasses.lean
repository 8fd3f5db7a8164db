import AegisCompiler.GlobalValueNumbering
import AegisCompiler.PassManager
import AegisCompiler.SccpRewrite
import AegisCompiler.SccpSoundness
import AegisCompiler.StraightCode
import AegisCompiler.StrengthReduction

/-!
# Passes that rewrite straight-line code

Constant propagation and strength reduction append nodes and let them stand for others; value
numbering lets the first node of a key stand for the others.  All three keep what straight-line
code returns, value numbering while the node ids are so small that the hash of at most two of
them tells them apart.
-/

namespace Aegis

open InstrSel (isMapped)
open Lowerer (firstValue prologue)

/-- Straight-line code that grew and kept the values and the ranks of its nodes. -/
structure Evolves (params : Nat) (ret : NodeId) (g : Graph) (result : NodeId) (h : Graph)
    (result' : NodeId) : Prop where
  code : StraightCode h params ret result'
  size : g.size ≤ h.size
  ranked : ∀ rank, Ranked g rank → ∃ rank', Ranked h rank' ∧ ∀ id < g.size, rank' id = rank id
  values : ∀ args v, Computes g args v →
    ∃ v', Computes h args v' ∧ (∀ id < g.size, v' id = v id) ∧ v' result' = v result

section Evolves

variable {params : Nat} {ret result result' result'' : NodeId} {g h k : Graph}

theorem Evolves.refl (code : StraightCode g params ret result) :
    Evolves params ret g result g result :=
  ⟨code, le_rfl, fun rank ranked => ⟨rank, ranked, fun _ _ => rfl⟩,
    fun _ v computes => ⟨v, computes, fun _ _ => rfl, rfl⟩⟩

theorem Evolves.trans (first : Evolves params ret g result h result')
    (second : Evolves params ret h result' k result'') :
    Evolves params ret g result k result'' where
  code := second.code
  size := first.size.trans second.size
  ranked rank ranked := by
    obtain ⟨rank', ranked', agree⟩ := first.ranked rank ranked
    obtain ⟨rank'', ranked'', agree'⟩ := second.ranked rank' ranked'
    exact ⟨rank'', ranked'', fun id inside =>
      (agree' id (inside.trans_le first.size)).trans (agree id inside)⟩
  values args v computes := by
    obtain ⟨v', computes', agree, same⟩ := first.values args v computes
    obtain ⟨v'', computes'', agree', same'⟩ := second.values args v' computes'
    exact ⟨v'', computes'', fun id inside =>
      (agree' id (inside.trans_le first.size)).trans (agree id inside), same'.trans same⟩

theorem Evolves.carries (evolves : Evolves params ret g result h result') :
    Carries params ret g result h result' where
  code := evolves.code
  size := evolves.size
  acyclic acyclic := by
    obtain ⟨rank, ranked⟩ := acyclic
    obtain ⟨rank', ranked', -⟩ := evolves.ranked rank ranked
    exact ⟨rank', ranked'⟩
  values args v computes := by
    obtain ⟨v', computes', -, same⟩ := evolves.values args v computes
    exact ⟨v', computes', same⟩

end Evolves

/-- The graph grew by a node that can stand for another one, where the values meet a
condition. -/
structure Stands (params : Nat) (ret : NodeId) (g : Graph) (result : NodeId) (h : Graph)
    (old new : NodeId) (given : (NodeId → Word) → Prop) : Prop where
  code : StraightCode h params ret result
  size : g.size ≤ h.size
  dies : IsValue h old
  stays : IsValue h new
  apart : new ≠ old
  ranked : ∀ rank, Ranked g rank →
    ∃ rank', Ranked h rank' ∧ (∀ id < g.size, rank' id = rank id) ∧ rank' new ≤ rank' old
  values : ∀ args v, Computes g args v → given v →
    ∃ v', Computes h args v' ∧ (∀ id < g.size, v' id = v id) ∧ v' new = v' old

theorem Stands.weaken {params : Nat} {ret result old new : NodeId} {g h : Graph}
    {given demanded : (NodeId → Word) → Prop} (stands : Stands params ret g result h old new given)
    (implied : ∀ v, demanded v → given v) : Stands params ret g result h old new demanded :=
  { stands with
    values := fun args v computes held => stands.values args v computes (implied v held) }

/-- The node that stands for another one takes its place. -/
theorem Evolves.redirect {params : Nat} {ret result result' old new : NodeId} {g h k : Graph}
    {given : (NodeId → Word) → Prop} (evolves : Evolves params ret g result h result')
    (inside : result' < h.size) (stands : Stands params ret h result' k old new given)
    (meets : ∀ args v v', Computes g args v → Computes h args v' →
      (∀ id < g.size, v' id = v id) → given v') :
    Evolves params ret g result (CopyPropagation.replaced k old new)
      (redirect old new result') := by
  have redirected := stands.code.replaced stands.dies stands.stays stands.apart
  refine ⟨redirected.code stands.code, ?_, fun rank ranked => ?_, fun args v computes => ?_⟩
  · rw [redirected.size]
    exact evolves.size.trans stands.size
  · obtain ⟨rank', ranked', agree⟩ := evolves.ranked rank ranked
    obtain ⟨rank'', ranked'', agree', below⟩ := stands.ranked rank' ranked'
    refine ⟨rank'', redirected.ranked ranked'' fun id => ?_, fun id within =>
      (agree' id (within.trans_le evolves.size)).trans (agree id within)⟩
    by_cases same : id = old
    · rw [same, redirect_self]
      exact below
    · rw [redirect_of_ne same]
  · obtain ⟨v', computes', agree, same⟩ := evolves.values args v computes
    obtain ⟨v'', computes'', agree', equal⟩ :=
      stands.values args v' computes' (meets args v v' computes computes' agree)
    have each (id : NodeId) : v'' (Aegis.redirect old new id) = v'' id := by
      by_cases here : id = old
      · rw [here, redirect_self]
        exact equal
      · rw [redirect_of_ne here]
    refine ⟨v'', redirected.computes stands.code computes'' fun id _ => each id,
      fun id within => (agree' id (within.trans_le evolves.size)).trans (agree id within), ?_⟩
    rw [each, agree' result' inside, same]

section Constants

variable {params : Nat} {ret result : NodeId} {g : Graph} (c : Word) (ty : TypeId)

theorem StraightCode.makeConstant (code : StraightCode g params ret result) :
    StraightCode (g.makeConstant c ty).2 params ret result :=
  code.push (.leaf (.inl rfl) rfl) rfl (NodeFlags.has_zero _) nofun

theorem isValue_makeConstant : IsValue (g.makeConstant c ty).2 (g.makeConstant c ty).1 :=
  isValue_pushed (NodeFlags.has_zero _) rfl

theorem Ranked.makeConstant {rank : NodeId → Nat} (code : StraightCode g params ret result)
    (ranked : Ranked g rank) (r : Nat) :
    Ranked (g.makeConstant c ty).2 (Function.update rank g.size r) :=
  ranked.push code.inside fun _ member => absurd member List.not_mem_nil

theorem Computes.makeConstant {args : List Word} {v : NodeId → Word}
    (code : StraightCode g params ret result) (computes : Computes g args v) :
    Computes (g.makeConstant c ty).2 args (Function.update v g.size c) :=
  computes.push code.inside (fun _ member => absurd member List.not_mem_nil)
    ⟨fun _ => rfl, nofun, fun _ kind => (by cases kind), fun _ _ kind => (by cases kind)⟩

/-- A constant stands for a node of its value. -/
theorem stands_constant (code : StraightCode g params ret result) {id : NodeId}
    (value : IsValue g id) :
    Stands params ret g result (g.makeConstant c ty).2 id (g.makeConstant c ty).1
      (fun v => v id = c) where
  code := code.makeConstant c ty
  size := (Graph.pushNode_size g _).symm ▸ Nat.le_succ _
  dies := value.push _
  stays := isValue_makeConstant c ty
  apart := Nat.ne_of_gt value.inside
  ranked rank ranked := by
    refine ⟨_, ranked.makeConstant c ty code (rank id), fun other inside =>
      Function.update_of_ne (Nat.ne_of_lt inside) _ _, ?_⟩
    change Function.update rank g.size (rank id) g.size ≤ _
    rw [Function.update_self, Function.update_of_ne (Nat.ne_of_lt value.inside)]
  values args v computes known := by
    refine ⟨_, computes.makeConstant c ty code, fun other inside =>
      Function.update_of_ne (Nat.ne_of_lt inside) _ _, ?_⟩
    change Function.update v g.size c g.size = _
    rw [Function.update_self, Function.update_of_ne (Nat.ne_of_lt value.inside), known]

end Constants

namespace Sccp

variable {params : Nat} {ret result : NodeId} {g : Graph}

section Known

variable (code : StraightCode g params ret result)

include code

/-- The operands of a live node are its inputs. -/
theorem operands_eq {id : NodeId} (live : (g.node id).isDead = false) (inputs : List NodeId)
    (known : (g.node id).inputs = inputs.map some) : operands g (g.node id) = inputs := by
  have inside : ∀ input ∈ inputs, g.inRange (some input) = some input := by
    intro input member
    apply g.inRange_some.mpr
    refine ⟨rfl, code.inside id input ?_⟩
    rw [known]
    exact List.mem_map_of_mem member
  rw [operands, Node.dataIns, if_pos (code.pure live), known, List.filterMap_map]
  refine (List.filterMap_congr inside).trans ?_
  exact List.filterMap_some

/-- What is known and no value has operands, and they are known. -/
theorem operands_known {id : NodeId} {c : Word} (known : (analyze g).valueAt id = .const c)
    (notMapped : isMapped (g.node id).kind = false) :
    operands g (g.node id) ≠ [] ∧
      ∀ input ∈ operands g (g.node id), ∃ c', (analyze g).valueAt input = .const c' := by
  obtain ⟨live, constant | decides⟩ := analyze_invariant.decided id c known
  · rw [constant] at notMapped
    cases notMapped
  · have notPhi : (g.node id).kind ≠ .phi := by
      intro phi
      rcases code.kinds live.2 with kind | kind | mapped | ⟨-, kind⟩
      · cases phi.symm.trans kind
      · cases phi.symm.trans kind
      · rw [mapped] at notMapped
        cases notMapped
      · cases phi.symm.trans kind
    have notUnop : (g.node id).kind.isUnop = false := by
      by_contra isUnop
      rw [Bool.not_eq_false] at isUnop
      rw [(code.isValue_unop live.2 isUnop).1.mapped] at notMapped
      cases notMapped
    simp only [Decides, if_neg notPhi, notUnop, Bool.false_eq_true, if_false] at decides
    obtain ⟨constants, folded⟩ := decides
    refine ⟨fun none => ?_, fun input member => ⟨_, constants input member⟩⟩
    rw [none] at folded
    cases folded

/-- Only values are known. -/
theorem isValue_of_known {id : NodeId} {c : Word} (known : (analyze g).valueAt id = .const c) :
    IsValue g id := by
  have start {c : Word} (known : (analyze g).valueAt kStartNodeId = .const c) : False := by
    obtain ⟨⟨flags, node⟩, live⟩ := code.before kStartNodeId (by decide)
    have inputs : (g.node kStartNodeId).inputs = [] := by
      rw [node]
      rfl
    have notMapped : isMapped (g.node kStartNodeId).kind = false := by
      rw [node]
      rfl
    exact (operands_known code known notMapped).1 (operands_eq code live [] inputs)
  have before {id : NodeId} {c : Word} (known : (analyze g).valueAt id = .const c)
      (kind : (g.node id).kind = .start ∨ (g.node id).kind = .proj) : False := by
    obtain ⟨live, -⟩ := analyze_invariant.decided id c known
    have notMapped : isMapped (g.node id).kind = false := by
      rcases kind with kind | kind <;> rw [kind] <;> rfl
    obtain ⟨some, all⟩ := operands_known code known notMapped
    obtain ⟨input, member⟩ := List.exists_mem_of_ne_nil _ some
    obtain ⟨c', known'⟩ := all input member
    obtain ⟨ref, reads, inRange⟩ := List.mem_filterMap.mp member
    obtain ⟨rfl, -⟩ := g.inRange_some.mp inRange
    have same := code.reads_start live.2 kind
      (CopyPropagation.mem_inputs_of_mem_dataIns reads)
    exact start (same ▸ known')
  obtain ⟨live, -⟩ := analyze_invariant.decided id c known
  refine ⟨live.2, ?_⟩
  by_contra notMapped
  rw [Bool.not_eq_true] at notMapped
  rcases code.kinds live.2 with kind | kind | mapped | ⟨rfl, kind⟩
  · exact before known (.inl kind)
  · exact before known (.inr kind)
  · rw [mapped] at notMapped
    cases notMapped
  · have listed := operands_eq code live.2 [1, 2, result] code.returned.inputs
    obtain ⟨c', known'⟩ := (operands_known code known notMapped).2 1 (by simp [listed])
    obtain ⟨⟨flags, node⟩, -⟩ := code.before 1 (by decide)
    exact before known' (.inr (by rw [node]; rfl))

/-- What is known is the value of the node. -/
theorem value_of_known {rank : NodeId → Nat} (ranked : Ranked g rank) {args : List Word}
    {v : NodeId → Word} (computes : Computes g args v) {id : NodeId} {c : Word}
    (known : (analyze g).valueAt id = .const c) : v id = c := by
  -- A value is decided by operands of smaller rank.
  induction height : rank id using Nat.strong_induction_on generalizing id c with
  | _ height ih =>
      subst height
      have operand {input : NodeId} (member : some input ∈ (g.node id).inputs)
          (live : (g.node id).isDead = false) {c : Word}
          (known : (analyze g).valueAt input = .const c) : v input = c :=
        ih (rank input) (ranked id live input member) known rfl
      have constant (live : g.Live id) (kind : (g.node id).kind = .constant) : v id = c := by
        have payload := analyze_invariant.constants id live kind
        rw [computes.constant id live.2 kind]
        exact LatticeVal.const.inj (payload.symm.trans known)
      obtain ⟨live, kind | decides⟩ := analyze_invariant.decided id c known
      · exact constant live kind
      · rcases InstrSel.isMapped_cases (isValue_of_known code known).mapped with
          kind | kind | ⟨op, unary⟩ | ⟨op, binary⟩
        · exact constant live kind
        · have none := operands_eq code live.2 []
            (code.leaf_inputs live.2 (.inr kind))
          rw [Decides, kind] at decides
          have folded := decides.2
          rw [none] at folded
          cases folded
        · have isUnop := InstrSel.isUnop_iff.mpr (Option.isSome_iff_exists.mpr ⟨op, unary⟩)
          obtain ⟨-, input, inputs, -⟩ := code.isValue_unop live.2 isUnop
          have notPhi := (shape_of_isUnop isUnop).2
          simp only [Decides, if_neg notPhi, isUnop, if_true] at decides
          obtain ⟨first, a, found, held, folded⟩ := decides
          have same : first = input := by
            rw [firstOperand, Node.dataIns, if_pos (code.pure live.2), inputs] at found
            exact Option.some.inj ((g.inRange_some).mp found).1.symm
          subst same
          have computed := computes.unary id first live.2 isUnop inputs
          rw [operand (inputs ▸ List.mem_cons_self) live.2 held, folded] at computed
          exact (Option.some.inj computed).symm
        · have isBinop := InstrSel.isBinop_of_opFor binary
          obtain ⟨-, lhs, rhs, inputs, -⟩ := code.isValue_binop live.2 isBinop
          obtain ⟨-, notPhi, notUnop⟩ := shape_of_isBinop isBinop
          simp only [Decides, if_neg notPhi, notUnop, Bool.false_eq_true, if_false] at decides
          obtain ⟨constants, folded⟩ := decides
          have listed := operands_eq code live.2 [lhs, rhs] inputs
          have left := constants lhs (by simp [listed])
          have right := constants rhs (by simp [listed])
          have computed := computes.binary id lhs rhs live.2 isBinop inputs
          rw [operand (inputs ▸ List.mem_cons_self) live.2 left,
            operand (inputs ▸ List.mem_cons_of_mem _ List.mem_cons_self) live.2 right] at computed
          rw [listed] at folded
          exact Option.some.inj ((InstrSel.evalBinop_of_machineBinop computed).symm.trans
            ((evalOperands_pair _ _ _).symm.trans folded))

/-- Constant propagation keeps what straight-line code returns. -/
theorem run_carries (acyclic : Acyclic g) :
    ∃ result', Carries params ret g result (run g).1 result' := by
  obtain ⟨rank, ranked⟩ := acyclic
  -- The nodes that are still to be visited are as they were.
  have folded : ∀ bound ≤ g.size, ∃ result',
      Evolves params ret g result (rewritten g bound) result' := by
    intro bound
    induction bound with
    | zero => exact fun _ => ⟨result, .refl code⟩
    | succ bound ih =>
        intro within
        obtain ⟨result', evolves⟩ := ih (Nat.le_of_succ_le within)
        obtain ⟨removed, next⟩ := rewritten_succ g bound
        have label := (rewritten_progress g (Nat.le_of_succ_le within)).later bound within le_rfl
        rw [next]
        rcases rewrite_cases within label removed with ⟨c, replaced, step⟩ | ⟨-, step⟩
        · rw [step]
          have known := replaced.2.2.2
          have value : IsValue (rewritten g bound) bound := by
            refine ⟨?_, ?_⟩
            · rw [Node.isDead, label.2.2.1]
              exact replaced.1.2
            · rw [label.1]
              exact (isValue_of_known code known).mapped
          refine ⟨_, evolves.redirect evolves.code.returned.value.inside
            (stands_constant c _ evolves.code value) fun args v v' computes _ agree => ?_⟩
          rw [agree bound within]
          exact value_of_known code ranked computes known
        · rw [step]
          exact ⟨result', evolves⟩
  obtain ⟨result', evolves⟩ := folded g.size le_rfl
  exact ⟨result', evolves.carries⟩

end Known

end Sccp

namespace StrengthReduction

/-- The operands have these values: constants their payloads, and equal ones the same. -/
structure OperandValues (g : Graph) (lhs rhs : NodeId) (a b : Word) : Prop where
  left : ∀ c, constVal (g.node lhs) = some c → a = c
  right : ∀ c, constVal (g.node rhs) = some c → b = c
  same : lhs = rhs → a = b

/-- How an operation is replaced, and why the replacement has its value. -/
inductive Reduces (g : Graph) (kind : NodeKind) (lhs rhs : NodeId) (ty : TypeId) :
    NodeId × Graph → Prop where
  | left (value : ∀ a b w, OperandValues g lhs rhs a b → evalBinop kind a b = some w → w = a) :
      Reduces g kind lhs rhs ty (lhs, g)
  | right (value : ∀ a b w, OperandValues g lhs rhs a b → evalBinop kind a b = some w → w = b) :
      Reduces g kind lhs rhs ty (rhs, g)
  | constant (c : Word)
      (value : ∀ a b w, OperandValues g lhs rhs a b → evalBinop kind a b = some w → w = c) :
      Reduces g kind lhs rhs ty (g.makeConstant c ty)
  | shift (shifts : NodeKind) (isShift : shifts = .shl ∨ shifts = .lshr) (count : Nat)
      (value : ∀ a b w, OperandValues g lhs rhs a b → evalBinop kind a b = some w →
        evalBinop shifts a (BitVec.ofNat 64 count) = some w) :
      Reduces g kind lhs rhs ty (makeShift g shifts lhs count ty)

theorem newNode_reduces {g : Graph} {kind : NodeKind} {lhs rhs : NodeId} {ty : TypeId}
    {made : NodeId × Graph} (found : newNode g kind lhs rhs ty = some made) :
    Reduces g kind lhs rhs ty made := by
  unfold newNode at found
  cases kind
  case mul =>
    simp only at found
    split at found
    case isTrue one =>
      cases found
      refine .left fun a b w given computed => ?_
      cases computed
      rw [given.right 1 one]
      exact BitVec.mul_one a
    case isFalse =>
      split at found
      case isTrue zero =>
        cases found
        refine .constant 0 fun a b w given computed => ?_
        cases computed
        rw [given.right 0 zero]
        exact BitVec.mul_zero
      case isFalse =>
        obtain ⟨factor, payload, found⟩ := Option.bind_eq_some_iff.mp found
        split at found
        case isFalse => cases found
        case isTrue power =>
          cases found
          obtain ⟨small, isPower⟩ := isPowerOfTwo_log2 power
          refine .shift .shl (.inl rfl) _ fun a b w given computed => ?_
          cases computed
          rw [given.right factor payload, evalBinop, shiftCount_ofNat small,
            ← BitVec.mul_twoPow_eq_shiftLeft, ← isPower]
  case udiv =>
    simp only at found
    obtain ⟨divisor, payload, found⟩ := Option.bind_eq_some_iff.mp found
    split at found
    case isFalse => cases found
    case isTrue power =>
      cases found
      have isPower := (Bool.and_eq_true_iff.mp power).1
      obtain ⟨small, power⟩ := isPowerOfTwo_log2 isPower
      refine .shift .lshr (.inr rfl) _ fun a b w given computed => ?_
      have nonzero : b ≠ 0 := by
        rw [given.right divisor payload]
        exact bne_iff_ne.mp (Bool.and_eq_true_iff.mp isPower).1
      have quotient : some (a / b) = some w := (if_neg nonzero).symm.trans computed
      cases quotient
      rw [given.right divisor payload, evalBinop, shiftCount_ofNat small,
        ← BitVec.udiv_twoPow_eq_of_lt small, ← power]
  case add =>
    simp only at found
    split at found
    case isTrue zero =>
      cases found
      refine .left fun a b w given computed => ?_
      cases computed
      rw [given.right 0 zero]
      exact BitVec.add_zero a
    case isFalse =>
      split at found
      case isFalse => cases found
      case isTrue zero =>
        cases found
        refine .right fun a b w given computed => ?_
        cases computed
        rw [given.left 0 zero]
        exact BitVec.zero_add b
  case sub =>
    simp only at found
    split at found
    case isTrue zero =>
      cases found
      refine .left fun a b w given computed => ?_
      cases computed
      rw [given.right 0 zero]
      exact BitVec.sub_zero a
    case isFalse =>
      split at found
      case isFalse => cases found
      case isTrue same =>
        cases found
        refine .constant 0 fun a b w given computed => ?_
        cases computed
        rw [given.same same]
        exact BitVec.sub_self b
  case and =>
    simp only at found
    split at found
    case isTrue zero =>
      cases found
      refine .constant 0 fun a b w given computed => ?_
      cases computed
      rw [given.right 0 zero]
      exact BitVec.and_zero
    case isFalse =>
      split at found
      case isTrue ones =>
        cases found
        refine .left fun a b w given computed => ?_
        cases computed
        rw [given.right _ ones]
        exact BitVec.and_allOnes
      case isFalse =>
        split at found
        case isTrue zero =>
          cases found
          refine .constant 0 fun a b w given computed => ?_
          cases computed
          rw [given.left 0 zero]
          exact BitVec.zero_and
        case isFalse =>
          split at found
          case isFalse => cases found
          case isTrue ones =>
            cases found
            refine .right fun a b w given computed => ?_
            cases computed
            rw [given.left _ ones]
            exact BitVec.allOnes_and
  case or =>
    simp only at found
    split at found
    case isTrue zero =>
      cases found
      refine .left fun a b w given computed => ?_
      cases computed
      rw [given.right 0 zero]
      exact BitVec.or_zero
    case isFalse =>
      split at found
      case isTrue ones =>
        cases found
        refine .constant (-1) fun a b w given computed => ?_
        cases computed
        rw [given.right _ ones]
        exact BitVec.or_allOnes
      case isFalse =>
        split at found
        case isTrue zero =>
          cases found
          refine .right fun a b w given computed => ?_
          cases computed
          rw [given.left 0 zero]
          exact BitVec.zero_or
        case isFalse =>
          split at found
          case isFalse => cases found
          case isTrue ones =>
            cases found
            refine .constant (-1) fun a b w given computed => ?_
            cases computed
            rw [given.left _ ones]
            exact BitVec.allOnes_or
  case xor =>
    simp only at found
    split at found
    case isTrue zero =>
      cases found
      refine .left fun a b w given computed => ?_
      cases computed
      rw [given.right 0 zero]
      exact BitVec.xor_zero
    case isFalse =>
      split at found
      case isTrue zero =>
        cases found
        refine .right fun a b w given computed => ?_
        cases computed
        rw [given.left 0 zero]
        exact BitVec.zero_xor
      case isFalse =>
        split at found
        case isFalse => cases found
        case isTrue same =>
          cases found
          refine .constant 0 fun a b w given computed => ?_
          cases computed
          rw [given.same same]
          exact BitVec.xor_self
  all_goals cases found

/-- The kinds that are replaced are operations. -/
theorem newNode_isBinop {g : Graph} {kind : NodeKind} {lhs rhs : NodeId} {ty : TypeId}
    {made : NodeId × Graph} (found : newNode g kind lhs rhs ty = some made) :
    kind.isBinop = true := by
  cases kind <;> first | rfl | cases found

section Sweep

variable {params : Nat} {ret result : NodeId} {g : Graph}

/-- The operands of an operation have values. -/
theorem operandValues {args : List Word} {v : NodeId → Word} (computes : Computes g args v)
    {lhs rhs : NodeId} (left : IsValue g lhs) (right : IsValue g rhs) :
    OperandValues g lhs rhs (v lhs) (v rhs) := by
  have constant {id : NodeId} (value : IsValue g id) (c : Word)
      (found : constVal (g.node id) = some c) : v id = c := by
    rw [constVal] at found
    split at found
    case isTrue kind =>
      cases found
      exact computes.constant id value.live kind
    case isFalse => cases found
  exact ⟨constant left, constant right, fun same => congrArg v same⟩

variable (code : StraightCode g params ret result)

include code

/-- A shift by a new constant stands for a node of its value. -/
theorem stands_shift {id lhs : NodeId} (value : IsValue g id) (operand : IsValue g lhs)
    (below : ∀ rank, Ranked g rank → rank lhs < rank id) {shifts : NodeKind}
    (isShift : shifts = .shl ∨ shifts = .lshr) (count : Nat) (ty : TypeId) :
    Stands params ret g result (makeShift g shifts lhs count ty).2 id
      (makeShift g shifts lhs count ty).1
      (fun v => evalBinop shifts (v lhs) (BitVec.ofNat 64 count) = some (v id)) := by
  let amount := g.makeConstant (BitVec.ofNat 64 count) ty
  let n : Node := { kind := shifts, effect := effectClassOf shifts, typeId := ty, payload := 0,
                    inputs := [some lhs, some amount.1] }
  have grown : amount.2.size = g.size + 1 := Graph.pushNode_size g _
  have mapped : isMapped shifts = true := by rcases isShift with rfl | rfl <;> rfl
  have isBinop : shifts.isBinop = true := by rcases isShift with rfl | rfl <;> rfl
  have code' : StraightCode amount.2 params ret result := code.makeConstant _ ty
  have inside (input : NodeId) (member : some input ∈ n.inputs) : input < amount.2.size := by
    rw [grown]
    rcases List.mem_pair.mp member with same | same <;> cases same
    · exact Nat.lt_succ_of_lt operand.inside
    · exact Nat.lt_succ_self _
  -- The two new nodes leave the old ones as they are.
  have old {p : Type} (f : NodeId → p) (x y : p) {other : NodeId} (within : other < g.size) :
      Function.update (Function.update f g.size x) amount.2.size y other = f other := by
    rw [Function.update_of_ne (by rw [grown]; exact Nat.ne_of_lt (Nat.lt_succ_of_lt within)),
      Function.update_of_ne (Nat.ne_of_lt within)]
  refine ⟨?_, ?_, (value.push _).push n, isValue_pushed (NodeFlags.has_zero _) mapped, ?_,
    fun rank ranked => ?_, fun args v computes given => ?_⟩
  · apply code'.push _ rfl (NodeFlags.has_zero _) (by rcases isShift with rfl | rfl <;> nofun)
    exact .binary isBinop mapped rfl (operand.push _) (isValue_makeConstant _ ty)
  · change g.size ≤ (amount.2.pushNode n).2.size
    rw [Graph.pushNode_size, grown]
    exact Nat.le_add_right _ 2
  · change amount.2.size ≠ id
    rw [grown]
    exact Nat.ne_of_gt (Nat.lt_succ_of_lt value.inside)
  · have first := ranked.makeConstant (BitVec.ofNat 64 count) ty code (rank lhs)
    have less := below rank ranked
    have above (input : NodeId) (member : some input ∈ n.inputs) :
        Function.update rank g.size (rank lhs) input < rank id := by
      rcases List.mem_pair.mp member with same | same <;> cases same
      · rw [Function.update_of_ne (Nat.ne_of_lt operand.inside)]
        exact less
      · exact (Function.update_self (f := rank) g.size (rank lhs)).trans_lt less
    refine ⟨_, first.push code'.inside fun input member =>
      ⟨inside input member, above input member⟩,
      fun other within => old rank (rank lhs) (rank id) within, ?_⟩
    refine le_of_eq (Eq.trans ?_ (old rank (rank lhs) (rank id) value.inside).symm)
    exact Function.update_self (f := Function.update rank g.size (rank lhs)) _ _
  · have first := computes.makeConstant (BitVec.ofNat 64 count) ty code
    have computed : machineBinop shifts (v lhs) (BitVec.ofNat 64 count) = some (v id) := by
      rcases isShift with rfl | rfl <;> exact given
    refine ⟨_, first.push code'.inside inside
      ⟨?_, ?_, fun _ isUnop => ?_, fun left right _ inputs => ?_⟩,
      fun other within => old v _ (v id) within, ?_⟩
    · rcases isShift with rfl | rfl <;> nofun
    · rcases isShift with rfl | rfl <;> nofun
    · rcases isShift with rfl | rfl <;> cases isUnop
    · cases inputs
      rw [Function.update_of_ne (Nat.ne_of_lt operand.inside)]
      exact (congrArg _ (Function.update_self (f := v) g.size _)).trans computed
    · refine Eq.trans ?_ (old v _ (v id) value.inside).symm
      exact Function.update_self (f := Function.update v g.size _) _ _

/-- The replacement of an operation stands for it. -/
theorem stands_reduced {id lhs rhs : NodeId} (acyclic : Acyclic g)
    (live : (g.node id).isDead = false) (inputs : (g.node id).inputs = [some lhs, some rhs])
    {made : NodeId × Graph}
    (found : newNode g (g.node id).kind lhs rhs (g.node id).typeId = some made) :
    Stands params ret g result made.2 id made.1
      (fun v => ∃ args, Computes g args v) := by
  have isBinop := newNode_isBinop found
  obtain ⟨value, first, second, read, left, right⟩ := code.isValue_binop live isBinop
  cases read.symm.trans inputs
  have below (rank : NodeId → Nat) (ranked : Ranked g rank) : rank lhs < rank id ∧
      rank rhs < rank id :=
    ⟨ranked id live lhs (by simp [inputs]), ranked id live rhs (by simp [inputs])⟩
  have reads {args : List Word} {v : NodeId → Word} (computes : Computes g args v) :
      evalBinop (g.node id).kind (v lhs) (v rhs) = some (v id) :=
    InstrSel.evalBinop_of_machineBinop (computes.binary id lhs rhs live isBinop inputs)
  obtain ⟨rank, ranked⟩ := acyclic
  have operand {new : NodeId} (isValue : IsValue g new)
      (less : ∀ rank, Ranked g rank → rank new < rank id)
      (same : ∀ args v, Computes g args v → v new = v id) :
      Stands params ret g result g id new (fun v => ∃ args, Computes g args v) := by
    refine ⟨code, le_rfl, value, isValue, fun here => ?_, fun rank ranked => ?_,
      fun args v computes _ => ?_⟩
    · have below := less rank ranked
      rw [here] at below
      exact Nat.lt_irrefl _ below
    · exact ⟨rank, ranked, fun _ _ => rfl, (less rank ranked).le⟩
    · exact ⟨v, computes, fun _ _ => rfl, same args v computes⟩
  cases newNode_reduces found with
  | left same =>
      exact operand left (fun rank ranked => (below rank ranked).1) fun args v computes =>
        (same _ _ _ (operandValues computes left right) (reads computes)).symm
  | right same =>
      exact operand right (fun rank ranked => (below rank ranked).2) fun args v computes =>
        (same _ _ _ (operandValues computes left right) (reads computes)).symm
  | constant c same =>
      apply (stands_constant c _ code value).weaken
      rintro v ⟨args, computes⟩
      exact same _ _ _ (operandValues computes left right) (reads computes)
  | shift shifts isShift count same =>
      apply (stands_shift code value left (fun rank ranked => (below rank ranked).1) isShift
        count _).weaken
      rintro v ⟨args, computes⟩
      exact same _ _ _ (operandValues computes left right) (reads computes)

omit code

/-- A visit keeps what straight-line code returns. -/
theorem visit_evolves {progress : Progress}
    (code : StraightCode progress.graph params ret result) (acyclic : Acyclic progress.graph)
    (id : NodeId) :
    ∃ result', Evolves params ret progress.graph result (visit progress id).graph result' := by
  unfold visit
  simp only
  split
  case h_1 => exact ⟨result, .refl code⟩
  case h_2 lhs rhs found =>
    split
    case h_1 => exact ⟨result, .refl code⟩
    case h_2 new h made =>
      obtain ⟨live, inputs, -⟩ := operands_eq found
      have stands := stands_reduced code acyclic live inputs made
      exact ⟨_, (Evolves.refl code).redirect code.returned.value.inside stands
        fun args v v' _ computes _ => ⟨args, computes⟩⟩

theorem sweep_evolves {fuel : Nat} {id : NodeId} (progress : Progress)
    (code : StraightCode progress.graph params ret result) (acyclic : Acyclic progress.graph) :
    ∃ result', Evolves params ret progress.graph result (sweep fuel id progress).graph
      result' := by
  induction fuel generalizing id progress result with
  | zero => exact ⟨result, .refl code⟩
  | succ fuel ih =>
      unfold sweep
      split
      case isFalse => exact ⟨result, .refl code⟩
      case isTrue =>
        obtain ⟨result', visited⟩ := visit_evolves code acyclic id
        obtain ⟨result'', swept⟩ := ih _ visited.code (visited.carries.acyclic acyclic)
        exact ⟨result'', visited.trans swept⟩

/-- Strength reduction keeps what straight-line code returns. -/
theorem run_carries (code : StraightCode g params ret result) (acyclic : Acyclic g) :
    ∃ result', Carries params ret g result (run g).graph result' := by
  obtain ⟨result', swept⟩ := sweep_evolves { graph := g } code acyclic
  exact ⟨result', swept.carries⟩

end Sweep

end StrengthReduction

/-- The ids that the hash of the inputs tells apart. -/
def kHashedIds : Nat := 2 ^ 24

theorem hashInputs_one {a b : NodeId} (aSmall : a < kHashedIds) (bSmall : b < kHashedIds)
    (same : hashInputs [some a] = hashInputs [some b]) : a = b :=
  hash_step_inj aSmall bSmall (congrArg (fun h : Word => h.toNat / 2 ^ 24) same)

theorem hashInputs_two {a b c d : NodeId} (aSmall : a < kHashedIds) (bSmall : b < kHashedIds)
    (cSmall : c < kHashedIds) (dSmall : d < kHashedIds)
    (same : hashInputs [some a, some b] = hashInputs [some c, some d]) : a = c ∧ b = d := by
  have step := prime_cancel same
  -- The second id only touches the low bits, so the first steps agree in the high ones.
  have first : a = c := by
    apply hash_step_inj aSmall cSmall
    have high := congrArg (fun h : Word => h.toNat / 2 ^ 24) step
    simp only [refBits, shift_xor_small bSmall, shift_xor_small dSmall] at high
    exact high
  subst first
  refine ⟨rfl, ?_⟩
  exact hash_step_inj bSmall dSmall (congrArg (fun h : Word => h.toNat / 2 ^ 24) same)

namespace Gvn

section Paired

variable {g : Graph} (rewriteMap : List NodeRef)

theorem rewriteSlot_paired (paired : g.Paired) (id slot : NodeId) :
    (rewriteSlot rewriteMap id g slot).Paired := by
  unfold rewriteSlot
  split
  case h_1 => exact paired
  case h_2 input read =>
    split
    case h_1 => exact paired
    case h_2 =>
      apply paired.setInput
      by_contra outside
      rw [List.getD_eq_default _ _ (Nat.not_lt.mp outside)] at read
      cases read

theorem rewriteNode_paired (paired : g.Paired) (id : NodeId) :
    (rewriteNode rewriteMap g id).Paired := by
  unfold rewriteNode
  split
  · exact paired
  · generalize (g.node id).inputs.length = bound
    induction bound with
    | zero => exact paired
    | succ bound ih =>
        rw [List.range_succ, List.foldl_append]
        exact rewriteSlot_paired rewriteMap ih id bound

theorem rewriteNodes_paired (paired : g.Paired) (bound : Nat) :
    ((List.range bound).foldl (rewriteNode rewriteMap) g).Paired := by
  induction bound with
  | zero => exact paired
  | succ bound ih =>
      rw [List.range_succ, List.foldl_append]
      exact rewriteNode_paired rewriteMap ih bound

theorem markNodes_paired (paired : g.Paired) (bound : Nat) :
    ((List.range bound).foldl (markNode rewriteMap) g).Paired := by
  induction bound with
  | zero => exact paired
  | succ bound ih =>
      rw [List.range_succ, List.foldl_append]
      change (markNode _ _ _).Paired
      unfold markNode
      split
      · exact ih
      · exact ih.setFlag bound .isDead

theorem run_paired (paired : g.Paired) : (run g).1.Paired := by
  unfold run
  simp only
  split
  · exact paired
  · exact markNodes_paired _ (rewriteNodes_paired _ paired _) _

end Paired

section Straight

variable {params : Nat} {ret result : NodeId} {g : Graph}

theorem target_le (g : Graph) (id : NodeId) : target g id ≤ id :=
  FirstAlike.canonical_le id

/-- A redirected node has the kind and the payload of its target. -/
theorem target_cases (g : Graph) (id : NodeId) : target g id = id ∨
    target g id < id ∧ IsNumbered g id ∧ IsNumbered g (target g id) ∧
      (g.node (target g id)).kind = (g.node id).kind ∧
        (g.node (target g id)).payload = (g.node id).payload := by
  rcases Nat.lt_or_eq_of_le (target_le g id) with less | same
  · right
    cases key : insideKey g id with
    | none => exact absurd (FirstAlike.canonical_of_none key) (Nat.ne_of_lt less)
    | some k =>
        obtain ⟨numbered, known⟩ := insideKey_eq_some.mp key
        obtain ⟨first, known'⟩ := insideKey_eq_some.mp (FirstAlike.canonical_of_key key).1
        obtain ⟨kind, -, payload, -⟩ := HashKey.mk.inj (known.symm.trans known')
        exact ⟨less, numbered, first, kind.symm, payload.symm⟩
  · exact .inl same

theorem target_target (g : Graph) (id : NodeId) : target g (target g id) = target g id :=
  FirstAlike.canonical_canonical id

theorem rewritten_isDead (g : Graph) (id : NodeId) : (rewritten g id).isDead = false ↔
    (g.node id).isDead = false ∧ target g id = id := by
  rw [rewritten]
  split
  case isTrue dead => simp [dead]
  case isFalse live =>
    split
    case isTrue kept =>
      have alive : (g.node id).isDead = false := (Bool.not_eq_true _).mp live
      exact iff_of_true alive ⟨alive, kept⟩
    case isFalse moved =>
      refine iff_of_false (fun alive => ?_) fun both => moved both.2
      have dead := (Node.isDead_setFlag _ _).symm.trans alive
      cases (Bool.or_true _).symm.trans dead

variable (code : StraightCode g params ret result)

include code

theorem target_early {id : NodeId} (early : id < firstValue) : target g id = id := by
  have apart : ∀ id < 3, ∀ other < id,
      ((prologue.graph.node other).kind, (prologue.graph.node other).payload) ≠
        ((prologue.graph.node id).kind, (prologue.graph.node id).payload) := by
    decide
  rcases target_cases g id with same | ⟨less, -, -, kind, payload⟩
  · exact same
  · obtain ⟨⟨flags, node⟩, -⟩ := code.before id early
    obtain ⟨⟨flags', node'⟩, -⟩ := code.before _ (less.trans early)
    rw [node, node'] at kind payload
    exact absurd (Prod.ext kind payload) (apart id early _ less)

theorem target_ret : target g ret = ret := by
  rcases target_cases g ret with same | ⟨-, -, numbered, kind, -⟩
  · exact same
  · rw [code.returned.kind] at kind
    rcases code.kinds numbered.2.1 with other | other | mapped | ⟨same, -⟩
    · cases other.symm.trans kind
    · cases other.symm.trans kind
    · rw [kind] at mapped
      cases mapped
    · exact same

/-- The targets stand for the nodes. -/
theorem run_redirected : Redirected g (run g).1 ret (target g) := by
  have node := run_fst_node g
  have fields (id : NodeId) : ∃ flags inputs,
      (run g).1.node id = { g.node id with flags, inputs } ∧
        flags.has .isPgoSpeculated = (g.node id).flags.has .isPgoSpeculated := by
    rw [node, rewritten]
    split
    · exact ⟨_, _, rfl, rfl⟩
    · split
      · exact ⟨_, _, rfl, rfl⟩
      · exact ⟨_, _, rfl, (NodeFlags.has_set _ _ _).trans (Bool.or_false _)⟩
  refine ⟨run_fst_size g, run_paired code.paired, ?_, ?_, ?_, ?_, ?_, ?_, fun _ early =>
    target_early code early, target_ret code⟩
  · intro id input member
    rw [node, rewritten] at member
    have renamed (member : some input ∈ (g.node id).inputs.map (Option.map (target g))) :
        input < g.size := by
      obtain ⟨ref, read, same⟩ := List.mem_map.mp member
      obtain ⟨before, rfl, rfl⟩ := Option.map_eq_some_iff.mp same
      exact (target_le g before).trans_lt (code.inside id before read)
    split at member
    · exact code.inside id input member
    · split at member
      · exact renamed member
      · exact renamed member
  · intro id
    obtain ⟨flags, inputs, same, kept⟩ := fields id
    rw [same, kept]
  · intro id
    obtain ⟨flags, inputs, same, -⟩ := fields id
    rw [same]
    exact ⟨rfl, rfl, rfl, rfl⟩
  · intro id live
    rw [node] at live ⊢
    obtain ⟨alive, kept⟩ := (rewritten_isDead g id).mp live
    rw [rewritten, if_neg (ne_true_of_eq_false alive), if_pos kept]
  · intro id
    rw [node]
    exact rewritten_isDead g id
  · intro id value
    obtain ⟨flags, inputs, same, -⟩ := fields (target g id)
    have alive : (g.node (target g id)).isDead = false ∧
        isMapped (g.node (target g id)).kind = true := by
      rcases target_cases g id with same | ⟨-, -, first, kind, -⟩
      · rw [same]
        exact ⟨value.live, value.mapped⟩
      · exact ⟨first.2.1, kind ▸ value.mapped⟩
    constructor
    · rw [node]
      exact (rewritten_isDead g _).mpr ⟨alive.1, target_target g id⟩
    · rw [same]
      exact alive.2

/-- Straight-line code stays straight-line code. -/
theorem run_code : StraightCode (run g).1 params ret (target g result) :=
  (run_redirected code).code code

omit code in
/-- How many inputs the nodes of a kind have. -/
def arity (kind : NodeKind) : Nat :=
  if kind = .proj ∨ kind.isUnop = true then 1
  else if kind.isBinop = true then 2
  else if kind = .returnNode then 3
  else 0

theorem inputs_arity {id : NodeId} (live : (g.node id).isDead = false) :
    ∃ ids : List NodeId, (g.node id).inputs = ids.map some ∧
      ids.length = arity (g.node id).kind := by
  rcases Nat.lt_or_ge id firstValue with early | late
  · have nodes : ∀ id < 3, ∃ ids ∈ [[], [kStartNodeId]],
        (prologue.graph.node id).inputs = ids.map some ∧
          ids.length = arity (prologue.graph.node id).kind := by
      decide
    obtain ⟨⟨flags, node⟩, -⟩ := code.before id early
    obtain ⟨ids, -, inputs, length⟩ := nodes id early
    rw [node]
    exact ⟨ids, inputs, length⟩
  · by_cases isRet : id = ret
    · rw [isRet, code.returned.kind]
      exact ⟨[1, 2, result], code.returned.inputs, rfl⟩
    · by_cases inside : id < g.size
      · cases code.placed id late inside live isRet with
        | projection kind inputs =>
            refine ⟨[kStartNodeId], inputs, ?_⟩
            rw [kind]
            rfl
        | leaf kind inputs =>
            refine ⟨[], inputs, ?_⟩
            rcases kind with kind | kind <;> rw [kind] <;> rfl
        | unary kind inputs value =>
            refine ⟨[_], inputs, ?_⟩
            rw [arity, if_pos (.inr kind)]
            rfl
        | binary kind mapped inputs left right =>
            refine ⟨[_, _], inputs, ?_⟩
            cases node : (g.node id).kind <;> rw [node] at kind <;> first | rfl | cases kind
      · rw [g.node_of_size_le (Nat.not_lt.mp inside)]
        exact ⟨[], rfl, rfl⟩

/-- The hash tells the nodes of a small graph apart. -/
theorem hashesApart (small : g.size ≤ kHashedIds) : HashesApart g := by
  intro id other first second kind _ _ hash
  have below (user input : NodeId) (member : some input ∈ (g.node user).inputs) :
      input < kHashedIds :=
    (code.inside user input member).trans_le small
  by_cases isReturn : (g.node id).kind = .returnNode
  · have unique {id : NodeId} (numbered : IsNumbered g id)
        (kind : (g.node id).kind = .returnNode) : id = ret := by
      rcases code.kinds numbered.2.1 with other | other | mapped | ⟨same, -⟩
      · cases other.symm.trans kind
      · cases other.symm.trans kind
      · rw [kind] at mapped
        cases mapped
      · exact same
    rw [unique first isReturn, unique second (kind ▸ isReturn)]
  · obtain ⟨ids, inputs, length⟩ := inputs_arity code first.2.1
    obtain ⟨ids', inputs', length'⟩ := inputs_arity code second.2.1
    have few : ids.length ≤ 2 := by
      rw [length, arity]
      split_ifs <;> decide
    have same : ids'.length = ids.length := by rw [length, length', kind]
    have small (input : NodeId) (member : input ∈ ids) : input < kHashedIds :=
      below id input (inputs ▸ List.mem_map_of_mem member)
    have small' (input : NodeId) (member : input ∈ ids') : input < kHashedIds :=
      below other input (inputs' ▸ List.mem_map_of_mem member)
    rw [inputs, inputs'] at hash ⊢
    match ids, ids', same, few with
    | [], [], _, _ => rfl
    | [a], [b], _, _ =>
        rw [hashInputs_one (small a (by simp)) (small' b (by simp)) hash]
    | [a, b], [c, d], _, _ =>
        obtain ⟨rfl, rfl⟩ := hashInputs_two (small a (by simp)) (small b (by simp))
          (small' c (by simp)) (small' d (by simp)) hash
        rfl

/-- One more than the ranks of the inputs. -/
def inputRank (g : Graph) (rank : NodeId → Nat) (id : NodeId) : Nat :=
  (g.node id).inputs.foldr (fun ref most => max ((ref.map (rank · + 1)).getD 0) most) 0

omit code in
theorem lt_inputRank {rank : NodeId → Nat} {id input : NodeId}
    (member : some input ∈ (g.node id).inputs) : rank input < inputRank g rank id := by
  rw [inputRank]
  revert member
  induction (g.node id).inputs with
  | nil => exact fun member => absurd member List.not_mem_nil
  | cons ref refs ih =>
      intro member
      rcases List.mem_cons.mp member with rfl | member
      · exact Nat.lt_of_lt_of_le (Nat.lt_succ_self _) (Nat.le_max_left _ _)
      · exact (ih member).trans_le (Nat.le_max_right _ _)

omit code in
theorem inputRank_le {rank : NodeId → Nat} {id : NodeId} {bound : Nat}
    (above : ∀ input, some input ∈ (g.node id).inputs → rank input < bound) :
    inputRank g rank id ≤ bound := by
  rw [inputRank]
  revert above
  induction (g.node id).inputs with
  | nil => exact fun _ => Nat.zero_le _
  | cons ref refs ih =>
      intro above
      apply Nat.max_le.mpr
      refine ⟨?_, ih fun input member => above input (List.mem_cons_of_mem _ member)⟩
      cases ref with
      | none => exact Nat.zero_le _
      | some input => exact above input List.mem_cons_self

/-- The ranks that only depend on the inputs. -/
theorem ranked_inputRank {rank : NodeId → Nat} (ranked : Ranked g rank) :
    Ranked g (inputRank g rank) := by
  intro id live input member
  have inner : inputRank g rank input ≤ rank input :=
    inputRank_le fun other read => ranked input (code.live_input live member) other read
  exact inner.trans_lt (lt_inputRank member)

/-- Value numbering keeps what small straight-line code returns. -/
theorem run_carries (small : g.size ≤ kHashedIds) :
    Carries params ret g result (run g).1 (target g result) := by
  have redirected := run_redirected code
  -- A node and its target are the same computation.
  have alike (id : NodeId) : target g id = id ∨
      IsNumbered g (target g id) ∧ IsNumbered g id ∧
        Alike (g.node (target g id)) (g.node id) :=
    (target_eq_iff (hashesApart code small)).mp (target_target g id)
  refine ⟨run_code code, (run_fst_size g).ge, ?_, fun args v computes => ?_⟩
  · rintro ⟨rank, ranked⟩
    refine ⟨inputRank g rank, redirected.ranked (ranked_inputRank code ranked) fun id => ?_⟩
    rcases alike id with same | ⟨-, -, alike⟩
    · exact Nat.le_of_eq (congrArg _ same)
    · exact Nat.le_of_eq (by rw [inputRank, inputRank, alike.2.2.2])
  · have equal (id : NodeId) (value : IsValue g id) : v (target g id) = v id := by
      rcases alike id with same | ⟨first, second, kind, -, payload, inputs⟩
      · rw [same]
      · cases code.placed_value value with
        | projection other _ =>
            have mapped := value.mapped
            rw [other] at mapped
            cases mapped
        | leaf other _ =>
            rcases other with constant | parameter
            · rw [computes.constant id second.2.1 constant,
                computes.constant _ first.2.1 (kind.trans constant), payload]
            · exact absurd parameter second.2.2.2
        | unary isUnop read _ =>
            have computed := computes.unary id _ second.2.1 isUnop read
            have computed' := computes.unary _ _ first.2.1 (kind ▸ isUnop) (inputs.trans read)
            rw [kind, computed] at computed'
            exact (Option.some.inj computed').symm
        | binary isBinop _ read _ _ =>
            have computed := computes.binary id _ _ second.2.1 isBinop read
            have computed' := computes.binary _ _ _ first.2.1 (kind ▸ isBinop)
              (inputs.trans read)
            rw [kind, computed] at computed'
            exact (Option.some.inj computed').symm
    exact ⟨v, redirected.computes code computes equal,
      equal result code.returned.value⟩

end Straight

end Gvn

end Aegis
