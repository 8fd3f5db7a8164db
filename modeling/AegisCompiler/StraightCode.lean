import AegisCompiler.CopyPropagation
import AegisCompiler.EffectContinuity
import AegisCompiler.GraphOperations
import AegisCompiler.StraightSource

/-!
# Straight-line code between the passes

The graph of a straight-line function consists of the start node with its projections, of
values, and of a return.  This form survives everything that the passes do to it: they append
constants, shifts and projections, and they replace values by others of the same value.
-/

namespace Aegis

open ControlWalk (paramRank)
open InstrSel (isMapped)
open Lowerer (prologue firstValue declaredNode)

/-- A live node that the selector has an instruction for. -/
structure IsValue (g : Graph) (id : NodeId) : Prop where
  live : (g.node id).isDead = false
  mapped : isMapped (g.node id).kind = true

/-- A projection of the start node, or a value with the operands that its kind takes. -/
inductive Placed (g : Graph) (n : Node) : Prop where
  | projection (kind : n.kind = .proj) (inputs : n.inputs = [some kStartNodeId])
  | leaf (kind : n.kind = .constant ∨ n.kind = .parameter) (inputs : n.inputs = [])
  | unary {operand : NodeId} (kind : n.kind.isUnop = true) (inputs : n.inputs = [some operand])
      (value : IsValue g operand)
  | binary {lhs rhs : NodeId} (kind : n.kind.isBinop = true) (mapped : isMapped n.kind = true)
      (inputs : n.inputs = [some lhs, some rhs]) (left : IsValue g lhs) (right : IsValue g rhs)

/-- The only live return passes on a value. -/
structure Returned (g : Graph) (ret result : NodeId) : Prop where
  live : (g.node ret).isDead = false
  kind : (g.node ret).kind = .returnNode
  inputs : (g.node ret).inputs = [some 1, some 2, some result]
  value : IsValue g result

/-- Straight-line code with some parameters and one return. -/
structure StraightCode (g : Graph) (params : Nat) (ret result : NodeId) : Prop where
  paired : g.Paired
  effects : ∀ id, (g.node id).effect = effectClassOf (g.node id).kind
  inside : ∀ id input, some input ∈ (g.node id).inputs → input < g.size
  unguarded : ∀ id, (g.node id).flags.has .isPgoSpeculated = false
  before : ∀ id < firstValue, (∃ flags, g.node id = { prologue.graph.node id with flags }) ∧
    (g.node id).isDead = false
  placed : ∀ id, firstValue ≤ id → id < g.size → (g.node id).isDead = false → id ≠ ret →
    Placed g (g.node id)
  isParam : ∀ id, (g.node id).kind = .parameter ↔ firstValue ≤ id ∧ id < declaredNode params
  declared : declaredNode params ≤ ret
  returned : Returned g ret result

/-- Every live node reads nodes of a smaller rank. -/
def Ranked (g : Graph) (rank : NodeId → Nat) : Prop :=
  ∀ id, (g.node id).isDead = false → ∀ input, some input ∈ (g.node id).inputs →
    rank input < rank id

def Acyclic (g : Graph) : Prop := ∃ rank, Ranked g rank

/-- The values of the live nodes for some arguments.  No operation traps. -/
structure Computes (g : Graph) (args : List Word) (v : NodeId → Word) : Prop where
  constant : ∀ id, (g.node id).isDead = false → (g.node id).kind = .constant →
    v id = (g.node id).payload
  parameter : ∀ id, (g.node id).isDead = false → (g.node id).kind = .parameter →
    v id = args.getD (paramRank g id) 0
  unary : ∀ id operand, (g.node id).isDead = false → (g.node id).kind.isUnop = true →
    (g.node id).inputs = [some operand] → evalUnop (g.node id).kind (v operand) = some (v id)
  binary : ∀ id lhs rhs, (g.node id).isDead = false → (g.node id).kind.isBinop = true →
    (g.node id).inputs = [some lhs, some rhs] →
      machineBinop (g.node id).kind (v lhs) (v rhs) = some (v id)

/-- Straight-line code became straight-line code that returns the same value. -/
structure Carries (params : Nat) (ret : NodeId) (g : Graph) (result : NodeId) (h : Graph)
    (result' : NodeId) : Prop where
  code : StraightCode h params ret result'
  size : g.size ≤ h.size
  acyclic : Acyclic g → Acyclic h
  values : ∀ args v, Computes g args v → ∃ v', Computes h args v' ∧ v' result' = v result

theorem Carries.refl {g : Graph} {params : Nat} {ret result : NodeId}
    (code : StraightCode g params ret result) : Carries params ret g result g result :=
  ⟨code, le_rfl, id, fun _ v computes => ⟨v, computes, rfl⟩⟩

theorem Carries.trans {g h k : Graph} {params : Nat} {ret result result' result'' : NodeId}
    (first : Carries params ret g result h result')
    (second : Carries params ret h result' k result'') :
    Carries params ret g result k result'' where
  code := second.code
  size := first.size.trans second.size
  acyclic given := second.acyclic (first.acyclic given)
  values args v computes := by
    obtain ⟨v', computes', same⟩ := first.values args v computes
    obtain ⟨v'', computes'', same'⟩ := second.values args v' computes'
    exact ⟨v'', computes'', same'.trans same⟩

section Nodes

variable {g : Graph} {params : Nat} {ret result : NodeId}

theorem IsValue.inside {id : NodeId} (value : IsValue g id) : id < g.size := by
  by_contra outside
  have mapped := value.mapped
  rw [g.node_of_size_le (Nat.not_lt.mp outside)] at mapped
  cases mapped

theorem Placed.mono {h : Graph} {n : Node} (placed : Placed g n)
    (values : ∀ id, some id ∈ n.inputs → IsValue g id → IsValue h id) : Placed h n := by
  cases placed with
  | projection kind inputs => exact .projection kind inputs
  | leaf kind inputs => exact .leaf kind inputs
  | unary kind inputs value =>
      exact .unary kind inputs (values _ (by simp [inputs]) value)
  | binary kind mapped inputs left right =>
      exact .binary kind mapped inputs (values _ (by simp [inputs]) left)
        (values _ (by simp [inputs]) right)

theorem Placed.inside {n : Node} (placed : Placed g n) (started : 0 < g.size) {input : NodeId}
    (member : some input ∈ n.inputs) : input < g.size := by
  cases placed with
  | projection kind inputs =>
      rw [inputs] at member
      cases List.mem_singleton.mp member
      exact started
  | leaf kind inputs =>
      rw [inputs] at member
      cases member
  | unary kind inputs value =>
      rw [inputs] at member
      cases List.mem_singleton.mp member
      exact value.inside
  | binary kind mapped inputs left right =>
      rw [inputs] at member
      rcases List.mem_pair.mp member with same | same <;> cases same
      · exact left.inside
      · exact right.inside

theorem Placed.kind_cases {n : Node} (placed : Placed g n) :
    n.kind = .proj ∨ isMapped n.kind = true := by
  cases placed with
  | projection kind inputs => exact .inl kind
  | leaf kind inputs =>
      rcases kind with kind | kind <;> exact .inr (by rw [kind]; rfl)
  | unary kind inputs value =>
      refine .inr ?_
      simp only [isMapped, InstrSel.isUnop_iff.mp kind, Bool.or_true, Bool.true_or]
  | binary kind mapped inputs left right => exact .inr mapped

theorem Placed.inputs_of_proj {n : Node} (placed : Placed g n) (proj : n.kind = .proj) :
    n.inputs = [some kStartNodeId] := by
  cases placed with
  | projection _ inputs => exact inputs
  | leaf kind _ => rcases kind with kind | kind <;> cases proj.symm.trans kind
  | unary kind _ _ =>
      rw [proj] at kind
      cases kind
  | binary kind _ _ _ _ =>
      rw [proj] at kind
      cases kind

variable (code : StraightCode g params ret result)

include code

theorem StraightCode.started : 0 < g.size :=
  Nat.lt_of_le_of_lt (Nat.zero_le _) code.returned.value.inside

theorem StraightCode.ret_inside : ret < g.size :=
  g.inside_of_kind code.returned.kind (by decide)

theorem StraightCode.before_ret : firstValue ≤ ret :=
  (Nat.le_add_right _ _).trans code.declared

theorem StraightCode.kind_before {id : NodeId} (early : id < firstValue) :
    ((g.node id).kind = .start ∨ (g.node id).kind = .proj) ∧
      ∀ input, some input ∈ (g.node id).inputs → input = kStartNodeId := by
  have nodes : ∀ id < 3, ((prologue.graph.node id).kind = .start ∨
      (prologue.graph.node id).kind = .proj) ∧
        ∀ ref ∈ (prologue.graph.node id).inputs, ref = some kStartNodeId := by
    decide
  obtain ⟨⟨flags, node⟩, -⟩ := code.before id early
  rw [node]
  refine ⟨(nodes id early).1, fun input member => ?_⟩
  exact Option.some.inj ((nodes id early).2 _ member)

/-- The kinds of the live nodes. -/
theorem StraightCode.kinds {id : NodeId} (live : (g.node id).isDead = false) :
    (g.node id).kind = .start ∨ (g.node id).kind = .proj ∨
      isMapped (g.node id).kind = true ∨ id = ret ∧ (g.node id).kind = .returnNode := by
  by_cases inside : id < g.size
  · rcases Nat.lt_or_ge id firstValue with early | late
    · exact (code.kind_before early).1.imp_right .inl
    · by_cases isRet : id = ret
      · exact .inr (.inr (.inr ⟨isRet, isRet ▸ code.returned.kind⟩))
      · exact .inr ((code.placed id late inside live isRet).kind_cases.imp_right .inl)
  · rw [g.node_of_size_le (Nat.not_lt.mp inside)]
    exact .inl rfl

/-- A value stands behind the prologue, and it is not the return. -/
theorem StraightCode.place {id : NodeId} (mapped : isMapped (g.node id).kind = true) :
    firstValue ≤ id ∧ id ≠ ret := by
  constructor
  · by_contra early
    rcases (code.kind_before (Nat.not_le.mp early)).1 with kind | kind <;>
      rw [kind] at mapped <;> cases mapped
  · rintro rfl
    rw [code.returned.kind] at mapped
    cases mapped

theorem StraightCode.placed_value {id : NodeId} (value : IsValue g id) :
    Placed g (g.node id) := by
  obtain ⟨late, notRet⟩ := code.place value.mapped
  exact code.placed id late value.inside value.live notRet

/-- The start node and its projections read nothing else. -/
theorem StraightCode.reads_start {id input : NodeId} (live : (g.node id).isDead = false)
    (kind : (g.node id).kind = .start ∨ (g.node id).kind = .proj)
    (member : some input ∈ (g.node id).inputs) : input = kStartNodeId := by
  rcases Nat.lt_or_ge id firstValue with early | late
  · exact (code.kind_before early).2 input member
  · have notRet : id ≠ ret := by
      rintro rfl
      rw [code.returned.kind] at kind
      rcases kind with kind | kind <;> cases kind
    have inside : id < g.size := by
      by_contra outside
      rw [g.node_of_size_le (Nat.not_lt.mp outside)] at member
      cases member
    have placed := code.placed id late inside live notRet
    rcases placed.kind_cases with proj | mapped
    · rw [placed.inputs_of_proj proj] at member
      cases List.mem_singleton.mp member
      rfl
    · rcases kind with kind | kind <;> rw [kind] at mapped <;> cases mapped

theorem StraightCode.isValue_input {id input : NodeId} (value : IsValue g id)
    (member : some input ∈ (g.node id).inputs) : IsValue g input := by
  cases code.placed_value value with
  | projection kind inputs =>
      have mapped := value.mapped
      rw [kind] at mapped
      cases mapped
  | leaf kind inputs =>
      rw [inputs] at member
      cases member
  | unary kind inputs value =>
      rw [inputs] at member
      cases List.mem_singleton.mp member
      exact value
  | binary kind mapped inputs left right =>
      rw [inputs] at member
      rcases List.mem_pair.mp member with same | same <;> cases same
      · exact left
      · exact right

theorem StraightCode.isValue_unop {id : NodeId} (live : (g.node id).isDead = false)
    (kind : (g.node id).kind.isUnop = true) :
    IsValue g id ∧ ∃ operand, (g.node id).inputs = [some operand] ∧ IsValue g operand := by
  have value : IsValue g id := ⟨live, by
    simp only [isMapped, InstrSel.isUnop_iff.mp kind, Bool.or_true, Bool.true_or]⟩
  refine ⟨value, ?_⟩
  cases code.placed_value value with
  | projection other inputs =>
      rw [other] at kind
      cases kind
  | leaf other inputs =>
      rcases other with other | other <;> rw [other] at kind <;> cases kind
  | unary _ inputs operand => exact ⟨_, inputs, operand⟩
  | binary other _ _ _ _ =>
      cases node : (g.node id).kind <;> simp_all [NodeKind.isUnop, NodeKind.isBinop]

theorem StraightCode.isValue_binop {id : NodeId} (live : (g.node id).isDead = false)
    (kind : (g.node id).kind.isBinop = true) :
    IsValue g id ∧ ∃ lhs rhs, (g.node id).inputs = [some lhs, some rhs] ∧ IsValue g lhs ∧
      IsValue g rhs := by
  have value : IsValue g id := by
    refine ⟨live, ?_⟩
    rcases code.kinds live with other | other | mapped | ⟨-, other⟩
    · rw [other] at kind
      cases kind
    · rw [other] at kind
      cases kind
    · exact mapped
    · rw [other] at kind
      cases kind
  refine ⟨value, ?_⟩
  cases code.placed_value value with
  | projection other inputs =>
      rw [other] at kind
      cases kind
  | leaf other inputs =>
      rcases other with other | other <;> rw [other] at kind <;> cases kind
  | unary other _ _ =>
      cases node : (g.node id).kind <;> simp_all [NodeKind.isUnop, NodeKind.isBinop]
  | binary _ _ inputs left right => exact ⟨_, _, inputs, left, right⟩

theorem StraightCode.leaf_inputs {id : NodeId} (live : (g.node id).isDead = false)
    (kind : (g.node id).kind = .constant ∨ (g.node id).kind = .parameter) :
    (g.node id).inputs = [] := by
  have value : IsValue g id := ⟨live, by rcases kind with kind | kind <;> rw [kind] <;> rfl⟩
  cases code.placed_value value with
  | projection other inputs => simp_all
  | leaf _ inputs => exact inputs
  | unary other _ _ => rcases kind with kind | kind <;> rw [kind] at other <;> cases other
  | binary other _ _ _ _ => rcases kind with kind | kind <;> rw [kind] at other <;> cases other

/-- What live nodes read is alive. -/
theorem StraightCode.live_input {id input : NodeId} (live : (g.node id).isDead = false)
    (member : some input ∈ (g.node id).inputs) : (g.node input).isDead = false := by
  have inside : id < g.size := by
    by_contra outside
    rw [g.node_of_size_le (Nat.not_lt.mp outside)] at member
    cases member
  have start : (g.node kStartNodeId).isDead = false := (code.before kStartNodeId (by decide)).2
  rcases Nat.lt_or_ge id firstValue with early | late
  · rw [(code.kind_before early).2 input member]
    exact start
  · by_cases isRet : id = ret
    · rw [isRet, code.returned.inputs] at member
      simp only [List.mem_cons, Option.some.injEq, List.not_mem_nil, or_false] at member
      rcases member with rfl | rfl | rfl
      · exact (code.before 1 (by decide)).2
      · exact (code.before 2 (by decide)).2
      · exact code.returned.value.live
    · cases code.placed id late inside live isRet with
      | projection kind inputs =>
          rw [inputs] at member
          cases List.mem_singleton.mp member
          exact start
      | leaf kind inputs =>
          rw [inputs] at member
          cases member
      | unary kind inputs value =>
          rw [inputs] at member
          cases List.mem_singleton.mp member
          exact value.live
      | binary kind mapped inputs left right =>
          rw [inputs] at member
          rcases List.mem_pair.mp member with same | same <;> cases same
          · exact left.live
          · exact right.live

theorem StraightCode.pure {id : NodeId} (live : (g.node id).isDead = false) :
    (g.node id).isPure = true := by
  rw [Node.isPure, code.effects, decide_eq_true_eq]
  rcases code.kinds live with kind | kind | mapped | ⟨-, kind⟩
  · rw [kind]
    rfl
  · rw [kind]
    rfl
  · exact InstrSel.isMapped_pure mapped
  · rw [kind]
    rfl

/-- The verifier accepts straight-line code. -/
theorem StraightCode.verified : g.verify = none := by
  rw [Graph.verify_eq_none, Graph.checkInputs_eq_none, Graph.checkEffects_eq_none,
    Graph.checkFrameStates_eq_none]
  refine ⟨fun id _ live input member => ?_, fun id _ live effectful => ?_,
    fun id _ speculated => ?_, code.paired.checkUses⟩
  · exact ⟨code.inside id input member, code.live_input live member⟩
  · rw [code.pure live] at effectful
    cases effectful
  · rw [code.unguarded id] at speculated
    cases speculated

end Nodes

section Push

variable {g : Graph} {params : Nat} {ret result : NodeId} {n : Node}

theorem IsValue.push {id : NodeId} (value : IsValue g id) (n : Node) :
    IsValue (g.pushNode n).2 id := by
  have node := g.pushNode_node_of_lt n value.inside
  exact ⟨node ▸ value.live, node ▸ value.mapped⟩

theorem isValue_pushed (live : n.isDead = false) (mapped : isMapped n.kind = true) :
    IsValue (g.pushNode n).2 g.size := by
  have node := g.pushNode_node_size n
  exact ⟨node.symm ▸ live, node.symm ▸ mapped⟩

/-- A new value or projection keeps straight-line code. -/
theorem StraightCode.push (code : StraightCode g params ret result) (placed : Placed g n)
    (effect : n.effect = effectClassOf n.kind) (unguarded : n.flags.has .isPgoSpeculated = false)
    (notParam : n.kind ≠ .parameter) :
    StraightCode (g.pushNode n).2 params ret result := by
  have old {id : NodeId} (inside : id < g.size) : (g.pushNode n).2.node id = g.node id :=
    g.pushNode_node_of_lt n inside
  have each {p : NodeId → Node → Prop} (new : p g.size n)
      (others : ∀ id, p id (g.node id)) (id : NodeId) :
      p id ((g.pushNode n).2.node id) := by
    rw [Graph.pushNode_node]
    split
    case isTrue same => exact same ▸ new
    case isFalse => exact others id
  have early : firstValue < g.size := code.before_ret.trans_lt code.ret_inside
  refine ⟨code.paired.pushNode n, ?_, ?_, ?_, ?_, ?_, ?_, code.declared, ?_⟩
  · exact each (p := fun _ node => node.effect = effectClassOf node.kind) effect
      code.effects
  · rw [Graph.pushNode_size]
    refine each (p := fun _ node => ∀ input, some input ∈ node.inputs →
      input < g.size + 1) ?_ ?_
    · exact fun input member => Nat.lt_succ_of_lt (placed.inside code.started member)
    · exact fun id input member => Nat.lt_succ_of_lt (code.inside id input member)
  · exact each (p := fun _ node => node.flags.has .isPgoSpeculated = false) unguarded
      code.unguarded
  · intro id below
    rw [old (below.trans early)]
    exact code.before id below
  · intro id late inside live notRet
    rw [Graph.pushNode_size, Nat.lt_succ_iff_lt_or_eq] at inside
    rcases inside with inside | rfl
    · rw [old inside] at live ⊢
      exact (code.placed id late inside live notRet).mono fun _ _ value => value.push n
    · rw [Graph.pushNode_node_size]
      exact placed.mono fun _ _ value => value.push n
  · intro id
    rw [Graph.pushNode_node]
    split
    case isTrue same =>
      refine ⟨fun kind => absurd kind notParam, fun declared => absurd declared.2 ?_⟩
      rw [same]
      exact Nat.not_lt.mpr (code.declared.trans code.ret_inside.le)
    case isFalse => exact code.isParam id
  · have node := old code.ret_inside
    obtain ⟨live, kind, inputs, value⟩ := code.returned
    exact ⟨node ▸ live, node ▸ kind, node ▸ inputs, value.push n⟩

/-- The new node may have any rank above those of its inputs. -/
theorem Ranked.push {rank : NodeId → Nat} (ranked : Ranked g rank)
    (inside : ∀ id input, some input ∈ (g.node id).inputs → input < g.size) {r : Nat}
    (above : ∀ input, some input ∈ n.inputs → input < g.size ∧ rank input < r) :
    Ranked (g.pushNode n).2 (Function.update rank g.size r) := by
  intro id live input member
  rw [Graph.pushNode_node] at live member
  split at live
  case isTrue same =>
    rw [if_pos same] at member
    obtain ⟨within, below⟩ := above input member
    rw [same, Function.update_self, Function.update_of_ne (Nat.ne_of_lt within)]
    exact below
  case isFalse differs =>
    rw [if_neg differs] at member
    rw [Function.update_of_ne differs,
      Function.update_of_ne (Nat.ne_of_lt (inside id input member))]
    exact ranked id live input member

theorem paramRank_push (n : Node) {id : NodeId} (inside : id < g.size) :
    paramRank (g.pushNode n).2 id = paramRank g id := by
  apply List.countP_congr
  intro p member
  rw [g.pushNode_node_of_lt n ((List.mem_range.mp member).trans inside)]

/-- The equation of one node. -/
structure Equation (n : Node) (v : NodeId → Word) (w : Word) : Prop where
  constant : n.kind = .constant → w = n.payload
  notParam : n.kind ≠ .parameter
  unary : ∀ operand, n.kind.isUnop = true → n.inputs = [some operand] →
    evalUnop n.kind (v operand) = some w
  binary : ∀ lhs rhs, n.kind.isBinop = true → n.inputs = [some lhs, some rhs] →
    machineBinop n.kind (v lhs) (v rhs) = some w

/-- A new node gets the value that its equation demands. -/
theorem Computes.push {args : List Word} {v : NodeId → Word} (computes : Computes g args v)
    (inside : ∀ id input, some input ∈ (g.node id).inputs → input < g.size)
    (new : ∀ input, some input ∈ n.inputs → input < g.size) {w : Word}
    (equation : Equation n v w) :
    Computes (g.pushNode n).2 args (Function.update v g.size w) := by
  have value {input : NodeId} (inside : input < g.size) :
      Function.update v g.size w input = v input :=
    Function.update_of_ne (Nat.ne_of_lt inside) _ _
  constructor
  · intro id live kind
    rw [Graph.pushNode_node] at live kind ⊢
    split at live
    case isTrue same =>
      rw [if_pos same] at kind ⊢
      rw [same, Function.update_self]
      exact equation.constant kind
    case isFalse differs =>
      rw [if_neg differs] at kind ⊢
      rw [Function.update_of_ne differs]
      exact computes.constant id live kind
  · intro id live kind
    rw [Graph.pushNode_node] at live kind
    split at live
    case isTrue same =>
      rw [if_pos same] at kind
      exact absurd kind equation.notParam
    case isFalse differs =>
      rw [if_neg differs] at kind
      have within : id < g.size := g.inside_of_kind kind (by decide)
      rw [Function.update_of_ne differs, paramRank_push n within]
      exact computes.parameter id live kind
  · intro id operand live kind inputs
    rw [Graph.pushNode_node] at live kind inputs ⊢
    split at live
    case isTrue same =>
      rw [if_pos same] at kind inputs ⊢
      rw [same, Function.update_self, value (new operand (by simp [inputs]))]
      exact equation.unary operand kind inputs
    case isFalse differs =>
      rw [if_neg differs] at kind inputs ⊢
      rw [Function.update_of_ne differs, value (inside id operand (by simp [inputs]))]
      exact computes.unary id operand live kind inputs
  · intro id lhs rhs live kind inputs
    rw [Graph.pushNode_node] at live kind inputs ⊢
    split at live
    case isTrue same =>
      rw [if_pos same] at kind inputs ⊢
      rw [same, Function.update_self, value (new lhs (by simp [inputs])),
        value (new rhs (by simp [inputs]))]
      exact equation.binary lhs rhs kind inputs
    case isFalse differs =>
      rw [if_neg differs] at kind inputs ⊢
      rw [Function.update_of_ne differs, value (inside id lhs (by simp [inputs])),
        value (inside id rhs (by simp [inputs]))]
      exact computes.binary id lhs rhs live kind inputs

end Push

/-- Some nodes died, and every live node reads the nodes that stand for its inputs. -/
structure Redirected (g h : Graph) (ret : NodeId) (standsFor : NodeId → NodeId) : Prop where
  size : h.size = g.size
  paired : h.Paired
  inside : ∀ id input, some input ∈ (h.node id).inputs → input < g.size
  flags : ∀ id, (h.node id).flags.has .isPgoSpeculated = (g.node id).flags.has .isPgoSpeculated
  same : ∀ id, (h.node id).kind = (g.node id).kind ∧ (h.node id).effect = (g.node id).effect ∧
    (h.node id).typeId = (g.node id).typeId ∧ (h.node id).payload = (g.node id).payload
  inputs : ∀ id, (h.node id).isDead = false →
    (h.node id).inputs = (g.node id).inputs.map (Option.map standsFor)
  live : ∀ id, (h.node id).isDead = false ↔ (g.node id).isDead = false ∧ standsFor id = id
  value : ∀ id, IsValue g id → IsValue h (standsFor id)
  early : ∀ id < firstValue, standsFor id = id
  ret : standsFor ret = ret

section Redirect

variable {g h : Graph} {params : Nat} {ret result : NodeId} {standsFor : NodeId → NodeId}
variable (redirected : Redirected g h ret standsFor)

include redirected

theorem Redirected.mem_inputs {id input : NodeId} (live : (h.node id).isDead = false)
    (member : some input ∈ (h.node id).inputs) :
    ∃ old, some old ∈ (g.node id).inputs ∧ input = standsFor old := by
  rw [redirected.inputs id live] at member
  obtain ⟨ref, member, same⟩ := List.mem_map.mp member
  cases ref with
  | none => cases same
  | some old => exact ⟨old, member, (Option.some.inj same).symm⟩

theorem Redirected.placed {id : NodeId} (live : (h.node id).isDead = false)
    (placed : Placed g (g.node id)) : Placed h (h.node id) := by
  have kinds := (redirected.same id).1
  have renamed := redirected.inputs id live
  cases placed with
  | projection kind inputs =>
      apply Placed.projection (kinds.trans kind)
      rw [renamed, inputs]
      exact congrArg (fun start => [some start]) (redirected.early kStartNodeId (by decide))
  | leaf kind inputs =>
      apply Placed.leaf (kinds ▸ kind)
      rw [renamed, inputs]
      rfl
  | unary kind inputs value =>
      apply Placed.unary (kinds ▸ kind) _ (redirected.value _ value)
      rw [renamed, inputs]
      rfl
  | binary kind mapped inputs left right =>
      apply Placed.binary (kinds ▸ kind) (kinds ▸ mapped) _ (redirected.value _ left)
        (redirected.value _ right)
      rw [renamed, inputs]
      rfl

/-- Straight-line code stays straight-line code. -/
theorem Redirected.code (code : StraightCode g params ret result) :
    StraightCode h params ret (standsFor result) := by
  have early {id : NodeId} (below : id < firstValue) : (h.node id).isDead = false :=
    (redirected.live id).mpr ⟨(code.before id below).2, redirected.early id below⟩
  refine ⟨redirected.paired, ?_, ?_, ?_, ?_, ?_, ?_, code.declared, ?_⟩
  · intro id
    rw [(redirected.same id).2.1, (redirected.same id).1]
    exact code.effects id
  · intro id input member
    rw [redirected.size]
    exact redirected.inside id input member
  · intro id
    rw [redirected.flags]
    exact code.unguarded id
  · intro id below
    obtain ⟨⟨flags, node⟩, -⟩ := code.before id below
    obtain ⟨kind, effect, typeId, payload⟩ := redirected.same id
    have inputs : (h.node id).inputs = (g.node id).inputs := by
      rw [redirected.inputs id (early below)]
      refine (List.map_congr_left fun ref member => ?_).trans (List.map_id _)
      cases ref with
      | none => rfl
      | some input =>
          rw [(code.kind_before below).2 input member]
          exact congrArg some (redirected.early kStartNodeId (by decide))
    refine ⟨⟨(h.node id).flags, ?_⟩, early below⟩
    have fields : h.node id = { g.node id with flags := (h.node id).flags } := by
      cases new : h.node id
      cases old : g.node id
      simp_all
    rw [fields, node]
  · intro id late inside live notRet
    rw [redirected.size] at inside
    exact redirected.placed live
      (code.placed id late inside ((redirected.live id).mp live).1 notRet)
  · intro id
    rw [(redirected.same id).1]
    exact code.isParam id
  · have live := (redirected.live ret).mpr ⟨code.returned.live, redirected.ret⟩
    refine ⟨live, (redirected.same ret).1.trans code.returned.kind, ?_,
      redirected.value result code.returned.value⟩
    rw [redirected.inputs ret live, code.returned.inputs]
    simp only [List.map_cons, List.map_nil, Option.map_some, redirected.early 1 (by decide),
      redirected.early 2 (by decide)]

theorem Redirected.ranked {rank : NodeId → Nat} (ranked : Ranked g rank)
    (below : ∀ id, rank (standsFor id) ≤ rank id) : Ranked h rank := by
  intro id live input member
  obtain ⟨old, before, rfl⟩ := redirected.mem_inputs live member
  exact (below old).trans_lt (ranked id ((redirected.live id).mp live).1 old before)

/-- The values stay when each node has the value of what stands for it. -/
theorem Redirected.computes {args : List Word} {v : NodeId → Word}
    (code : StraightCode g params ret result) (computes : Computes g args v)
    (equal : ∀ id, IsValue g id → v (standsFor id) = v id) : Computes h args v := by
  have alive {id : NodeId} (live : (h.node id).isDead = false) : (g.node id).isDead = false :=
    ((redirected.live id).mp live).1
  have kinds (id : NodeId) := (redirected.same id).1
  constructor
  · intro id live kind
    rw [(redirected.same id).2.2.2]
    exact computes.constant id (alive live) (kinds id ▸ kind)
  · intro id live kind
    have ranks : paramRank h id = paramRank g id := by
      apply List.countP_congr
      intro p _
      rw [kinds p]
    rw [ranks]
    exact computes.parameter id (alive live) (kinds id ▸ kind)
  · intro id operand live kind inputs
    rw [kinds id] at kind ⊢
    obtain ⟨-, before, known, value⟩ := code.isValue_unop (alive live) kind
    rw [redirected.inputs id live, known] at inputs
    cases inputs
    rw [equal before value]
    exact computes.unary id before (alive live) kind known
  · intro id lhs rhs live kind inputs
    rw [kinds id] at kind ⊢
    obtain ⟨-, first, second, known, left, right⟩ := code.isValue_binop (alive live) kind
    rw [redirected.inputs id live, known] at inputs
    cases inputs
    rw [equal first left, equal second right]
    exact computes.binary id first second (alive live) kind known

end Redirect

section Replace

open CopyPropagation (replaced)

variable {g : Graph} {params : Nat} {ret result old new : NodeId}

/-- The second node stands for the first one. -/
def redirect (old new id : NodeId) : NodeId := if id = old then new else id

theorem redirect_of_ne {id : NodeId} (differs : id ≠ old) : redirect old new id = id :=
  if_neg differs

@[simp]
theorem redirect_self : redirect old new old = new := if_pos rfl

theorem rename_eq_map (ref : NodeRef) :
    Graph.rename old new ref = ref.map (redirect old new) := by
  cases ref with
  | none => rfl
  | some id =>
      rw [Graph.rename, Option.map_some, redirect]
      by_cases same : id = old
      · rw [if_pos (congrArg some same), if_pos same]
      · rw [if_neg fun both => same (Option.some.inj both), if_neg same]

theorem replaced_paired (paired : g.Paired) : (replaced g old new).Paired := by
  have swapped : ∀ (users : List NodeId) (h : Graph), h.Paired →
      (users.foldl (fun g user => g.swapInput user (some old) (some new)) h).Paired := by
    intro users
    induction users with
    | nil => exact fun h paired => paired
    | cons user users ih => exact fun h paired => ih _ (paired.swapInput user _ _)
  exact (swapped _ g paired).setFlag old .isDead

/-- A value stands for another value. -/
theorem StraightCode.replaced (code : StraightCode g params ret result) (dies : IsValue g old)
    (stays : IsValue g new) (apart : new ≠ old) :
    Redirected g (CopyPropagation.replaced g old new) ret (redirect old new) := by
  have listed := code.paired.listed
  have within := dies.inside
  obtain ⟨late, notRet⟩ := code.place dies.mapped
  -- Every node keeps its fields besides its inputs and the mark of the dead.
  have node (id : NodeId) : ∃ flags, (CopyPropagation.replaced g old new).node id =
      { g.node id with flags, inputs := (g.node id).inputs.map (Option.map (redirect old new)) } ∧
        (flags.has .isDead = ((g.node id).isDead || decide (id = old))) ∧
          flags.has .isPgoSpeculated = (g.node id).flags.has .isPgoSpeculated := by
    have renamed : (InductionVariables.replaceUses g old new).node id = _ :=
      listed.swapIn_node (fun _ member => member) new id
    rw [CopyPropagation.replaced, Graph.markDead, Graph.setFlag_node,
      InductionVariables.replaceUses_size, renamed, List.map_congr_left fun ref _ =>
        rename_eq_map ref]
    by_cases same : id = old
    · rw [if_pos ⟨same, within⟩]
      refine ⟨_, rfl, ?_, ?_⟩
      · rw [decide_eq_true same, Bool.or_true]
        exact (Node.isDead_setFlag _ _).trans (Bool.or_true _)
      · exact (NodeFlags.has_set _ _ _).trans (Bool.or_false _)
    · rw [if_neg fun both => same both.1]
      refine ⟨_, rfl, ?_, rfl⟩
      rw [decide_eq_false same, Bool.or_false]
      rfl
  have live (id : NodeId) : ((CopyPropagation.replaced g old new).node id).isDead = false ↔
      (g.node id).isDead = false ∧ redirect old new id = id := by
    obtain ⟨flags, same, dead, -⟩ := node id
    rw [same, Node.isDead, dead, Bool.or_eq_false_iff, decide_eq_false_iff_not, redirect]
    refine and_congr_right fun _ => ?_
    by_cases here : id = old
    · rw [if_pos here, here]
      exact iff_of_false (not_not.mpr rfl) apart
    · rw [if_neg here]
      exact iff_of_true here rfl
  refine ⟨CopyPropagation.replaced_size, replaced_paired code.paired, ?_, ?_, ?_, ?_, live, ?_,
    ?_, redirect_of_ne notRet.symm⟩
  · intro id input member
    obtain ⟨flags, same, -⟩ := node id
    rw [same] at member
    obtain ⟨ref, read, renamed⟩ := List.mem_map.mp member
    obtain ⟨before, rfl, rfl⟩ := Option.map_eq_some_iff.mp renamed
    rw [redirect]
    split
    · exact stays.inside
    · exact code.inside id before read
  · intro id
    obtain ⟨flags, same, -, kept⟩ := node id
    rw [same, kept]
  · intro id
    obtain ⟨flags, same, -⟩ := node id
    rw [same]
    exact ⟨rfl, rfl, rfl, rfl⟩
  · intro id _
    obtain ⟨flags, same, -⟩ := node id
    rw [same]
  · intro id value
    have standing : IsValue g (redirect old new id) := by
      rw [redirect]
      split
      · exact stays
      · exact value
    have fixed : redirect old new (redirect old new id) = redirect old new id := by
      by_cases here : id = old
      · rw [here, redirect_self, redirect_of_ne apart]
      · rw [redirect_of_ne here, redirect_of_ne here]
    refine ⟨(live _).mpr ⟨standing.live, fixed⟩, ?_⟩
    obtain ⟨flags, same, -⟩ := node (redirect old new id)
    rw [same]
    exact standing.mapped
  · intro id below
    exact redirect_of_ne (Nat.ne_of_lt (Nat.lt_of_lt_of_le below late))

end Replace

end Aegis
