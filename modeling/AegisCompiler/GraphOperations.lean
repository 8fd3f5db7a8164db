import AegisCompiler.GraphVerify
import AegisCompiler.UseLists

/-!
# The operations of the graph

Every way of changing the graph: the constructors and the edge mutations.  Each
of them keeps the input slots and the output lists paired, one entry for each
slot.
-/

namespace Aegis

/-- The index of a frame state. -/
abbrev FrameStateId := BitVec 32

namespace Graph

def makeAltered (g : Graph) (kind : NodeKind) (ctrl eff : NodeRef)
    (dataIns : List NodeRef) (typeId : TypeId) (payload : NodePayload) :
    NodeId × Graph :=
  g.makeNode kind (ctrl :: eff :: dataIns) typeId payload

def makeLoad (g : Graph) (ctrl eff ptr : NodeRef) (typeId : TypeId) :
    NodeId × Graph :=
  g.makeAltered .load ctrl eff [ptr] typeId 0

def makeStore (g : Graph) (ctrl eff ptr value : NodeRef) : NodeId × Graph :=
  g.makeAltered .store ctrl eff [ptr, value] kInvalidTypeId 0

def makeAlloc (g : Graph) (ctrl eff : NodeRef) (typeId : TypeId) :
    NodeId × Graph :=
  g.makeAltered .alloc ctrl eff [] typeId 0

/-- A guard, with its frame state as the payload. -/
def makeGuard (g : Graph) (ctrl eff cond : NodeRef) (frameState : FrameStateId) :
    NodeId × Graph :=
  let (id, g) := g.makeAltered .guard ctrl eff [cond] kInvalidTypeId
    (frameState.setWidth 64)
  (id, (g.setFlag id .isGuarded).setFlag id .hasFrameState)

def makeFrameState (g : Graph) (snapshot : List NodeRef) : NodeId × Graph :=
  g.makeNode .frameState snapshot kInvalidTypeId 0

/-- A call of one of the operations, with its arguments. -/
inductive Operation where
  | makeNode (kind : NodeKind) (inputs : List NodeRef) (typeId : TypeId)
      (payload : NodePayload)
  | makeConstant (value : Word) (typeId : TypeId)
  | makeBinop (kind : NodeKind) (a b : NodeRef) (typeId : TypeId)
  | makeCmp (kind : NodeKind) (a b : NodeRef)
  | makeAltered (kind : NodeKind) (ctrl eff : NodeRef) (dataIns : List NodeRef)
      (typeId : TypeId) (payload : NodePayload)
  | makeLoad (ctrl eff ptr : NodeRef) (typeId : TypeId)
  | makeStore (ctrl eff ptr value : NodeRef)
  | makeAlloc (ctrl eff : NodeRef) (typeId : TypeId)
  | makeIf (ctrl cond : NodeRef)
  | makeProj (src : NodeRef) (which : BitVec 32) (typeId : TypeId)
  | makeRegion (preds : List NodeRef)
  | makeLoop (backPred entryPred : NodeRef)
  | makePhi (region : NodeRef) (values : List NodeRef) (typeId : TypeId)
  | makeReturn (ctrl eff value : NodeRef)
  | makeCall (ctrl eff : NodeRef) (callee : SymbolId) (args : List NodeRef)
      (returnType : TypeId) (calleeEffect : EffectClass)
  | makeGuard (ctrl eff cond : NodeRef) (frameState : FrameStateId)
  | makeFrameState (snapshot : List NodeRef)
  | swapInput (id : NodeId) (old new : NodeRef)
  | setInput (id : NodeId) (slot : Nat) (new : NodeRef)
  | appendInput (id : NodeId) (new : NodeRef)
  | markDead (id : NodeId)

namespace Operation

/-- The mutated node exists, and so does the slot of `setInput`; the other
arguments may be any ids. -/
def Accepts (g : Graph) : Operation → Prop
  | swapInput id _ _ | appendInput id _ | markDead id => id < g.size
  | setInput id slot _ => id < g.size ∧ slot < (g.node id).inputs.length
  | _ => True

def apply (g : Graph) : Operation → Graph
  | makeNode kind inputs typeId payload => (g.makeNode kind inputs typeId payload).2
  | makeConstant value typeId => (g.makeConstant value typeId).2
  | makeBinop kind a b typeId => (g.makeBinop kind a b typeId).2
  | makeCmp kind a b => (g.makeCmp kind a b).2
  | makeAltered kind ctrl eff dataIns typeId payload =>
      (g.makeAltered kind ctrl eff dataIns typeId payload).2
  | makeLoad ctrl eff ptr typeId => (g.makeLoad ctrl eff ptr typeId).2
  | makeStore ctrl eff ptr value => (g.makeStore ctrl eff ptr value).2
  | makeAlloc ctrl eff typeId => (g.makeAlloc ctrl eff typeId).2
  | makeIf ctrl cond => (g.makeIf ctrl cond).2
  | makeProj src which typeId =>
      (g.makeNode .proj [src] typeId (.ofProjIndex which)).2
  | makeRegion preds => (g.makeRegion preds).2
  | makeLoop backPred entryPred => (g.makeLoop backPred entryPred).2
  | makePhi region values typeId => (g.makePhi region values typeId).2
  | makeReturn ctrl eff value => (g.makeReturn ctrl eff value).2
  | makeCall ctrl eff callee args returnType calleeEffect =>
      (g.makeCall ctrl eff callee args returnType calleeEffect).2
  | makeGuard ctrl eff cond frameState => (g.makeGuard ctrl eff cond frameState).2
  | makeFrameState snapshot => (g.makeFrameState snapshot).2
  | swapInput id old new => g.swapInput id old new
  | setInput id slot new => g.setInput id slot new
  | appendInput id new => g.appendInput id new
  | markDead id => g.markDead id

end Operation

/-- The graph comes from a fresh one by accepted operations. -/
inductive Operated : Graph → Prop where
  | fresh : Operated fresh
  | apply {g : Graph} (op : Operation) (accepts : op.Accepts g) :
      Operated g → Operated (op.apply g)

/-- A node is listed as a user as often as its input slots hold the input. -/
def Paired (g : Graph) : Prop :=
  ∀ user input, (g.usersSnapshot input).count user =
    (g.node user).inputs.count (some input)

theorem Paired.listed {g : Graph} (paired : g.Paired) : g.Listed :=
  fun user input => Nat.le_of_eq (paired user input).symm

theorem paired_fresh : Graph.fresh.Paired := by
  intro user input
  have quiet : (Graph.fresh.node user).inputs = [] := by
    cases user <;> rfl
  have unused : Graph.fresh.usersSnapshot input = [] := by
    cases input <;> rfl
  rw [quiet, unused]
  rfl

/-- Linking the slots of a new node pairs them. -/
theorem Paired.pushNode {g : Graph} (paired : g.Paired) (n : Node) :
    (g.pushNode n).2.Paired := by
  intro user input
  rw [pushNode_users_count, pushNode_node, paired user input]
  by_cases new : user = g.size
  · rw [if_pos new, if_pos new, g.node_of_size_le (Nat.le_of_eq new.symm)]
    simp
  · rw [if_neg new, if_neg new, Nat.add_zero]

theorem Paired.setFlag {g : Graph} (paired : g.Paired) (id : NodeId)
    (bit : NodeFlagBit) : (g.setFlag id bit).Paired := by
  intro user input
  rw [setFlag_node]
  split <;> exact paired user input

theorem Paired.setInput {g : Graph} (paired : g.Paired) {id : NodeId} {slot : Nat}
    (inside : slot < (g.node id).inputs.length) (new : NodeRef) :
    (g.setInput id slot new).Paired := by
  intro user input
  have before := paired user input
  have node := g.setInput_node id slot new user
  simp only [Graph.setInput] at node ⊢
  split at node
  case isTrue same =>
    rw [if_pos same, node]
    split
    case isTrue here =>
      subst here
      rw [← same, set_getD_self]
      exact before
    case isFalse => exact before
  case isFalse differs =>
    rw [if_neg differs, node]
    change ((relink id _ new _).usersSnapshot input).count user = _
    rw [relink_count, modifyNode_users, before]
    by_cases here : user = id
    · subst here
      simp only [if_true, true_and]
      rw [List.count_set inside, List.getD_eq_getElem?_getD,
        List.getElem?_eq_getElem inside, Option.getD_some]
      simp only [beq_iff_eq]
    · simp only [here, if_false, false_and, Nat.sub_zero, Nat.add_zero]

/-- Relinking a use to the node itself moves it to the end of the list. -/
theorem repeat_relink_self {g : Graph} (id : NodeId) (ref : NodeRef) (times : Nat)
    (listed : ∀ input, ref = some input →
      times ≠ 0 → 0 < (g.usersSnapshot input).count id) (input user : NodeId) :
    ((times.repeat (relink id ref ref) g).usersSnapshot input).count user =
      (g.usersSnapshot input).count user := by
  induction times generalizing input user with
  | zero => rfl
  | succ times ih =>
      have earlier := ih fun input same _ => listed input same (by omega)
      rw [Nat.repeat, relink_count, earlier]
      split
      case isTrue here =>
        obtain ⟨rfl, same⟩ := here
        have positive := listed input same (by omega)
        omega
      case isFalse => rfl

theorem Paired.swapInput {g : Graph} (paired : g.Paired) (id : NodeId)
    (old new : NodeRef) : (g.swapInput id old new).Paired := by
  intro user input
  have before := paired user input
  have node := g.swapInput_node id old new user
  have count := count_replace (g.node user).inputs old new (Option.some input)
  rw [node]
  simp only [Graph.swapInput]
  split
  case isTrue absent =>
    split
    case isTrue here =>
      subst here
      simp only [absent, ite_self, Nat.sub_zero, Nat.add_zero] at count
      rw [count, before]
    case isFalse => exact before
  case isFalse present =>
    by_cases differs : old = new
    · subst differs
      have same := repeat_relink_self (g := g.modifyNode id fun n =>
        { n with inputs := n.inputs.map fun input =>
          if input = old then old else input }) id old
        ((g.node id).inputs.count old)
        (fun other same _ => by
          subst same
          rw [modifyNode_users, paired id other]
          exact Nat.pos_of_ne_zero present) input user
      rw [modifyNode_users, before] at same
      refine same.trans ?_
      split
      case isTrue here =>
        change _ = ((g.node user).inputs.map fun input =>
          if input = old then old else input).count _
        rw [count]
        split
        case isTrue here =>
          subst here
          omega
        case isFalse => rfl
      case isFalse => rfl
    · have after := repeat_relink_count differs id ((g.node id).inputs.count old)
        (g.modifyNode id fun n => { n with inputs := n.inputs.map fun input =>
          if input = old then new else input }) input user
      rw [modifyNode_users, before] at after
      refine after.trans ?_
      by_cases here : user = id
      · subst here
        simp only [true_and, if_true]
        exact count.symm
      · simp only [here, if_false, false_and, Nat.sub_zero, Nat.add_zero]

theorem Paired.appendInput {g : Graph} (paired : g.Paired) {id : NodeId}
    (inside : id < g.size) (new : NodeRef) : (g.appendInput id new).Paired := by
  unfold Graph.appendInput
  split
  case h_1 => exact paired
  case h_2 target found =>
    obtain ⟨rfl, -⟩ := g.inRange_some.mp found
    intro user input
    rw [linkInputToOutput_users, node, linkInputToOutput_nodes, ← node,
      modifyNode_users, modifyNode_node]
    have before := paired user input
    by_cases here : user = id
    · subst here
      simp only [inside, and_self, if_true]
      rw [List.count_append, List.count_singleton, ← before]
      by_cases same : some target = some input
      · rw [if_pos same, same]
        simp
      · rw [if_neg same]
        simpa using same
    · simp only [here, false_and, if_false]
      rw [← before]
      split
      case isTrue => simp [List.count_append, List.count_cons_of_ne (Ne.symm here)]
      case isFalse => rfl

/-- Every accepted operation keeps the slots and the entries paired. -/
theorem Operation.Accepts.paired {g : Graph} {op : Operation}
    (accepts : op.Accepts g) (paired : g.Paired) : (op.apply g).Paired := by
  cases op with
  | swapInput id old new => exact paired.swapInput id old new
  | setInput id slot new => exact paired.setInput accepts.2 new
  | appendInput id new => exact paired.appendInput accepts new
  | markDead id => exact paired.setFlag id .isDead
  | makeGuard ctrl eff cond frameState =>
      exact ((paired.pushNode _).setFlag _ _).setFlag _ _
  | _ => exact paired.pushNode _

theorem Operated.paired {g : Graph} (operated : Operated g) : g.Paired := by
  induction operated with
  | fresh => exact paired_fresh
  | apply op accepts _ ih => exact accepts.paired ih

/-- Paired graphs pass the last check of the verifier. -/
theorem Paired.checkUses {g : Graph} (paired : g.Paired) : g.checkUses = none := by
  apply checkUses_eq_none.mpr
  intro id user member
  have reads : some id ∈ (g.node user).inputs := by
    apply List.count_pos_iff.mp
    rw [← paired user id]
    exact List.count_pos_iff.mpr member
  constructor
  · by_contra outside
    rw [g.node_of_size_le (Nat.le_of_not_lt outside)] at reads
    cases reads
  · exact fun _ => reads

/-- After any operations, each node is listed as a user of another one as often
as its input slots hold it, and the last check of the verifier succeeds. -/
theorem uses_exact {g : Graph} (operated : Operated g) :
    (∀ user input, (g.usersSnapshot input).count user =
      (g.node user).inputs.count (some input)) ∧ g.checkUses = none :=
  ⟨operated.paired, operated.paired.checkUses⟩

/-- A node that reads itself and twice another one, which is then replaced. -/
def squares : List Operation :=
  [.makeConstant 4 0, .makeConstant 9 0, .makeNode .mul [some 1, some 1, some 3] 0 0,
    .swapInput 3 (some 1) (some 2), .markDead 1]

theorem uses_exact_squares :
    ((squares.foldl Operation.apply fresh).usersSnapshot 2).count 3 = 2 ∧
      (squares.foldl Operation.apply fresh).checkUses = none := by
  have constants : Operated _ :=
    .apply (.makeConstant 9 0) trivial (.apply (.makeConstant 4 0) trivial .fresh)
  have product : Operated _ :=
    .apply (.makeNode .mul [some 1, some 1, some 3] 0 0) trivial constants
  have swapped : Operated _ :=
    .apply (.swapInput 3 (some 1) (some 2)) (show 3 < size _ by decide) product
  have built : Operated (squares.foldl Operation.apply fresh) :=
    .apply (.markDead 1) (show 1 < size _ by decide) swapped
  have exact := uses_exact built
  exact ⟨(exact.1 3 2).trans (by decide), exact.2⟩

end Graph

end Aegis
