import AegisCompiler.GraphOperations

/-!
# The speculative passes

Four passes make a frame state for the nodes that they speculate on.  Three of them append
it to the inputs of calls and loads, and one of them puts its number into the payload of
guards.
-/

namespace Aegis

namespace Speculation

/-- The fields of the budget that the passes look at. -/
structure PassBudget where
  allowSpeculation : Bool := false
  pgoAvailable : Bool := false
  deriving DecidableEq, Repr

def setFlags (bits : List NodeFlagBit) (n : Node) : Node := bits.foldl Node.setFlag n

def isSpeculated (n : Node) : Bool := n.flags.has .isPgoSpeculated

/-- Make a frame state of the control and effect inputs, and append it to the inputs. -/
def attachFrameState (bits : List NodeFlagBit) (g : Graph) (id : NodeId) : Graph :=
  let n := g.node id
  let (fs, g) := g.makeFrameState [n.ctrlIn, n.effIn]
  (g.appendInput id (some fs)).modifyNode id (setFlags bits)

/-- Speculate on one node, if it is live, of the right kind, and not speculated on yet. -/
def tagNode (kinds : NodeKind → Bool) (bits : List NodeFlagBit) (progress : Graph × Nat)
    (id : NodeId) : Graph × Nat :=
  let n := progress.1.node id
  if n.isDead then progress
  else if !kinds n.kind then progress
  else if isSpeculated n then progress
  else (attachFrameState bits progress.1 id, progress.2 + 1)

def speculated : List NodeFlagBit := [.isPgoSpeculated, .hasFrameState, .isGuarded]

def guardedDevirtualizationNode : Graph × Nat → NodeId → Graph × Nat :=
  tagNode (fun kind => kind = .callAltered || kind = .callCrowded)
    (.isMonomorphic :: speculated)

def speculativeLockElisionNode : Graph × Nat → NodeId → Graph × Nat :=
  tagNode (fun kind => kind = .callCrowded) speculated

def speculativeEffectReorderingNode : Graph × Nat → NodeId → Graph × Nat :=
  tagNode (fun kind => kind = .load) speculated

/-- The conditions of bounds checks. -/
def isBoundsCheck (kind : NodeKind) : Bool :=
  kind = .cmpLt || kind = .cmpUlt || kind = .cmpLe || kind = .cmpUle

def speculativeBceNode (progress : Graph × Nat) (id : NodeId) : Graph × Nat :=
  let g := progress.1
  let n := g.node id
  if n.isDead then progress
  else if n.kind ≠ .guard then progress
  else if isSpeculated n then progress
  else match n.dataIns.head?.bind g.inRange with
    | none => progress
    | some condId =>
        if !isBoundsCheck (g.node condId).kind then progress
        else
          let (fs, g) := g.makeFrameState [n.ctrlIn, n.effIn, some condId]
          (g.modifyNode id fun n => setFlags speculated { n with payload := BitVec.ofNat 64 fs },
            progress.2 + 1)

/-- Visit all nodes, also those that are made on the way. -/
def sweep (visit : Graph × Nat → NodeId → Graph × Nat) :
    Nat → NodeId → Graph × Nat → Graph × Nat
  | 0, _, progress => progress
  | fuel + 1, id, progress =>
      if id < progress.1.size then sweep visit fuel (id + 1) (visit progress id) else progress

/-- A pass: nothing without profiles and speculation, and a sweep otherwise.  A node of the
graph is tagged once, so the graph at most doubles. -/
def runBudgeted (visit : Graph × Nat → NodeId → Graph × Nat) (budget : PassBudget)
    (g : Graph) : Graph × Nat :=
  if !budget.pgoAvailable || !budget.allowSpeculation then (g, 0)
  else sweep visit (2 * g.size) 0 (g, 0)

inductive SpeculativePass where
  | guardedDevirtualization
  | speculativeBce
  | speculativeEffectReordering
  | speculativeLockElision
  deriving DecidableEq, Repr

def SpeculativePass.visit : SpeculativePass → Graph × Nat → NodeId → Graph × Nat
  | .guardedDevirtualization => guardedDevirtualizationNode
  | .speculativeBce => speculativeBceNode
  | .speculativeEffectReordering => speculativeEffectReorderingNode
  | .speculativeLockElision => speculativeLockElisionNode

def SpeculativePass.run (pass : SpeculativePass) (budget : PassBudget) (g : Graph) :
    Graph × Nat :=
  runBudgeted pass.visit budget g

/-- The passes in an order. -/
def runAll (order : List SpeculativePass) (budget : PassBudget) (g : Graph) : Graph :=
  order.foldl (fun g pass => (pass.run budget g).1) g

/-- Only the visited node changes, and what is new are frame states. -/
structure Visited (g : Graph) (id : NodeId) (h : Graph) : Prop where
  size_le : g.size ≤ h.size
  new : ∀ other, g.size ≤ other → other < h.size → (h.node other).kind = .frameState
  others : ∀ other < g.size, other ≠ id → h.node other = g.node other

theorem visited_refl (g : Graph) (id : NodeId) : Visited g id g :=
  ⟨Nat.le_refl _, fun _ beyond inside => absurd inside (Nat.not_lt_of_le beyond),
    fun _ _ _ => rfl⟩

/-- Setting flags changes nothing else. -/
theorem setFlags_eq (bits : List NodeFlagBit) (n : Node) :
    ∃ flags, setFlags bits n = { n with flags } := by
  induction bits generalizing n with
  | nil => exact ⟨n.flags, rfl⟩
  | cons bit bits ih =>
      obtain ⟨flags, same⟩ := ih (n.setFlag bit)
      exact ⟨flags, same⟩

@[simp] theorem setFlags_kind (bits : List NodeFlagBit) (n : Node) :
    (setFlags bits n).kind = n.kind := by
  obtain ⟨flags, same⟩ := setFlags_eq bits n
  rw [same]

@[simp] theorem setFlags_effect (bits : List NodeFlagBit) (n : Node) :
    (setFlags bits n).effect = n.effect := by
  obtain ⟨flags, same⟩ := setFlags_eq bits n
  rw [same]

@[simp] theorem setFlags_payload (bits : List NodeFlagBit) (n : Node) :
    (setFlags bits n).payload = n.payload := by
  obtain ⟨flags, same⟩ := setFlags_eq bits n
  rw [same]

@[simp] theorem setFlags_inputs (bits : List NodeFlagBit) (n : Node) :
    (setFlags bits n).inputs = n.inputs := by
  obtain ⟨flags, same⟩ := setFlags_eq bits n
  rw [same]

theorem has_setFlags (bits : List NodeFlagBit) (n : Node) (bit : NodeFlagBit) :
    (setFlags bits n).flags.has bit = (n.flags.has bit || bits.contains bit) := by
  unfold setFlags
  induction bits generalizing n with
  | nil => simp
  | cons first bits ih =>
      rw [List.foldl_cons, ih, Node.setFlag, NodeFlags.has_set, List.contains_cons,
        Bool.or_assoc]
      congr 2
      rw [Bool.beq_eq_decide_eq]
      exact decide_eq_decide.mpr eq_comm

/-- A node with a frame state among its inputs. -/
def attached (bits : List NodeFlagBit) (fs : NodeId) (n : Node) : Node :=
  setFlags bits { n with inputs := n.inputs ++ [some fs] }

theorem appendInput_nodes {g : Graph} {new : NodeId} (known : new < g.size) (id : NodeId) :
    (g.appendInput id (some new)).nodes =
      (g.modifyNode id fun n => { n with inputs := n.inputs ++ [some new] }).nodes := by
  have range : g.inRange (some new) = some new := (Graph.inRange_some g).mpr ⟨rfl, known⟩
  rw [Graph.appendInput, range]
  exact Graph.linkInputToOutput_nodes _ _ _

theorem appendInput_size {g : Graph} {new : NodeId} (known : new < g.size) (id : NodeId) :
    (g.appendInput id (some new)).size = g.size := by
  rw [Graph.size, appendInput_nodes known, ← Graph.size, Graph.modifyNode_size]

theorem appendInput_node {g : Graph} {new : NodeId} (known : new < g.size) (id other : NodeId) :
    (g.appendInput id (some new)).node other =
      if other = id ∧ id < g.size then
        { g.node other with inputs := (g.node other).inputs ++ [some new] }
      else g.node other := by
  rw [Graph.node, appendInput_nodes known, ← Graph.node, Graph.modifyNode_node]

theorem attachFrameState_spec (bits : List NodeFlagBit) {g : Graph} {id : NodeId}
    (inside : id < g.size) :
    Visited g id (attachFrameState bits g id) ∧
      (attachFrameState bits g id).node id = attached bits g.size (g.node id) := by
  let h := (g.makeFrameState [(g.node id).ctrlIn, (g.node id).effIn]).2
  have size : h.size = g.size + 1 := g.pushNode_size _
  have old {other : NodeId} (known : other < g.size) : h.node other = g.node other :=
    g.pushNode_node_of_lt _ known
  have last : g.size < h.size := by
    rw [size]
    exact Nat.lt_succ_self _
  have within : id < h.size := Nat.lt_trans inside last
  have done : attachFrameState bits g id =
      (h.appendInput id (some g.size)).modifyNode id (setFlags bits) := rfl
  have doneSize : (attachFrameState bits g id).size = g.size + 1 := by
    rw [done, Graph.modifyNode_size, appendInput_size last, size]
  have other {i : NodeId} (apart : i ≠ id) : (attachFrameState bits g id).node i = h.node i := by
    rw [done, Graph.modifyNode_node, if_neg fun both => apart both.1, appendInput_node last,
      if_neg fun both => apart both.1]
  refine ⟨⟨?_, ?_, ?_⟩, ?_⟩
  · rw [doneSize]
    exact Nat.le_succ _
  · intro i beyond inNew
    rw [doneSize] at inNew
    have exactly : i = g.size := Nat.le_antisymm (Nat.le_of_lt_succ inNew) beyond
    rw [exactly, other (Nat.ne_of_gt inside)]
    exact congrArg Node.kind (g.pushNode_node_size _)
  · intro i known apart
    rw [other apart, old known]
  · rw [done, Graph.modifyNode_node, appendInput_size last, if_pos ⟨rfl, within⟩,
      appendInput_node last, if_pos ⟨rfl, within⟩, old inside]
    rfl

/-- What one of the three passes does to a node. -/
def Tagged (kinds : NodeKind → Bool) (bits : List NodeFlagBit) (n m : Node) : Prop :=
  (n.isDead = false ∧ kinds n.kind = true ∧ isSpeculated n = false ∧
      ∃ fs, m = attached bits fs n) ∨
    (¬(n.isDead = false ∧ kinds n.kind = true ∧ isSpeculated n = false) ∧ m = n)

theorem tagNode_spec (kinds : NodeKind → Bool) (bits : List NodeFlagBit)
    (progress : Graph × Nat) {id : NodeId} (inside : id < progress.1.size) :
    Visited progress.1 id (tagNode kinds bits progress id).1 ∧
      Tagged kinds bits (progress.1.node id) ((tagNode kinds bits progress id).1.node id) := by
  unfold tagNode
  simp only
  split
  case isTrue dead =>
    refine ⟨visited_refl _ _, .inr ⟨?_, rfl⟩⟩
    rintro ⟨live, -⟩
    rw [dead] at live
    cases live
  case isFalse live =>
    split
    case isTrue other =>
      refine ⟨visited_refl _ _, .inr ⟨?_, rfl⟩⟩
      rintro ⟨-, picked, -⟩
      rw [picked] at other
      cases other
    case isFalse picked =>
      split
      case isTrue done =>
        refine ⟨visited_refl _ _, .inr ⟨?_, rfl⟩⟩
        rintro ⟨-, -, fresh⟩
        rw [done] at fresh
        cases fresh
      case isFalse fresh =>
        obtain ⟨visited, node⟩ := attachFrameState_spec bits inside
        exact ⟨visited, .inl ⟨Bool.eq_false_iff.mpr live, by simpa using picked,
          Bool.eq_false_iff.mpr fresh, _, node⟩⟩

/-- What the pass on bounds checks does to a node: it leaves the inputs alone, and all of a
node that is no guard. -/
structure Quiet (n m : Node) : Prop where
  kind : m.kind = n.kind
  effect : m.effect = n.effect
  isDead : m.isDead = n.isDead
  inputs : m.inputs = n.inputs
  rest : n.kind ≠ .guard → m = n

theorem quiet_refl (n : Node) : Quiet n n := ⟨rfl, rfl, rfl, rfl, fun _ => rfl⟩

theorem isDead_setFlags {bits : List NodeFlagBit} (clear : bits.contains .isDead = false)
    (n : Node) : (setFlags bits n).isDead = n.isDead := by
  rw [Node.isDead, has_setFlags, clear, Bool.or_false]
  rfl

theorem speculativeBceNode_spec (progress : Graph × Nat) {id : NodeId}
    (inside : id < progress.1.size) :
    Visited progress.1 id (speculativeBceNode progress id).1 ∧
      Quiet (progress.1.node id) ((speculativeBceNode progress id).1.node id) := by
  have same := And.intro (visited_refl progress.1 id) (quiet_refl (progress.1.node id))
  unfold speculativeBceNode
  simp only
  split
  case isTrue => exact same
  case isFalse =>
    split
    case isTrue => exact same
    case isFalse guard =>
      split
      case isTrue => exact same
      case isFalse =>
        split
        case h_1 => exact same
        case h_2 condId _ =>
          split
          case isTrue => exact same
          case isFalse =>
            have size := progress.1.pushNode_size
            refine ⟨⟨?_, ?_, ?_⟩, ?_⟩
            · simp [Graph.makeFrameState, Graph.makeNode]
            · intro other beyond inNew
              have last : other = progress.1.size := by
                simp only [Graph.makeFrameState, Graph.makeNode, Graph.modifyNode_size,
                  Graph.pushNode_size] at inNew
                exact Nat.le_antisymm (Nat.le_of_lt_succ inNew) beyond
              subst last
              rw [Graph.modifyNode_node, if_neg fun both => Nat.ne_of_gt inside both.1]
              exact congrArg Node.kind (progress.1.pushNode_node_size _)
            · intro other old apart
              rw [Graph.modifyNode_node, if_neg fun both => apart both.1]
              exact progress.1.pushNode_node_of_lt _ old
            · have within : id < (progress.1.makeFrameState
                  [(progress.1.node id).ctrlIn, (progress.1.node id).effIn, some condId]).2.size := by
                rw [Graph.makeFrameState, Graph.makeNode, Graph.pushNode_size]
                exact Nat.lt_succ_of_lt inside
              have old : (progress.1.makeFrameState [(progress.1.node id).ctrlIn,
                  (progress.1.node id).effIn, some condId]).2.node id = progress.1.node id :=
                progress.1.pushNode_node_of_lt _ inside
              rw [Graph.modifyNode_node, if_pos ⟨rfl, within⟩, old]
              refine ⟨setFlags_kind _ _, setFlags_effect _ _, isDead_setFlags rfl _,
                setFlags_inputs _ _, fun other => absurd (not_not.mp guard) other⟩

end Speculation

end Aegis
