import AegisCompiler.SccpValuation

/-!
# The rewriting loop of constant propagation

The loop reads the graph it is rewriting, but a rewrite moves edges only and
marks its own node dead, so it decides each node as the input graph has it.
-/

namespace Aegis

namespace Sccp

/-- The two nodes differ in their edges at most. -/
def SameLabel (first second : Node) : Prop :=
  first.kind = second.kind ∧ first.effect = second.effect ∧
    first.flags = second.flags ∧ first.payload = second.payload

theorem SameLabel.refl (n : Node) : SameLabel n n :=
  ⟨rfl, rfl, rfl, rfl⟩

theorem SameLabel.trans {first second third : Node}
    (left : SameLabel first second) (right : SameLabel second third) :
    SameLabel first third :=
  ⟨left.1.trans right.1, left.2.1.trans right.2.1,
    left.2.2.1.trans right.2.2.1, left.2.2.2.trans right.2.2.2⟩

theorem swapAll_size (users : List NodeId) (old new : NodeRef) (g : Graph) :
    (users.foldl (fun g user => g.swapInput user old new) g).size = g.size := by
  induction users generalizing g with
  | nil => rfl
  | cons user users ih => rw [List.foldl_cons, ih, Graph.swapInput_size]

theorem swapAll_label (users : List NodeId) (old new : NodeRef) (g : Graph)
    (id : NodeId) :
    SameLabel
      ((users.foldl (fun g user => g.swapInput user old new) g).node id)
      (g.node id) := by
  induction users generalizing g with
  | nil => exact SameLabel.refl _
  | cons user users ih =>
      refine (ih (g.swapInput user old new)).trans ?_
      rw [Graph.swapInput_node]
      split <;> exact ⟨rfl, rfl, rfl, rfl⟩

section Replacing

variable (g : Graph) (id : NodeId) (value : Word)

theorem replaceByConstant_size :
    (replaceByConstant g id value).size = g.size + 1 := by
  simp [replaceByConstant, swapAll_size, Graph.makeConstant, Graph.makeNode]

/-- The fresh node is the constant. -/
theorem replaceByConstant_fresh (inside : id < g.size) :
    let n := (replaceByConstant g id value).node g.size
    n.kind = .constant ∧ n.payload = value ∧ n.isDead = false := by
  have apart : g.size ≠ id := Nat.ne_of_gt inside
  obtain ⟨kind, -, flags, payload⟩ := swapAll_label
    ((g.makeConstant value (g.node id).typeId).2.usersSnapshot id) (some id)
    (some g.size) (g.makeConstant value (g.node id).typeId).2 g.size
  simp only [Graph.makeConstant, Graph.makeNode, Graph.pushNode_node_size]
    at kind flags payload
  simp only [replaceByConstant, Graph.setFlag_node, apart, false_and, if_false,
    Node.isDead, Graph.makeConstant, Graph.makeNode, Graph.pushNode_fst, kind,
    flags, payload, NodeFlags.has_zero, and_self]

/-- Every other node keeps its label. -/
theorem replaceByConstant_other {other : NodeId} (inside : other < g.size)
    (apart : other ≠ id) :
    SameLabel ((replaceByConstant g id value).node other) (g.node other) := by
  have label := swapAll_label
    ((g.makeConstant value (g.node id).typeId).2.usersSnapshot id) (some id)
    (some g.size) (g.makeConstant value (g.node id).typeId).2 other
  simp only [replaceByConstant, Graph.setFlag_node, apart, false_and, if_false]
  refine label.trans ?_
  simp only [Graph.makeConstant, Graph.makeNode,
    Graph.pushNode_node_of_lt _ _ inside]
  exact SameLabel.refl _

theorem replaceByConstant_dead (inside : id < g.size) :
    ((replaceByConstant g id value).node id).isDead = true := by
  have bound : id < g.size + 1 := Nat.lt_succ_of_lt inside
  simp [replaceByConstant, Graph.setFlag_node, swapAll_size,
    Graph.makeConstant, Graph.makeNode, bound, Node.isDead, Node.setFlag]

end Replacing

/-- The graph after the loop has passed the nodes below `bound`. -/
def rewritten (g : Graph) (bound : Nat) : Graph :=
  ((List.range bound).foldl (rewrite (analyze g)) (g, 0)).1

theorem rewritten_succ (g : Graph) (bound : Nat) :
    ∃ removed, rewritten g (bound + 1) =
      (rewrite (analyze g) (rewritten g bound, removed) bound).1 := by
  refine ⟨((List.range bound).foldl (rewrite (analyze g)) (g, 0)).2, ?_⟩
  simp [rewritten, List.range_succ]

/-- What the loop has done to the nodes of the input graph so far. -/
structure Progress (g : Graph) (bound : Nat) (h : Graph) : Prop where
  size : g.size ≤ h.size
  later : ∀ id < g.size, bound ≤ id → SameLabel (h.node id) (g.node id)
  kept : ∀ id < bound, (∀ value, ¬ Replaced g id value) →
    SameLabel (h.node id) (g.node id)
  replaced : ∀ id < bound, ∀ value, Replaced g id value →
    (h.node id).isDead = true ∧ ∃ fresh, g.size ≤ fresh ∧ fresh < h.size ∧
      (h.node fresh).kind = .constant ∧ (h.node fresh).payload = value ∧
      (h.node fresh).isDead = false

/-- One step of the loop decides the node as the input graph has it. -/
theorem rewrite_cases {g h : Graph} {id : NodeId} (inside : id < g.size)
    (label : SameLabel (h.node id) (g.node id)) (removed : Nat) :
    (∃ value, Replaced g id value ∧
      (rewrite (analyze g) (h, removed) id).1 = replaceByConstant h id value) ∨
    ((∀ value, ¬ Replaced g id value) ∧
      (rewrite (analyze g) (h, removed) id).1 = h) := by
  obtain ⟨kind, effect, flags, -⟩ := label
  simp only [rewrite, Replaced, Graph.Live, Node.isDead, Node.isPure, kind, effect,
    flags]
  cases dead : (g.node id).flags.has .isDead
  case true => simp
  case false =>
    by_cases isConstant : (g.node id).kind = .constant
    · simp [isConstant]
    · by_cases floats : (g.node id).effect = .pure
      · cases known : (analyze g).valueAt id with
        | top => simp [isConstant, floats]
        | bottom => simp [isConstant, floats]
        | const value =>
            exact Or.inl ⟨value, by simp [inside, isConstant, floats],
              by simp [isConstant, floats]⟩
      · simp [isConstant, floats]

theorem Progress.step {g h : Graph} {bound removed : Nat}
    (progress : Progress g bound h) (inside : bound < g.size) :
    Progress g (bound + 1)
      (rewrite (analyze g) (h, removed) bound).1 := by
  have label := progress.later bound inside (Nat.le_refl bound)
  rcases rewrite_cases inside label removed with
    ⟨value, replaced, equal⟩ | ⟨spared, equal⟩
  · rw [equal]
    have here : bound < h.size := Nat.lt_of_lt_of_le inside progress.size
    have size := replaceByConstant_size h bound value
    have frame {id : NodeId} (within : id < h.size) (apart : id ≠ bound) :=
      replaceByConstant_other h bound value within apart
    refine ⟨by rw [size]; exact Nat.le_succ_of_le progress.size, ?_, ?_, ?_⟩
    · intro id within beyond
      exact (frame (Nat.lt_of_lt_of_le within progress.size)
        (Nat.ne_of_gt beyond)).trans
        (progress.later id within (Nat.le_of_succ_le beyond))
    · intro id before spared
      have apart : id ≠ bound := by
        rintro rfl
        exact spared value replaced
      have older : id < bound :=
        Nat.lt_of_le_of_ne (Nat.le_of_lt_succ before) apart
      exact (frame (Nat.lt_trans older here) apart).trans
        (progress.kept id older spared)
    · intro id before other isReplaced
      by_cases apart : id = bound
      · subst apart
        have same : other = value := by
          have first := isReplaced.2.2.2
          rw [replaced.2.2.2] at first
          exact (LatticeVal.const.inj first).symm
        subst same
        exact ⟨replaceByConstant_dead h id other here, h.size, progress.size,
          by rw [size]; exact Nat.lt_succ_self _,
          replaceByConstant_fresh h id other here⟩
      · have older : id < bound :=
          Nat.lt_of_le_of_ne (Nat.le_of_lt_succ before) apart
        obtain ⟨dead, fresh, new, within, kind, payload, alive⟩ :=
          progress.replaced id older other isReplaced
        have moved := frame (Nat.lt_trans older here) apart
        have beyond : fresh ≠ bound :=
          Nat.ne_of_gt (Nat.lt_of_lt_of_le inside new)
        have still := frame within beyond
        refine ⟨?_, fresh, new, by rw [size]; exact Nat.lt_succ_of_lt within,
          still.1.trans kind, still.2.2.2.trans payload, ?_⟩
        · simpa only [Node.isDead, moved.2.2.1] using dead
        · simpa only [Node.isDead, still.2.2.1] using alive
  · rw [equal]
    refine ⟨progress.size, ?_, ?_, ?_⟩
    · intro id within beyond
      exact progress.later id within (Nat.le_of_succ_le beyond)
    · intro id before notReplaced
      by_cases apart : id = bound
      · subst apart
        exact label
      · exact progress.kept id
          (Nat.lt_of_le_of_ne (Nat.le_of_lt_succ before) apart) notReplaced
    · intro id before value isReplaced
      have apart : id ≠ bound := by
        rintro rfl
        exact spared value isReplaced
      exact progress.replaced id
        (Nat.lt_of_le_of_ne (Nat.le_of_lt_succ before) apart) value isReplaced

theorem rewritten_progress (g : Graph) {bound : Nat} (within : bound ≤ g.size) :
    Progress g bound (rewritten g bound) := by
  induction bound with
  | zero =>
      exact ⟨Nat.le_refl _, fun id _ _ => SameLabel.refl _,
        fun id impossible => absurd impossible (Nat.not_lt_zero id),
        fun id impossible => absurd impossible (Nat.not_lt_zero id)⟩
  | succ bound ih =>
      obtain ⟨removed, equal⟩ := rewritten_succ g bound
      rw [equal]
      exact (ih (Nat.le_of_succ_le within)).step within

/-- The pass kills exactly the nodes it replaces, and adds a live constant
for each. -/
theorem run_spec (g : Graph) {id : NodeId} (live : g.Live id) :
    (((run g).1.node id).isDead = true ↔ ∃ value, Replaced g id value) ∧
      ∀ value, Replaced g id value → ∃ fresh, g.size ≤ fresh ∧
        fresh < (run g).1.size ∧ ((run g).1.node fresh).kind = .constant ∧
        ((run g).1.node fresh).payload = value ∧
        ((run g).1.node fresh).isDead = false := by
  have progress : Progress g g.size (run g).1 :=
    rewritten_progress g (Nat.le_refl _)
  refine ⟨⟨fun dead => ?_, ?_⟩, fun value replaced =>
    (progress.replaced id live.1 value replaced).2⟩
  · by_contra spared
    push Not at spared
    have label := progress.kept id live.1 spared
    simp only [Node.isDead, label.2.2.1] at dead
    rw [← Node.isDead, live.2] at dead
    cases dead
  · rintro ⟨value, replaced⟩
    exact (progress.replaced id live.1 value replaced).1

end Sccp

end Aegis
