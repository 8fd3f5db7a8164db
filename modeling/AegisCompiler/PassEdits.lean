import AegisCompiler.Edce
import AegisCompiler.SccpRewrite
import Mathlib.Logic.Relation

/-!
# What passes may do to a graph

The passes of the standard pipeline change a graph only through a handful of
edits: they append nodes, rewire inputs, set flags and promote allocations to
the stack.  A property that every edit preserves holds after any sequence of
passes.
-/

namespace Aegis

/-- One edit of the graph by a pass. -/
inductive PassEdit : Graph → Graph → Prop where
  | push (g : Graph) (n : Node) : PassEdit g (g.pushNode n).2
  | swapInput (g : Graph) (id : NodeId) (old new : NodeRef) :
      PassEdit g (g.swapInput id old new)
  | setInput (g : Graph) (id : NodeId) (slot : Nat) (new : NodeRef) :
      PassEdit g (g.setInput id slot new)
  | setFlag (g : Graph) (id : NodeId) (bit : NodeFlagBit) :
      PassEdit g (g.setFlag id bit)
  | promote (g : Graph) (id : NodeId)
      (isAlloc : (g.node id).kind = .alloc) :
      PassEdit g (g.modifyNode id fun n =>
        { n with kind := .stackAlloc, effect := .pure })

/-- The edits of any sequence of passes. -/
abbrev PassRun : Graph → Graph → Prop := Relation.ReflTransGen PassEdit

/-- What every edit leaves alone: which of the old nodes are parameters, and
that a dead node stays dead. -/
structure KeepsParameters (g h : Graph) : Prop where
  size : g.size ≤ h.size
  parameter : ∀ id : Nat, id < g.size →
    ((h.node id).kind = .parameter ↔ (g.node id).kind = .parameter)
  dead : ∀ id : Nat, id < g.size → (g.node id).isDead = true →
    (h.node id).isDead = true

theorem KeepsParameters.refl (g : Graph) : KeepsParameters g g :=
  ⟨le_rfl, fun _ _ => Iff.rfl, fun _ _ dead => dead⟩

theorem KeepsParameters.trans {first second third : Graph}
    (left : KeepsParameters first second)
    (right : KeepsParameters second third) : KeepsParameters first third where
  size := left.size.trans right.size
  parameter id inside :=
    (right.parameter id (Nat.lt_of_lt_of_le inside left.size)).trans
      (left.parameter id inside)
  dead id inside dead :=
    right.dead id (Nat.lt_of_lt_of_le inside left.size)
      (left.dead id inside dead)

/-- One edit keeps the parameters. -/
theorem PassEdit.keepsParameters {g h : Graph} (edit : PassEdit g h) :
    KeepsParameters g h := by
  cases edit with
  | push n =>
      refine ⟨by simp, fun id inside => ?_, fun id inside dead => ?_⟩
      · rw [g.pushNode_node_of_lt n inside]
      · rw [g.pushNode_node_of_lt n inside, dead]
  | swapInput target old new =>
      refine ⟨by simp, fun id inside => ?_, fun id inside dead => ?_⟩
      · rw [Graph.swapInput_node]
        split <;> rfl
      · rw [Graph.swapInput_node]
        split <;> exact dead
  | setInput target slot new =>
      refine ⟨by simp, fun id inside => ?_, fun id inside dead => ?_⟩
      · rw [Graph.setInput_node]
        split <;> rfl
      · rw [Graph.setInput_node]
        split <;> exact dead
  | setFlag target bit =>
      refine ⟨by simp, fun id inside => ?_, fun id inside dead => ?_⟩
      · rw [Graph.setFlag_node]
        split <;> rfl
      · rw [Graph.setFlag_node]
        split
        · rw [Node.isDead_setFlag, dead]
          rfl
        · exact dead
  | promote target isAlloc =>
      refine ⟨by simp, fun id inside => ?_, fun id inside dead => ?_⟩
      · rw [Graph.modifyNode_node]
        split
        case isTrue here =>
          obtain ⟨rfl, -⟩ := here
          simp [isAlloc]
        case isFalse => rfl
      · rw [Graph.modifyNode_node]
        split <;> exact dead

/-- Any sequence of passes keeps the parameters. -/
theorem PassRun.keepsParameters {g h : Graph} (passes : PassRun g h) :
    KeepsParameters g h := by
  induction passes with
  | refl => exact KeepsParameters.refl g
  | tail _ edit ih => exact ih.trans edit.keepsParameters

section Loops

variable {S α : Type} (graphOf : S → Graph)

/-- A loop is a sequence of edits when each of its rounds is. -/
theorem PassRun.foldl {round : S → α → S}
    (each : ∀ s item, PassRun (graphOf s) (graphOf (round s item))) (items : List α) (s : S) :
    PassRun (graphOf s) (graphOf (items.foldl round s)) := by
  induction items generalizing s with
  | nil => exact .refl
  | cons item items ih => exact (each s item).trans (ih _)

/-- The state in which a loop ends, also when it is left early. -/
def stopped : Except S S → S
  | .ok s => s
  | .error s => s

theorem PassRun.foldlM {round : S → α → Except S S}
    (each : ∀ s item, PassRun (graphOf s) (graphOf (stopped (round s item)))) (items : List α)
    (s : S) : PassRun (graphOf s) (graphOf (stopped (items.foldlM round s))) := by
  induction items generalizing s with
  | nil => exact .refl
  | cons item items ih =>
      have first := each s item
      rw [List.foldlM_cons]
      cases ran : round s item with
      | ok t =>
          rw [ran] at first
          exact first.trans (ih t)
      | error t =>
          rw [ran] at first
          exact first

end Loops

section Edits

variable (g : Graph)

theorem PassRun.markDead (id : NodeId) : PassRun g (g.markDead id) := .single (.setFlag g id .isDead)

/-- Let some users of a node read another one. -/
theorem PassRun.rewire (users : List NodeId) (old new : NodeRef) :
    PassRun g (users.foldl (fun g user => g.swapInput user old new) g) :=
  PassRun.foldl id (fun g user => .single (.swapInput g user old new)) users g

/-- Dead code elimination is a sequence of edits. -/
theorem Edce.run_passRun : PassRun g (Edce.run g).1 := by
  refine PassRun.foldl Prod.fst (fun progress id => ?_) (List.range g.size) (g, 0)
  rw [sweepNode]
  split
  · exact .refl
  · split
    · exact .refl
    · split
      · exact .single (.setFlag _ _ _)
      · exact .single (.setFlag _ _ _)

theorem Sccp.replaceByConstant_passRun (id : NodeId) (value : Word) :
    PassRun g (Sccp.replaceByConstant g id value) := by
  have pushed : PassRun g (g.makeConstant value (g.node id).typeId).2 := .single (.push g _)
  exact (pushed.trans (PassRun.rewire _ _ _ _)).tail (.setFlag _ id .isDead)

/-- Constant propagation is a sequence of edits. -/
theorem Sccp.run_passRun : PassRun g (Sccp.run g).1 := by
  refine PassRun.foldl Prod.fst (fun progress id => ?_) (List.range g.size) (g, 0)
  simp only [Sccp.rewrite]
  split
  · exact .refl
  · split
    · exact .refl
    · split
      · exact .refl
      · split
        · exact Sccp.replaceByConstant_passRun _ _ _
        · exact .refl

end Edits

end Aegis
