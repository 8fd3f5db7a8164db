import AegisCompiler.InductionVariables
import AegisCompiler.WordArithmetic

/-!
# Equations of the nodes of a graph

A valuation gives every node a word.  The equation of a node relates its value to
the values of its inputs: arithmetic where it is specified, the input that the
region selects for a phi, and some fixed relation for every other kind of node.
A region stands for the number of the input through which control entered it, and
an input that is a constant for its payload.
-/

namespace Aegis

namespace NodeEquations

/-- The value of a binary kind; shifts by 64 and more are left open. -/
def specified (kind : NodeKind) (a b : Word) : Option Word :=
  match kind with
  | .shl | .shr | .lshr => if b.toNat < 64 then evalBinop kind a b else none
  | kind => evalBinop kind a b

/-- The value of an operation on one or two operands. -/
def computed (kind : NodeKind) : List (Option Word) → Option Word
  | [some a] => evalUnop kind a
  | [some a, some b] => specified kind a b
  | _ => none

/-- The value that the region of a phi selects. -/
def selected : List (Option Word) → Option Word
  | some region :: values => values.getD region.toNat none
  | _ => none

/-- The value that the equation of a node demands, if it demands one. -/
def demanded (n : Node) (operands : List (Option Word)) : Option Word :=
  match n.kind with
  | .constant => some n.payload
  | .phi => selected operands
  | kind => computed kind operands

/-- The kinds without an equation of their own. -/
def isOpen (kind : NodeKind) : Bool :=
  !(kind.isBinop || kind.isUnop || kind == .constant || kind == .phi)

/-- What nodes of the other kinds relate: their operands and their value. -/
abbrev Meaning := NodeKind → NodePayload → List (Option Word) → Word → Prop

/-- The equation of a node. -/
structure Computes (meaning : Meaning) (n : Node) (operands : List (Option Word))
    (value : Word) : Prop where
  demanded : ∀ result, NodeEquations.demanded n operands = some result → value = result
  related : isOpen n.kind = true → meaning n.kind n.payload operands value

abbrev Valuation := NodeId → Word

/-- The value of a node as an input. -/
def valueOf (g : Graph) (v : Valuation) (id : NodeId) : Word :=
  if (g.node id).kind = .constant then (g.node id).payload else v id

/-- The values of the inputs of a node; an absent input has none. -/
def operandsOf (g : Graph) (v : Valuation) (inputs : List NodeRef) : List (Option Word) :=
  inputs.map fun input => input.map (valueOf g v)

/-- The valuation satisfies the equations of all live nodes, whose inputs are
nodes of the graph or absent. -/
structure Satisfies (meaning : Meaning) (g : Graph) (v : Valuation) : Prop where
  inside : ∀ id, g.Live id → ∀ input, some input ∈ (g.node id).inputs → input < g.size
  computes : ∀ id, g.Live id →
    Computes meaning (g.node id) (operandsOf g v (g.node id).inputs) (v id)

/-- Check the equations that demand a value. -/
def check (g : Graph) (v : Valuation) : Bool :=
  (List.range g.size).all fun id =>
    (g.node id).isDead ||
      ((g.node id).inputs.all (fun input => input.all (· < g.size)) &&
        (demanded (g.node id) (operandsOf g v (g.node id).inputs)).all (v id == ·))

theorem satisfies_of_check {g : Graph} {v : Valuation} (checked : check g v = true) :
    Satisfies (fun _ _ _ _ => True) g v := by
  have each {id : NodeId} (live : g.Live id) :
      (g.node id).inputs.all (fun input => input.all (· < g.size)) = true ∧
        (demanded (g.node id) (operandsOf g v (g.node id).inputs)).all (v id == ·) = true := by
    have here := List.all_eq_true.mp checked id (List.mem_range.mpr live.1)
    rw [live.2, Bool.false_or, Bool.and_eq_true] at here
    exact here
  constructor
  · intro id live input member
    have inRange := List.all_eq_true.mp (each live).1 _ member
    exact of_decide_eq_true inRange
  · intro id live
    refine ⟨fun result demand => ?_, fun _ => trivial⟩
    have same := (each live).2
    rw [demand] at same
    exact beq_iff_eq.mp same

section

variable {meaning : Meaning} {g : Graph} {v : Valuation}

theorem valueOf_push (n : Node) (w : Word) {id : NodeId} (old : id < g.size) :
    valueOf (g.pushNode n).2 (Function.update v g.size w) id = valueOf g v id := by
  rw [valueOf, valueOf, g.pushNode_node_of_lt n old,
    Function.update_of_ne (Nat.ne_of_lt old)]

theorem operandsOf_congr {g h : Graph} {v w : Valuation} {inputs : List NodeRef}
    (same : ∀ input, some input ∈ inputs → valueOf h w input = valueOf g v input) :
    operandsOf h w inputs = operandsOf g v inputs := by
  apply List.map_congr_left
  intro input member
  cases input with
  | none => rfl
  | some input => exact congrArg some (same input member)

/-- A node that is appended gets a value that satisfies its equation. -/
theorem Satisfies.push (satisfies : Satisfies meaning g v) {n : Node} {w : Word}
    (inside : ∀ input, some input ∈ n.inputs → input < g.size)
    (computes : Computes meaning n (operandsOf g v n.inputs) w) :
    Satisfies meaning (g.pushNode n).2 (Function.update v g.size w) := by
  have old {id : NodeId} (live : (g.pushNode n).2.Live id) (differs : id ≠ g.size) :
      g.Live id := by
    obtain ⟨below, alive⟩ := live
    rw [Graph.pushNode_size] at below
    have small : id < g.size := Nat.lt_of_le_of_ne (Nat.le_of_lt_succ below) differs
    rw [g.pushNode_node_of_lt n small] at alive
    exact ⟨small, alive⟩
  have wider {inputs : List NodeRef}
      (inside : ∀ input, some input ∈ inputs → input < g.size) :
      operandsOf (g.pushNode n).2 (Function.update v g.size w) inputs =
        operandsOf g v inputs :=
    operandsOf_congr fun input member => valueOf_push n w (inside input member)
  constructor
  · intro id live input member
    rw [Graph.pushNode_size]
    apply Nat.lt_succ_of_lt
    by_cases last : id = g.size
    · subst last
      rw [Graph.pushNode_node_size] at member
      exact inside input member
    · have before := old live last
      rw [g.pushNode_node_of_lt n before.1] at member
      exact satisfies.inside id before input member
  · intro id live
    by_cases last : id = g.size
    · subst last
      rw [Graph.pushNode_node_size, wider inside, Function.update_self]
      exact computes
    · have before := old live last
      rw [g.pushNode_node_of_lt n before.1, wider (satisfies.inside id before),
        Function.update_of_ne last]
      exact satisfies.computes id before

/-- The equations stay when the inputs keep their values. -/
theorem Satisfies.of_alike (satisfies : Satisfies meaning g v) {h : Graph}
    (size : h.size = g.size)
    (kind : ∀ id, (h.node id).kind = (g.node id).kind)
    (payload : ∀ id, (h.node id).payload = (g.node id).payload)
    (live : ∀ id, (h.node id).isDead = false → (g.node id).isDead = false)
    (inside : ∀ id, g.Live id → ∀ input, some input ∈ (h.node id).inputs → input < g.size)
    (operands : ∀ id, g.Live id →
      operandsOf g v (h.node id).inputs = operandsOf g v (g.node id).inputs) :
    Satisfies meaning h v := by
  have before {id : NodeId} (after : h.Live id) : g.Live id := by
    rw [Graph.Live, size] at after
    exact ⟨after.1, live id after.2⟩
  constructor
  · intro id after input member
    rw [size]
    exact inside id (before after) input member
  · intro id after
    have values : operandsOf h v (h.node id).inputs = operandsOf g v (h.node id).inputs :=
      operandsOf_congr fun input _ => by rw [valueOf, valueOf, kind, payload]
    have computes := satisfies.computes id (before after)
    rw [values, operands id (before after)]
    constructor
    · intro result demand
      apply computes.demanded
      rwa [demanded, kind, payload] at demand
    · rw [kind, payload]
      exact computes.related

theorem Satisfies.markDead (satisfies : Satisfies meaning g v) (id : NodeId) :
    Satisfies meaning (g.markDead id) v := by
  have node (other : NodeId) : ∃ flags,
      (g.markDead id).node other = { g.node other with flags } ∧
        (((g.markDead id).node other).isDead = false → (g.node other).isDead = false) := by
    rw [Graph.markDead, Graph.setFlag_node]
    split
    · refine ⟨_, rfl, ?_⟩
      rw [Node.isDead_setFlag, Bool.or_eq_false_iff]
      exact And.left
    · exact ⟨_, rfl, fun alive => alive⟩
  apply satisfies.of_alike
  · exact g.setFlag_size id .isDead
  · intro other
    obtain ⟨flags, found, -⟩ := node other
    rw [found]
  · intro other
    obtain ⟨flags, found, -⟩ := node other
    rw [found]
  · intro other
    obtain ⟨flags, -, alive⟩ := node other
    exact alive
  · intro other live
    obtain ⟨flags, found, -⟩ := node other
    rw [found]
    exact satisfies.inside other live
  · intro other _
    obtain ⟨flags, found, -⟩ := node other
    rw [found]

/-- The uses of a node may move to another one with the same value. -/
theorem Satisfies.replaceUses (satisfies : Satisfies meaning g v) {old new : NodeId}
    (inRange : new < g.size) (same : valueOf g v new = valueOf g v old) :
    Satisfies meaning (InductionVariables.replaceUses g old new) v := by
  have node (id : NodeId) := InductionVariables.replaceUses_node g old new id
  apply satisfies.of_alike
  · exact InductionVariables.replaceUses_size g old new
  · intro id
    obtain ⟨inputs, found, -⟩ := node id
    rw [found]
  · intro id
    obtain ⟨inputs, found, -⟩ := node id
    rw [found]
  · intro id alive
    obtain ⟨inputs, found, -⟩ := node id
    rwa [found] at alive
  · intro id live input member
    obtain ⟨inputs, found, rfl | rfl⟩ := node id
    · rw [found] at member
      exact satisfies.inside id live input member
    · rw [found] at member
      obtain ⟨before, there, replaced⟩ := List.mem_map.mp member
      split at replaced
      · cases replaced
        exact inRange
      · exact satisfies.inside id live input (replaced ▸ there)
  · intro id live
    obtain ⟨inputs, found, rfl | rfl⟩ := node id
    · rw [found]
    · rw [found]
      simp only [operandsOf, List.map_map]
      apply List.map_congr_left
      intro input _
      simp only [Function.comp_apply]
      split
      case isTrue isOld =>
        rw [isOld]
        exact congrArg some same
      case isFalse => rfl

end

end NodeEquations

end Aegis
