import AegisCompiler.ControlWalk

/-!
# Values of data nodes

In a graph whose operands precede their users, the value of a node is computed
from the values of its operands, and depends only on phis up to the node.
-/

namespace Aegis

namespace ControlWalk

/-- Operands have smaller ids than the node that reads them. -/
structure WellPlaced (id : NodeId) (n : Node) : Prop where
  binop : n.kind.isBinop = true →
    ∃ lhs rhs, n.inputs = [some lhs, some rhs] ∧ lhs < id ∧ rhs < id
  unop : n.kind.isUnop = true → ∃ operand, n.inputs = [some operand] ∧
    operand < id
  proj : n.kind = .proj → ∃ source, n.inputs = [some source] ∧ source < id
  phi : n.kind = .phi → ∃ region, n.inputs.head? = some (some region) ∧
    region < id

/-- Every node of the graph is well placed. -/
def Ordered (g : Graph) : Prop :=
  ∀ id : Nat, id < g.size → WellPlaced id (g.node id)

theorem wellPlaced_default (id : NodeId) : WellPlaced id default := by
  constructor <;> intro kind <;> cases kind

theorem Ordered.node {g : Graph} (ordered : Ordered g) (id : NodeId) :
    WellPlaced id (g.node id) := by
  by_cases inside : id < g.size
  · exact ordered id inside
  · rw [g.node_of_size_le (Nat.le_of_not_lt inside)]
    exact wellPlaced_default id

theorem evalUnop_of_not_isUnop {kind : NodeKind}
    (notUnary : kind.isUnop = false) (a : Word) : evalUnop kind a = none := by
  cases kind <;> first | rfl | simp [NodeKind.isUnop] at notUnary

theorem isUnop_of_isBinop {kind : NodeKind} (binary : kind.isBinop = true) :
    kind.isUnop = false := by
  cases kind <;> first | rfl | simp [NodeKind.isBinop] at binary

variable {g : Graph} {args : List Word}

theorem valueAt_succ (phis : Phis) (fuel : Nat) (id : NodeId) :
    valueAt g args phis (fuel + 1) id =
      valueStep g args phis id (valueAt g args phis fuel) := rfl

/-- Only the values of smaller nodes matter. -/
theorem operate_congr {id : NodeId} {n : Node} (placed : WellPlaced id n)
    {first second : NodeId → Option Word}
    (agree : ∀ operand < id, first operand = second operand) :
    operate n first = operate n second := by
  by_cases binary : n.kind.isBinop = true
  · obtain ⟨lhs, rhs, inputs, left, right⟩ := placed.binop binary
    simp only [operate, inputs, agree lhs left, agree rhs right]
  · by_cases unary : n.kind.isUnop = true
    · obtain ⟨operand, inputs, below⟩ := placed.unop unary
      simp only [operate, inputs, agree operand below]
    · rw [Bool.not_eq_true] at binary unary
      have noUnop : evalUnop n.kind = fun _ => none :=
        funext (evalUnop_of_not_isUnop unary)
      have noBinop : evalBinop n.kind = fun _ _ => none :=
        funext fun a => funext (evalBinop_eq_none_of_not_isBinop binary a)
      have none (operandValue : NodeId → Option Word) :
          operate n operandValue = none := by
        unfold operate
        split
        · rw [noUnop, Option.bind_fun_none]
        · simp only [noBinop, Option.bind_fun_none]
        · rfl
      rw [none, none]

theorem valueStep_congr {phis phis' : Phis} {id : NodeId}
    (placed : WellPlaced id (g.node id)) (phi : phis id = phis' id)
    {first second : NodeId → Option Word}
    (agree : ∀ operand < id, first operand = second operand) :
    valueStep g args phis id first = valueStep g args phis' id second := by
  have operands := operate_congr placed agree
  unfold valueStep
  split
  · rfl
  · rfl
  · exact phi
  · exact operands

/-- Fuel beyond the id changes nothing. -/
theorem valueAt_stable (ordered : Ordered g) (phis : Phis) (id : NodeId)
    {fuel : Nat} (enough : id < fuel) :
    valueAt g args phis fuel id = value g args phis id := by
  induction id using Nat.strong_induction_on generalizing fuel with
  | _ id ih =>
      cases fuel with
      | zero => exact absurd enough (Nat.not_lt_zero id)
      | succ fuel =>
          rw [value, valueAt_succ, valueAt_succ]
          refine valueStep_congr (ordered.node id) rfl fun operand below => ?_
          rw [ih operand below (Nat.lt_of_lt_of_le below
            (Nat.le_of_lt_succ enough)), ih operand below below]

/-- The value of a node from the values of its operands. -/
theorem value_eq (ordered : Ordered g) (phis : Phis) (id : NodeId) :
    value g args phis id =
      valueStep g args phis id (value g args phis) := by
  rw [value, valueAt_succ]
  exact valueStep_congr (ordered.node id) rfl fun operand below =>
    valueAt_stable ordered phis operand below

/-- Values below a bound depend on the phis below the bound only. -/
theorem value_congr (ordered : Ordered g) {phis phis' : Phis} {bound : Nat}
    (agree : ∀ id : Nat, id < bound → phis id = phis' id) {id : NodeId}
    (below : id < bound) :
    value g args phis id = value g args phis' id := by
  induction id using Nat.strong_induction_on with
  | _ id ih =>
      rw [value_eq ordered, value_eq ordered]
      exact valueStep_congr (ordered.node id) (agree id below)
        fun operand smaller => ih operand smaller (Nat.lt_trans smaller below)

section Kinds

variable (ordered : Ordered g) (phis : Phis) {id : NodeId}
include ordered

theorem value_constant (kind : (g.node id).kind = .constant) :
    value g args phis id = some (g.node id).payload := by
  rw [value_eq ordered, valueStep, kind]

theorem value_parameter (kind : (g.node id).kind = .parameter) :
    value g args phis id = some (args.getD (paramRank g id) 0) := by
  rw [value_eq ordered, valueStep, kind]

theorem value_phi (kind : (g.node id).kind = .phi) :
    value g args phis id = phis id := by
  rw [value_eq ordered, valueStep, kind]

theorem value_operation
    (op : (g.node id).kind.isBinop = true ∨ (g.node id).kind.isUnop = true) :
    value g args phis id = operate (g.node id) (value g args phis) := by
  rw [value_eq ordered, valueStep]
  cases kind : (g.node id).kind <;>
    first | rfl | simp [kind, NodeKind.isBinop, NodeKind.isUnop] at op

end Kinds

end ControlWalk

end Aegis
