import AegisCompiler.SeaOfNodesGraph
import AegisCompiler.WordArithmetic
import Mathlib.Logic.Relation

/-!
# Walking the control of a graph

The meaning of a graph: follow the control edges from the start node.  An If
continues at one of its projections, entering a region or a loop sets all its
phis at once from the operands that belong to the taken slot, and a return
ends the walk.  Data nodes are evaluated on demand.
-/

namespace Aegis

namespace ControlWalk

/-- The current values of the phis. -/
abbrev Phis := NodeId → Option Word

/-- The value of an operation on given operand values. -/
def operate (n : Node) (operandValue : NodeId → Option Word) : Option Word :=
  match n.inputs with
  | [some operand] => (operandValue operand).bind (evalUnop n.kind)
  | [some lhs, some rhs] =>
      (operandValue lhs).bind fun a =>
        (operandValue rhs).bind (evalBinop n.kind a)
  | _ => none

section Values

variable (g : Graph) (args : List Word) (phis : Phis)

/-- The position of a parameter node among the parameter nodes. -/
def paramRank (id : NodeId) : Nat :=
  (List.range id).countP fun p => decide ((g.node p).kind = .parameter)

/-- The value of a data node from the values of its operands. -/
def valueStep (id : NodeId) (operandValue : NodeId → Option Word) :
    Option Word :=
  match (g.node id).kind with
  | .constant => some (g.node id).payload
  | .parameter => some (args.getD (paramRank g id) 0)
  | .phi => phis id
  | _ => operate (g.node id) operandValue

/-- The value of a data node; the fuel bounds the depth of operands. -/
def valueAt : Nat → NodeId → Option Word
  | 0, _ => none
  | fuel + 1, id => valueStep g args phis id (valueAt fuel)

/-- The value of a data node; operands have smaller ids. -/
def value (id : NodeId) : Option Word := valueAt g args phis (id + 1) id

/-- The value of an input slot. -/
def valueOf (ref : NodeRef) : Option Word := ref.bind (value g args phis)

end Values

/-- The node reads a control value in this slot. -/
def ReadsCtrl (n : Node) (slot ctrl : Nat) : Prop :=
  ((n.kind = .ifNode ∨ n.kind = .returnNode) ∧ slot = 0 ∨
    n.kind = .region ∨ n.kind = .loop) ∧
  n.inputs.getD slot none = some ctrl

instance (n : Node) (slot ctrl : Nat) : Decidable (ReadsCtrl n slot ctrl) :=
  inferInstanceAs (Decidable (_ ∧ _))

section Control

variable (g : Graph)

/-- All uses of a control node: the users with their slots. -/
def consumers (ctrl : NodeId) : List (NodeId × Nat) :=
  (List.range g.size).flatMap fun user =>
    ((List.range (g.node user).inputs.length).filter fun slot =>
      ReadsCtrl (g.node user) slot ctrl).map fun slot => (user, slot)

/-- The projections of a node with the given index. -/
def projs (source : NodeId) (which : BitVec 32) : List NodeId :=
  (List.range g.size).filter fun p =>
    decide ((g.node p).kind = .proj) &&
      decide ((g.node p).inputs = [some source]) &&
        decide ((g.node p).payload.projIndex = which)

end Control

/-- The node is a phi of the region or loop. -/
def isPhiOf (g : Graph) (region phi : NodeId) : Bool :=
  decide ((g.node phi).kind = .phi) &&
    decide ((g.node phi).inputs.head? = some (some region))

/-- Set all phis of a region from one of their input slots. -/
def enter (g : Graph) (args : List Word) (region : NodeId) (slot : Nat)
    (phis : Phis) : Phis := fun phi =>
  if isPhiOf g region phi then
    valueOf g args phis ((g.node phi).inputs.getD slot none)
  else phis phi

/-- Where a walk is: at a control node with the values of the phis, or at the
end. -/
inductive WalkState where
  | walking (ctrl : NodeId) (phis : Phis)
  | returned (value : Word)

/-- One step.  A control node with several uses, or an undefined condition,
leaves the walk stuck. -/
def step (g : Graph) (args : List Word) : WalkState → Option WalkState
  | .returned _ => none
  | .walking ctrl phis =>
      match consumers g ctrl with
      | [(user, slot)] =>
          let n := g.node user
          match n.kind with
          | .ifNode =>
              (valueOf g args phis (n.inputs.getD 1 none)).bind fun cond =>
                match projs g user (if cond ≠ 0 then 0 else 1) with
                | [proj] => some (.walking proj phis)
                | _ => none
          | .region =>
              some (.walking user (enter g args user (slot + 1) phis))
          | .loop =>
              -- Slot 1 is the entry and slot 0 the back edge.
              some (.walking user (enter g args user (if slot = 1 then 1 else 2)
                phis))
          | .returnNode =>
              (valueOf g args phis (n.inputs.getD 2 none)).map .returned
          | _ => none
      | _ => none

/-- Any number of steps. -/
abbrev Steps (g : Graph) (args : List Word) : WalkState → WalkState → Prop :=
  Relation.ReflTransGen fun s t => step g args s = some t

/-- The walk from the control projection of the start node ends with this
value. -/
def WalkReturns (g : Graph) (args : List Word) (value : Word) : Prop :=
  ∃ start, projs g kStartNodeId 0 = [start] ∧
    Steps g args (.walking start fun _ => none) (.returned value)

theorem Steps.returned_of_steps {g : Graph} {args : List Word}
    {s t : WalkState} {value : Word} (first : Steps g args s (.returned value))
    (second : Steps g args s t) : Steps g args t (.returned value) := by
  induction second with
  | refl => exact first
  | tail _ last ih =>
      rcases Relation.ReflTransGen.cases_head ih with done | ⟨u, next, rest⟩
      · rw [done] at last
        cases last
      · rw [next, Option.some.injEq] at last
        rwa [last] at rest

/-- A graph returns at most one value. -/
theorem WalkReturns.unique {g : Graph} {args : List Word} {first second : Word}
    (left : WalkReturns g args first) (right : WalkReturns g args second) :
    first = second := by
  obtain ⟨start, starts, leftRun⟩ := left
  obtain ⟨other, others, rightRun⟩ := right
  rw [starts, List.cons.injEq] at others
  obtain ⟨rfl, -⟩ := others
  rcases Relation.ReflTransGen.cases_head (leftRun.returned_of_steps rightRun)
    with same | ⟨_, next, _⟩
  · cases same
    rfl
  · cases next

end ControlWalk

end Aegis
