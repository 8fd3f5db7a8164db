import AegisCompiler.SccpLattice

/-!
# When constant propagation is sound

A valuation assigns a word to every node and satisfies the equations of the
constants, the arithmetic nodes and the phis; every other producer is free.
The pass is sound if every node it replaces has the value it is replaced by,
and if no constant comes from a node that is not folded.
-/

namespace Aegis

namespace Sccp

variable (g : Graph)

/-- The data operands of a node that name nodes of the graph. -/
def operands (n : Node) : List NodeId := n.dataIns.filterMap g.inRange

/-- The value inputs of a phi, by their position: its data inputs behind slot 0, which
holds the merge it belongs to. -/
def phiInputs (n : Node) : List NodeId :=
  (n.inputs.drop (if n.isPure then 1 else 2)).filterMap g.inRange

/-- The data operands of a phi that the pass looks at: it tells the merge by its kind, and
skips every region and loop. -/
def phiValues (n : Node) : List NodeId :=
  (operands g n).filter fun input => !isMergeNode (g.node input).kind

/-- What the value of one node must satisfy.  Parameters, memory accesses,
calls and their projections, allocations, field pointers and casts between
different types are unconstrained. -/
def NodeEquation (valuation : NodeId → Word) (id : NodeId) : Prop :=
  let n := g.node id
  if n.kind = .constant then valuation id = n.payload
  else if n.kind = .phi then
    ∃ input ∈ phiInputs g n, valuation id = valuation input
  else if n.kind.isUnop then
    ∀ input, firstOperand g n = some input →
      evalUnop n.kind (valuation input) = some (valuation id)
  else if n.kind.isBinop then
    ∀ value, evalOperands n.kind ((operands g n).map valuation) = some value →
      valuation id = value
  else if n.kind = .cast then
    ∀ input, operands g n = [input] → (g.node input).typeId = n.typeId →
      valuation id = valuation input
  else True

/-- A valuation that satisfies the equation of every live node. -/
def Satisfies (valuation : NodeId → Word) : Prop :=
  ∀ id, g.Live id → NodeEquation g valuation id

/-- The kinds the pass may give a constant value. -/
def Folds (kind : NodeKind) : Prop :=
  kind = .constant ∨ kind = .phi ∨ kind.isUnop = true ∨ kind.isBinop = true

/-- The operands that decide the value of a node. -/
def consulted (n : Node) : List NodeId :=
  if n.kind = .constant then []
  else if n.kind = .phi then phiInputs g n
  else if n.kind.isUnop then (firstOperand g n).toList
  else operands g n

/-- The node is replaced by a constant with the given value. -/
def Replaced (id : NodeId) (value : Word) : Prop :=
  g.Live id ∧ (g.node id).kind ≠ .constant ∧ (g.node id).isPure = true ∧
    (analyze g).valueAt id = .const value

/-- Constant propagation keeps the meaning of the graph: replaced nodes have
the value they are replaced by, and a node that is not folded neither gets a
constant nor passes one on. -/
structure Sound : Prop where
  replaced : ∀ valuation, Satisfies g valuation →
    ∀ id value, Replaced g id value → valuation id = value
  unfolded : ∀ id, g.Live id → ¬ Folds (g.node id).kind →
    ∀ value, (analyze g).valueAt id ≠ .const value
  users : ∀ id value, g.Live id → (analyze g).valueAt id = .const value →
    ∀ input ∈ consulted g (g.node id), Folds (g.node input).kind

/-- The operand is decided before the node is first visited. -/
def Earlier (input id : NodeId) : Prop :=
  (g.node input).kind = .constant ∨ input < id

/-- A constant expression all of whose operands come earlier. -/
inductive EarlyConst : NodeId → Word → Prop
  | constant {id} : g.Live id → (g.node id).kind = .constant →
      EarlyConst id (g.node id).payload
  | unop {id input value result} : g.Live id →
      (g.node id).kind.isUnop = true →
      firstOperand g (g.node id) = some input → Earlier g input id →
      EarlyConst input value →
      evalUnop (g.node id).kind value = some result →
      EarlyConst id result
  | binop {id result} (values : NodeId → Word) : g.Live id →
      (g.node id).kind.isBinop = true →
      (∀ input ∈ operands g (g.node id), Earlier g input id) →
      (∀ input ∈ operands g (g.node id), EarlyConst input (values input)) →
      evalOperands (g.node id).kind
        ((operands g (g.node id)).map values) = some result →
      EarlyConst id result
  | phi {id value} : g.Live id → (g.node id).kind = .phi →
      phiValues g (g.node id) ≠ [] →
      (∀ input ∈ phiValues g (g.node id), Earlier g input id) →
      (∀ input ∈ phiValues g (g.node id), EarlyConst input value) →
      EarlyConst id value

/-- A constant expression: arithmetic over constants, where a phi counts only
if its equal operands all come earlier. -/
inductive ConstExpr : NodeId → Word → Prop
  | early {id value} : EarlyConst g id value → ConstExpr id value
  | unop {id input value result} : g.Live id →
      (g.node id).kind.isUnop = true →
      firstOperand g (g.node id) = some input →
      ConstExpr input value →
      evalUnop (g.node id).kind value = some result →
      ConstExpr id result
  | binop {id result} (values : NodeId → Word) : g.Live id →
      (g.node id).kind.isBinop = true →
      (∀ input ∈ operands g (g.node id), ConstExpr input (values input)) →
      evalOperands (g.node id).kind
        ((operands g (g.node id)).map values) = some result →
      ConstExpr id result

/-- A node outside the folded kinds whose only operand is a constant
expression. -/
def PassesConstant (id : NodeId) : Prop :=
  g.Live id ∧ ¬ Folds (g.node id).kind ∧
    ∃ input value, operands g (g.node id) = [input] ∧
      ConstExpr g input value

/-- A phi that is a constant expression by the operands the pass looks at, while one of its
value inputs is a region or a loop. -/
def SkipsValue (id : NodeId) : Prop :=
  (g.node id).kind = .phi ∧ (∃ value, EarlyConst g id value) ∧
    ∃ input ∈ phiInputs g (g.node id), isMergeNode (g.node input).kind = true

/-- No node passes a constant through, and no constant phi skips a value. -/
structure Clean : Prop where
  passes : ∀ id, ¬ PassesConstant g id
  skips : ∀ id, ¬ SkipsValue g id

end Sccp

end Aegis
