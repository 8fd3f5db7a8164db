import AegisCompiler.NodeEquations
import AegisCompiler.SeaOfNodesGraph

/-!
# Guards that cannot fail

Two passes remove guards.  One looks for a null check of a pointer that an allocation has just
made, the other for a bounds check between two constants.
-/

namespace Aegis

namespace Graph

/-- The node is a constant with this payload. -/
def isConstantOf (g : Graph) (value : Word) (ref : NodeRef) : Bool :=
  (g.inRange ref).any fun id =>
    decide ((g.node id).kind = .constant) && decide ((g.node id).payload = value)

/-- The condition of a guard. -/
def guardCond (g : Graph) (id : NodeId) : Option NodeId :=
  g.inRange ((g.node id).dataIns.getD 0 none)

/-- The two operands of a comparison. -/
def comparands (n : Node) : Option (NodeRef × NodeRef) :=
  match n.dataIns with
  | [lhs, rhs] => some (lhs, rhs)
  | _ => none

end Graph

namespace NullPointerElimination

def kNullPtrElimMaxCheckSites : Nat := 1024

def tooManyCheckSites : String :=
  "pass=null_pointer_elimination reason=too_many_check_sites"

/-- The graph, the number of removed guards and of guards seen, and the telemetry. -/
structure Progress where
  graph : Graph
  removed : Nat := 0
  checkSites : Nat := 0
  reported : List String := []

/-- The pointer that is compared with null, on either side. -/
def checkedPointer (g : Graph) (cond : NodeId) : Option NodeId :=
  if (g.node cond).kind ≠ .cmpNe then none
  else match Graph.comparands (g.node cond) with
    | none => none
    | some (lhs, rhs) =>
        if g.isConstantOf 0 lhs then g.inRange rhs
        else if g.isConstantOf 0 rhs then g.inRange lhs
        else none

/-- The guard tests a pointer that an allocation has made. -/
def isUnnecessary (g : Graph) (id : NodeId) : Bool :=
  ((g.guardCond id).bind (checkedPointer g)).any fun ptr =>
    decide ((g.node ptr).kind = .alloc) || decide ((g.node ptr).kind = .stackAlloc)

/-- Visit a node; the pass stops at the first guard beyond its budget. -/
def visit (progress : Progress) (id : NodeId) : Except Progress Progress :=
  let g := progress.graph
  if (g.node id).isDead then pure progress
  else if (g.node id).kind ≠ .guard then pure progress
  else
    let progress := { progress with checkSites := progress.checkSites + 1 }
    if kNullPtrElimMaxCheckSites < progress.checkSites then
      throw { progress with reported := progress.reported ++ [tooManyCheckSites] }
    else if isUnnecessary g id then
      pure { progress with graph := g.markDead id, removed := progress.removed + 1 }
    else pure progress

def run (g : Graph) : Progress :=
  match (List.range g.size).foldlM visit { graph := g } with
  | .ok progress => progress
  | .error progress => progress

end NullPointerElimination

namespace BoundsCheckElim

/-- The payload of an operand that is a constant. -/
def constantAt (g : Graph) (ref : NodeRef) : Option Word :=
  (g.inRange ref).bind fun id =>
    if (g.node id).kind = .constant then some (g.node id).payload else none

/-- The condition compares a constant index with a constant length above it. -/
def isInBounds (g : Graph) (cond : NodeId) : Bool :=
  if (g.node cond).kind ≠ .cmpLt ∧ (g.node cond).kind ≠ .cmpUlt then false
  else match Graph.comparands (g.node cond) with
    | none => false
    | some (lhs, rhs) =>
        match constantAt g lhs, constantAt g rhs with
        | some idx, some len => (0 : Word).sle idx && idx.slt len
        | _, _ => false

def visit (progress : Graph × Nat) (id : NodeId) : Graph × Nat :=
  let g := progress.1
  if (g.node id).isDead then progress
  else if (g.node id).kind ≠ .guard then progress
  else if (g.guardCond id).any (isInBounds g) then (g.markDead id, progress.2 + 1)
  else progress

def run (g : Graph) : Graph × Nat := (List.range g.size).foldl visit (g, 0)

end BoundsCheckElim

end Aegis
