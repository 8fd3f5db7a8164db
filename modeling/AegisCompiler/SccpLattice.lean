import AegisCompiler.SeaOfNodesGraph
import AegisCompiler.WordArithmetic

/-!
# Sparse conditional constant propagation

The pass keeps one lattice value per node, sweeps all nodes in id order until
nothing changes, and then replaces every pure node whose value is a constant.
-/

namespace Aegis

namespace Sccp

/-- A lattice value: not yet known, a known constant, or overdefined. -/
inductive LatticeVal where
  | top
  | const (value : Word)
  | bottom
  deriving DecidableEq, Repr

/-- Meet a lattice value with another, reporting whether it changed. -/
def LatticeVal.merge : LatticeVal → LatticeVal → LatticeVal × Bool
  | self, .top => (self, false)
  | .bottom, _ => (.bottom, false)
  | .top, .bottom => (.bottom, true)
  | .top, .const value => (.const value, true)
  | .const value, .const other =>
      if value = other then (.const value, false) else (.bottom, true)
  | .const _, .bottom => (.bottom, true)

/-- Fold a binary operation over two constants.  In the source a sum, a difference or a product
beyond 64 bits, the least integer divided by `-1`, and its remainder by `-1` are undefined; here
they wrap. -/
def applyBinop (kind : NodeKind) (a b : Word) : Option Word :=
  match kind with
  | .add => some (a + b)
  | .sub => some (a - b)
  | .mul => some (a * b)
  | .div => if b ≠ 0 then some (a.sdiv b) else none
  | .mod => if b ≠ 0 then some (a.srem b) else none
  | .udiv => if b ≠ 0 then some (a / b) else none
  | .umod => if b ≠ 0 then some (a % b) else none
  | .and => some (a &&& b)
  | .or => some (a ||| b)
  | .xor => some (a ^^^ b)
  -- The source shifts by an unchecked count; a count outside 0..63 is
  -- undefined there, and the host's shift reduces it modulo 64.
  | .shl => some (a <<< shiftCount b)
  | .shr => some (a.sshiftRight (shiftCount b))
  | .lshr => some (a >>> shiftCount b)
  | .cmpEq => some (if a = b then 1 else 0)
  | .cmpNe => some (if a ≠ b then 1 else 0)
  | .cmpLt => some (if a.slt b then 1 else 0)
  | .cmpLe => some (if a.sle b then 1 else 0)
  | .cmpGt => some (if b.slt a then 1 else 0)
  | .cmpGe => some (if b.sle a then 1 else 0)
  | .cmpUlt => some (if a.ult b then 1 else 0)
  | .cmpUle => some (if a.ule b then 1 else 0)
  | .cmpUgt => some (if b.ult a then 1 else 0)
  | .cmpUge => some (if b.ule a then 1 else 0)
  | _ => none

/-- Fold a unary operation over one constant.  The negation of the least integer, undefined in
the source, wraps too. -/
def applyUnop (kind : NodeKind) (a : Word) : Option Word :=
  match kind with
  | .neg => some (-a)
  | .not => some (if a = 0 then 1 else 0)
  | .bitNot => some (~~~a)
  | _ => none

/-- The lattice values of all nodes. -/
abbrev State := List LatticeVal

namespace State

def valueAt (state : State) (id : NodeId) : LatticeVal := state.getD id .top

/-- Merge a value into the entry of one node. -/
def mergeAt (state : State) (id : NodeId) (value : LatticeVal) :
    State × Bool :=
  let merged := (state.valueAt id).merge value
  (state.set id merged.1, merged.2)

end State

/-- Constants start at their payload, everything else at top. -/
def seed (g : Graph) : State :=
  g.nodes.map fun n =>
    if n.isDead then .top
    else if n.kind = .constant then .const n.payload
    else .top

/-- A node that merges control and carries no value of its own. -/
def isMergeNode (kind : NodeKind) : Bool :=
  decide (kind = .region ∨ kind = .loop)

/-- The meet over the data inputs of a phi: `none` when some input is unknown
or two constants differ, otherwise the common constant, if there is any. -/
def phiMeet (g : Graph) (state : State) :
    Option Word → List NodeRef → Option (Option Word)
  | meet, [] => some meet
  | meet, ref :: refs =>
      match g.inRange ref with
      | none => phiMeet g state meet refs
      | some input =>
          if isMergeNode (g.node input).kind then phiMeet g state meet refs
          else
            match state.valueAt input with
            | .top => none
            | .bottom => none
            | .const value =>
                match meet with
                | none => phiMeet g state (some value) refs
                | some previous =>
                    if previous ≠ value then none
                    else phiMeet g state (some previous) refs

/-- What the scan over the data inputs of a node has seen. -/
structure Scan where
  anyBottom : Bool
  allConst : Bool
  accumulator : Option Word
  deriving DecidableEq, Repr

/-- Scan the data inputs of a node, folding constants from left to right. -/
def scanOperands (g : Graph) (state : State) (kind : NodeKind) :
    Bool → Option Word → List NodeRef → Scan
  | allConst, accumulator, [] => ⟨false, allConst, accumulator⟩
  | allConst, accumulator, ref :: refs =>
      match g.inRange ref with
      | none => scanOperands g state kind allConst accumulator refs
      | some input =>
          match state.valueAt input with
          | .top => scanOperands g state kind false accumulator refs
          | .bottom => ⟨true, allConst, accumulator⟩
          | .const value =>
              match accumulator with
              | none => scanOperands g state kind allConst (some value) refs
              | some previous =>
                  match applyBinop kind previous value with
                  | none => ⟨false, false, accumulator⟩
                  | some folded =>
                      scanOperands g state kind allConst (some folded) refs

/-- The operand a unary node is folded over. -/
def firstOperand (g : Graph) (n : Node) : Option NodeId :=
  g.inRange (n.dataIns.getD 0 none)

/-- The value merged into a node when it is visited; `none` when the visit
decides nothing. -/
def transfer (g : Graph) (state : State) (id : NodeId) : Option LatticeVal :=
  let n := g.node id
  if n.kind = .phi then
    match phiMeet g state none n.dataIns with
    | some (some meet) => some (.const meet)
    | _ => some .bottom
  else if n.kind = .neg ∨ n.kind = .not ∨ n.kind = .bitNot then
    match firstOperand g n with
    | none => none
    | some input =>
        match state.valueAt input with
        | .bottom => some .bottom
        | .top => none
        | .const value => (applyUnop n.kind value).map .const
  else
    let scan := scanOperands g state n.kind true none n.dataIns
    if scan.anyBottom then some .bottom
    else if scan.allConst then scan.accumulator.map .const
    else none

/-- Visit one node. -/
def visit (g : Graph) (state : State) (id : NodeId) : State × Bool :=
  let n := g.node id
  if n.isDead then (state, false)
  else if n.kind = .constant then (state, false)
  else
    match transfer g state id with
    | none => (state, false)
    | some value => state.mergeAt id value

/-- Visit a list of nodes in order, reporting whether anything changed. -/
def visitAll (g : Graph) : List NodeId → State × Bool → State × Bool
  | [], result => result
  | id :: ids, result =>
      let visited := visit g result.1 id
      visitAll g ids (visited.1, result.2 || visited.2)

/-- One sweep over all nodes in id order. -/
def sweep (g : Graph) (state : State) : State × Bool :=
  visitAll g (List.range g.size) (state, false)

/-- Sweep until nothing changes. -/
def sweeps (g : Graph) : Nat → State → State
  | 0, state => state
  | fuel + 1, state =>
      let swept := sweep g state
      if swept.2 then sweeps g fuel swept.1 else swept.1

/-- The lattice values when the sweep loop ends. -/
def analyze (g : Graph) : State := sweeps g (g.size + 1) (seed g)

/-- Replace a node by a fresh constant. -/
def replaceByConstant (g : Graph) (id : NodeId) (value : Word) : Graph :=
  let folded := g.makeConstant value (g.node id).typeId
  let users := folded.2.usersSnapshot id
  let rewired := users.foldl
    (fun g user => g.swapInput user (some id) (some folded.1)) folded.2
  rewired.setFlag id .isDead

/-- The rewriting loop body: replace a live pure node whose value is known. -/
def rewrite (state : State) (progress : Graph × Nat) (id : NodeId) :
    Graph × Nat :=
  let n := progress.1.node id
  if n.isDead then progress
  else if n.kind = .constant then progress
  else if !n.isPure then progress
  else
    match state.valueAt id with
    | .const value => (replaceByConstant progress.1 id value, progress.2 + 1)
    | _ => progress

/-- The pass: the rewritten graph and the number of nodes removed. -/
def run (g : Graph) : Graph × Nat :=
  (List.range g.size).foldl (rewrite (analyze g)) (g, 0)

end Sccp

end Aegis
