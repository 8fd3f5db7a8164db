import AegisCompiler.NodeKind
import Mathlib.Data.List.Basic

/-!
# The sea-of-nodes graph

Nodes live in one vector and refer to each other by index.  A parallel vector
of output lists holds the reverse edges, one entry per input slot.  The absent
node id of the source is `none` here, so an edge is an optional index.
-/

namespace Aegis

/-- The index of a node in the graph. -/
abbrev NodeId := Nat

/-- An input slot: a node id, or the invalid id. -/
abbrev NodeRef := Option NodeId

/-- The invalid node id. -/
abbrev kInvalidNodeId : NodeRef := none

/-- The single start node of a graph. -/
def kStartNodeId : NodeId := 0

/-- The eight-byte payload union, as raw bits. -/
abbrev NodePayload := Word

namespace NodePayload

/-- The payload holding a symbol. -/
def ofSym (sym : SymbolId) : NodePayload := sym.setWidth 64

/-- Read the payload as a symbol. -/
def sym (payload : NodePayload) : SymbolId := payload.setWidth 32

/-- The payload holding a projection index. -/
def ofProjIndex (which : BitVec 32) : NodePayload := which.setWidth 64

/-- Read the payload as a projection index. -/
def projIndex (payload : NodePayload) : BitVec 32 := payload.setWidth 32

end NodePayload

/-- A node: its kind, effect class, flags, type, payload and input slots. -/
structure Node where
  kind : NodeKind := .start
  effect : EffectClass := .pure
  flags : NodeFlags := 0
  typeId : TypeId := kInvalidTypeId
  payload : NodePayload := 0
  inputs : List NodeRef := []
  deriving DecidableEq, Repr

instance : Inhabited Node := ⟨{}⟩

namespace Node

@[simp] theorem default_inputs : (default : Node).inputs = [] := rfl

def isPure (n : Node) : Bool := decide (n.effect = .pure)

def isCrowded (n : Node) : Bool := decide (n.effect = .crowded)

def isDead (n : Node) : Bool := n.flags.has .isDead

/-- The control predecessor. -/
def ctrlIn (n : Node) : NodeRef := n.inputs.getD 0 none

/-- The effect predecessor. -/
def effIn (n : Node) : NodeRef := n.inputs.getD 1 none

/-- The data operands: every input of a pure node, and the inputs after the
control and effect slots of any other node. -/
def dataIns (n : Node) : List NodeRef :=
  if n.isPure then n.inputs else n.inputs.drop 2

/-- Set one flag of a node. -/
def setFlag (n : Node) (bit : NodeFlagBit) : Node :=
  { n with flags := n.flags.set bit }

@[simp] theorem setFlag_kind (n : Node) (bit : NodeFlagBit) :
    (n.setFlag bit).kind = n.kind := rfl

@[simp] theorem setFlag_effect (n : Node) (bit : NodeFlagBit) :
    (n.setFlag bit).effect = n.effect := rfl

@[simp] theorem setFlag_payload (n : Node) (bit : NodeFlagBit) :
    (n.setFlag bit).payload = n.payload := rfl

@[simp] theorem setFlag_inputs (n : Node) (bit : NodeFlagBit) :
    (n.setFlag bit).inputs = n.inputs := rfl

theorem isDead_setFlag (n : Node) (bit : NodeFlagBit) :
    (n.setFlag bit).isDead = (n.isDead || decide (bit = .isDead)) :=
  NodeFlags.has_set _ _ _

theorem setFlag_setFlag (n : Node) (bit : NodeFlagBit) :
    (n.setFlag bit).setFlag bit = n.setFlag bit := by
  simp [setFlag, NodeFlags.set, BitVec.or_assoc]

end Node

/-- The input counts and input positions of some kinds of nodes. -/
def kReturnInputs : Nat := 3

def kReturnValIndex : Nat := 2

def kSelectInputs : Nat := 3

def kIfInputs : Nat := 2

def kIfCondIndex : Nat := 1

def kPhiInputs2Branches : Nat := 3

/-- The graph: nodes and their output lists, indexed by node id. -/
structure Graph where
  nodes : List Node := []
  outputs : List (List NodeId) := []
  deriving DecidableEq, Repr, Inhabited

namespace Graph

/-- A graph holding only its start node. -/
def fresh : Graph := { nodes := [{}], outputs := [[]] }

def size (g : Graph) : Nat := g.nodes.length

/-- The node with the given id. -/
def node (g : Graph) (id : NodeId) : Node := g.nodes.getD id default

/-- A node of the graph that is not dead. -/
def Live (g : Graph) (id : NodeId) : Prop := id < g.size ∧ (g.node id).isDead = false

/-- The id names a node of the graph. -/
def inRange (g : Graph) : NodeRef → Option NodeId
  | some id => if id < g.size then some id else none
  | none => none

/-- A copy of the user list of a node. -/
def usersSnapshot (g : Graph) (id : NodeId) : List NodeId :=
  g.outputs.getD id []

/-- Apply an update to one node. -/
def modifyNode (g : Graph) (id : NodeId) (update : Node → Node) : Graph :=
  { g with nodes := g.nodes.modify id update }

/-- Extend the output lists to cover a node id. -/
def ensureOutputSlot (g : Graph) (id : NodeId) : Graph :=
  { g with outputs := g.outputs ++
      List.replicate (id + 1 - g.outputs.length) [] }

/-- Record `user` as one more user of `input`. -/
def linkInputToOutput (g : Graph) (user : NodeId) : NodeRef → Graph
  | none => g
  | some input =>
      let g := g.ensureOutputSlot input
      { g with outputs := g.outputs.modify input (· ++ [user]) }

/-- Remove the first occurrence of a user; the last user takes its place. -/
def removeFirst (users : List NodeId) (user : NodeId) : List NodeId :=
  if user ∈ users then
    (users.set (users.idxOf user) (users.getLastD user)).dropLast
  else users

/-- Drop one use of `input` by `user`. -/
def unlinkInputFromOutput (g : Graph) (user : NodeId) : NodeRef → Graph
  | none => g
  | some input =>
      { g with outputs := g.outputs.modify input (removeFirst · user) }

/-- Append a node and link its input slots. -/
def pushNode (g : Graph) (n : Node) : NodeId × Graph :=
  let id := g.size
  let g := { g with nodes := g.nodes ++ [n] }
  let g := g.ensureOutputSlot id
  (id, n.inputs.foldl (fun g input => g.linkInputToOutput id input) g)

def makeNode (g : Graph) (kind : NodeKind) (inputs : List NodeRef)
    (typeId : TypeId) (payload : NodePayload) : NodeId × Graph :=
  g.pushNode
    { kind, effect := effectClassOf kind, typeId, payload, inputs }

/-- A constant; the signed, unsigned and floating-point constructors of the
source differ only in how they spell the eight payload bytes. -/
def makeConstant (g : Graph) (value : Word) (typeId : TypeId) :
    NodeId × Graph :=
  g.makeNode .constant [] typeId value

def makeBinop (g : Graph) (kind : NodeKind) (a b : NodeRef)
    (typeId : TypeId) : NodeId × Graph :=
  g.makeNode kind [a, b] typeId 0

def makeCmp (g : Graph) (kind : NodeKind) (a b : NodeRef) : NodeId × Graph :=
  g.makeNode kind [a, b] kInvalidTypeId 0

def makeIf (g : Graph) (ctrl cond : NodeRef) : NodeId × Graph :=
  g.makeNode .ifNode [ctrl, cond] kInvalidTypeId 0

def makeProj (g : Graph) (src : NodeRef) (which : BitVec 32) :
    NodeId × Graph :=
  g.makeNode .proj [src] kInvalidTypeId (.ofProjIndex which)

def makeRegion (g : Graph) (preds : List NodeRef) : NodeId × Graph :=
  g.makeNode .region preds kInvalidTypeId 0

/-- A loop header; the arguments come in the order back edge, entry, and the
entry is stored in slot 0. -/
def makeLoop (g : Graph) (backPred entryPred : NodeRef) : NodeId × Graph :=
  g.makeNode .loop [entryPred, backPred] kInvalidTypeId 0

def makePhi (g : Graph) (region : NodeRef) (values : List NodeRef)
    (typeId : TypeId) : NodeId × Graph :=
  g.pushNode { kind := .phi, typeId, inputs := region :: values }

def makeReturn (g : Graph) (ctrl eff value : NodeRef) : NodeId × Graph :=
  g.makeNode .returnNode [ctrl, eff, value] kInvalidTypeId 0

/-- The call kind for a callee of the given effect class. -/
def callKind : EffectClass → NodeKind
  | .pure => .callPure
  | .altered => .callAltered
  | .crowded => .callCrowded

def makeCall (g : Graph) (ctrl eff : NodeRef) (callee : SymbolId)
    (args : List NodeRef) (returnType : TypeId)
    (calleeEffect : EffectClass) : NodeId × Graph :=
  g.makeNode (callKind calleeEffect) (ctrl :: eff :: args) returnType
    (.ofSym callee)

/-- Replace every occurrence of `old` among the inputs of a node. -/
def swapInput (g : Graph) (id : NodeId) (old new : NodeRef) : Graph :=
  let replaced := (g.node id).inputs.count old
  if replaced = 0 then g else
    let g := g.modifyNode id fun n =>
      { n with inputs := n.inputs.map fun input =>
          if input = old then new else input }
    replaced.repeat
      (fun g => (g.unlinkInputFromOutput id old).linkInputToOutput id new) g

/-- Replace one input slot of a node. -/
def setInput (g : Graph) (id : NodeId) (slot : Nat) (new : NodeRef) : Graph :=
  let old := (g.node id).inputs.getD slot none
  if old = new then g else
    let g := g.modifyNode id fun n =>
      { n with inputs := n.inputs.set slot new }
    (g.unlinkInputFromOutput id old).linkInputToOutput id new

/-- Append an input slot, unless the new input names no node. -/
def appendInput (g : Graph) (id : NodeId) (new : NodeRef) : Graph :=
  match g.inRange new with
  | none => g
  | some _ =>
      let g := g.modifyNode id fun n =>
        { n with inputs := n.inputs ++ [new] }
      g.linkInputToOutput id new

def setFlag (g : Graph) (id : NodeId) (bit : NodeFlagBit) : Graph :=
  g.modifyNode id (·.setFlag bit)

def markDead (g : Graph) (id : NodeId) : Graph := g.setFlag id .isDead

section Reading

variable (g : Graph)

theorem node_eq_getElem {id : NodeId} (inside : id < g.nodes.length) :
    g.node id = g.nodes[id] := by
  simp [node, inside]

theorem node_of_size_le {id : NodeId} (outside : g.size ≤ id) :
    g.node id = default := by
  simp only [size] at outside
  simp [node, outside]

variable {g} in
theorem inside_of_kind {id : NodeId} {kind : NodeKind}
    (found : (g.node id).kind = kind) (notStart : kind ≠ .start) :
    id < g.size := by
  by_contra outside
  rw [g.node_of_size_le (Nat.le_of_not_lt outside)] at found
  exact notStart found.symm

theorem inRange_some {ref : NodeRef} {id : NodeId} :
    g.inRange ref = some id ↔ ref = some id ∧ id < g.size := by
  cases ref with
  | none => simp [inRange]
  | some other =>
      by_cases inside : other < g.size
      · simp only [inRange, inside, if_true, Option.some.injEq]
        constructor
        · rintro rfl
          exact ⟨rfl, inside⟩
        · exact And.left
      · simp only [inRange, inside, if_false, Option.some.injEq, reduceCtorEq,
          false_iff, not_and]
        rintro rfl
        exact inside

@[simp]
theorem modifyNode_size (id : NodeId) (update : Node → Node) :
    (g.modifyNode id update).size = g.size := by
  simp [modifyNode, size]

theorem modifyNode_node (id : NodeId) (update : Node → Node) (other : NodeId) :
    (g.modifyNode id update).node other =
      if other = id ∧ id < g.size then update (g.node other)
      else g.node other := by
  by_cases same : other = id
  · subst same
    by_cases inside : other < g.size
    · have here : other < g.nodes.length := inside
      simp [modifyNode, node, inside, here]
    · have outside : g.size ≤ other := Nat.le_of_not_lt inside
      have outsideAfter : (g.modifyNode other update).size ≤ other := by
        simpa using outside
      simp [inside, node_of_size_le _ outside, node_of_size_le _ outsideAfter]
  · simp only [same, false_and, if_false, modifyNode, node,
      List.getD_eq_getElem?_getD, List.getElem?_modify]
    simp [Ne.symm same]

@[simp]
theorem linkInputToOutput_nodes (user : NodeId) (input : NodeRef) :
    (g.linkInputToOutput user input).nodes = g.nodes := by
  cases input <;> rfl

@[simp]
theorem unlinkInputFromOutput_nodes (user : NodeId) (input : NodeRef) :
    (g.unlinkInputFromOutput user input).nodes = g.nodes := by
  cases input <;> rfl

theorem linkAll_nodes (user : NodeId) (inputs : List NodeRef) (g : Graph) :
    (inputs.foldl (fun g input => g.linkInputToOutput user input) g).nodes =
      g.nodes := by
  induction inputs generalizing g with
  | nil => rfl
  | cons input inputs ih =>
      rw [List.foldl_cons, ih, linkInputToOutput_nodes]

@[simp]
theorem pushNode_fst (n : Node) : (g.pushNode n).1 = g.size := rfl

theorem pushNode_nodes (n : Node) :
    (g.pushNode n).2.nodes = g.nodes ++ [n] := by
  simp only [pushNode, linkAll_nodes, ensureOutputSlot]

@[simp]
theorem pushNode_size (n : Node) : (g.pushNode n).2.size = g.size + 1 := by
  simp [size, pushNode_nodes]

theorem pushNode_node (n : Node) (id : NodeId) :
    (g.pushNode n).2.node id = if id = g.size then n else g.node id := by
  simp only [node, pushNode_nodes]
  by_cases last : id = g.size
  · subst last
    simp [size]
  · rw [if_neg last, List.getD_eq_getElem?_getD, List.getD_eq_getElem?_getD]
    by_cases inside : id < g.nodes.length
    · rw [List.getElem?_append_left inside]
    · have beyond : g.nodes.length ≤ id := Nat.le_of_not_lt inside
      have outside : (g.nodes ++ [n]).length ≤ id := by
        rw [List.length_append, List.length_singleton]
        exact Nat.lt_of_le_of_ne beyond (Ne.symm last)
      rw [List.getElem?_eq_none outside, List.getElem?_eq_none beyond]

@[simp]
theorem pushNode_node_size (n : Node) : (g.pushNode n).2.node g.size = n := by
  simp [pushNode_node]

theorem pushNode_node_of_lt (n : Node) {id : NodeId} (old : id < g.size) :
    (g.pushNode n).2.node id = g.node id := by
  simp [pushNode_node, Nat.ne_of_lt old]

@[simp]
theorem setInput_size (id : NodeId) (slot : Nat) (new : NodeRef) :
    (g.setInput id slot new).size = g.size := by
  simp only [setInput]
  split
  · rfl
  · simp [size, modifyNode]

theorem set_getD_self {α : Type*} (xs : List α) (slot : Nat) (fill : α) :
    xs.set slot (xs.getD slot fill) = xs := by
  by_cases inside : slot < xs.length
  · simp [inside]
  · exact List.set_eq_of_length_le (Nat.le_of_not_lt inside)

theorem setInput_node (id : NodeId) (slot : Nat) (new : NodeRef)
    (other : NodeId) :
    (g.setInput id slot new).node other =
      if other = id then
        { g.node other with inputs := (g.node other).inputs.set slot new }
      else g.node other := by
  simp only [setInput]
  split
  case isTrue unchanged =>
    split
    case isTrue same =>
      subst same
      rw [← unchanged, set_getD_self]
    case isFalse => rfl
  case isFalse =>
    rw [node, linkInputToOutput_nodes, unlinkInputFromOutput_nodes,
      ← node, modifyNode_node]
    by_cases same : other = id
    · subst same
      by_cases inside : other < g.size
      · simp [inside]
      · have blank := node_of_size_le g (Nat.le_of_not_lt inside)
        simp only [inside, and_false, if_false, if_true, blank]
        rfl
    · simp [same]

theorem rewire_nodes (id : NodeId) (old new : NodeRef) (times : Nat)
    (g : Graph) :
    (times.repeat
      (fun g => (g.unlinkInputFromOutput id old).linkInputToOutput id new)
      g).nodes = g.nodes := by
  induction times with
  | zero => rfl
  | succ times ih => simp [Nat.repeat, ih]

@[simp]
theorem swapInput_size (id : NodeId) (old new : NodeRef) :
    (g.swapInput id old new).size = g.size := by
  simp only [swapInput]
  split
  · rfl
  · simp [size, rewire_nodes, modifyNode]

theorem swapInput_node (id : NodeId) (old new : NodeRef) (other : NodeId) :
    (g.swapInput id old new).node other =
      if other = id then
        { g.node other with
          inputs := (g.node other).inputs.map
            fun input => if input = old then new else input }
      else g.node other := by
  simp only [swapInput]
  split
  case isTrue absent =>
    split
    case isTrue same =>
      subst same
      have unused : ∀ input ∈ (g.node other).inputs, input ≠ old := by
        rintro input member rfl
        exact (List.count_pos_iff.mpr member).ne' absent
      have unchanged : (g.node other).inputs.map
          (fun input => if input = old then new else input) =
          (g.node other).inputs := by
        conv_rhs => rw [← List.map_id (g.node other).inputs]
        exact List.map_congr_left fun input member => by
          simp [unused input member]
      rw [unchanged]
    case isFalse => rfl
  case isFalse =>
    rw [node, rewire_nodes, ← node, modifyNode_node]
    by_cases same : other = id
    · subst same
      by_cases inside : other < g.size
      · simp [inside]
      · have blank := node_of_size_le g (Nat.le_of_not_lt inside)
        simp only [inside, and_false, if_false, if_true, blank]
        rfl
    · simp [same]

@[simp]
theorem setFlag_size (id : NodeId) (bit : NodeFlagBit) :
    (g.setFlag id bit).size = g.size := by
  simp [setFlag]

theorem setFlag_node (id : NodeId) (bit : NodeFlagBit) (other : NodeId) :
    (g.setFlag id bit).node other =
      if other = id ∧ id < g.size then (g.node other).setFlag bit
      else g.node other :=
  g.modifyNode_node id _ other

end Reading

end Graph

end Aegis
