import AegisCompiler.InstrSelShapes
import Mathlib.Logic.Function.Basic

/-!
# Collecting one machine instruction per node

The selector walks the nodes in id order, hands out virtual registers on first
mention and collects an instruction for every node it can emit.  The register
table carries the fact that two nodes share a register only if one is the
result projection of the other.
-/

namespace Aegis

namespace InstrSel

/-- The node whose register a node may share: the call of a result
projection, and the node itself otherwise. -/
def registerSource (g : Graph) (id : NodeId) : NodeId :=
  if isCallValueProj g id then (inputNode g id 0).getD id else id

/-- The virtual registers assigned to the nodes so far. -/
structure VRegTable (g : Graph) where
  vregOf : NodeId → Option VRegId
  next : VRegId
  below : ∀ id v, vregOf id = some v → v < next
  distinct : ∀ first second v, vregOf first = some v →
    vregOf second = some v → registerSource g first = registerSource g second

namespace VRegTable

variable {g : Graph}

/-- No registers yet. -/
def empty (g : Graph) : VRegTable g where
  vregOf := fun _ => none
  next := 0
  below := by simp
  distinct := by simp

/-- Give a node without a register the next one. -/
def assign (table : VRegTable g) (id : NodeId)
    (_ : table.vregOf id = none) : VRegTable g where
  vregOf := Function.update table.vregOf id (some table.next)
  next := table.next + 1
  below := by
    intro other v known
    by_cases same : other = id
    · subst same
      simp only [Function.update_self, Option.some.injEq] at known
      exact known ▸ Nat.lt_succ_self _
    · rw [Function.update_of_ne same] at known
      exact Nat.lt_succ_of_lt (table.below other v known)
  distinct := by
    have fresh (other : NodeId) : table.vregOf other ≠ some table.next :=
      fun known => Nat.lt_irrefl _ (table.below other _ known)
    intro first second v firstKnown secondKnown
    by_cases firstHere : first = id <;> by_cases secondHere : second = id
    · rw [firstHere, secondHere]
    · rw [firstHere, Function.update_self] at firstKnown
      rw [Function.update_of_ne secondHere, ← firstKnown] at secondKnown
      exact absurd secondKnown (fresh second)
    · rw [secondHere, Function.update_self] at secondKnown
      rw [Function.update_of_ne firstHere, ← secondKnown] at firstKnown
      exact absurd firstKnown (fresh first)
    · rw [Function.update_of_ne firstHere] at firstKnown
      rw [Function.update_of_ne secondHere] at secondKnown
      exact table.distinct first second v firstKnown secondKnown

/-- The register of a node, assigned on first mention. -/
def getOrAssign (table : VRegTable g) (id : NodeId) : VRegId × VRegTable g :=
  match known : table.vregOf id with
  | some v => (v, table)
  | none => (table.next, table.assign id known)

/-- The register of the node behind an input slot. -/
def getOrAssignRef (table : VRegTable g) :
    NodeRef → Option VRegId × VRegTable g
  | none => (none, table)
  | some id =>
      let assigned := table.getOrAssign id
      (some assigned.1, assigned.2)

/-- The registers of several input slots, from left to right. -/
def getOrAssignAll (table : VRegTable g) :
    List NodeRef → List (Option VRegId) × VRegTable g
  | [] => ([], table)
  | ref :: refs =>
      let first := table.getOrAssignRef ref
      let rest := first.2.getOrAssignAll refs
      (first.1 :: rest.1, rest.2)

/-- Let the result projection of a call share the register of the call. -/
def shareWith (table : VRegTable g) (id base : NodeId)
    (shares : registerSource g id = registerSource g base) :
    VRegTable g where
  vregOf := Function.update table.vregOf id (table.vregOf base)
  next := table.next
  below := by
    intro other v known
    by_cases same : other = id
    · subst same
      rw [Function.update_self] at known
      exact table.below base v known
    · rw [Function.update_of_ne same] at known
      exact table.below other v known
  distinct := by
    have source (other : NodeId) (v : VRegId)
        (known : Function.update table.vregOf id (table.vregOf base) other =
          some v) :
        ∃ holder, table.vregOf holder = some v ∧
          registerSource g other = registerSource g holder := by
      by_cases same : other = id
      · subst same
        rw [Function.update_self] at known
        exact ⟨base, known, shares⟩
      · rw [Function.update_of_ne same] at known
        exact ⟨other, known, rfl⟩
    intro first second v firstKnown secondKnown
    obtain ⟨left, leftKnown, leftSource⟩ := source first v firstKnown
    obtain ⟨right, rightKnown, rightSource⟩ := source second v secondKnown
    rw [leftSource, rightSource]
    exact table.distinct left right v leftKnown rightKnown

/-- The later table keeps every register of the earlier one. -/
def Extends (early late : VRegTable g) : Prop :=
  ∀ id v, early.vregOf id = some v → late.vregOf id = some v

theorem Extends.refl (table : VRegTable g) : table.Extends table :=
  fun _ _ known => known

theorem Extends.trans {first second third : VRegTable g}
    (early : first.Extends second) (late : second.Extends third) :
    first.Extends third :=
  fun id v known => late id v (early id v known)

theorem getOrAssign_spec (table : VRegTable g) (id : NodeId) :
    table.Extends (table.getOrAssign id).2 ∧
      (table.getOrAssign id).2.vregOf id = some (table.getOrAssign id).1 := by
  unfold getOrAssign
  split
  case h_1 v known => exact ⟨Extends.refl table, known⟩
  case h_2 unknown =>
    refine ⟨fun other v known => ?_, Function.update_self ..⟩
    have apart : other ≠ id := by
      rintro rfl
      rw [unknown] at known
      cases known
    exact (Function.update_of_ne apart ..).trans known

theorem getOrAssignAll_extends (refs : List NodeRef) (table : VRegTable g) :
    table.Extends (table.getOrAssignAll refs).2 := by
  induction refs generalizing table with
  | nil => exact Extends.refl table
  | cons ref refs ih =>
      rw [getOrAssignAll]
      cases ref with
      | none => exact ih table
      | some id => exact (table.getOrAssign_spec id).1.trans (ih _)

end VRegTable

/-- An instruction together with the node it was selected for. -/
structure NodeInstr where
  node : NodeId
  mi : MachineInstr
  deriving DecidableEq, Repr

/-- The state of the collecting walk. -/
structure Collected (g : Graph) where
  table : VRegTable g
  perNode : List NodeInstr := []
  paramCount : Nat := 0

namespace Collected

variable {g : Graph}

/-- Collect an instruction for a node. -/
def push (c : Collected g) (table : VRegTable g) (id : NodeId)
    (mi : MachineInstr) : Collected g :=
  { c with table, perNode := c.perNode ++ [⟨id, mi⟩] }

/-- Collect an instruction that writes the register of its node and reads the
given input slots. -/
def pushValue (c : Collected g) (id : NodeId) (op : MachineOp)
    (operands : List NodeRef) (imm : Option Int) : Collected g :=
  let result := c.table.getOrAssign id
  let uses := result.2.getOrAssignAll operands
  c.push uses.2 id { op, result := some result.1, uses := uses.1, imm }

/-- Collect an instruction if its kind is mapped to an opcode. -/
def pushMapped (c : Collected g) (id : NodeId) (op : Option MachineOp)
    (operands : List NodeRef) (imm : Option Int) : Collected g :=
  match op with
  | none => c
  | some op => c.pushValue id op operands imm

/-- Collect an instruction that only reads. -/
def pushEffect (c : Collected g) (id : NodeId) (op : MachineOp)
    (operands : List NodeRef) : Collected g :=
  let uses := c.table.getOrAssignAll operands
  c.push uses.2 id { op, uses := uses.1 }

end Collected

/-- The constant amount of a shift that fits the immediate form. -/
def shiftAmount (g : Graph) (n : Node) : Option Int :=
  if n.kind = .shl ∨ n.kind = .shr ∨ n.kind = .lshr then
    match n.dataIns with
    | _ :: count :: _ =>
        match g.inRange count with
        | none => none
        | some input =>
            if (g.node input).kind = .constant then
              let amount := (g.node input).payload.toInt
              if 0 ≤ amount ∧ amount < 64 then some amount else none
            else none
    | _ => none
  else none

/-- The condition that selects between the inputs of a merge phi. -/
def selectCond (g : Graph) (id : NodeId) : Option NodeId :=
  if isSelectPhi g id then
    match inputNode g id 0 with
    | none => none
    | some region =>
        match governingIf g region with
        | none => none
        | some ifNode => g.inRange (ifCond g ifNode)
  else none

theorem isCallValueProj_base {g : Graph} {id base : NodeId}
    (found : inputNode g id 0 = some base)
    (isProj : isCallValueProj g id = true) :
    registerSource g id = registerSource g base := by
  have isCall : (g.node base).kind.isCall = true := by
    simp only [isCallValueProj, inputHas, found, Bool.and_eq_true] at isProj
    exact isProj.2
  have notProj : isCallValueProj g base = false := by
    have kind : (g.node base).kind ≠ .proj := by
      intro proj
      simp [proj, NodeKind.isCall] at isCall
    simp [isCallValueProj, kind]
  simp [registerSource, isProj, notProj, found]

/-- Collect the instruction of one node. -/
def collectNode (g : Graph) (c : Collected g) (id : NodeId) : Collected g :=
  let n := g.node id
  if n.isDead then c
  else
    match n.kind with
    | .constant => c.pushValue id .movImm [] (some n.payload.toInt)
    | .neg | .not | .bitNot =>
        c.pushMapped id (unaryOpFor n.kind) (n.dataIns.take 1) none
    | .add | .sub | .mul | .div | .udiv | .mod | .umod
    | .and | .or | .xor | .shl | .shr | .lshr
    | .cmpEq | .cmpNe | .cmpLt | .cmpLe | .cmpGt | .cmpGe =>
        -- A constant shift amount goes into the immediate, and its operand
        -- slot stays empty.
        match shiftAmount g n with
        | some amount =>
            c.pushMapped id (opFor n.kind) (n.dataIns.take 1) (some amount)
        | none => c.pushMapped id (opFor n.kind) (n.dataIns.take 2) none
    | .load => c.pushValue id .load (n.dataIns.take 1) none
    | .store => c.pushEffect id .store (n.dataIns.take 2)
    | .callPure | .callAltered | .callCrowded =>
        -- A call with more arguments than operand slots is not collected.
        if kMaxUsesPerInstr < n.dataIns.length then c
        else c.pushValue id .call n.dataIns (some n.payload.sym.toNat)
    | .proj =>
        if isProj : isCallValueProj g id = true then
          match found : inputNode g id 0 with
          | none => c
          | some base =>
              { c with table :=
                  c.table.shareWith id base (isCallValueProj_base found isProj) }
        else c
    | .phi =>
        match selectCond g id with
        | none => c
        | some cond =>
            c.pushValue id .select
              [some cond, n.inputs.getD 1 none, n.inputs.getD 2 none] none
    | .parameter =>
        let collected := c.pushValue id .param [] (some c.paramCount)
        { collected with paramCount := c.paramCount + 1 }
    | .returnNode =>
        if kReturnInputs ≤ n.inputs.length then
          c.pushEffect id .ret [n.inputs.getD kReturnValIndex none]
        else c.pushEffect id .ret []
    | _ => c

/-- Collect all nodes in id order. -/
def collect (g : Graph) : Collected g :=
  (List.range g.size).foldl (collectNode g) { table := .empty g }

/-- The instruction collected for a node. -/
def instrOf (perNode : List NodeInstr) (id : NodeId) : Option MachineInstr :=
  (perNode.find? (·.node = id)).map (·.mi)

end InstrSel

end Aegis
