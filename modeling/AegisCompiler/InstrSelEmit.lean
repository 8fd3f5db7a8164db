import AegisCompiler.InstrSelOwnership

/-!
# Emitting values, selects and loops

The emitters append instructions to the function and remember which nodes they
have emitted.  They call each other through nested regions, so each takes a
unit of fuel.
-/

namespace Aegis

namespace InstrSel

/-- Select labels start here; loop labels start at 0. -/
def kSelectLabelBase : Nat := 1000000

/-- What the emitters thread through: registers, the emitted nodes and loops,
the label counters and the instructions so far. -/
structure EmitState (g : Graph) where
  table : VRegTable g
  emitted : NodeId → Bool := fun _ => false
  loopEmitted : NodeId → Bool := fun _ => false
  selectLabelNext : Nat := kSelectLabelBase
  loopLabelNext : Nat := 0
  instrs : List MachineInstr := []

/-- An emitter; `none` means that the fuel ran out. -/
abbrev EmitM (g : Graph) := StateT (EmitState g) Option

variable {g : Graph}

def outOfFuel {α : Type} : EmitM g α := fun _ => none

/-- Append an instruction. -/
def emitInstr (mi : MachineInstr) : EmitM g Unit :=
  modify fun s => { s with instrs := s.instrs ++ [mi] }

def markEmitted (id : NodeId) : EmitM g Unit :=
  modify fun s => { s with emitted := Function.update s.emitted id true }

def markLoopEmitted (loop : NodeId) : EmitM g Unit :=
  modify fun s =>
    { s with loopEmitted := Function.update s.loopEmitted loop true }

/-- The register of a node, or nothing for an invalid id. -/
def vregOfNode (ref : NodeRef) : EmitM g (Option VRegId) := do
  match g.inRange ref with
  | none => return none
  | some id =>
      let s ← get
      let assigned := s.table.getOrAssign id
      set { s with table := assigned.2 }
      return some assigned.1

/-- The next two labels of a select. -/
def nextSelectLabels : EmitM g (Int × Int) := do
  let s ← get
  set { s with selectLabelNext := s.selectLabelNext + 2 }
  return (s.selectLabelNext, s.selectLabelNext + 1)

/-- The next two labels of a loop. -/
def nextLoopLabels : EmitM g (Int × Int) := do
  let s ← get
  set { s with loopLabelNext := s.loopLabelNext + 2 }
  return (s.loopLabelNext, s.loopLabelNext + 1)

def emitLabel (target : Int) : EmitM g Unit :=
  emitInstr { op := .label, imm := some target }

def emitJmp (target : Int) : EmitM g Unit :=
  emitInstr { op := .jmp, imm := some target }

/-- Jump if the given node is zero. -/
def emitJz (cond : NodeRef) (target : Int) : EmitM g Unit := do
  let v ← vregOfNode cond
  emitInstr { op := .jz, uses := [v], imm := some target }

/-- Copy the value of one node into the register of another. -/
def emitMov (target : NodeId) (value : NodeRef) : EmitM g Unit := do
  let result ← vregOfNode (some target)
  let source ← vregOfNode value
  emitInstr { op := .mov, result, uses := [source] }

/-- A live call controlled by the given node. -/
def isLiveCallUnder (g : Graph) (proj call : NodeId) : Bool :=
  decide (call < g.size) && !(g.node call).isDead &&
    (g.node call).kind.isCall && decide ((g.node call).ctrlIn = some proj)

/-- The calls controlled by a projection, in user order. -/
def armEffectCalls (g : Graph) (proj : NodeRef) : List NodeId :=
  match proj with
  | none => []
  | some proj => (g.usersSnapshot proj).filter (isLiveCallUnder g proj)

/-- The last user of an If that is its projection with the given index. -/
def ifProj (g : Graph) (ifNode : NodeId) (which : BitVec 32) : NodeRef :=
  ((g.usersSnapshot ifNode).filter fun u =>
    decide (u < g.size) && decide ((g.node u).kind = .proj) &&
      decide ((g.node u).payload.projIndex = which)).getLast?

/-- The live phis of a loop, in user order. -/
def loopPhis (g : Graph) (loop : NodeId) : List NodeId :=
  (g.usersSnapshot loop).filter fun u =>
    decide (u < g.size) && !(g.node u).isDead &&
      decide ((g.node u).kind = .phi) &&
      decide ((g.node u).inputs.head? = some (some loop))

/-- The last live If controlled by a loop header. -/
def loopExitIf (g : Graph) (loop : NodeId) : Option NodeId :=
  ((g.usersSnapshot loop).filter fun u =>
    decide (u < g.size) && !(g.node u).isDead &&
      decide ((g.node u).kind = .ifNode) &&
      decide ((g.node u).ctrlIn = some loop)).getLast?

/-- The phis of a loop that have both an entry and a back value. -/
def headerPhis (g : Graph) (loop : NodeId) : List NodeId :=
  (loopPhis g loop).filter fun phi =>
    decide (kPhiInputs2Branches ≤ (g.node phi).inputs.length)

/-- The last effect of the body: the back value of the last effect merge that
hangs off a projection of the exit If. -/
def loopEffRoot (g : Graph) (exitIf : Option NodeId) : NodeRef :=
  match exitIf with
  | none => none
  | some exitIf =>
      let merges := (g.usersSnapshot exitIf).flatMap fun proj =>
        if proj < g.size ∧ (g.node proj).kind = .proj then
          (g.usersSnapshot proj).filter fun m =>
            decide (m < g.size) && decide ((g.node m).kind = .phi) &&
              decide ((g.node m).inputs.head? = some (some proj)) &&
              decide (kPhiInputs2Branches ≤ (g.node m).inputs.length)
        else []
      match merges.getLast? with
      | none => none
      | some m => (g.node m).inputs.getD 2 none

/-- Follow the result projection of a call to the call. -/
def followCall (g : Graph) (id : NodeId) : NodeId :=
  if isCallValueProj g id then (inputNode g id 0).getD id else id

/-- The back-edge updates: one move for each header phi. -/
def emitBackEdges (phis : List NodeId) : EmitM g Unit :=
  phis.forM fun phi => emitMov phi ((g.node phi).inputs.getD 2 none)

/-- A frame of the emission stack. -/
structure Frame where
  node : NodeId
  expanded : Bool
  deriving DecidableEq, Repr

section Emitters

variable (perNode : List NodeInstr)

mutual

/-- Emit what a value is computed from, operands first.  A valid `effScope`
keeps the walk from following effect edges out of the arm it controls. -/
def emitValueClosure : Nat → NodeRef → NodeRef → EmitM g Unit
  | 0, _, _ => outOfFuel
  | fuel + 1, ref, effScope => do
      match g.inRange ref with
      | none => return ()
      | some root =>
          if isLoopPhi g root then
            ensureLoop fuel root
          else
            let root := followCall g root
            if isEffMergePhi g root then
              passThrough fuel root effScope
            else if (instrOf perNode root).isNone then
              return ()
            else if (← get).emitted root then
              return ()
            else
              closureLoop fuel [⟨root, false⟩] (fun _ => false) effScope

/-- Both values of an effect merge. -/
def passThrough : Nat → NodeId → NodeRef → EmitM g Unit
  | 0, _, _ => outOfFuel
  | fuel + 1, merge, effScope => do
      let inputs := (g.node merge).inputs
      emitValueClosure fuel (inputs.getD 1 none) effScope
      if kPhiInputs2Branches ≤ inputs.length then
        emitValueClosure fuel (inputs.getD 2 none) effScope

/-- Make sure the region of the loop of a phi has been emitted. -/
def ensureLoop : Nat → NodeId → EmitM g Unit
  | 0, _ => outOfFuel
  | fuel + 1, phi => do
      match inputNode g phi 0 with
      | none => return ()
      | some loop =>
          if (← get).loopEmitted loop then
            return ()
          else
            emitLoopRegion fuel loop

/-- Push a child that will produce an instruction. -/
def tryPush : Nat → NodeRef → (NodeId → Bool) → List Frame →
    EmitM g (List Frame)
  | 0, _, _, _ => outOfFuel
  | fuel + 1, ref, onpath, stack => do
      match g.inRange ref with
      | none => return stack
      | some input =>
          if isLoopPhi g input then
            ensureLoop fuel input
            return stack
          else
            let input := followCall g input
            if (instrOf perNode input).isNone then
              return stack
            else if (← get).emitted input then
              return stack
            else if onpath input then
              return stack
            else
              return ⟨input, false⟩ :: stack

/-- Push the children of a node, from the last input slot to the first. -/
def pushInputs : Nat → NodeId → NodeRef → (NodeId → Bool) →
    List (NodeRef × Nat) → List Frame → EmitM g (List Frame)
  | 0, _, _, _, _, _ => outOfFuel
  | _ + 1, _, _, _, [], stack => return stack
  | fuel + 1, node, effScope, onpath, (ref, slot) :: slots, stack => do
      -- Effect edges out of the arm are not followed.
      let leaves := slot = 1 ∧ (g.node node).isPure = false ∧
        effScope ≠ none ∧
        ∀ input ∈ g.inRange ref, (g.node input).ctrlIn ≠ effScope
      if leaves then
        pushInputs fuel node effScope onpath slots stack
      else
        match g.inRange ref with
        | none => pushInputs fuel node effScope onpath slots stack
        | some input =>
            if isEffMergePhi g input then
              let inputs := (g.node input).inputs
              let stack ← tryPush fuel (inputs.getD 1 none) onpath stack
              if kPhiInputs2Branches ≤ inputs.length then
                let stack ← tryPush fuel (inputs.getD 2 none) onpath stack
                pushInputs fuel node effScope onpath slots stack
              else
                pushInputs fuel node effScope onpath slots stack
            else
              let stack ← tryPush fuel ref onpath stack
              pushInputs fuel node effScope onpath slots stack

/-- The emission loop over an explicit stack. -/
def closureLoop : Nat → List Frame → (NodeId → Bool) → NodeRef →
    EmitM g Unit
  | 0, _, _, _ => outOfFuel
  | _ + 1, [], _, _ => return ()
  | fuel + 1, ⟨node, expanded⟩ :: rest, onpath, effScope => do
      if isSelectPhi g node then
        if (← get).emitted node then
          closureLoop fuel rest onpath effScope
        else
          markEmitted node
          emitSelectRegion fuel node
          closureLoop fuel rest onpath effScope
      else if isEffMergePhi g node then
        passThrough fuel node effScope
        closureLoop fuel rest onpath effScope
      else if expanded then
        if (← get).emitted node then
          closureLoop fuel rest onpath effScope
        else
          markEmitted node
          match instrOf perNode node with
          | none => closureLoop fuel rest onpath effScope
          | some mi =>
              emitInstr mi
              closureLoop fuel rest onpath effScope
      else
        let onpath := Function.update onpath node true
        let stack ← pushInputs fuel node effScope onpath
          (g.node node).inputs.zipIdx.reverse (⟨node, true⟩ :: rest)
        closureLoop fuel stack onpath effScope

/-- Emit a merge phi as a guarded branch region. -/
def emitSelectRegion : Nat → NodeId → EmitM g Unit
  | 0, _ => outOfFuel
  | fuel + 1, phi => do
      match (inputNode g phi 0).bind (governingIf g) with
      | none => return ()
      | some ifNode =>
          if (g.node ifNode).inputs.length ≠ kIfInputs then
            return ()
          else
            let cond := ifCond g ifNode
            let thenValue := (g.node phi).inputs.getD 1 none
            let elseValue := (g.node phi).inputs.getD 2 none
            let trueProj := ifProj g ifNode 0
            let falseProj := ifProj g ifNode 1
            let (elseLabel, endLabel) ← nextSelectLabels
            emitValueClosure fuel cond none
            emitJz cond elseLabel
            emitValueClosure fuel thenValue none
            (armEffectCalls g trueProj).forM fun call =>
              emitValueClosure fuel (some call) trueProj
            emitMov phi thenValue
            emitJmp endLabel
            emitLabel elseLabel
            emitValueClosure fuel elseValue none
            (armEffectCalls g falseProj).forM fun call =>
              emitValueClosure fuel (some call) falseProj
            emitMov phi elseValue
            emitLabel endLabel

/-- The initialization of a loop phi in front of the loop; constants are
materialized anew. -/
def emitEntry : Nat → NodeId → EmitM g Unit
  | 0, _ => outOfFuel
  | fuel + 1, phi => do
      let entry := (g.node phi).inputs.getD 1 none
      let result ← vregOfNode (some phi)
      match g.inRange entry with
      | none =>
          emitInstr { op := .mov, result, uses := [none] }
      | some input =>
          if (g.node input).kind = .constant then
            let imm := some (g.node input).payload.toInt
            emitInstr { op := .movImm, result, imm }
          else
            emitValueClosure fuel entry none
            let source ← vregOfNode entry
            emitInstr { op := .mov, result, uses := [source] }

/-- Emit the region of a loop: entry moves, head label, body closure, exit
check, back-edge moves, jump and exit label. -/
def emitLoopRegion : Nat → NodeId → EmitM g Unit
  | 0, _ => outOfFuel
  | fuel + 1, loop => do
      if g.size ≤ loop ∨ (← get).loopEmitted loop = true then
        return ()
      else
        markLoopEmitted loop
        let phis := headerPhis g loop
        let exitIf := loopExitIf g loop
        let cond := match exitIf with
          | none => none
          | some exitIf => ifCond g exitIf
        let (headLabel, exitLabel) ← nextLoopLabels
        phis.forM (emitEntry fuel)
        emitLabel headLabel
        emitValueClosure fuel (loopEffRoot g exitIf) none
        phis.forM fun phi =>
          emitValueClosure fuel ((g.node phi).inputs.getD 2 none) none
        emitValueClosure fuel cond none
        emitJz cond exitLabel
        emitBackEdges phis
        emitJmp headLabel
        emitLabel exitLabel

end

end Emitters

end InstrSel

end Aegis
