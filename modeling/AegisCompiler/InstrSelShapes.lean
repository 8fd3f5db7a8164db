import AegisCompiler.MachineIR
import AegisCompiler.WordArithmetic

/-!
# Shapes the instruction selector looks for

Merge phis, loop phis, call results and effect merges, and the If that decides
between the two predecessors of a region.
-/

namespace Aegis

namespace InstrSel

/-- The depth bound of the region walk. -/
def gMaxRegionWalkDepth : Nat := 64

variable (g : Graph)

/-- The node behind an input slot, if the slot names one. -/
def inputNode (id : NodeId) (slot : Nat) : Option NodeId :=
  g.inRange ((g.node id).inputs.getD slot none)

/-- The node behind an input slot has a kind with the given property. -/
def inputHas (id : NodeId) (slot : Nat) (property : NodeKind → Bool) : Bool :=
  match inputNode g id slot with
  | some input => property (g.node input).kind
  | none => false

/-- A phi that merges the two sides of a region. -/
def isSelectPhi (id : NodeId) : Bool :=
  decide (id < g.size) && decide ((g.node id).kind = .phi) &&
    decide ((g.node id).inputs.length = kPhiInputs2Branches) &&
    inputHas g id 0 (· = .region)

/-- A phi of a loop header. -/
def isLoopPhi (id : NodeId) : Bool :=
  decide (id < g.size) && decide ((g.node id).kind = .phi) &&
    inputHas g id 0 (· = .loop)

/-- The projection that carries the result of a call. -/
def isCallValueProj (id : NodeId) : Bool :=
  decide (id < g.size) && decide ((g.node id).kind = .proj) &&
    decide ((g.node id).payload.projIndex = 0) &&
    inputHas g id 0 NodeKind.isCall

/-- The effect merge behind a loop. -/
def isEffMergePhi (id : NodeId) : Bool :=
  decide (id < g.size) && decide ((g.node id).kind = .phi) &&
    inputHas g id 0 (· = .proj)

/-- Collect the Ifs above a control node; `depth` is the number of levels that
are left. -/
def collectIfs : Nat → NodeRef → List NodeId → List NodeId
  | 0, _, out => out
  | depth + 1, ref, out =>
      match g.inRange ref with
      | none => out
      | some ctrl =>
          if (g.node ctrl).kind = .proj then
            match inputNode g ctrl 0 with
            | none => out
            | some base =>
                if (g.node base).kind = .ifNode then
                  let out := if out.contains base then out else out ++ [base]
                  if kIfInputs ≤ (g.node base).inputs.length then
                    collectIfs depth ((g.node base).inputs.getD 0 none) out
                  else out
                else out
          else if (g.node ctrl).kind = .region then
            (g.node ctrl).inputs.foldl
              (fun out pred => collectIfs depth pred out) out
          else out

/-- The If at which the predecessors of a region diverged: the first one
reachable from the first predecessor and from all others. -/
def governingIf (region : NodeId) : Option NodeId :=
  if region < g.size then
    let chains := (g.node region).inputs.filterMap fun pred =>
      match g.inRange pred with
      | none => none
      | some _ =>
          match collectIfs g (gMaxRegionWalkDepth + 1) pred [] with
          | [] => none
          | ifs => some ifs
    match chains with
    | [] => none
    | first :: others =>
        first.find? fun candidate => others.all (·.contains candidate)
  else none

/-- The condition of an If of the expected shape. -/
def ifCond (ifNode : NodeId) : NodeRef :=
  if (g.node ifNode).inputs.length = kIfInputs then
    (g.node ifNode).inputs.getD kIfCondIndex none
  else none

/-- The opcode of a binary kind that has a machine mapping. -/
def opFor (kind : NodeKind) : Option MachineOp :=
  match kind with
  | .add => some .add
  | .sub => some .sub
  | .mul => some .mul
  | .div => some .div
  | .udiv => some .udiv
  | .mod => some .mod
  | .umod => some .umod
  | .and => some .and
  | .or => some .or
  | .xor => some .xor
  | .shl => some .shl
  | .shr => some .sar
  | .lshr => some .shr
  | .cmpEq => some .cmpEq
  | .cmpNe => some .cmpNe
  | .cmpLt => some .cmpLt
  | .cmpLe => some .cmpLe
  | .cmpGt => some .cmpGt
  | .cmpGe => some .cmpGe
  | _ => none

/-- The opcode of a unary kind. -/
def unaryOpFor (kind : NodeKind) : Option MachineOp :=
  match kind with
  | .neg => some .neg
  | .not => some .lnot
  | .bitNot => some .bnot
  | _ => none

end InstrSel

end Aegis
