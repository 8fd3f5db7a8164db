import AegisCompiler.InductionVariables
import AegisCompiler.InstrSelShapes
import AegisCompiler.SeaOfNodesGraph

/-!
# Passes over control flow

The passes of the pipeline that look at loops, returns and branches.  The invariant code motion
only reports, and the loop fission only tags; returns of a call are tagged, a region with one
predecessor is folded into it, and a branch on a constant is removed with its projections.
-/

namespace Aegis

namespace Licm

/-- The pass analyses the loops for its telemetry, and changes nothing. -/
def run (g : Graph) : Graph × Nat := (g, 0)

end Licm

namespace LoopFission

def kEscapeMaxBfsDepth : Nat := 10000

def kLoopFissionMaxSliceSize : Nat := 16

def dependenceAnalysisNotIntegrated : String :=
  "pass=loop_fission reason=dependence_analysis_not_integrated"

/-- The control of a node comes from the loop; the walk ends at a start node. -/
def traces (g : Graph) (loop : NodeId) : Nat → NodeRef → Bool
  | 0, _ => false
  | fuel + 1, ref =>
      match g.inRange ref with
      | none => false
      | some cur =>
          if cur = loop then true
          else if (g.node cur).kind = .start then false
          else traces g loop fuel (g.node cur).ctrlIn

/-- The effects whose control comes from the loop. -/
def countAlteredInLoop (g : Graph) (loop : NodeId) : Nat :=
  (List.range g.size).countP fun id =>
    !(g.node id).isDead && !(g.node id).isPure &&
      traces g loop (kEscapeMaxBfsDepth + 1) (g.node id).ctrlIn

/-- The graph, the number of tagged loops, and the telemetry. -/
structure Progress where
  graph : Graph
  tagged : Nat := 0
  reported : List String := []

def visit (progress : Progress) (loop : NodeId) : Progress :=
  let g := progress.graph
  if (g.node loop).isDead then progress
  else if (g.node loop).kind ≠ .loop then progress
  else if countAlteredInLoop g loop ≤ kLoopFissionMaxSliceSize then progress
  else
    { graph := g.setFlag loop .isLowered
      tagged := progress.tagged + 1
      reported := progress.reported ++ [dependenceAnalysisNotIntegrated] }

def run (g : Graph) : Progress := (List.range g.size).foldl visit { graph := g }

end LoopFission

namespace TailCallOpt

/-- The return passes on what a call has returned, right behind the call. -/
def isTailCall (g : Graph) (id : NodeId) : Bool :=
  match (g.node id).inputs with
  | [ctrl, eff, val] =>
      match g.inRange val with
      | none => false
      | some proj =>
          if (g.node proj).kind ≠ .proj then false
          else match (g.node proj).inputs with
            | [source] =>
                match g.inRange source with
                | none => false
                | some call =>
                    (g.node call).kind.isCall && decide (ctrl = some call) &&
                      decide (eff = some call)
            | _ => false
  | _ => false

def visit (progress : Graph × Nat) (id : NodeId) : Graph × Nat :=
  let g := progress.1
  if (g.node id).isDead then progress
  else if (g.node id).kind ≠ .returnNode then progress
  else if isTailCall g id then (g.setFlag id .isTailCall, progress.2 + 1)
  else progress

def run (g : Graph) : Graph × Nat := (List.range g.size).foldl visit (g, 0)

end TailCallOpt

namespace SimplifyControl

/-- Let the listed users read another node, except for one of them. -/
def rewire (g : Graph) (old new : NodeId) : Graph :=
  ((g.usersSnapshot old).filter fun user => decide (user ≠ old)).foldl
    (fun g user => g.swapInput user (some old) (some new)) g

/-- The live predecessors of a region. -/
def livePreds (g : Graph) (region : NodeId) : List NodeId :=
  ((g.node region).inputs.filterMap g.inRange).filter fun pred => !(g.node pred).isDead

/-- The only live predecessor, which may be named more than once. -/
def singlePred (g : Graph) (region : NodeId) : Option NodeId :=
  match livePreds g region with
  | [] => none
  | pred :: preds => if preds.all fun other => decide (other = pred) then some pred else none

def mergeBlock (progress : Graph × Nat) (id : NodeId) : Graph × Nat :=
  let g := progress.1
  if (g.node id).isDead then progress
  else if (g.node id).kind ≠ .region then progress
  else match singlePred g id with
    | none => progress
    | some pred => ((rewire g id pred).markDead id, progress.2 + 1)

/-- The last listed projection of a branch with the given index. -/
def projOf (g : Graph) (branch : NodeId) (index : BitVec 32) : Option NodeId :=
  (g.usersSnapshot branch).reverse.find? fun user =>
    decide (user < g.size) && decide ((g.node user).kind = .proj) &&
      decide ((g.node user).payload.projIndex = index)

/-- The region merges the two projections and nothing else. -/
def mergesPair (g : Graph) (trueProj falseProj : NodeRef) (region : NodeId) : Bool :=
  decide (region < g.size) && !(g.node region).isDead &&
    decide ((g.node region).kind = .region) &&
      decide ((g.node region).inputs.length = kPhiInputs2Branches - 1) &&
        (g.node region).inputs.all fun ref => decide (ref = trueProj) || decide (ref = falseProj)

/-- Replace a phi of the region by the value of the branch that is taken. -/
def collapsePhi (takenTrue : Bool) (region : NodeId) (progress : Graph × Nat) (phi : NodeId) :
    Graph × Nat :=
  let g := progress.1
  let n := g.node phi
  if g.size ≤ phi ∨ n.isDead = true ∨ n.kind ≠ .phi then progress
  else match n.inputs with
    | [merge, first, second] =>
        if merge ≠ some region then progress
        else
          let taken := if takenTrue then first else second
          let rewired := (g.usersSnapshot phi).foldl
            (fun g user => g.swapInput user (some phi) taken) g
          (rewired.markDead phi, progress.2 + 1)
    | _ => progress

def collapseRegion (trueProj falseProj : NodeRef) (takenTrue : Bool)
    (progress : Graph × Nat) (region : NodeId) : Graph × Nat :=
  if mergesPair progress.1 trueProj falseProj region then
    (progress.1.usersSnapshot region).foldl (collapsePhi takenTrue region) progress
  else progress

/-- Collapse the phis where the two projections meet again. -/
def collapsePhis (trueProj falseProj : NodeRef) (takenTrue : Bool) (progress : Graph × Nat)
    (proj : NodeRef) : Graph × Nat :=
  match proj with
  | none => progress
  | some proj =>
      (progress.1.usersSnapshot proj).foldl
        (collapseRegion trueProj falseProj takenTrue) progress

/-- Let the users of a projection read the control of the branch. -/
def rewireProj (ctrl : NodeId) (g : Graph) (proj : NodeRef) : Graph :=
  proj.elim g fun proj => rewire g proj ctrl

def markProj (g : Graph) (proj : NodeRef) : Graph := proj.elim g g.markDead

/-- The control of a branch on a constant, and whether the constant holds. -/
def constantBranch (g : Graph) (id : NodeId) : Option (NodeId × Bool) :=
  match (g.node id).inputs with
  | [ctrl, cond] =>
      (g.inRange cond).bind fun cond =>
        if (g.node cond).kind ≠ .constant then none
        else (g.inRange ctrl).map fun ctrl => (ctrl, decide ((g.node cond).payload ≠ 0))
  | _ => none

def threadJump (progress : Graph × Nat) (id : NodeId) : Graph × Nat :=
  let g := progress.1
  if (g.node id).isDead then progress
  else if (g.node id).kind ≠ .ifNode then progress
  else match constantBranch g id with
    | none => progress
    | some (ctrl, takenTrue) =>
        let trueProj := projOf g id 0
        let falseProj := projOf g id 1
        if trueProj = none ∧ falseProj = none then progress
        else
          let collapsed := [trueProj, falseProj].foldl
            (collapsePhis trueProj falseProj takenTrue) progress
          let rewired := [trueProj, falseProj].foldl (rewireProj ctrl) collapsed.1
          let marked := [trueProj, falseProj].foldl markProj rewired
          (marked.markDead id, collapsed.2 + 1)

/-- The pass: regions first, branches on constants after them. -/
def run (g : Graph) : Graph × Nat :=
  let merged := (List.range g.size).foldl mergeBlock (g, 0)
  (List.range g.size).foldl threadJump merged

end SimplifyControl

end Aegis
