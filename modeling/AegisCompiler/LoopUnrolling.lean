import AegisCompiler.ScevAnalysis
import AegisCompiler.LoopShape

/-!
# Loop unrolling

The pass deletes loops with a small known trip count whose induction phi only
feeds its own advance and the comparison of the exit.
-/

namespace Aegis

open Scev (SCEVMap SCEVExpr scevOf)

namespace Graph

/-- The chain of control inputs from a node gets to the loop before it gets to
a start node, ends, or repeats. -/
def chainReaches (g : Graph) (loop : NodeId) : Nat → List NodeId → NodeRef → Bool
  | 0, _, _ => false
  | fuel + 1, visited, cur =>
      match g.inRange cur with
      | none => false
      | some cur =>
          if cur = loop then true
          else if (g.node cur).kind = .start then false
          else if visited.contains cur then false
          else chainReaches g loop fuel (cur :: visited) (g.node cur).ctrlIn

/-- The nodes whose control traces back to the loop. -/
def collectLoopBody (g : Graph) (loop : NodeId) : List NodeId :=
  (List.range g.size).filter fun id =>
    !(g.node id).isDead && decide (id ≠ loop) &&
      chainReaches g loop (g.size + 1) [] (g.node id).ctrlIn

end Graph

namespace LoopUnrolling

def kLoopUnrollMaxNodeGrowth : BitVec 32 := 4096
def kLoopUnrollFullUnrollTripCount : BitVec 32 := 8

/-- Why a loop was skipped, as reported to the telemetry. -/
inductive Reason where
  | partialUnrollNotImplemented
  | budgetExhausted
  | innerControlFlow
  | phiHasExternalUses
  | bodyHasLiveEffectUses
  deriving DecidableEq, Repr

/-- The text of the telemetry event. -/
def Reason.text : Reason → String
  | .partialUnrollNotImplemented =>
      "pass=loop_unrolling reason=partial_unroll_not_implemented"
  | .budgetExhausted => "pass=loop_unrolling reason=budget_exhausted"
  | .innerControlFlow => "pass=loop_unrolling reason=inner_control_flow"
  | .phiHasExternalUses => "pass=loop_unrolling reason=phi_has_external_uses"
  | .bodyHasLiveEffectUses =>
      "pass=loop_unrolling reason=body_has_live_effect_uses"

/-- The induction phi of a loop: the first user that is a phi with a
recurrence. -/
def inductionPhi (map : SCEVMap) (g : Graph) (loop : NodeId) : Option NodeId :=
  (g.usersSnapshot loop).find? fun user =>
    decide (user < g.size) && decide ((g.node user).kind = .phi) &&
      decide ((scevOf map user).kind = .addRec)

/-- The first addition that uses the phi. -/
def backAdd (g : Graph) (phi : NodeId) : Option NodeId :=
  (g.usersSnapshot phi).find? fun user =>
    decide (user < g.size) && decide ((g.node user).kind = .add)

/-- The live users of the phi other than the back-edge addition. -/
def otherUses (g : Graph) (phi back : NodeId) : List NodeId :=
  (g.usersSnapshot phi).filter fun user =>
    decide (user ≠ back) && decide (user < g.size) && !(g.node user).isDead

/-- What becomes of a node, with the growth that has been charged so far. -/
inductive Decision where
  | skip (growth : BitVec 32) (reason : Option Reason)
  | stop
  | delete (growth : BitVec 32) (pieces : LoopPieces) (start : Word)
  deriving DecidableEq, Repr

/-- The checks behind the budget. -/
def decideBody (g : Graph) (loop phi : NodeId) (start : Word)
    (growth : BitVec 32) (bodyNodes : List NodeId) : Decision :=
  if bodyNodes.any fun id => decide ((g.node id).kind = .ifNode) then
    .skip growth (some .innerControlFlow)
  else match backAdd g phi with
    | none => .skip growth none
    | some back =>
        let uses := otherUses g phi back
        if uses.any fun user => !(g.node user).kind.isExitCmp then
          .skip growth (some .phiHasExternalUses)
        else if (g.loopExit loop).any (g.blocksDeletion loop) then
          .skip growth (some .bodyHasLiveEffectUses)
        else .delete growth
          { loop, phi, back, cmp := uses.getLast?, exit := g.loopExit loop } start

/-- The checks for one node. -/
def decision (map : SCEVMap) (g : Graph) (growth : BitVec 32) (loop : NodeId) :
    Decision :=
  if (g.node loop).isDead then .skip growth none
  else if (g.node loop).kind ≠ .loop then .skip growth none
  else match inductionPhi map g loop with
    | none => .skip growth none
    | some phi =>
        let expr := scevOf map phi
        if expr.tripCount.sle 0 then .skip growth none
        else if kLoopUnrollFullUnrollTripCount.setWidth 64 < expr.tripCount then
          .skip growth (some .partialUnrollNotImplemented)
        else
          let exit := g.loopExit loop
          let bodyNodes := (g.collectLoopBody loop).filter fun id =>
            some id ≠ exit.map LoopExit.branch
          if bodyNodes.isEmpty && exit.isNone then .skip growth none
          else
            let factor := expr.tripCount.setWidth 32
            let grown := growth + factor * BitVec.ofNat 32 bodyNodes.length
            if kLoopUnrollMaxNodeGrowth < grown then .stop
            else decideBody g loop phi expr.start grown bodyNodes

/-- Delete a loop; its phi is replaced by the value it starts with. -/
def unroll (g : Graph) (pieces : LoopPieces) (start : Word) : Graph :=
  let (startConst, g) := g.makeConstant start (g.node pieces.phi).typeId
  g.deleteLoop pieces startConst

/-- The graph, the number of deleted loops, the estimated growth, and the
telemetry. -/
structure Progress where
  graph : Graph
  unrolled : Nat := 0
  estimatedGrowth : BitVec 32 := 0
  reported : List Reason := []
  deriving DecidableEq, Repr

/-- Visit a node; the pass stops when the budget is used up. -/
def visit (map : SCEVMap) (progress : Progress) (loop : NodeId) :
    Except Progress Progress :=
  match decision map progress.graph progress.estimatedGrowth loop with
  | .skip growth reason =>
      .ok { progress with
        estimatedGrowth := growth
        reported := progress.reported ++ reason.toList }
  | .stop =>
      .error { progress with reported := progress.reported ++ [.budgetExhausted] }
  | .delete growth pieces start =>
      .ok { progress with
        graph := unroll progress.graph pieces start
        unrolled := progress.unrolled + 1
        estimatedGrowth := growth }

/-- The constants that the pass appends are no loops, so that visiting the nodes
of the given graph is enough. -/
def run (g : Graph) : Progress :=
  match (List.range g.size).foldlM (visit (Scev.run g)) { graph := g } with
  | .ok progress => progress
  | .error progress => progress

end LoopUnrolling

end Aegis
