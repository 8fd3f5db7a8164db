import AegisCompiler.LoopShape
import AegisCompiler.ScevAnalysis

/-!
# Loop fusion

The pass looks at pairs of loops that follow each other in the order of their
ids.  When both have the same recurrence, and the phi of the second one only
feeds its own advance and comparisons, the second loop is deleted.
-/

namespace Aegis

namespace LoopFusion

open Scev (SCEVMap SCEVExpr scevOf)

/-- The text of the telemetry event for a loop with a body. -/
def bodyHasLiveEffectUses : String :=
  "pass=loop_fusion reason=body_has_live_effect_uses"

/-- The loops that are alive when the pass starts. -/
def liveLoops (g : Graph) : List NodeId :=
  (List.range g.size).filter fun id =>
    !(g.node id).isDead && decide ((g.node id).kind = .loop)

/-- The first live phi that uses the loop. -/
def firstPhi (g : Graph) (loop : NodeId) : Option NodeId :=
  (g.usersSnapshot loop).find? fun user =>
    decide (user < g.size) && !(g.node user).isDead &&
      decide ((g.node user).kind = .phi)

def liveUsers (g : Graph) (phi : NodeId) : List NodeId :=
  (g.usersSnapshot phi).filter fun user =>
    decide (user < g.size) && !(g.node user).isDead

/-- Both expressions are the same recurrence with a known trip count. -/
def sameRecurrence (a b : SCEVExpr) : Bool :=
  decide (a.kind = .addRec) && decide (b.kind = .addRec) &&
    decide (a.start = b.start) && decide (a.step = b.step) &&
      decide (a.tripCount = b.tripCount) && BitVec.slt 0 a.tripCount

/-- What becomes of a pair of loops. -/
inductive Decision where
  | skip (reported : Bool)
  | delete (pieces : LoopPieces) (phiA : NodeId)
  deriving DecidableEq, Repr

/-- The checks of the second loop of a pair. -/
def decideSecond (g : Graph) (b phiA phiB : NodeId) : Decision :=
  let users := liveUsers g phiB
  let adds := users.filter fun user => decide ((g.node user).kind = .add)
  let cmps := users.filter fun user => (g.node user).kind.isExitCmp
  if users.any fun user =>
      decide ((g.node user).kind ≠ .add) && !(g.node user).kind.isExitCmp then
    .skip false
  else match adds.getLast? with
    | none => .skip false
    | some back =>
        if (g.loopExit b).any (g.blocksDeletion b) then .skip true
        else .delete
          { loop := b, phi := phiB, back, cmp := cmps.getLast?
            exit := g.loopExit b } phiA

/-- The checks of a pair of loops. -/
def decision (map : SCEVMap) (g : Graph) (a b : NodeId) : Decision :=
  match firstPhi g a, firstPhi g b with
  | some phiA, some phiB =>
      if sameRecurrence (scevOf map phiA) (scevOf map phiB) then
        decideSecond g b phiA phiB
      else .skip false
  | _, _ => .skip false

/-- The graph, the number of deleted loops, and the telemetry. -/
structure Progress where
  graph : Graph
  fused : Nat := 0
  reported : List String := []
  deriving DecidableEq, Repr

/-- Visit a pair of loops. -/
def visit (map : SCEVMap) (progress : Progress) (pair : NodeId × NodeId) :
    Progress :=
  match decision map progress.graph pair.1 pair.2 with
  | .skip reported =>
      { progress with
        reported := progress.reported ++
          if reported then [bodyHasLiveEffectUses] else [] }
  | .delete pieces phiA =>
      { progress with
        graph := progress.graph.deleteLoop pieces phiA
        fused := progress.fused + 1 }

/-- The pairs of loops that follow each other. -/
def pairs (loops : List NodeId) : List (NodeId × NodeId) :=
  loops.zip loops.tail

def run (g : Graph) : Progress :=
  (pairs (liveLoops g)).foldl (visit (Scev.run g)) { graph := g }

end LoopFusion

end Aegis
