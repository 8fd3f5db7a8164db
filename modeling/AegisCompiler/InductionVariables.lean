import AegisCompiler.ScevAnalysis

/-!
# Induction variable simplification

The pass replaces a product of a recurrence with a constant by a phi of its
own, which is advanced by the product of the step and the constant.
-/

namespace Aegis

namespace InductionVariables

open Scev (SCEVMap SCEVExpr scevOf)

def kIVSMaxInductionVarsPerLoop : Nat := 8

/-- The graph, the number of rewritten products, and the telemetry: each
rewritten product with its derived phi. -/
structure Progress where
  graph : Graph
  rewritten : Nat := 0
  optimized : List (NodeId × NodeId) := []
  deriving DecidableEq, Repr

/-- The slot names a live constant. -/
def liveConstant (g : Graph) (ref : NodeRef) : Bool :=
  match g.inRange ref with
  | some id => !(g.node id).isDead && decide ((g.node id).kind = .constant)
  | none => false

/-- The constant factor of a live product with the phi. -/
def factorOf (g : Graph) (phi mul : NodeId) : NodeRef :=
  if ¬ mul < g.size then none
  else if (g.node mul).isDead then none
  else if (g.node mul).kind ≠ .mul then none
  else match (g.node mul).dataIns with
    | [first, second] =>
        if first = some phi ∧ liveConstant g second then second
        else if second = some phi ∧ liveConstant g first then first
        else none
    | _ => none

def hasLiveUser (g : Graph) (mul : NodeId) : Bool :=
  (g.usersSnapshot mul).any fun user =>
    decide (user < g.size) && !(g.node user).isDead

/-- The entry value of the derived phi; a constant is folded. -/
def makeEntry (g : Graph) (phi k : NodeId) : NodeId × Graph :=
  let entryVal := (g.node phi).inputs.getD 1 none
  let ty := (g.node phi).typeId
  let factor := (g.node k).payload
  match entryVal with
  | some entry =>
      if liveConstant g entryVal then
        g.makeConstant ((g.node entry).payload * factor) ty
      else g.makeBinop .mul entryVal (some k) ty
  | none => g.makeBinop .mul entryVal (some k) ty

/-- The derived phi with its recurrence. -/
def makeDerived (g : Graph) (loop phi k : NodeId) (step : Word) :
    NodeId × Graph :=
  let ty := (g.node phi).typeId
  let factor := (g.node k).payload
  let (jEntry, g) := makeEntry g phi k
  let (jPhi, g) := g.makePhi (some loop) [some jEntry, none] ty
  let (jStep, g) := g.makeConstant (step * factor) ty
  let (jBack, g) := g.makeBinop .add (some jPhi) (some jStep) ty
  (jPhi, g.setInput jPhi 2 (some jBack))

/-- Let all users of a node read another one. -/
def replaceUses (g : Graph) (old new : NodeId) : Graph :=
  (g.usersSnapshot old).foldl
    (fun g user => g.swapInput user (some old) (some new)) g

/-- Replacing the uses of a node rewrites inputs of some nodes. -/
theorem replaceUses_node (g : Graph) (old new id : NodeId) :
    ∃ inputs, (replaceUses g old new).node id = { g.node id with inputs } ∧
      (inputs = (g.node id).inputs ∨
        inputs = (g.node id).inputs.map fun input =>
          if input = some old then some new else input) := by
  let rewrite : NodeRef → NodeRef := fun input =>
    if input = some old then some new else input
  have twice (refs : List NodeRef) : (refs.map rewrite).map rewrite =
      refs.map rewrite := by
    rw [List.map_map]
    refine List.map_congr_left fun input _ => ?_
    simp only [rewrite, Function.comp_apply]
    split_ifs <;> simp_all
  refine List.foldlRecOn (g.usersSnapshot old)
    (fun (g : Graph) user => g.swapInput user (some old) (some new))
    (motive := fun (h : Graph) => ∃ inputs, h.node id = { g.node id with inputs } ∧
      (inputs = (g.node id).inputs ∨ inputs = (g.node id).inputs.map rewrite))
    ⟨_, rfl, Or.inl rfl⟩ ?_
  rintro h ⟨inputs, node, shape⟩ user -
  rw [Graph.swapInput_node]
  split
  · refine ⟨inputs.map rewrite, by rw [node], Or.inr ?_⟩
    rcases shape with rfl | rfl
    · rfl
    · exact twice _
  · exact ⟨inputs, node, shape⟩

theorem replaceUses_size (g : Graph) (old new : NodeId) :
    (replaceUses g old new).size = g.size :=
  List.foldlRecOn (g.usersSnapshot old)
    (fun (g : Graph) user => g.swapInput user (some old) (some new))
    (motive := fun (h : Graph) => h.size = g.size) rfl fun h same user _ => by
      rw [Graph.swapInput_size, same]

/-- Rewrite one user of the phi. -/
def visitUser (loop phi : NodeId) (expr : SCEVExpr) (progress : Progress)
    (mul : NodeId) : Progress :=
  match factorOf progress.graph phi mul with
  | none => progress
  | some k =>
      if hasLiveUser progress.graph mul then
        let (jPhi, g) := makeDerived progress.graph loop phi k expr.step
        { graph := (replaceUses g mul jPhi).markDead mul
          rewritten := progress.rewritten + 1
          optimized := progress.optimized ++ [(mul, jPhi)] }
      else progress

/-- Visit a header phi; the pass stops when the budget is used up. -/
def visitPhi (map : SCEVMap) (loop : NodeId) (progress : Progress)
    (phi : NodeId) : Except Progress Progress :=
  let g := progress.graph
  let expr := scevOf map phi
  if (g.node phi).isDead then pure progress
  else if (g.node phi).kind ≠ .phi then pure progress
  else if (g.node phi).ctrlIn ≠ some loop then pure progress
  else if expr.kind ≠ .addRec then pure progress
  else if expr.step = 0 then pure progress
  else if progress.rewritten ≥ kIVSMaxInductionVarsPerLoop then throw progress
  else pure ((g.usersSnapshot phi).foldl (visitUser loop phi expr) progress)

def visitLoop (map : SCEVMap) (ids : List NodeId) (progress : Progress)
    (loop : NodeId) : Except Progress Progress :=
  if (progress.graph.node loop).isDead then pure progress
  else if (progress.graph.node loop).kind ≠ .loop then pure progress
  else ids.foldlM (visitPhi map loop) progress

/-- The nodes that the pass appends are neither loops nor classified, so that
visiting the nodes of the given graph is enough. -/
def run (g : Graph) : Progress :=
  let ids := List.range g.size
  match ids.foldlM (visitLoop (Scev.run g) ids) { graph := g } with
  | .ok progress => progress
  | .error progress => progress

end InductionVariables

end Aegis
