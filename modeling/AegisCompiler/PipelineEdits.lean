import AegisCompiler.PassEdits
import AegisCompiler.StandardPipeline

/-!
# The edits of the pipeline

Every pass of the standard pipeline is a sequence of edits, whatever graph it is given, and so
is every run of the pass manager over these passes.
-/

namespace Aegis

section Deletions

variable (g : Graph)

theorem PassRun.markAll (ids : List NodeId) : PassRun g (g.markAll ids) :=
  PassRun.foldl id (fun g id => PassRun.markDead g id) ids g

theorem PassRun.replaceUses (old new : NodeId) :
    PassRun g ((InductionVariables.replaceUses g old new).markDead old) :=
  (PassRun.rewire g _ _ _).tail (.setFlag _ old .isDead)

theorem PassRun.retireExit (loop : NodeId) (exit : LoopExit) :
    PassRun g (g.retireExit loop exit) := by
  unfold Graph.retireExit
  split
  · exact .refl
  · refine Relation.ReflTransGen.trans ?_ (PassRun.markAll _ _)
    split
    · exact PassRun.rewire _ _ _ _
    · exact .refl

theorem PassRun.deleteLoop (pieces : LoopPieces) (new : NodeId) :
    PassRun g (g.deleteLoop pieces new) := by
  have unread : PassRun g (Graph.swapIn (g.usersSnapshot pieces.phi) pieces.phi new g) :=
    PassRun.rewire g _ _ _
  have marked := unread.trans
    (PassRun.markAll _ ([pieces.loop, pieces.phi, pieces.back] ++ pieces.cmp.toList))
  unfold Graph.deleteLoop
  simp only
  split
  · exact marked.trans (PassRun.retireExit _ _ _)
  · exact marked

end Deletions

section Passes

variable (g : Graph)

theorem EscapeAnalysis.run_passRun : PassRun g (EscapeAnalysis.run g).1 := by
  refine PassRun.foldl Prod.fst (fun progress id => ?_) (List.range g.size) (g, 0)
  simp only [promoteNode]
  split_ifs with _ alloc
  · exact .refl
  · exact .refl
  · exact .refl
  · have flagged : progress.1.modifyNode id promote =
        (progress.1.modifyNode id fun n => { n with kind := .stackAlloc, effect := .pure }).setFlag
          id .isStackPromoted := by
      simp only [Graph.setFlag, Graph.modifyNode, List.modify_modify_eq]
      rfl
    rw [flagged]
    exact (Relation.ReflTransGen.single (.promote _ id (not_not.mp alloc))).tail (.setFlag _ _ _)

theorem NullPointerElimination.visit_passRun (progress : Progress) (id : NodeId) :
    PassRun progress.graph (stopped (visit progress id)).graph := by
  simp only [visit]
  split_ifs
  · exact .refl
  · exact .refl
  · exact .refl
  · exact PassRun.markDead _ _
  · exact .refl

theorem NullPointerElimination.run_passRun : PassRun g (NullPointerElimination.run g).graph := by
  have swept := PassRun.foldlM Progress.graph visit_passRun (List.range g.size) { graph := g }
  unfold run
  split
  case h_1 ran =>
    rw [ran] at swept
    exact swept
  case h_2 ran =>
    rw [ran] at swept
    exact swept

theorem BoundsCheckElim.run_passRun : PassRun g (BoundsCheckElim.run g).1 := by
  refine PassRun.foldl Prod.fst (fun progress id => ?_) (List.range g.size) (g, 0)
  simp only [visit]
  split_ifs
  · exact .refl
  · exact .refl
  · exact PassRun.markDead _ _
  · exact .refl

theorem StrengthReduction.newNode_passRun {kind : NodeKind} {lhs rhs : NodeId} {ty : TypeId}
    {new : NodeId} {h : Graph} (made : newNode g kind lhs rhs ty = some (new, h)) :
    PassRun g h := by
  rcases newNode_shape made with rfl | ⟨value, rfl⟩ | ⟨kind, count, -, rfl⟩
  · exact .refl
  · exact .single (.push _ _)
  · have amount : PassRun g (g.makeConstant (BitVec.ofNat 64 count) ty).2 := .single (.push _ _)
    exact amount.tail (.push _ _)

theorem StrengthReduction.visit_passRun (progress : Progress) (id : NodeId) :
    PassRun progress.graph (visit progress id).graph := by
  simp only [visit]
  split
  · exact .refl
  · split
    case h_1 => exact .refl
    case h_2 made => exact (newNode_passRun _ made).trans (PassRun.replaceUses _ _ _)

theorem StrengthReduction.run_passRun : PassRun g (StrengthReduction.run g).graph := by
  have swept (fuel : Nat) (id : NodeId) (progress : Progress) :
      PassRun progress.graph (sweep fuel id progress).graph := by
    induction fuel generalizing id progress with
    | zero => exact .refl
    | succ fuel ih =>
        rw [sweep]
        split
        · exact (visit_passRun progress id).trans (ih _ _)
        · exact .refl
  exact swept _ 0 { graph := g }

theorem CopyPropagation.run_passRun : PassRun g (CopyPropagation.run g).1 := by
  refine PassRun.foldl Prod.fst (fun progress id => ?_) (List.range g.size) (g, 0)
  simp only [copyNode]
  split
  · exact .refl
  · split
    · exact .refl
    · exact PassRun.replaceUses _ _ _

theorem Gvn.run_passRun : PassRun g (Gvn.run g).1 := by
  have rewritten (map : List NodeRef) (ids : List NodeId) :
      PassRun g (ids.foldl (rewriteNode map) g) := by
    refine PassRun.foldl id (fun g node => ?_) ids g
    unfold rewriteNode
    split
    · exact .refl
    · refine PassRun.foldl id (fun g slot => ?_) _ g
      unfold rewriteSlot
      split
      · exact .refl
      · split
        · exact .refl
        · exact .single (.setInput _ _ _ _)
  have marked (map : List NodeRef) (ids : List NodeId) (g : Graph) :
      PassRun g (ids.foldl (markNode map) g) := by
    refine PassRun.foldl id (fun g node => ?_) ids g
    unfold markNode
    split
    · exact .refl
    · exact PassRun.markDead _ _
  unfold run
  simp only
  split
  · exact .refl
  · exact (rewritten _ _).trans (marked _ _ _)

theorem InductionVariables.makeDerived_passRun (loop phi k : NodeId) (step : Word) :
    PassRun g (makeDerived g loop phi k step).2 := by
  have entry : PassRun g (makeEntry g phi k).2 := by
    unfold makeEntry
    simp only
    split
    · split
      · exact .single (.push _ _)
      · exact .single (.push _ _)
    · exact .single (.push _ _)
  exact (((entry.tail (.push _ _)).tail (.push _ _)).tail (.push _ _)).tail (.setInput _ _ _ _)

theorem InductionVariables.visitPhi_passRun (map : Scev.SCEVMap) (loop : NodeId)
    (progress : Progress) (phi : NodeId) :
    PassRun progress.graph (stopped (visitPhi map loop progress phi)).graph := by
  unfold visitPhi
  simp only
  split_ifs
  case neg =>
    refine PassRun.foldl Progress.graph (fun progress mul => ?_) _ progress
    unfold visitUser
    split
    · exact .refl
    · split
      · exact (makeDerived_passRun _ _ _ _ _).trans (PassRun.replaceUses _ _ _)
      · exact .refl
  all_goals exact .refl

theorem InductionVariables.visitLoop_passRun (map : Scev.SCEVMap) (ids : List NodeId)
    (progress : Progress) (loop : NodeId) :
    PassRun progress.graph (stopped (visitLoop map ids progress loop)).graph := by
  unfold visitLoop
  split_ifs
  · exact .refl
  · exact .refl
  · exact PassRun.foldlM Progress.graph (visitPhi_passRun map loop) ids progress

theorem InductionVariables.run_passRun : PassRun g (InductionVariables.run g).graph := by
  have swept := PassRun.foldlM Progress.graph (visitLoop_passRun (Scev.run g) (List.range g.size))
    (List.range g.size) { graph := g }
  unfold run
  simp only
  split
  case h_1 ran =>
    rw [ran] at swept
    exact swept
  case h_2 ran =>
    rw [ran] at swept
    exact swept

theorem LoopFusion.run_passRun : PassRun g (LoopFusion.run g).graph := by
  refine PassRun.foldl Progress.graph (fun progress pair => ?_) _ { graph := g }
  unfold visit
  split
  · exact .refl
  · exact PassRun.deleteLoop _ _ _

theorem LoopUnrolling.visit_passRun (map : Scev.SCEVMap) (progress : Progress) (loop : NodeId) :
    PassRun progress.graph (stopped (visit map progress loop)).graph := by
  unfold visit
  split
  · exact .refl
  · exact .refl
  · have started (start : Word) (ty : TypeId) :
        PassRun progress.graph (progress.graph.makeConstant start ty).2 := .single (.push _ _)
    exact (started _ _).trans (PassRun.deleteLoop _ _ _)

theorem LoopUnrolling.run_passRun : PassRun g (LoopUnrolling.run g).graph := by
  have swept := PassRun.foldlM Progress.graph (visit_passRun (Scev.run g)) (List.range g.size)
    { graph := g }
  unfold run
  split
  case h_1 ran =>
    rw [ran] at swept
    exact swept
  case h_2 ran =>
    rw [ran] at swept
    exact swept

theorem LoopFission.run_passRun : PassRun g (LoopFission.run g).graph := by
  refine PassRun.foldl Progress.graph (fun progress loop => ?_) (List.range g.size) { graph := g }
  simp only [visit]
  split_ifs
  · exact .refl
  · exact .refl
  · exact .refl
  · exact .single (.setFlag _ _ _)

theorem TailCallOpt.run_passRun : PassRun g (TailCallOpt.run g).1 := by
  refine PassRun.foldl Prod.fst (fun progress id => ?_) (List.range g.size) (g, 0)
  simp only [visit]
  split_ifs
  · exact .refl
  · exact .refl
  · exact .single (.setFlag _ _ _)
  · exact .refl

end Passes

section EffectChains

variable (g : Graph)

/-- A pass over the effects edits the graph when its visits do. -/
theorem EffectChain.walkFromStart_passRun {S : Type} (init : Graph → S) (graphOf : S → Graph)
    {visit : S → NodeId → S} {fuel : Graph → Nat} (starts : ∀ g, graphOf (init g) = g)
    (each : ∀ s cursor, PassRun (graphOf s) (graphOf (visit s cursor))) :
    PassRun g (graphOf (walkFromStart init graphOf visit fuel g).1) := by
  have walked (steps : Nat) (s : S) (cursor : NodeId) :
      PassRun (graphOf s) (graphOf (walk graphOf visit steps s cursor).1) := by
    induction steps generalizing s cursor with
    | zero => exact .refl
    | succ steps ih =>
        rw [walk]
        split
        · exact .refl
        · exact (each s _).trans (ih _ _)
  unfold walkFromStart
  split
  case h_1 => rw [starts]
  case h_2 found =>
    obtain ⟨start, -, made⟩ := Option.map_eq_some_iff.mp found
    cases made
    have projected : PassRun g (g.makeProj (some start) 1).2 := .single (.push _ _)
    have onwards := walked (fuel (g.makeProj (some start) 1).2)
      (init (g.makeProj (some start) 1).2) (g.makeProj (some start) 1).1
    rw [starts] at onwards
    exact projected.trans onwards

theorem RcOptimization.run_passRun : PassRun g (RcOptimization.run g).1 := by
  refine EffectChain.walkFromStart_passRun g _ Progress.graph (fun _ => rfl) fun p cursor => ?_
  unfold visit
  simp only
  split_ifs
  · split
    · exact .refl
    · split
      · split
        · exact (PassRun.markDead _ _).trans (PassRun.markDead _ _)
        · exact .refl
      · exact .refl
  · exact .refl

theorem Cse.run_passRun : PassRun g (Cse.run g).1 := by
  refine EffectChain.walkFromStart_passRun g _ Progress.graph (fun _ => rfl) fun p cursor => ?_
  unfold visit
  simp only
  split_ifs
  · split
    · exact .refl
    · split
      · exact PassRun.replaceUses _ _ _
      · exact .refl
  · split <;> exact .refl
  · exact .refl

theorem Dse.run_passRun : PassRun g (Dse.run g).1 := by
  refine EffectChain.walkFromStart_passRun g _ Progress.graph (fun _ => rfl) fun p cursor => ?_
  unfold visit
  simp only
  split_ifs
  · split
    · exact .refl
    · split
      · exact PassRun.markDead _ _
      · split
        · exact PassRun.markDead _ _
        · exact .refl
  · split <;> exact .refl
  · exact .refl
  · exact .refl

end EffectChains

namespace SimplifyControl

theorem mergeBlock_passRun (progress : Graph × Nat) (id : NodeId) :
    PassRun progress.1 (mergeBlock progress id).1 := by
  simp only [mergeBlock]
  split_ifs
  · exact .refl
  · exact .refl
  · split
    · exact .refl
    · exact (PassRun.rewire _ _ _ _).trans (PassRun.markDead _ _)

theorem collapsePhis_passRun (trueProj falseProj : NodeRef) (takenTrue : Bool)
    (progress : Graph × Nat) (proj : NodeRef) :
    PassRun progress.1 (collapsePhis trueProj falseProj takenTrue progress proj).1 := by
  unfold collapsePhis
  split
  · exact .refl
  · refine PassRun.foldl Prod.fst (fun progress region => ?_) _ progress
    unfold collapseRegion
    split
    · refine PassRun.foldl Prod.fst (fun progress phi => ?_) _ progress
      simp only [collapsePhi]
      split
      · exact .refl
      · split
        · split
          · exact .refl
          · exact (PassRun.rewire _ _ _ _).trans (PassRun.markDead _ _)
        · exact .refl
    · exact .refl

theorem rewireProj_passRun (ctrl : NodeId) (g : Graph) (proj : NodeRef) :
    PassRun g (rewireProj ctrl g proj) := by
  cases proj
  · exact .refl
  · exact PassRun.rewire _ _ _ _

theorem markProj_passRun (g : Graph) (proj : NodeRef) : PassRun g (markProj g proj) := by
  cases proj
  · exact .refl
  · exact PassRun.markDead _ _

theorem threadJump_passRun (progress : Graph × Nat) (branch : NodeId) :
    PassRun progress.1 (threadJump progress branch).1 := by
  unfold threadJump
  simp only
  split
  case isTrue => exact .refl
  case isFalse =>
    split
    case isTrue => exact .refl
    case isFalse =>
      split
      case h_1 => exact .refl
      case h_2 ctrl takenTrue _ =>
        split
        case isTrue => exact .refl
        case isFalse =>
          let projs := [projOf progress.1 branch 0, projOf progress.1 branch 1]
          have collapsed := PassRun.foldl Prod.fst
            (collapsePhis_passRun (projOf progress.1 branch 0) (projOf progress.1 branch 1) takenTrue)
            projs progress
          have rewired := collapsed.trans (PassRun.foldl id (rewireProj_passRun ctrl) projs _)
          exact (rewired.trans (PassRun.foldl id markProj_passRun projs _)).trans
            (PassRun.markDead _ _)

theorem run_passRun (g : Graph) : PassRun g (SimplifyControl.run g).1 :=
  (PassRun.foldl Prod.fst mergeBlock_passRun _ (g, 0)).trans
    (PassRun.foldl Prod.fst threadJump_passRun _ _)

end SimplifyControl

/-- The passes of the standard pipeline are sequences of edits. -/
theorem standardPipeline_passRun {pass : Pass} (member : pass ∈ buildStandardPipeline)
    (g : Graph) : PassRun g (pass.run g).1 := by
  simp only [buildStandardPipeline, List.mem_cons, List.not_mem_nil, or_false] at member
  rcases member with rfl | rfl | rfl | rfl | rfl | rfl | rfl | rfl | rfl | rfl | rfl | rfl | rfl |
    rfl | rfl | rfl | rfl | rfl | rfl
  · exact EscapeAnalysis.run_passRun g
  · exact NullPointerElimination.run_passRun g
  · exact RcOptimization.run_passRun g
  · exact Sccp.run_passRun g
  · exact StrengthReduction.run_passRun g
  · exact CopyPropagation.run_passRun g
  · exact Gvn.run_passRun g
  · exact Cse.run_passRun g
  · exact .refl
  · exact .refl
  · exact InductionVariables.run_passRun g
  · exact LoopFusion.run_passRun g
  · exact LoopUnrolling.run_passRun g
  · exact LoopFission.run_passRun g
  · exact BoundsCheckElim.run_passRun g
  · exact Dse.run_passRun g
  · exact TailCallOpt.run_passRun g
  · exact SimplifyControl.run_passRun g
  · exact Edce.run_passRun g

section Manager

variable {verifyIr : Bool} {outcome outcome' : PassManager.Outcome}

theorem PassManager.runPass_passRun {pass : Pass} (edits : ∀ g, PassRun g (pass.run g).1)
    (ran : runPass verifyIr outcome pass = .ok outcome') :
    PassRun outcome.graph outcome'.graph := by
  have fixed : PassRun outcome.graph (fixpoint pass kFixpointBudgetPerPass 0 outcome.graph).graph :=
    fixpoint_makes (fun _ made => made) (fun g made => made.trans (edits g)) .refl
  simp only [runPass] at ran
  split at ran
  case h_1 => cases ran
  case h_2 =>
    cases ran
    exact fixed

theorem PassManager.foldlM_passRun {passes : List Pass}
    (edits : ∀ pass ∈ passes, ∀ g, PassRun g (pass.run g).1)
    (ran : passes.foldlM (runPass verifyIr) outcome = .ok outcome') :
    PassRun outcome.graph outcome'.graph := by
  induction passes generalizing outcome with
  | nil =>
      cases ran
      exact .refl
  | cons pass passes ih =>
      rw [List.foldlM_cons] at ran
      cases first : runPass verifyIr outcome pass with
      | error why =>
          rw [first] at ran
          cases ran
      | ok middle =>
          rw [first] at ran
          exact (runPass_passRun (edits pass List.mem_cons_self) first).trans
            (ih (fun pass member => edits pass (List.mem_cons_of_mem _ member)) ran)

/-- What the manager makes of a graph with the standard pipeline comes from edits. -/
theorem standardPipeline_edits {g : Graph}
    (ran : PassManager.run verifyIr buildStandardPipeline g = .ok outcome) :
    PassRun g outcome.graph :=
  PassManager.foldlM_passRun (fun _ member => standardPipeline_passRun member) ran

end Manager

end Aegis
