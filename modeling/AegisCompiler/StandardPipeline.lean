import AegisCompiler.ControlPasses
import AegisCompiler.EffectChainPasses
import AegisCompiler.EscapeAnalysis
import AegisCompiler.GuardElimination
import AegisCompiler.LoopFusion
import AegisCompiler.LoopUnrolling
import AegisCompiler.SelectedCode
import AegisCompiler.StraightPasses

/-!
# The standard pipeline

The pass manager runs nineteen passes.  On straight-line code most of them have nothing to do;
the others keep what the code returns, and the verifier has nothing to complain about after any
of them.
-/

namespace Aegis

open InstrSel (isMapped)
open Lowerer (firstValue)

/-- A pass that returns the number of its changes. -/
def Pass.counting (name : String) (run : Graph → Graph × Nat) : Pass where
  name := name
  run g := ((run g).1, (run g).2)

/-- The passes of the standard pipeline, in their order. -/
def buildStandardPipeline : List Pass := [
  .counting "escape_analysis" EscapeAnalysis.run,
  .counting "null_pointer_elimination" fun g =>
    let p := NullPointerElimination.run g
    (p.graph, p.removed),
  .counting "rc_optimization" RcOptimization.run,
  .counting "sccp" Sccp.run,
  .counting "strength_reduction" fun g =>
    let p := StrengthReduction.run g
    (p.graph, p.replaced),
  .counting "copy_propagation" CopyPropagation.run,
  Gvn.pass,
  .counting "cse" Cse.run,
  -- The analysis records every recurrence twice, and leaves the graph alone.
  .counting "scev" fun g => (g, (Scev.run g).length / 2),
  .counting "licm" Licm.run,
  .counting "induction_var_simplification" fun g =>
    let p := InductionVariables.run g
    (p.graph, p.rewritten),
  .counting "loop_fusion" fun g =>
    let p := LoopFusion.run g
    (p.graph, p.fused),
  .counting "loop_unrolling" fun g =>
    let p := LoopUnrolling.run g
    (p.graph, p.unrolled),
  .counting "loop_fission" fun g =>
    let p := LoopFission.run g
    (p.graph, p.tagged),
  .counting "bce" BoundsCheckElim.run,
  .counting "dse" Dse.run,
  .counting "tco" TailCallOpt.run,
  .counting "simplify_control" SimplifyControl.run,
  .counting "edce" Edce.run]

/-- The kinds of the live nodes of straight-line code. -/
def isPlain (kind : NodeKind) : Bool :=
  isMapped kind || decide (kind = .start) || decide (kind = .proj) || decide (kind = .returnNode)

theorem foldlM_fixed {ε α β : Type} {step : β → α → Except ε β} {b : β}
    (fixed : ∀ a, step b a = .ok b) (items : List α) : items.foldlM step b = .ok b := by
  induction items with
  | nil => rfl
  | cons a items ih =>
      rw [List.foldlM_cons, fixed]
      exact ih

section Idle

variable {g : Graph} {params : Nat} {ret result : NodeId}
variable (code : StraightCode g params ret result)

include code

/-- No live node has any other kind. -/
theorem StraightCode.absent {id : NodeId} (live : ¬(g.node id).isDead = true) {kind : NodeKind}
    (strange : isPlain kind = false) : (g.node id).kind ≠ kind := by
  rintro rfl
  rw [Bool.not_eq_true] at live
  simp only [isPlain, Bool.or_eq_false_iff, decide_eq_false_iff_not] at strange
  rcases code.kinds live with kind | kind | mapped | ⟨-, kind⟩
  · exact strange.1.1.2 kind
  · exact strange.1.2 kind
  · rw [strange.1.1.1] at mapped
    cases mapped
  · exact strange.2 kind

theorem StraightCode.escapeAnalysis : (EscapeAnalysis.run g).1 = g := by
  have idle (id : NodeId) : EscapeAnalysis.promoteNode (g, 0) id = (g, 0) := by
    simp only [EscapeAnalysis.promoteNode]
    split
    case isTrue => rfl
    case isFalse live => exact if_pos (code.absent live rfl)
  rw [EscapeAnalysis.run, List.foldl_fixed' idle]

theorem StraightCode.nullPointerElimination : (NullPointerElimination.run g).graph = g := by
  have idle (id : NodeId) :
      NullPointerElimination.visit { graph := g } id = .ok { graph := g } := by
    simp only [NullPointerElimination.visit]
    split
    case isTrue => rfl
    case isFalse live => exact if_pos (code.absent live rfl)
  rw [NullPointerElimination.run, foldlM_fixed idle]

theorem StraightCode.copyPropagation : (CopyPropagation.run g).1 = g := by
  have idle (id : NodeId) : CopyPropagation.copyNode (g, 0) id = (g, 0) := by
    simp only [CopyPropagation.copyNode]
    split
    case isTrue => rfl
    case isFalse live =>
      have none : CopyPropagation.replacement g id = none := by
        simp only [CopyPropagation.replacement]
        split
        case h_1 kind => exact absurd kind (code.absent live rfl)
        case h_2 kind => exact absurd kind (code.absent live rfl)
        case h_3 kind => exact absurd kind (code.absent live rfl)
        case h_4 => rfl
      rw [none]
  rw [CopyPropagation.run, CopyPropagation.sweep, List.foldl_fixed' idle]

theorem StraightCode.inductionVariables : (InductionVariables.run g).graph = g := by
  have idle (id : NodeId) : InductionVariables.visitLoop (Scev.run g) (List.range g.size)
      { graph := g } id = .ok { graph := g } := by
    unfold InductionVariables.visitLoop
    split
    case isTrue => rfl
    case isFalse live => exact if_pos (code.absent live rfl)
  rw [InductionVariables.run, foldlM_fixed idle]

theorem StraightCode.loopFusion : (LoopFusion.run g).graph = g := by
  have none : LoopFusion.liveLoops g = [] := by
    apply List.filter_eq_nil_iff.mpr
    intro id _ isLoop
    simp only [Bool.and_eq_true, Bool.not_eq_true', decide_eq_true_eq] at isLoop
    exact code.absent (ne_true_of_eq_false isLoop.1) rfl isLoop.2
  rw [LoopFusion.run, none]
  rfl

theorem StraightCode.loopUnrolling : (LoopUnrolling.run g).graph = g := by
  have idle (id : NodeId) :
      LoopUnrolling.visit (Scev.run g) { graph := g } id = .ok { graph := g } := by
    have skips : LoopUnrolling.decision (Scev.run g) g 0 id = .skip 0 none := by
      unfold LoopUnrolling.decision
      split
      case isTrue => rfl
      case isFalse live => exact if_pos (code.absent live rfl)
    rw [LoopUnrolling.visit, skips]
    rfl
  rw [LoopUnrolling.run, foldlM_fixed idle]

theorem StraightCode.loopFission : (LoopFission.run g).graph = g := by
  have idle (id : NodeId) : LoopFission.visit { graph := g } id = { graph := g } := by
    simp only [LoopFission.visit]
    split
    case isTrue => rfl
    case isFalse live => exact if_pos (code.absent live rfl)
  rw [LoopFission.run, List.foldl_fixed' idle]

theorem StraightCode.boundsCheckElim : (BoundsCheckElim.run g).1 = g := by
  have idle (id : NodeId) : BoundsCheckElim.visit (g, 0) id = (g, 0) := by
    simp only [BoundsCheckElim.visit]
    split
    case isTrue => rfl
    case isFalse live => exact if_pos (code.absent live rfl)
  rw [BoundsCheckElim.run, List.foldl_fixed' idle]

/-- The return passes on a value, and no value is a projection of a call. -/
theorem StraightCode.isTailCall (id : NodeId) (live : ¬(g.node id).isDead = true)
    (isReturn : (g.node id).kind = .returnNode) : TailCallOpt.isTailCall g id = false := by
  have same : id = ret := by
    rcases code.kinds ((Bool.not_eq_true _).mp live) with kind | kind | mapped | ⟨same, -⟩
    · cases kind.symm.trans isReturn
    · cases kind.symm.trans isReturn
    · rw [isReturn] at mapped
      cases mapped
    · exact same
  have value := code.returned.value
  have notProj : (g.node result).kind ≠ .proj := by
    intro kind
    have mapped := value.mapped
    rw [kind] at mapped
    cases mapped
  rw [TailCallOpt.isTailCall, same, code.returned.inputs]
  simp only [g.inRange_some.mpr ⟨rfl, value.inside⟩]
  exact if_pos notProj

theorem StraightCode.tailCallOpt : (TailCallOpt.run g).1 = g := by
  have idle (id : NodeId) : TailCallOpt.visit (g, 0) id = (g, 0) := by
    simp only [TailCallOpt.visit]
    split
    case isTrue => rfl
    case isFalse live =>
      split
      case isTrue => rfl
      case isFalse isReturn =>
        rw [code.isTailCall id live (not_not.mp isReturn)]
        rfl
  rw [TailCallOpt.run, List.foldl_fixed' idle]

theorem StraightCode.simplifyControl : (SimplifyControl.run g).1 = g := by
  have merged (id : NodeId) : SimplifyControl.mergeBlock (g, 0) id = (g, 0) := by
    simp only [SimplifyControl.mergeBlock]
    split
    case isTrue => rfl
    case isFalse live => exact if_pos (code.absent live rfl)
  have threaded (id : NodeId) : SimplifyControl.threadJump (g, 0) id = (g, 0) := by
    simp only [SimplifyControl.threadJump]
    split
    case isTrue => rfl
    case isFalse live => exact if_pos (code.absent live rfl)
  rw [SimplifyControl.run, List.foldl_fixed' merged, List.foldl_fixed' threaded]

end Idle

namespace EffectChain

section Walks

variable {S : Type} {init : Graph → S} {graphOf : S → Graph} {visit : S → NodeId → S}
  {fuel : Graph → Nat}

theorem walk_eq_self {left : Nat} {s : S} {cursor : NodeId}
    (nothing : (walk graphOf visit left s cursor).2 = []) :
    (walk graphOf visit left s cursor).1 = s := by
  cases left with
  | zero => rfl
  | succ left =>
      rw [walk] at nothing ⊢
      split at nothing
      case h_1 => rfl
      case h_2 => cases nothing

variable {g : Graph} {params : Nat} {ret result : NodeId}
variable (code : StraightCode g params ret result)

include code

theorem startEffect_straight : startEffect g = some (g.makeProj (some kStartNodeId) 1) := by
  obtain ⟨⟨flags, node⟩, -⟩ := code.before kStartNodeId (by decide)
  have isStart : (g.node kStartNodeId).kind = .start := by
    rw [node]
    rfl
  obtain ⟨more, size⟩ := Nat.exists_eq_succ_of_ne_zero (Nat.ne_of_gt code.started)
  have first : (List.range g.size).find? (fun id => decide ((g.node id).kind = .start)) =
      some kStartNodeId := by
    rw [size, List.range_succ_eq_map]
    exact List.find?_cons_of_pos (decide_eq_true isStart)
  rw [startEffect, first]
  rfl

/-- No node names one that there is not. -/
theorem unnamed : ¬NamesNext g := by
  rintro ⟨user, -, -, -, named⟩
  have member : some g.size ∈ (g.node user).inputs := by
    by_cases slot : 1 < (g.node user).inputs.length
    · rw [Node.effIn, List.getD_eq_getElem _ _ slot] at named
      exact named ▸ List.getElem_mem slot
    · rw [Node.effIn, List.getD_eq_default _ _ (Nat.not_lt.mp slot)] at named
      cases named
  exact Nat.lt_irrefl _ (code.inside user g.size member)

/-- The walk only leaves the projection that it starts from. -/
theorem walkFromStart_straight (keeps : ∀ g, graphOf (init g) = g) :
    (walkFromStart init graphOf visit fuel g).1 =
      init (g.makeProj (some kStartNodeId) 1).2 := by
  have nothing : (walkFromStart init graphOf visit fuel g).2 = [] :=
    walkFromStart_of_not_namesNext keeps (unnamed code)
  rw [walkFromStart, startEffect_straight code] at nothing ⊢
  exact walk_eq_self nothing

/-- A projection of the start node changes no value. -/
theorem makeProj_carries (which : BitVec 32) :
    Carries params ret g result (g.makeProj (some kStartNodeId) which).2 result where
  code := code.push (.projection rfl rfl) rfl (NodeFlags.has_zero _) nofun
  size := (Graph.pushNode_size g _).symm ▸ Nat.le_succ _
  acyclic := by
    rintro ⟨rank, ranked⟩
    refine ⟨_, ranked.push code.inside (r := rank kStartNodeId + 1) fun input member => ?_⟩
    cases List.mem_singleton.mp member
    exact ⟨code.started, Nat.lt_succ_self _⟩
  values args v computes := by
    have inside (input : NodeId) (member : some input ∈ [some kStartNodeId]) :
        input < g.size := by
      cases List.mem_singleton.mp member
      exact code.started
    refine ⟨_, computes.push code.inside inside (w := 0)
      ⟨nofun, nofun, fun _ kind => (by cases kind), fun _ _ kind => (by cases kind)⟩, ?_⟩
    exact Function.update_of_ne (Nat.ne_of_lt code.returned.value.inside) _ _

end Walks

section Passes

variable {g : Graph} {params : Nat} {ret result : NodeId}
variable (code : StraightCode g params ret result)

include code

theorem rcOptimization_straight :
    (RcOptimization.run g).1 = (g.makeProj (some kStartNodeId) 1).2 := by
  rw [RcOptimization.run, RcOptimization.walked, walkFromStart_straight code fun _ => rfl]

theorem cse_straight : (Cse.run g).1 = (g.makeProj (some kStartNodeId) 1).2 := by
  rw [Cse.run, Cse.walked, walkFromStart_straight code fun _ => rfl]

theorem dse_straight : (Dse.run g).1 = (g.makeProj (some kStartNodeId) 1).2 := by
  rw [Dse.run, Dse.walked, walkFromStart_straight code fun _ => rfl]

end Passes

end EffectChain

namespace PassManager

section Runs

variable {Before After : Graph → Prop}

/-- What every run of a pass makes, its fixpoint makes. -/
theorem fixpoint_makes {pass : Pass} (weakens : ∀ g, After g → Before g)
    (makes : ∀ g, Before g → After (pass.run g).1) {left iters : Nat} {g : Graph}
    (before : Before g) : After (fixpoint pass left iters g).graph := by
  induction left generalizing iters g with
  | zero => exact makes g before
  | succ left ih =>
      have after := makes g before
      rw [fixpoint]
      simp only
      split
      case isTrue => exact ih (weakens _ after)
      case isFalse => exact after

theorem runPass_makes {pass : Pass} (weakens : ∀ g, After g → Before g)
    (makes : ∀ g, Before g → After (pass.run g).1) (verified : ∀ g, After g → g.verify = none)
    (verifyIr : Bool) {outcome : Outcome} (before : Before outcome.graph) :
    ∃ outcome', runPass verifyIr outcome pass = .ok outcome' ∧ After outcome'.graph := by
  have after : After (fixpoint pass kFixpointBudgetPerPass 0 outcome.graph).graph :=
    fixpoint_makes weakens makes before
  have accepted : (if verifyIr = true then
      (fixpoint pass kFixpointBudgetPerPass 0 outcome.graph).graph.verify else none) = none := by
    split
    · exact verified _ after
    · rfl
  simp only [runPass, accepted]
  exact ⟨_, rfl, after⟩

/-- What every pass keeps, the list of the passes keeps, and the verifier never complains. -/
theorem foldlM_keeps {passes : List Pass} (verified : ∀ g, After g → g.verify = none)
    (keeps : ∀ pass ∈ passes, ∀ g, After g → After (pass.run g).1) (verifyIr : Bool)
    (outcome : Outcome) (holds : After outcome.graph) :
    ∃ outcome', passes.foldlM (runPass verifyIr) outcome = .ok outcome' ∧
      After outcome'.graph := by
  induction passes generalizing outcome with
  | nil => exact ⟨outcome, rfl, holds⟩
  | cons pass passes ih =>
      obtain ⟨middle, ran, held⟩ := runPass_makes (fun _ held => held)
        (keeps pass List.mem_cons_self) verified verifyIr holds
      obtain ⟨outcome', rest, held'⟩ :=
        ih (fun pass member => keeps pass (List.mem_cons_of_mem _ member)) middle held
      refine ⟨outcome', ?_, held'⟩
      rw [List.foldlM_cons, ran]
      exact rest

end Runs

end PassManager

section Pipeline

variable {g : Graph} {params : Nat} {ret result : NodeId}

/-- Before value numbering the code is carried on, whatever its size is. -/
def CarriedFrom (params : Nat) (ret : NodeId) (g : Graph) (result : NodeId) (h : Graph) : Prop :=
  Acyclic h ∧ ∃ result', Carries params ret g result h result'

/-- From value numbering on the code is carried on while it is small. -/
def KeptFrom (params : Nat) (ret : NodeId) (g : Graph) (result : NodeId) (h : Graph) : Prop :=
  ∃ result', StraightCode h params ret result' ∧ g.size ≤ h.size ∧
    (h.size ≤ kHashedIds → Carries params ret g result h result')

theorem CarriedFrom.kept {h : Graph} (carried : CarriedFrom params ret g result h) :
    KeptFrom params ret g result h := by
  obtain ⟨-, result', carries⟩ := carried
  exact ⟨result', carries.code, carries.size, fun _ => carries⟩

/-- The passes before value numbering carry the code on. -/
theorem carriedFrom_early {pass : Pass} (early : pass ∈ buildStandardPipeline.take 6) (h : Graph)
    (carried : CarriedFrom params ret g result h) :
    CarriedFrom params ret g result (pass.run h).1 := by
  obtain ⟨acyclic, result', before⟩ := carried
  have code := before.code
  have step {k : Graph} (carries : ∃ result'', Carries params ret h result' k result'') :
      CarriedFrom params ret g result k := by
    obtain ⟨result'', next⟩ := carries
    exact ⟨next.acyclic acyclic, result'', before.trans next⟩
  have idle {k : Graph} (same : k = h) : CarriedFrom params ret g result k := by
    rw [same]
    exact step ⟨result', .refl code⟩
  have effects {k : Graph} (same : k = (h.makeProj (some kStartNodeId) 1).2) :
      CarriedFrom params ret g result k := by
    rw [same]
    exact step ⟨result', EffectChain.makeProj_carries code 1⟩
  simp only [buildStandardPipeline, List.take_succ_cons, List.take_zero, List.mem_cons,
    List.not_mem_nil, or_false] at early
  rcases early with rfl | rfl | rfl | rfl | rfl | rfl
  · exact idle code.escapeAnalysis
  · exact idle code.nullPointerElimination
  · exact effects (EffectChain.rcOptimization_straight code)
  · exact step (Sccp.run_carries code acyclic)
  · exact step (StrengthReduction.run_carries code acyclic)
  · exact idle code.copyPropagation

/-- Value numbering and the passes behind it keep the code. -/
theorem keptFrom_late {pass : Pass} (late : pass ∈ buildStandardPipeline.drop 6) (h : Graph)
    (kept : KeptFrom params ret g result h) : KeptFrom params ret g result (pass.run h).1 := by
  obtain ⟨result', code, size, small⟩ := kept
  have step {k : Graph} {result'' : NodeId} (carries : Carries params ret h result' k result'') :
      KeptFrom params ret g result k :=
    ⟨result'', carries.code, size.trans carries.size,
      fun few => (small (carries.size.trans few)).trans carries⟩
  have idle {k : Graph} (same : k = h) : KeptFrom params ret g result k := by
    rw [same]
    exact step (.refl code)
  have effects {k : Graph} (same : k = (h.makeProj (some kStartNodeId) 1).2) :
      KeptFrom params ret g result k := by
    rw [same]
    exact step (EffectChain.makeProj_carries code 1)
  simp only [buildStandardPipeline, List.drop_succ_cons, List.drop_zero, List.mem_cons,
    List.not_mem_nil, or_false] at late
  rcases late with rfl | rfl | rfl | rfl | rfl | rfl | rfl | rfl | rfl | rfl | rfl | rfl | rfl
  · have numbered : (Gvn.run h).1.size = h.size := Gvn.run_fst_size h
    refine ⟨_, Gvn.run_code code, size.trans numbered.ge, fun few => ?_⟩
    have few : h.size ≤ kHashedIds := numbered.symm.trans_le few
    exact (small few).trans (Gvn.run_carries code few)
  · exact effects (EffectChain.cse_straight code)
  · exact idle rfl
  · exact idle rfl
  · exact idle code.inductionVariables
  · exact idle code.loopFusion
  · exact idle code.loopUnrolling
  · exact idle code.loopFission
  · exact idle code.boundsCheckElim
  · exact effects (EffectChain.dse_straight code)
  · exact idle code.tailCallOpt
  · exact idle code.simplifyControl
  · exact step (Edce.run_carries code)

/-- The pipeline runs to its end on straight-line code. -/
theorem runs_standardPipeline (code : StraightCode g params ret result) (acyclic : Acyclic g)
    (verifyIr : Bool) :
    ∃ outcome, PassManager.run verifyIr buildStandardPipeline g = .ok outcome ∧
      KeptFrom params ret g result outcome.graph ∧ Edce.AllRead outcome.graph ret := by
  let edce : Pass := .counting "edce" Edce.run
  have split : buildStandardPipeline = buildStandardPipeline.take 6 ++
      ((buildStandardPipeline.drop 6).take 12 ++ [edce]) := rfl
  have verified (h : Graph) (kept : KeptFrom params ret g result h) : h.verify = none := by
    obtain ⟨result', code, -⟩ := kept
    exact code.verified
  obtain ⟨first, ran, carried⟩ := PassManager.foldlM_keeps
    (fun h carried => verified h carried.kept)
    (fun pass member h => carriedFrom_early member h) verifyIr { graph := g }
    (show CarriedFrom params ret g result g from ⟨acyclic, result, .refl code⟩)
  obtain ⟨second, ran', kept⟩ := PassManager.foldlM_keeps verified
    (fun pass member h => keptFrom_late (List.mem_of_mem_take member) h) verifyIr first carried.kept
  have last : edce ∈ buildStandardPipeline.drop 6 := by
    simp [buildStandardPipeline, edce]
  have swept (h : Graph) (kept : KeptFrom params ret g result h) :
      KeptFrom params ret g result (edce.run h).1 ∧ Edce.AllRead (edce.run h).1 ret := by
    refine ⟨keptFrom_late last h kept, ?_⟩
    obtain ⟨result', code, -⟩ := kept
    exact Edce.run_allRead code
  have weakens (h : Graph) (both : KeptFrom params ret g result h ∧ Edce.AllRead h ret) :
      KeptFrom params ret g result h := both.1
  obtain ⟨outcome, ran'', final⟩ := PassManager.runPass_makes weakens swept
    (fun h both => verified h both.1) verifyIr kept
  refine ⟨outcome, ?_, final⟩
  rw [PassManager.run, split, List.foldlM_append, ran]
  change List.foldlM _ first _ = _
  rw [List.foldlM_append, ran']
  change PassManager.runPass _ second _ >>= pure = _
  rw [ran'', bind_pure]

end Pipeline

end Aegis
