import AegisCompiler.SourceImages
import AegisCompiler.StandardPipeline

/-!
# From a straight-line function through the pipeline to its image

The pass manager runs the standard pipeline on straight-line code without a complaint of the
verifier, and what it ends with returns the same value.  So does the image that is linked from
it.
-/

namespace Aegis

open CallWalk (HasValue)
open InstrSel (noneHeld NoTrap)
open Lowerer (loweredGraph)

section Values

variable {g : Graph} {params : Nat} {ret result : NodeId}

/-- Where no operation traps, the equations of the nodes have a solution. -/
theorem StraightCode.exists_computes (code : StraightCode g params ret result)
    (acyclic : Acyclic g) {args : List Word} (noTrap : NoTrap g args) :
    ∃ v, Computes g args v := by
  have exists_value {id : NodeId} (value : IsValue g id) : ∃ w, HasValue g args noneHeld id w :=
    (code.straightLine acyclic).hasValue code.readsMapped noTrap value.live value.mapped
  classical
  let v (id : NodeId) : Word :=
    if has : ∃ w, HasValue g args noneHeld id w then has.choose else 0
  have known {id : NodeId} (value : IsValue g id) : HasValue g args noneHeld id (v id) := by
    have has := exists_value value
    rw [show v id = has.choose from dif_pos has]
    exact has.choose_spec
  refine ⟨v, fun id live kind => ?_, fun id live kind => ?_, fun id operand live kind inputs => ?_,
    fun id lhs rhs live kind inputs => ?_⟩
  · exact (CallWalk.hasValue_constant kind).mp (known ⟨live, by rw [kind]; rfl⟩)
  · exact (CallWalk.hasValue_parameter kind).mp (known ⟨live, by rw [kind]; rfl⟩)
  · obtain ⟨value, input, read, isOperand⟩ := code.isValue_unop live kind
    cases read.symm.trans inputs
    obtain ⟨a, has, computed⟩ := (CallWalk.hasValue_unop kind inputs).mp (known value)
    rw [(known isOperand).unique has]
    exact computed
  · obtain ⟨value, first, second, read, isLeft, isRight⟩ := code.isValue_binop live kind
    cases read.symm.trans inputs
    obtain ⟨a, b, left, right, computed⟩ := (CallWalk.hasValue_binop kind inputs).mp (known value)
    obtain ⟨w, machine⟩ :=
      Option.isSome_iff_exists.mp (noTrap id lhs rhs a b live kind inputs left right)
    rw [(known isLeft).unique left, (known isRight).unique right, machine,
      ← computed, InstrSel.evalBinop_of_machineBinop machine]

end Values

/-- The manager runs the whole pipeline on straight-line code, and the verifier accepts the
graph.  Where no operation of the code traps, none of the optimized code does, and a graph of
at most `2 ^ 24` nodes returns the value that the given graph returns. -/
theorem standardPipeline_keeps {g : Graph} {params : Nat} {ret result : NodeId}
    (code : StraightCode g params ret result) (acyclic : Acyclic g) (verifyIr : Bool) :
    ∃ outcome result', PassManager.run verifyIr buildStandardPipeline g = .ok outcome ∧
      StraightCode outcome.graph params ret result' ∧ outcome.graph.verify = none ∧
        (outcome.graph.size ≤ kHashedIds → ∀ args, NoTrap g args →
          NoTrap outcome.graph args ∧ ∀ w, HasValue outcome.graph args noneHeld result' w ↔
            HasValue g args noneHeld result w) := by
  obtain ⟨outcome, ran, ⟨result', code', -, carries⟩, -⟩ :=
    runs_standardPipeline code acyclic verifyIr
  refine ⟨outcome, result', ran, code', code'.verified, fun small args noTrap => ?_⟩
  have acyclic' := (carries small).acyclic acyclic
  obtain ⟨v, computes⟩ := code.exists_computes acyclic noTrap
  obtain ⟨v', computes', same⟩ := (carries small).values args v computes
  refine ⟨code'.noTrap acyclic' computes', fun w => ?_⟩
  rw [code'.hasValue_iff acyclic' computes' code'.returned.value,
    code.hasValue_iff acyclic computes code.returned.value, same]

/-- The graph that the pipeline ends with. -/
def optimizedGraph (g : Graph) : Graph :=
  ((PassManager.run true buildStandardPipeline g).toOption.map
    PassManager.Outcome.graph).getD Graph.fresh

theorem optimizedGraph_eq {g : Graph} {outcome : PassManager.Outcome}
    (ran : PassManager.run true buildStandardPipeline g = .ok outcome) :
    optimizedGraph g = outcome.graph := by
  rw [optimizedGraph, ran]
  rfl

/-- Eight times a parameter, plus two times three, minus the other parameter. -/
def octuple : Ast :=
  .fnDecl 1 [.param 2 (.pathExpr [9]) false, .param 3 (.pathExpr [9]) false] none
    (.block [
      .letStmt 4 none (some (.binaryExpr .star (.ident 2) (.intLit 8))) true,
      .assignExpr .plusEq (.ident 4) (.binaryExpr .star (.intLit 2) (.intLit 3)),
      .returnStmt (some (.binaryExpr .minus (.ident 4) (.ident 3)))]) false

theorem octuple_small :
    (optimizedGraph (loweredGraph .asListed octuple)).size ≤ kHashedIds := by
  decide +kernel

theorem lowerFresh_octuple :
    Lowerer.lowerFresh .asListed octuple = .ok (loweredGraph .asListed octuple) :=
  Lowerer.lowered_ok (by decide +kernel)

/-- For the arguments 5 and 6 the optimized function returns 40. -/
theorem standardPipeline_keeps_octuple : ∃ outcome result',
    PassManager.run true buildStandardPipeline (loweredGraph .asListed octuple) = .ok outcome ∧
      outcome.graph.verify = none ∧ HasValue outcome.graph [5, 6] noneHeld result' 40 := by
  have checked : TypeChecker.checkFn [] octuple = [] := by decide
  obtain ⟨ret, result, graph, evaluates⟩ := Lowerer.lowerFresh_straight .asListed (by decide)
    (by decide) checked lowerFresh_octuple
  have few : (loweredGraph .asListed octuple).size ≤ 2 ^ 24 := by decide +kernel
  obtain ⟨value, untrapped⟩ := evaluates (Lowerer.hashInjectiveBelow_of_le few) [5, 6] 40
    (by decide)
  have made := Lowerer.lowerFresh_wellMade lowerFresh_octuple
  have code := graph.code made
  have computes := graph.computes made untrapped
  obtain ⟨outcome, result', ran, -, verified, keeps⟩ :=
    standardPipeline_keeps code graph.acyclic true
  have small : outcome.graph.size ≤ kHashedIds := optimizedGraph_eq ran ▸ octuple_small
  have kept := (keeps small [5, 6] (code.noTrap graph.acyclic computes)).2
  refine ⟨outcome, result', ran, verified, (kept 40).mpr ?_⟩
  rw [code.hasValue_iff graph.acyclic computes code.returned.value]
  simp only [value, Option.getD_some]

namespace ExecEncoder

open AstEval Lowerer TypeChecker
open X86 (Image Machine)

/-- The function was compiled from an accepted straight-line source function: it was lowered,
optimized by the pipeline, selected and allocated without spills, and no parameter in front of
one that is used is dead. -/
structure OptimizedFrom (f : ModuleFunction) (fn : Ast) : Prop where
  inside : callFreeFn fn = true
  straight : straightFn fn = true
  accepted : ∃ sigs, checkFn sigs fn = []
  compiled : ∃ order g verifyIr outcome fuel name mf ra, lowerFresh order fn = .ok g ∧
    PassManager.run verifyIr buildStandardPipeline g = .ok outcome ∧
      outcome.graph.size ≤ kHashedIds ∧ InstrSel.ParamsInOrder outcome.graph ∧
        InstrSel.scheduleFuel outcome.graph (InstrSel.collect outcome.graph).perNode ≤ fuel ∧
          InstrSel.lower fuel outcome.graph name = .ok mf ∧ f.mf = some mf ∧ f.ra = some ra ∧
            Allocated mf ra

theorem OptimizedFrom.selected {f : ModuleFunction} {fn : Ast} (optimized : OptimizedFrom f fn) :
    ∃ h ret result, SelectedCode f h (declaredParams fn).length ret result ∧
      ∀ args v, evalFn fn args = some v →
        ∃ values, Aegis.Computes h args values ∧ values result = v := by
  obtain ⟨sigs, accepted⟩ := optimized.accepted
  obtain ⟨order, g, verifyIr, outcome, fuel, name, mf, ra, lowered, ran, small, inOrder,
    selected⟩ := optimized.compiled
  obtain ⟨ret, result, graph, evaluates⟩ :=
    lowerFresh_straight order optimized.inside optimized.straight accepted lowered
  have made := lowerFresh_wellMade lowered
  obtain ⟨outcome', ran', ⟨result', code, size, carried⟩, allRead⟩ :=
    runs_standardPipeline (graph.code made) graph.acyclic verifyIr
  cases ran.symm.trans ran'
  have carries := carried small
  refine ⟨outcome.graph, ret, result', ⟨code, carries.acyclic graph.acyclic, allRead, inOrder,
    fuel, name, mf, ra, selected⟩, fun args v evaluated => ?_⟩
  obtain ⟨value, untrapped⟩ :=
    evaluates (hashInjectiveBelow_of_le (size.trans small)) args v evaluated
  obtain ⟨values, computes, same⟩ := carries.values args _ (graph.computes made untrapped)
  refine ⟨values, computes, same.trans ?_⟩
  simp only [value, Option.getD_some]

/-- The linked image of optimized straight-line functions returns what the source function
evaluates to, with the stack and the callee-saved registers as they were. -/
theorem image_runs_optimized {img : Image} {fns : List ModuleFunction} {entries : List Nat}
    (optimized : ∀ f ∈ fns, ∃ fn, OptimizedFrom f fn)
    (encoded : encodeModule fns = .ok (img.bytes, entries)) {n : Nat}
    {f : ModuleFunction} (found : fns[n]? = some f) {fn : Ast} (from_source : OptimizedFrom f fn)
    {entry : Nat} (stands : entries[n]? = some entry) {args : List Word}
    (arity : args.length = (declaredParams fn).length) {v : Word}
    (evaluated : evalFn fn args = some v) {lowest bottom ret : Word} {words : List Word}
    (room : lowest.toNat + 56 + 8 * words.length ≤ bottom.toNat) {m : Machine}
    (enters : Enters img entry args bottom (ret :: words) m) :
    ∃ m', Machine.Steps img lowest m m' ∧ HasLeft v m.cpu.regs bottom ret words m' := by
  have near : Near fns := near_of_selected fun f member => by
    obtain ⟨fn, source⟩ := optimized f member
    obtain ⟨h, _, result, selected, -⟩ := source.selected
    exact ⟨h, result, selected.selectedFrom⟩
  obtain ⟨h, last, result, selected, evaluates⟩ := from_source.selected
  obtain ⟨values, computes, rfl⟩ := evaluates args v evaluated
  exact selected.returns near encoded found stands arity computes room enters

/-- The code of the function: the product is a shift, and the constants are folded. -/
def octupleCode : MachineFunction where
  name := "octuple"
  instrs := [
    { op := .param, result := some 0, imm := some 0 },
    { op := .param, result := some 1, imm := some 1 },
    { op := .shl, result := some 4, uses := [some 0], imm := some 3 },
    { op := .movImm, result := some 5, imm := some 6 },
    { op := .add, result := some 3, uses := [some 4, some 5] },
    { op := .sub, result := some 6, uses := [some 3, some 1] },
    { op := .ret, uses := [some 6] }]

def octupleModule : List ModuleFunction :=
  [⟨1, some octupleCode, some (LinearScan.run execRegisters .inserted octupleCode)⟩]

theorem octuple_inOrder :
    InstrSel.ParamsInOrder (optimizedGraph (loweredGraph .asListed octuple)) := by
  intro id earlier isParam before kind
  have size : (optimizedGraph (loweredGraph .asListed octuple)).size = 19 := by decide +kernel
  rcases Nat.lt_or_ge earlier 19 with inside | outside
  · have alive : ∀ id < 19,
        ((optimizedGraph (loweredGraph .asListed octuple)).node id).kind = .parameter →
          ((optimizedGraph (loweredGraph .asListed octuple)).node id).isDead = false := by
      decide +kernel
    exact alive earlier inside kind
  · rw [Graph.node_of_size_le _ (size ▸ outside)]
    rfl

theorem octuple_optimized {f : ModuleFunction} (member : f ∈ octupleModule) :
    OptimizedFrom f octuple := by
  obtain rfl := List.mem_singleton.mp member
  have isOk : (PassManager.run true buildStandardPipeline
      (loweredGraph .asListed octuple)).isOk = true := by
    decide +kernel
  cases ran : PassManager.run true buildStandardPipeline (loweredGraph .asListed octuple) with
  | error why =>
      rw [ran] at isOk
      cases isOk
  | ok outcome =>
      have same := optimizedGraph_eq ran
      refine ⟨by decide, by decide, ⟨[], by decide⟩, .asListed, loweredGraph .asListed octuple,
        true, outcome, 27, "octuple", octupleCode, _, lowerFresh_octuple, ran,
        same ▸ octuple_small, same ▸ octuple_inOrder, ?_, ?_, rfl, rfl,
        ⟨execRegisters, .inserted, rfl, by decide⟩, by decide⟩
      · rw [← same]
        decide +kernel
      · rw [← same]
        decide +kernel

/-- For the arguments 5 and 6 the image of the function returns 40. -/
theorem image_runs_optimized_octuple : ∃ (img : Image) (entries : List Nat),
    encodeModule octupleModule = .ok (img.bytes, entries) ∧
      ∃ m m', Machine.Steps img 0 m m' ∧ m.rip = img.address 0 ∧ m.cpu.regs 7 = 5 ∧
        m.cpu.regs 6 = 6 ∧ m'.cpu.regs kRegRax = 40 := by
  have sizes : ((encodeModule octupleModule).toOption.map fun r =>
      (r.1.length, r.2)) = some (59, [0]) := by
    decide
  obtain ⟨⟨bytes, entries⟩, encoded, same⟩ := Option.map_eq_some_iff.mp sizes
  obtain ⟨length, rfl⟩ := Prod.mk.inj same
  let img : Image := ⟨0, bytes, by rw [length]; decide⟩
  have encoded : encodeModule octupleModule = .ok (img.bytes, [0]) :=
    toOption_eq_some.mp encoded
  have found : octupleModule[0]? = some octupleModule[0] := rfl
  obtain ⟨m', steps, left⟩ := image_runs_optimized
    (fun f member => ⟨_, octuple_optimized member⟩) encoded found
    (octuple_optimized (List.mem_singleton.mpr rfl)) rfl rfl
    (by decide : evalFn octuple [5, 6] = some 40)
    (by decide : (0 : Word).toNat + 56 + 8 * ([] : List Word).length ≤ (0x1008 : Word).toNat)
    (enters_fiveSix img)
  exact ⟨img, _, encoded, fiveSix img, m', steps, rfl, rfl, rfl, left.result⟩

end ExecEncoder

end Aegis
