import AegisCompiler.LoweredFor
import AegisCompiler.LoweringParams

/-!
# Lowering preserves meaning

Every accepted statement is lowered correctly, by induction on how the checker
accepts it.  For a whole function the walk of its graph therefore returns what
the function evaluates to.
-/

namespace Aegis

namespace Lowerer

open ControlWalk TypeChecker AstEval

section Accumulators

variable (outer : Bindings)

/-- Collect the names that are bound outside, each once. -/
theorem collected_fold (names : List SymbolId) (out : List SymbolId)
    (nodup : out.Nodup) (bound : ∀ name ∈ out, name ∈ outer.names) :
    let collected := names.foldl (fun out name =>
      if (outer.get name).isSome ∧ name ∉ out then out ++ [name] else out) out
    collected.Nodup ∧ (∀ name ∈ collected, name ∈ outer.names) ∧
      ∀ name, name ∈ outer.names → name ∈ out ∨ name ∈ names →
        name ∈ collected := by
  induction names generalizing out with
  | nil => exact ⟨nodup, bound, fun name _ member => by simpa using member⟩
  | cons first names ih =>
      rw [List.foldl_cons]
      by_cases new : (outer.get first).isSome = true ∧ first ∉ out
      · rw [if_pos new]
        have isBound := Bindings.get_isSome_iff.mp new.1
        have nodup' : (out ++ [first]).Nodup := by
          rw [List.nodup_append]
          refine ⟨nodup, List.nodup_singleton first, ?_⟩
          rintro name member other single rfl
          exact new.2 (List.mem_singleton.mp single ▸ member)
        have bound' : ∀ name ∈ out ++ [first], name ∈ outer.names := by
          intro name member
          rcases List.mem_append.mp member with old | last
          · exact bound name old
          · rw [List.mem_singleton.mp last]
            exact isBound
        obtain ⟨distinct, all, covers⟩ := ih (out ++ [first]) nodup' bound'
        refine ⟨distinct, all, fun name isOuter member => covers name isOuter ?_⟩
        rcases member with old | listed
        · exact Or.inl (List.mem_append_left _ old)
        · rcases List.mem_cons.mp listed with rfl | later
          · exact Or.inl (List.mem_append_right _ (List.mem_singleton_self _))
          · exact Or.inr later
      · rw [if_neg new]
        obtain ⟨distinct, all, covers⟩ := ih out nodup bound
        refine ⟨distinct, all, fun name isOuter member => covers name isOuter ?_⟩
        rcases member with old | listed
        · exact Or.inl old
        · rcases List.mem_cons.mp listed with rfl | later
          · refine Or.inl (not_not.mp fun absent => new ⟨?_, absent⟩)
            exact Bindings.get_isSome_iff.mpr isOuter
          · exact Or.inr later

end Accumulators

theorem collectLoopAccumulators_fit (body : Ast) :
    AccumulatorsFit (collectLoopAccumulators body) where
  nodup outer :=
    (collected_fold outer (assignedNames body) [] List.nodup_nil nofun).1
  bound outer :=
    (collected_fold outer (assignedNames body) [] List.nodup_nil nofun).2.1

/-- Every assigned name that is bound outside is an accumulator. -/
theorem mem_collectLoopAccumulators {body : Ast} {outer : Bindings}
    {name : SymbolId} (isOuter : name ∈ outer.names)
    (assigned : name ∈ assignedNames body) :
    name ∈ collectLoopAccumulators body outer :=
  (collected_fold outer (assignedNames body) [] List.nodup_nil nofun).2.2 name
    isOuter (Or.inr assigned)

theorem lowerStmt_correct (order : TableOrder)
    {frame frame' : TypeChecker.Frame} {n : Ast}
    (accepted : Accepted frame n frame') :
    Correct frame frame' (lowerStmt order n) (evalStmt n)
      (containsUnlowerable n = false) := by
  induction accepted with
  | letStmt known fresh =>
      refine lowerLet_correct (lowerExpr_correct order known) ?_
      intro other seen
      exact (Frame.sees_append.mp seen).imp_right Eq.symm
  | assign isOp known sees =>
      exact lowerAssign_correct (lowerExpr_correct order known) sees
  | blockNil => exact Correct.skip _ _
  | blockCons first rest firstIh restIh =>
      refine (firstIh.andThen restIh).returnFree fun free => ?_
      simpa [containsUnlowerable, anyUnlowerable] using free
  | ifElse known left right leftIh rightIh =>
      refine lowerIf_correct order (lowerExpr_correct order known) leftIh
        rightIh ?_ _
      intro name seen
      rcases sees_mergeBranchFrames.mp seen with before | both
      · exact ⟨left.sees before, right.sees before⟩
      · exact both
  | ifThen known left leftIh =>
      refine lowerIf_correct order (lowerExpr_correct order known) leftIh
        (Correct.skip _ True) ?_ _
      intro name seen
      rcases sees_mergeBranchFrames.mp seen with before | both
      · exact ⟨left.sees before, before⟩
      · exact both
  | @forRange frame bodyFrame varName lo hi body loKnown hiKnown fresh returnFree
      inner ih =>
      refine lowerFor_correct (lowerExpr_correct order loKnown)
        (lowerExpr_correct order hiKnown) (collectLoopAccumulators_fit body) ?_
        ?_ fresh ?_ ih returnFree _
      · intro other seen
        exact (Frame.sees_append.mp seen).imp_right Eq.symm
      · intro name seen
        exact inner.sees (Frame.sees_append.mpr (Or.inl seen))
      · intro bindings name seen bound notAcc env
        refine inner.leaves (Frame.sees_append.mpr (Or.inl seen)) ?_ rfl
        exact fun assigned => notAcc (mem_collectLoopAccumulators bound assigned)
  | returnValue known =>
      exact lowerReturn_correct (lowerExpr_correct order known) (by
        simp [containsUnlowerable])
  | returnNone =>
      exact lowerReturn_correct (constant_correct _ 0) (by
        simp [containsUnlowerable])

section Functions

variable {frame : TypeChecker.Frame} {names : List SymbolId} {s : LowerState}

/-- In a finished graph the parameter at a position has the argument at that
position. -/
theorem value_declaredNode (entered : Entered names s.graph) {final : Graph}
    (completes : Completes noPending s.graph final) (args : List Word)
    (phis : Phis) {position : Nat} (inside : position < names.length) :
    value final args phis (declaredNode position) =
      some (args.getD position 0) := by
  have size := entered.size
  have old (id : Nat) (below : id < 3 + names.length) :
      final.node id = s.graph.node id :=
    completes.node id (size ▸ below) nofun
  have param (index : Nat) (below : index < names.length) :
      (final.node (3 + index)).kind = .parameter := by
    rw [old (3 + index) (Nat.add_lt_add_left below 3)]
    exact congrArg Node.kind (entered.param index below)
  have rank : paramRank final (declaredNode position) = position := by
    rw [paramRank, declaredNode, List.range_add, List.countP_append,
      List.countP_map]
    have low : (List.range 3).countP
        (fun p => decide ((final.node p).kind = .parameter)) = 0 := by
      rw [List.countP_eq_zero]
      intro id member
      have below : id < 3 := List.mem_range.mp member
      rw [old id (Nat.lt_add_right _ below), decide_eq_true_eq]
      exact entered.before id below
    have high : (List.range position).countP
        ((fun p => decide ((final.node p).kind = .parameter)) ∘ (3 + ·)) =
          position := by
      rw [List.countP_eq_length.mpr, List.length_range]
      intro index member
      have below := Nat.lt_trans (List.mem_range.mp member) inside
      exact decide_eq_true (param index below)
    rw [low, high, Nat.zero_add]
  have kind : (final.node (declaredNode position)).kind = .parameter :=
    param position inside
  rw [value_parameter completes.wired.ordered phis kind, rank]

/-- Binding the parameters represents the arguments. -/
theorem lowerParams_represents (params : List Ast) {given : Nat}
    (count : names.length = given) (entered : Entered names s.graph)
    (ready : Ready noPending frame s)
    (clean : (checkParams params frame).2 = []) {args : List Word} {env : Env}
    (represents : ∀ final phis, Completes noPending s.graph final →
      Represents final args frame s.bindings phis env) :
    ∃ t, lowerParams params s = .ok () t ∧
      Entered (names ++ params.filterMap Ast.paramName) t.graph ∧
      Ready noPending (checkParams params frame).1 t ∧ Quiet s t ∧
      ∀ final phis, Completes noPending t.graph final →
        Represents final args (checkParams params frame).1 t.bindings phis
          (bindArgs (params.filterMap Ast.paramName) (args.drop given) env) := by
  induction params generalizing names frame s given env with
  | nil => exact ⟨s, rfl, by simpa using entered, ready, Quiet.refl s, represents⟩
  | cons param params ih =>
      cases param with
      | param name typeAnn mutable =>
          obtain ⟨bindClean, restClean⟩ := Check.andThen_clean clean
          obtain ⟨fresh, bound⟩ := Check.bindName_clean bindClean
          rw [bound] at restClean
          let n : Node := { kind := .parameter, typeId := kInvalidTypeId
                            payload := .ofSym name }
          have placed : WellPlaced s.graph.size n := by
            constructor <;> nofun
          have data : DataStep s (pushed s n) :=
            DataStep.pushed s placed (fun _ _ =>
              not_readsCtrl_of_kind nofun nofun nofun nofun) nofun
          have inside : s.graph.size < (pushed s n).graph.size := by
            rw [pushed_size]
            exact Nat.lt_succ_self _
          have sees (other : SymbolId)
              (seen : Frame.Sees (frame ++ [⟨name, mutable⟩]) other) :
              frame.Sees other ∨ other = name :=
            (Frame.sees_append.mp seen).imp_right Eq.symm
          have next := (data.ready _ _ ready).bindName inside sees
          have size : s.graph.size = declaredNode names.length := entered.size
          have enteredNext := entered.push name
          have count' : (names ++ [name]).length = given + 1 := by
            rw [List.length_append, count, List.length_singleton]
          have representsNext (final : Graph) (phis : Phis)
              (completes : Completes noPending (pushed s n).graph final) :
              Represents final args (frame ++ [⟨name, mutable⟩])
                (s.bindings.insert name (some s.graph.size)) phis
                (Function.update env name (args.getD given 0)) := by
            have earlier := represents final phis
              (completes.earlier data.size data.old)
            refine earlier.bindName ?_ sees
            have here : names.length < (names ++ [name]).length := by
              rw [count', count]
              exact Nat.lt_succ_self _
            rw [size, ← count]
            exact value_declaredNode (s := pushed s n) enteredNext completes args
              phis here
          obtain ⟨t, run, done, readyDone, quiet, represented⟩ := ih count'
            enteredNext next restClean representsNext
          have frameEq : (checkParams (.param name typeAnn mutable :: params)
              frame).1 = (checkParams params (frame ++ [⟨name, mutable⟩])).1 := by
            rw [checkParams, Check.andThen_frame, bound]
          rw [frameEq]
          have headArg : (args.drop given).headD 0 = args.getD given 0 := by
            rw [List.headD_eq_head?_getD, List.head?_drop,
              List.getD_eq_getElem?_getD]
          have bind : Quiet (pushed s n) { pushed s n with
              bindings := s.bindings.insert name (some s.graph.size) } :=
            ⟨le_rfl, fun _ _ => rfl, (Quiet.refl _).quiet, rfl, rfl⟩
          refine ⟨t, run, ?_, readyDone,
            data.toQuiet.trans (bind.trans quiet), ?_⟩
          · simpa [Ast.paramName] using done
          · intro final phis completes
            have done := represented final phis completes
            rw [← headArg, ← List.tail_drop] at done
            exact done
      | _ =>
          obtain ⟨t, run, rest⟩ := ih count entered ready clean represents
          rw [List.filterMap_cons_none rfl]
          exact ⟨t, run, rest⟩

end Functions

/-- The state with the two projections of the start node. -/
def prologue : LowerState :=
  { pushed (pushed {} (projNodeOf (some kStartNodeId) 0))
      (projNodeOf (some kStartNodeId) 1) with
    ctrl := some 1
    eff := some 2 }

theorem fresh_node (id : NodeId) : Graph.fresh.node id = default := by
  cases id with
  | zero => rfl
  | succ id => rfl

theorem fresh_wired : Wired noPending Graph.fresh where
  ordered id _ := by
    rw [fresh_node]
    exact wellPlaced_default id
  below user slot ctrl reads := by
    rw [fresh_node] at reads
    exact absurd reads not_readsCtrl_default
  single user slot _ _ ctrl uses := by
    rw [Uses, fresh_node] at uses
    exact absurd uses.1 not_readsCtrl_default
  projs first _ isProj := by
    rw [fresh_node] at isProj
    cases isProj
  pending _ isPending := absurd isPending nofun

theorem prologue_ready : Ready noPending [] prologue := by
  let first := projNodeOf (some kStartNodeId) 0
  let second := projNodeOf (some kStartNodeId) 1
  have firstFits : Fits noPending noPending Graph.fresh first := by
    refine Fits.projection fresh_wired Nat.one_pos fun old isProj => ?_
    rw [fresh_node] at isProj
    cases isProj
  have firstWired := fresh_wired.push firstFits
  have secondFits : Fits noPending noPending (Graph.fresh.pushNode first).2
      second := by
    refine Fits.projection firstWired Nat.two_pos fun old isProj _ => ?_
    rw [Graph.pushNode_node] at isProj ⊢
    split at isProj
    case isTrue last =>
      rw [if_pos last]
      decide
    case isFalse =>
      rw [fresh_node] at isProj
      cases isProj
  have unused := (fresh_wired.unused_new firstFits).push secondFits
    fun slot => not_readsCtrl_projNodeOf
  exact ⟨firstWired.push secondFits, nofun, nofun, List.nodup_nil,
    fun name seen => absurd seen (Frame.not_sees_nil name),
    fun c same => Option.some.inj same ▸ ⟨Nat.one_lt_succ_succ 1, unused⟩⟩

theorem prologue_entered : Entered [] prologue.graph where
  size := rfl
  before := by decide
  param := nofun

/-- The state after the return of 0 at the end of a body. -/
def withReturn (s : LowerState) : LowerState :=
  pushed (pushed s (constantNode 0))
    (returnNodeOf s.ctrl s.eff (some s.graph.size))

theorem synthesizeReturn_live {s : LowerState} (ctrl : s.ctrl ≠ none)
    (eff : s.eff ≠ none) : synthesizeReturn s = .ok () (withReturn s) := by
  rw [synthesizeReturn, run_get, if_pos ⟨ctrl, eff⟩]
  rfl

theorem synthesizeReturn_ended {s : LowerState}
    (ended : ¬ (s.ctrl ≠ none ∧ s.eff ≠ none)) :
    synthesizeReturn s = .ok () s := by
  rw [synthesizeReturn, run_get, if_neg ended]
  rfl

/-- Ending the body keeps the graph wired. -/
theorem withReturn_wired {frame : TypeChecker.Frame} {s : LowerState}
    (ready : Ready noPending frame s) :
    Wired noPending (withReturn s).graph := by
  have constant := (makeConstant_step 0 s).ready _ _ ready
  have fits : Fits noPending noPending (pushed s (constantNode 0)).graph
      (returnNodeOf s.ctrl s.eff (some s.graph.size)) :=
    Fits.current constant (Or.inr rfl) rfl
  exact constant.wired.push fits

theorem withReturn_completes {frame : TypeChecker.Frame} {s : LowerState}
    (ready : Ready noPending frame s)
    (hash : HashInjectiveBelow (withReturn s).graph.size) :
    Completes noPending s.graph (withReturn s).graph where
  size := by
    rw [withReturn, pushed_size, pushed_size]
    exact Nat.le_add_right _ 2
  node id inside _ := by
    have later : id < (pushed s (constantNode 0)).graph.size := by
      rw [pushed_size]
      exact Nat.lt_succ_of_lt inside
    rw [withReturn, pushed_old _ _ later, pushed_old _ _ inside]
  wired := withReturn_wired ready
  hash := hash

/-- A walk that reaches the end of the body returns 0. -/
theorem withReturn_step {frame : TypeChecker.Frame} {s : LowerState}
    (ready : Ready noPending frame s) {ctrl : NodeId} (here : s.ctrl = some ctrl)
    (args : List Word) (phis : Phis) :
    Steps (withReturn s).graph args (.walking ctrl phis) (.returned 0) := by
  have wired := withReturn_wired ready
  have constInside : s.graph.size < (pushed s (constantNode 0)).graph.size := by
    rw [pushed_size]
    exact Nat.lt_succ_self _
  have constant : (withReturn s).graph.node s.graph.size = constantNode 0 := by
    rw [withReturn, pushed_old _ _ constInside, pushed_new]
  have zero : value (withReturn s).graph args phis s.graph.size = some 0 := by
    rw [value_constant wired.ordered phis (by
      rw [constant]
      rfl), constant]
    rfl
  have ret : (withReturn s).graph.node (pushed s (constantNode 0)).graph.size =
      returnNodeOf s.ctrl s.eff (some s.graph.size) := pushed_new _ _
  have kind : ((withReturn s).graph.node
      (pushed s (constantNode 0)).graph.size).kind = .returnNode := by
    rw [ret]
    rfl
  have inputs : ((withReturn s).graph.node
      (pushed s (constantNode 0)).graph.size).inputs =
        [some ctrl, s.eff, some s.graph.size] := by
    rw [ret, ← here]
    rfl
  exact .single (step_return wired kind inputs zero)

/-- The body of an accepted function of the fragment, lowered after its
parameters. -/
structure BodyLowered (order : TableOrder) (params stmts : List Ast)
    (frame frame' : TypeChecker.Frame) (s t : LowerState) : Prop where
  enters : enterFunction params {} = .ok () s
  run : lowerBody order (.block stmts) s = .ok () t
  quiet : Quiet prologue s
  lowered : Lowered noPending frame frame' (evalStmt (.block stmts))
    (containsUnlowerable (.block stmts) = false) s t
  represents : ∀ args final phis, Completes noPending s.graph final →
    Represents final args frame s.bindings phis
      (bindArgs (params.filterMap Ast.paramName) args fun _ => 0)

/-- Nothing is visible before the parameters are bound. -/
theorem nothing_represented (args : List Word) (final : Graph) (phis : Phis)
    (_ : Completes noPending prologue.graph final) :
    Represents final args [] prologue.bindings phis fun _ => 0 :=
  fun name seen => absurd seen (Frame.not_sees_nil name)

theorem bodyLowered_of_accepted (order : TableOrder) {sigs : FnSigs}
    {name : SymbolId} {params : List Ast} {returnType : Option Ast}
    {stmts : List Ast} {isPub : Bool} (inside : callFreeStmts stmts = true)
    (accepted : checkFn sigs (.fnDecl name params returnType (.block stmts)
      isPub) = []) :
    ∃ frame frame' s t, BodyLowered order params stmts frame frame' s t := by
  obtain ⟨paramsClean, bodyClean⟩ := Check.andThen_clean accepted
  obtain ⟨s, run, -, ready, quiet, -⟩ := lowerParams_represents params rfl
    prologue_entered prologue_ready paramsClean (nothing_represented [])
  have acceptedBody := accepted_of_checkStmts stmts inside bodyClean
  obtain ⟨t, bodyRun, lowered⟩ :=
    lowerStmt_correct order acceptedBody noPending s ready
  refine ⟨_, _, s, t, run, bodyRun, quiet, lowered, ?_⟩
  intro args
  obtain ⟨s', run', -, -, -, represents⟩ := lowerParams_represents params rfl
    prologue_entered prologue_ready paramsClean (nothing_represented args)
  rw [run] at run'
  cases run'
  exact represents

namespace BodyLowered

variable {order : TableOrder} {params stmts : List Ast}
variable {frame frame' : TypeChecker.Frame} {s t : LowerState}
variable (body : BodyLowered order params stmts frame frame' s t)
include body

/-- The first projection of the start node stays where it is. -/
theorem start_projs {final : Graph} (completes : Completes noPending t.graph final) :
    projs final kStartNodeId 0 = [1] := by
  have atPrologue := (completes.earlier body.lowered.grows.size
    body.lowered.grows.old).earlier body.quiet.size body.quiet.old
  have node : final.node 1 = projNodeOf (some kStartNodeId) 0 :=
    (atPrologue.node 1 (by decide) nofun).trans rfl
  refine projs_eq completes.wired ?_ ?_ ?_ <;> rw [node] <;> rfl

/-- What the walk does in a finished graph. -/
theorem follows {final : Graph} (completes : Completes noPending t.graph final)
    (args : List Word) : Follows final args frame' s t 1 (fun _ => none)
      (evalStmt (.block stmts)
        (bindArgs (params.filterMap Ast.paramName) args fun _ => 0)) := by
  have atStart := completes.earlier body.lowered.grows.size
    body.lowered.grows.old
  refine body.lowered.follows final args (fun _ => none) _ 1 body.quiet.ctrl ?_
    completes (body.represents args final _ atStart)
  rw [body.quiet.eff]
  exact Option.some_ne_none 2

end BodyLowered

/-- A function evaluates to what its body returns, or to 0 at its end. -/
theorem outcome_of_evalFn {name : SymbolId} {params : List Ast}
    {returnType : Option Ast} {body : Ast} {isPub : Bool} {args : List Word}
    {v : Word}
    (evaluated : evalFn (.fnDecl name params returnType body isPub) args =
      some v) :
    evalStmt body (bindArgs (params.filterMap Ast.paramName) args fun _ => 0) =
        .returned v ∨
      v = 0 ∧ ∃ env, evalStmt body
        (bindArgs (params.filterMap Ast.paramName) args fun _ => 0) =
          .normal env := by
  rw [evalFn] at evaluated
  cases ends : evalStmt body (bindArgs (params.filterMap Ast.paramName) args
      fun _ => 0) with
  | trap =>
      rw [ends] at evaluated
      cases evaluated
  | returned value =>
      rw [ends] at evaluated
      cases evaluated
      exact Or.inl rfl
  | normal env =>
      rw [ends] at evaluated
      cases evaluated
      exact Or.inr ⟨rfl, env, rfl⟩

/-- Lowering an accepted function of the call-free fragment succeeds, and the
walk of its graph returns what the function evaluates to, provided that the
hash tells the inputs of its operations apart. -/
theorem lowerFresh_preserves (order : TableOrder) {sigs : FnSigs} {fn : Ast}
    (inside : callFreeFn fn = true) (accepted : checkFn sigs fn = []) :
    ∃ g, lowerFresh order fn = .ok g ∧ (HashInjectiveBelow g.size →
      ∀ args v, evalFn fn args = some v → ∀ w, WalkReturns g args w ↔ w = v) := by
  cases fn with
  | fnDecl name params returnType body isPub =>
      cases body with
      | block stmts =>
          obtain ⟨frame, frame', s, t, body⟩ :=
            bodyLowered_of_accepted order inside accepted
          have unique {g : Graph} {args : List Word} {v : Word}
              (returns : WalkReturns g args v) (w : Word) :
              WalkReturns g args w ↔ w = v :=
            ⟨fun other => other.unique returns, fun same => same ▸ returns⟩
          by_cases live : t.ctrl ≠ none ∧ t.eff ≠ none
          · refine ⟨(withReturn t).graph, ?_, fun hash args v evaluated =>
              unique ?_⟩
            · rw [lowerFresh, lowerFn, run_bind body.enters, run_bind body.run,
                synthesizeReturn_live live.1 live.2]
            · have completes := withReturn_completes body.lowered.ready hash
              have followed := body.follows completes args
              refine ⟨1, body.start_projs completes, ?_⟩
              rcases outcome_of_evalFn evaluated with ends | ⟨rfl, env, ends⟩
              · rw [ends] at followed
                exact followed
              · rw [ends] at followed
                obtain ⟨ctrl, phis, here, -, steps, -⟩ := followed
                exact steps.trans
                  (withReturn_step body.lowered.ready here args phis)
          · refine ⟨t.graph, ?_, fun hash args v evaluated => unique ?_⟩
            · rw [lowerFresh, lowerFn, run_bind body.enters, run_bind body.run,
                synthesizeReturn_ended live]
            · have completes : Completes noPending t.graph t.graph :=
                ⟨le_rfl, fun _ _ _ => rfl, body.lowered.ready.wired, hash⟩
              have followed := body.follows completes args
              refine ⟨1, body.start_projs completes, ?_⟩
              rcases outcome_of_evalFn evaluated with ends | ⟨rfl, env, ends⟩
              · rw [ends] at followed
                exact followed
              · rw [ends] at followed
                obtain ⟨ctrl, phis, here, eff, -⟩ := followed
                refine absurd ⟨?_, eff⟩ live
                rw [here]
                exact Option.some_ne_none ctrl
      | _ => simp [callFreeFn] at inside
  | _ => simp [callFreeFn] at inside

/-- Sum up the even numbers of a range. -/
def evenSum : Ast :=
  .fnDecl 1 [.param 2 (.pathExpr [9]) false] none
    (.block [
      .letStmt 3 none (some (.intLit 0)) true,
      .forStmt 4 (.rangeExpr (.intLit 0) (.ident 2)) (.block [
        .ifStmt (.binaryExpr .amp (.ident 4) (.intLit 1))
          (.assignExpr .minusEq (.ident 3) (.intLit 0))
          (some (.assignExpr .plusEq (.ident 3) (.ident 4)))]),
      .returnStmt (some (.ident 3))]) false

theorem lowerFresh_preserves_evenSum :
    ∃ g, lowerFresh .asListed evenSum = .ok g ∧
      ∀ w, WalkReturns g [5] w ↔ w = 6 := by
  have accepted : checkFn [] evenSum = [] := by decide
  obtain ⟨g, lowered, preserves⟩ :=
    lowerFresh_preserves .asListed (by decide) accepted
  have size : (loweredGraph .asListed evenSum).size = 27 := by decide +kernel
  have same : loweredGraph .asListed evenSum = g := by
    rw [loweredGraph, lowered]
  have small : g.size ≤ 2 ^ 24 := by
    rw [← same, size]
    decide
  exact ⟨g, lowered, preserves (hashInjectiveBelow_of_le small) [5] 6
    (by decide +kernel)⟩

end Lowerer

end Aegis
