import AegisCompiler.LoweredExpr

/-!
# Lowering bindings, returns and branches correctly

The statements without loops.  After an `if`, a name whose nodes differ in the
two branches is bound to a phi of the region.
-/

namespace Aegis

namespace Lowerer

open ControlWalk TypeChecker AstEval

section Following

variable {final : Graph} {args : List Word} {frame frame' : TypeChecker.Frame}
variable {bindings : Bindings} {phis phis' : Phis} {env : Env}

theorem Represents.bindName {name : SymbolId} {id : NodeId} {v : Word}
    (represents : Represents final args frame bindings phis env)
    (here : value final args phis id = some v)
    (sees : ∀ other, frame'.Sees other → frame.Sees other ∨ other = name) :
    Represents final args frame' (bindings.insert name (some id)) phis
      (Function.update env name v) := by
  intro other seen
  by_cases same : other = name
  · subst same
    refine ⟨id, Bindings.get_insert_self _ _ _, ?_⟩
    rw [here, Function.update_self]
  · obtain ⟨node, found, value⟩ :=
      represents other ((sees other seen).resolve_right same)
    refine ⟨node, ?_, ?_⟩
    · rw [Bindings.get_insert_of_ne _ _ same, found]
    · rw [value, Function.update_of_ne same]

variable {s t u : LowerState} {ctrl ctrl' : NodeId}

/-- Follow one statement and then the next. -/
theorem Follows.andThen {middle : TypeChecker.Frame} {outcome : StmtOutcome}
    {next : Env → StmtOutcome}
    (first : Follows final args middle s t ctrl phis outcome)
    (size : s.graph.size ≤ t.graph.size)
    (second : ∀ env ctrl' phis', t.ctrl = some ctrl' → t.eff ≠ none →
      Represents final args middle t.bindings phis' env →
      Follows final args frame t u ctrl' phis' (next env)) :
    Follows final args frame s u ctrl phis (outcome.andThen next) := by
  cases outcome with
  | trap => trivial
  | returned v => exact first
  | normal env =>
      obtain ⟨ctrl', phis', here, eff, steps, same, represents⟩ := first
      have rest := second env ctrl' phis' here eff represents
      show Follows final args frame s u ctrl phis (next env)
      cases ends : next env with
      | trap => trivial
      | returned v =>
          rw [ends] at rest
          exact steps.trans rest
      | normal last =>
          rw [ends] at rest
          obtain ⟨ctrl'', phis'', here', eff', steps', same', represents'⟩ := rest
          refine ⟨ctrl'', phis'', here', eff', steps.trans steps', ?_,
            represents'⟩
          intro id inside
          rw [same' id (Nat.lt_of_lt_of_le inside size), same id inside]

theorem StmtOutcome.andThen_normal (outcome : StmtOutcome) :
    outcome.andThen .normal = outcome := by
  cases outcome <;> rfl

/-- Some steps of the walk come first. -/
theorem Follows.steps {outcome : StmtOutcome}
    (before : Steps final args (.walking ctrl phis) (.walking ctrl' phis'))
    (size : s.graph.size ≤ t.graph.size)
    (same : ∀ id : Nat, id < s.graph.size → phis' id = phis id)
    (rest : Follows final args frame t u ctrl' phis' outcome) :
    Follows final args frame s u ctrl phis outcome := by
  cases outcome with
  | trap => trivial
  | returned v => exact before.trans rest
  | normal env =>
      obtain ⟨ctrl'', phis'', here, eff, steps, same', represents⟩ := rest
      refine ⟨ctrl'', phis'', here, eff, before.trans steps, ?_, represents⟩
      intro id inside
      rw [same' id (Nat.lt_of_lt_of_le inside size), same id inside]

theorem Follows.withValue {computed : Option Word} {next : Word → StmtOutcome}
    (each : ∀ v, computed = some v →
      Follows final args frame s t ctrl phis (next v)) :
    Follows final args frame s t ctrl phis (withValue computed next) := by
  cases computed with
  | none => trivial
  | some v => exact each v rfl

end Following

theorem Correct.skip (frame : TypeChecker.Frame) (returnFree : Prop) :
    Correct frame frame (pure ()) .normal returnFree := by
  intro pend s ready
  refine ⟨s, rfl, ready, (Quiet.refl s).grows fun _ bound => bound,
    fun _ some => some, ?_⟩
  intro final args phis env ctrl here eff _ represents
  exact ⟨ctrl, phis, here, eff, .refl, fun _ _ => rfl, represents⟩

theorem Correct.andThen {frame middle last : TypeChecker.Frame}
    {first second : LowerM Unit} {evalFirst evalSecond : Env → StmtOutcome}
    {firstFree secondFree : Prop}
    (left : Correct frame middle first evalFirst firstFree)
    (right : Correct middle last second evalSecond secondFree) :
    Correct frame last (first >>= fun _ => second)
      (fun env => (evalFirst env).andThen evalSecond)
      (firstFree ∧ secondFree) := by
  intro pend s ready
  obtain ⟨t, firstRun, firstDone⟩ := left pend s ready
  obtain ⟨u, secondRun, secondDone⟩ := right pend t firstDone.ready
  refine ⟨u, ?_, secondDone.ready, firstDone.grows.trans secondDone.grows, ?_,
    ?_⟩
  · rw [run_bind firstRun, secondRun]
  · rintro ⟨firstFree, secondFree⟩ some
    exact secondDone.falls secondFree (firstDone.falls firstFree some)
  · intro final args phis env ctrl here eff completes represents
    have earlier :=
      completes.earlier secondDone.grows.size secondDone.grows.old
    refine (firstDone.follows final args phis env ctrl here eff earlier
      represents).andThen firstDone.grows.size ?_
    intro env' ctrl' phis' here' eff' represents'
    exact secondDone.follows final args phis' env' ctrl' here' eff' completes
      represents'

theorem Correct.returnFree {frame frame' : TypeChecker.Frame}
    {run : LowerM Unit} {eval : Env → StmtOutcome} {returnFree weaker : Prop}
    (correct : Correct frame frame' run eval returnFree)
    (implies : weaker → returnFree) : Correct frame frame' run eval weaker := by
  intro pend s ready
  obtain ⟨t, ran, done⟩ := correct pend s ready
  exact ⟨t, ran, done.ready, done.grows, fun holds => done.falls (implies holds),
    done.follows⟩

/-- A computation that binds a name to a node with the value of an
expression. -/
theorem correct_of_binding {frame frame' : TypeChecker.Frame}
    {run : LowerM Unit} {name : SymbolId} (eval : Env → Option Word)
    {returnFree : Prop}
    (binds : ∀ pend s, Ready pend frame s → ∃ id t,
      run s = .ok () { t with bindings := t.bindings.insert name (some id) } ∧
      DataStep s t ∧ id < t.graph.size ∧
      ∀ final args phis env v, Completes pend t.graph final →
        Represents final args frame s.bindings phis env →
        eval env = some v → value final args phis id = some v)
    (sees : ∀ other, frame'.Sees other → frame.Sees other ∨ other = name) :
    Correct frame frame' run
      (fun env => withValue (eval env) fun v =>
        .normal (Function.update env name v)) returnFree := by
  intro pend s ready
  obtain ⟨id, t, ran, step, inside, means⟩ := binds pend s ready
  refine ⟨_, ran, (step.ready pend frame ready).bindName inside sees, ?_, ?_, ?_⟩
  · refine step.grows.resume t.eff ?_ ?_
    · exact fun c here => Or.inl (step.ctrl ▸ here)
    · intro other bound
      rw [Bindings.mem_names_insert]
      exact Or.inl (step.grows.names other bound)
  · intro _ some
    rw [← step.ctrl] at some
    exact some
  · intro final args phis env ctrl here eff completes represents
    refine Follows.withValue fun v evaluated => ?_
    refine ⟨ctrl, phis, step.ctrl.trans here, ?_, .refl, fun _ _ => rfl, ?_⟩
    · rw [← step.eff] at eff
      exact eff
    · show Represents final args frame' (t.bindings.insert name (some id)) phis _
      rw [step.bindings]
      exact represents.bindName
        (means final args phis env v completes represents evaluated) sees

variable {frame frame' : TypeChecker.Frame} {eval : Env → Option Word}

theorem lowerLet_correct {name : SymbolId} {init : LowerM NodeRef}
    {returnFree : Prop} (inner : CorrectExpr frame init eval)
    (sees : ∀ other, frame'.Sees other → frame.Sees other ∨ other = name) :
    Correct frame frame' (lowerLet name init)
      (fun env => withValue (eval env) fun v =>
        .normal (Function.update env name v)) returnFree := by
  refine correct_of_binding eval (fun pend s ready => ?_) sees
  obtain ⟨id, t, ran, step, inside, means⟩ := inner pend s ready
  refine ⟨id, t, ?_, step, inside, means⟩
  rw [lowerLet, run_bind ran]
  rfl

theorem isBinop_assignNodeKind (op : TokenKind) :
    (assignNodeKind op).isBinop = true := by
  cases op <;> rfl

/-- The node of a compound assignment has the assigned value. -/
theorem evalBinop_of_evalAssign {op : TokenKind} {old a v : Word}
    (compound : op ≠ .eq) (assigned : evalAssign op old a = some v) :
    evalBinop (assignNodeKind op) old a = some v := by
  cases op <;> first
    | exact absurd rfl compound
    | exact assigned
    | cases assigned

theorem boundOrZero_bound {name : SymbolId} {ref : NodeRef} {s : LowerState}
    (found : s.bindings.get name = some ref) :
    boundOrZero name s = .ok ref s := by
  rw [boundOrZero, run_get, found]
  rfl

theorem lowerAssign_correct {op : TokenKind} {name : SymbolId}
    {assigned : LowerM NodeRef} {returnFree : Prop}
    (inner : CorrectExpr frame assigned eval) (sees : frame.Sees name) :
    Correct frame frame
      (do let _ ← lowerAssign op (assignNodeKind op) (.ident name) assigned)
      (fun env => withValue ((eval env).bind (evalAssign op (env name))) fun v =>
        .normal (Function.update env name v)) returnFree := by
  refine correct_of_binding
    (fun env => (eval env).bind (evalAssign op (env name)))
    (fun pend s ready => ?_) fun other seen => Or.inl seen
  obtain ⟨id, t, ran, step, inside, means⟩ := inner pend s ready
  by_cases plain : op = .eq
  · subst plain
    refine ⟨id, t, ?_, step, inside, ?_⟩
    · have assigns : lowerAssign .eq (assignNodeKind .eq) (.ident name) assigned s
          = .ok (some id)
            { t with bindings := t.bindings.insert name (some id) } := by
        rw [lowerAssign, run_bind ran]
        rfl
      rw [run_bind assigns]
      rfl
    · intro final args phis env v completes represents evaluated
      obtain ⟨a, evalA, same⟩ := Option.bind_eq_some_iff.mp evaluated
      exact means final args phis env v completes represents
        (evalA.trans same)
  · have middle := step.ready pend frame ready
    obtain ⟨old, found, oldInside⟩ := middle.get (middle.sees name sees)
    obtain ⟨node, u, consRun, consStep, consInside, consMeans⟩ :=
      lookupOrInsert_binary middle (isBinop_assignNodeKind op) oldInside inside
    refine ⟨node, u, ?_, step.trans consStep, consInside, ?_⟩
    · have assigns : lowerAssign op (assignNodeKind op) (.ident name) assigned s
          = .ok (some node)
            { u with bindings := u.bindings.insert name (some node) } := by
        rw [lowerAssign, run_bind ran]
        show assignName op (assignNodeKind op) name (some id) t = _
        rw [assignName, if_neg plain, run_bind (boundOrZero_bound found),
          run_bind consRun]
        rfl
      rw [run_bind assigns]
      rfl
    · intro final args phis env v completes represents evaluated
      obtain ⟨a, evalA, evalOp⟩ := Option.bind_eq_some_iff.mp evaluated
      have right := means final args phis env a
        (completes.earlier consStep.size consStep.old) represents evalA
      obtain ⟨node', found', left⟩ := represents name sees
      rw [← step.bindings, found, Option.some.injEq, Option.some.injEq]
        at found'
      rw [consMeans final args phis (env name) a completes (found' ▸ left)
        right]
      exact evalBinop_of_evalAssign plain evalOp

def returnNodeOf (ctrl eff result : NodeRef) : Node :=
  { kind := .returnNode, typeId := kInvalidTypeId,
    inputs := [ctrl, eff, result] }

/-- Without a current control nothing is unused by it. -/
theorem Ready.stop {pend : NodeId → Prop} {s : LowerState}
    (ready : Ready pend frame s) (eff : NodeRef) :
    Ready pend frame { s with ctrl := none, eff } where
  wired := ready.wired
  table := ready.table
  bound := ready.bound
  names := ready.names
  sees := ready.sees
  ctrl := nofun

theorem readsCtrl_zero {n : Node} {ctrl : NodeRef} {rest : List NodeRef}
    (kind : n.kind = .ifNode ∨ n.kind = .returnNode)
    (inputs : n.inputs = ctrl :: rest) {slot c : Nat} :
    ReadsCtrl n slot c ↔ slot = 0 ∧ ctrl = some c := by
  have notRegion : n.kind ≠ .region := by
    rintro region
    simp [region] at kind
  have notLoop : n.kind ≠ .loop := by
    rintro loop
    simp [loop] at kind
  simp only [ReadsCtrl, kind, notRegion, notLoop, true_and, or_false, inputs]
  constructor
  · rintro ⟨rfl, same⟩
    exact ⟨rfl, same⟩
  · rintro ⟨rfl, same⟩
    exact ⟨rfl, same⟩

/-- A node that reads the current control in its first slot fits. -/
theorem Fits.current {pend : NodeId → Prop} {s : LowerState} {n : Node}
    {rest : List NodeRef} (ready : Ready pend frame s)
    (kind : n.kind = .ifNode ∨ n.kind = .returnNode)
    (inputs : n.inputs = s.ctrl :: rest) : Fits pend pend s.graph n where
  placed := by
    rcases kind with same | same <;>
      constructor <;> simp [same, NodeKind.isBinop, NodeKind.isUnop]
  same _ _ := Iff.rfl
  range id isPending := Nat.le_of_lt (ready.wired.pending id isPending).1
  opened isPending :=
    absurd (ready.wired.pending _ isPending).1 (Nat.lt_irrefl _)
  below slot ctrl reads :=
    (ready.ctrl ctrl ((readsCtrl_zero kind inputs).mp reads).2).1
  free slot ctrl reads _ :=
    (ready.ctrl ctrl ((readsCtrl_zero kind inputs).mp reads).2).2
  once slot slot' ctrl reads reads' _ _ :=
    ((readsCtrl_zero kind inputs).mp reads).1.trans
      ((readsCtrl_zero kind inputs).mp reads').1.symm
  proj isProj := by
    rcases kind with same | same <;> simp [same] at isProj

theorem lowerReturn_correct {result : LowerM NodeRef} {returnFree : Prop}
    (inner : CorrectExpr frame result eval) (returns : ¬ returnFree) :
    Correct frame frame (lowerReturn result)
      (fun env => withValue (eval env) .returned) returnFree := by
  intro pend s ready
  obtain ⟨id, t, ran, step, inside, means⟩ := inner pend s ready
  have middle := step.ready pend frame ready
  let n := returnNodeOf t.ctrl t.eff (some id)
  have fits : Fits pend pend t.graph n := Fits.current middle (Or.inr rfl) rfl
  have after : Ready pend frame
      (pushed { t with ctrl := none, eff := none } n) :=
    (middle.stop none).pushed fits nofun
  refine ⟨_, ?_, after, ?_, ?_, ?_⟩
  · rw [lowerReturn, run_bind ran]
    rfl
  · refine (step.grows.pushed (n := n) ?_).resume none nofun
      step.grows.names
    intro slot ctrl reads
    have current := ((readsCtrl_zero (Or.inr rfl) rfl).mp reads).2
    exact Or.inr (step.ctrl ▸ current)
  · exact fun holds => absurd holds returns
  · intro final args phis env ctrl here eff completes represents
    refine Follows.withValue fun v evaluated => ?_
    have earlier : Completes pend t.graph final :=
      completes.earlier ((pushed_size t n).symm ▸ Nat.le_succ _) fun id old =>
        pushed_old t n old
    have node : final.node t.graph.size = n := completes.pushed middle.wired
    have kind : (final.node t.graph.size).kind = .returnNode := by
      rw [node]
      rfl
    have inputs : (final.node t.graph.size).inputs =
        [some ctrl, t.eff, some id] := by
      rw [node, ← here, ← step.ctrl]
      rfl
    exact .single (step_return completes.wired kind inputs
      (means final args phis env v earlier represents evaluated))

def ifNodeOf (ctrl cond : NodeRef) : Node :=
  { kind := .ifNode, typeId := kInvalidTypeId, inputs := [ctrl, cond] }

def projNodeOf (source : NodeRef) (which : BitVec 32) : Node :=
  { kind := .proj, typeId := kInvalidTypeId, payload := .ofProjIndex which,
    inputs := [source] }

/-- An If on the current control, and its two projections. -/
def branched (s : LowerState) (cond : NodeRef) : LowerState :=
  pushed (pushed (pushed s (ifNodeOf s.ctrl cond))
    (projNodeOf (some s.graph.size) 0)) (projNodeOf (some s.graph.size) 1)

theorem run_branched {β : Type} (ctrl cond : NodeRef) (s : LowerState)
    (next : NodeId → NodeId → LowerM β) :
    (do
      let ifNode ← make fun g => g.makeIf ctrl cond
      let trueProj ← make fun g => g.makeProj (some ifNode) 0
      let falseProj ← make fun g => g.makeProj (some ifNode) 1
      next trueProj falseProj) s =
      next (s.graph.size + 1) (s.graph.size + 2)
        { branched { s with ctrl } cond with ctrl := s.ctrl } := by
  let n := ifNodeOf ctrl cond
  let left := projNodeOf (some s.graph.size) 0
  show next (pushed s n).graph.size (pushed (pushed s n) left).graph.size _ = _
  rw [pushed_size, pushed_size, pushed_size]
  rfl

theorem branched_size (s : LowerState) (cond : NodeRef) :
    (branched s cond).graph.size = s.graph.size + 3 := by
  simp only [branched, pushed_size]

theorem branched_old (s : LowerState) (cond : NodeRef) {id : Nat}
    (old : id < s.graph.size) :
    (branched s cond).graph.node id = s.graph.node id := by
  have inside (extra : Nat) : id < s.graph.size + extra :=
    Nat.lt_add_right extra old
  rw [branched, pushed_old, pushed_old, pushed_old]
  · exact old
  · rw [pushed_size]
    exact inside 1
  · rw [pushed_size, pushed_size]
    exact inside 2

theorem branched_nodes (s : LowerState) (cond : NodeRef) :
    (branched s cond).graph.node s.graph.size = ifNodeOf s.ctrl cond ∧
      (branched s cond).graph.node (s.graph.size + 1) =
        projNodeOf (some s.graph.size) 0 ∧
      (branched s cond).graph.node (s.graph.size + 2) =
        projNodeOf (some s.graph.size) 1 := by
  have first := pushed_new s (ifNodeOf s.ctrl cond)
  have second := pushed_new (pushed s (ifNodeOf s.ctrl cond))
    (projNodeOf (some s.graph.size) 0)
  have third := pushed_new (pushed (pushed s (ifNodeOf s.ctrl cond))
    (projNodeOf (some s.graph.size) 0)) (projNodeOf (some s.graph.size) 1)
  simp only [pushed_size] at second third
  refine ⟨?_, ?_, third⟩
  · rw [branched, pushed_old, pushed_old, first] <;>
      simp only [pushed_size] <;> omega
  · rw [branched, pushed_old, second]
    simp only [pushed_size]
    omega

theorem not_readsCtrl_projNodeOf {source : NodeRef} {which : BitVec 32}
    {slot ctrl : Nat} : ¬ ReadsCtrl (projNodeOf source which) slot ctrl :=
  not_readsCtrl_of_kind nofun nofun nofun nofun

/-- A projection of a node that has no such projection yet fits. -/
theorem Fits.projection {pend : NodeId → Prop} {g : Graph}
    (wired : Wired pend g) {source : NodeId} {which : BitVec 32}
    (before : source < g.size)
    (other : ∀ old, (g.node old).kind = .proj →
      (g.node old).inputs = [some source] →
      (g.node old).payload.projIndex ≠ which) :
    Fits pend pend g (projNodeOf (some source) which) where
  placed := by
    constructor
    · nofun
    · nofun
    · exact fun _ => ⟨source, rfl, before⟩
    · nofun
  same _ _ := Iff.rfl
  range id isPending := Nat.le_of_lt (wired.pending id isPending).1
  opened isPending := absurd (wired.pending _ isPending).1 (Nat.lt_irrefl _)
  below _ _ reads := absurd reads not_readsCtrl_projNodeOf
  free _ _ reads := absurd reads not_readsCtrl_projNodeOf
  once _ _ _ reads := absurd reads not_readsCtrl_projNodeOf
  proj _ old isProj inputs := by
    have index : (projNodeOf (some source) which).payload.projIndex = which := by
      simp [projNodeOf, NodePayload.projIndex, NodePayload.ofProjIndex]
    rw [index]
    exact other old isProj inputs

/-- Both projections are ready to continue from. -/
structure Opened (pend : NodeId → Prop) (frame : TypeChecker.Frame)
    (s t : LowerState) : Prop where
  ready : Ready pend frame { t with ctrl := none }
  left : s.graph.size + 1 < t.graph.size ∧
    Unused pend t.graph (s.graph.size + 1)
  right : s.graph.size + 2 < t.graph.size ∧
    Unused pend t.graph (s.graph.size + 2)
  grows : Grows s { t with ctrl := some (s.graph.size + 1) }

theorem branched_opened {pend : NodeId → Prop} {s : LowerState}
    (ready : Ready pend frame s) (cond : NodeId) :
    Opened pend frame s (branched s (some cond)) := by
  let n := ifNodeOf s.ctrl (some cond)
  let left := projNodeOf (some s.graph.size) 0
  let right := projNodeOf (some s.graph.size) 1
  have noOld (old : NodeId) (isProj : (s.graph.node old).kind = .proj) :
      (s.graph.node old).inputs ≠ [some s.graph.size] := by
    intro inputs
    obtain ⟨source, same, below⟩ := (ready.wired.ordered.node old).proj isProj
    rw [inputs, List.cons.injEq, Option.some.injEq] at same
    exact Nat.lt_asymm below (same.1 ▸ kind_proj_inside isProj)
  have ifFits : Fits pend pend s.graph n := Fits.current ready (Or.inl rfl) rfl
  have first := (ready.stop s.eff).pushed ifFits nofun
  have leftFits : Fits pend pend (pushed s n).graph left := by
    refine Fits.projection first.wired ?_ ?_
    · rw [pushed_size]
      exact Nat.lt_succ_self _
    · intro old isProj inputs
      simp only [pushed, Graph.pushNode_node] at isProj inputs
      split at isProj
      · cases isProj
      case isFalse other =>
        rw [if_neg other] at inputs
        exact absurd inputs (noOld old isProj)
  have second := first.pushed leftFits fun _ _ _ => not_readsCtrl_projNodeOf
  have rightFits : Fits pend pend (pushed (pushed s n) left).graph right := by
    refine Fits.projection second.wired ?_ ?_
    · rw [pushed_size, pushed_size]
      exact Nat.lt_add_of_pos_right Nat.two_pos
    · intro old isProj inputs
      simp only [pushed, Graph.pushNode_node] at isProj inputs ⊢
      split at isProj
      case isTrue last =>
        rw [if_pos last]
        show (NodePayload.ofProjIndex 0).projIndex ≠ 1
        decide
      case isFalse notLast =>
        rw [if_neg notLast] at inputs
        split at isProj
        · cases isProj
        case isFalse other =>
          rw [if_neg other] at inputs
          exact absurd inputs (noOld old isProj)
  have third := second.pushed rightFits fun _ _ _ => not_readsCtrl_projNodeOf
  have leftUnused := first.wired.unused_new leftFits
  have rightUnused := second.wired.unused_new rightFits
  refine ⟨third, ⟨?_, ?_⟩, ⟨?_, ?_⟩, ?_⟩
  · rw [branched_size]
    omega
  · have size : s.graph.size + 1 = (pushed s n).graph.size :=
      (pushed_size s n).symm
    rw [size]
    exact leftUnused.push rightFits fun slot => not_readsCtrl_projNodeOf
  · rw [branched_size]
    omega
  · have size : s.graph.size + 2 = (pushed (pushed s n) left).graph.size := by
      rw [pushed_size, pushed_size]
    rw [size]
    exact rightUnused
  · have grown : Grows s (branched s (some cond)) := by
      refine ((((Quiet.refl s).grows fun _ bound => bound).pushed ?_).pushed
        ?_).pushed ?_
      · intro slot ctrl reads
        exact Or.inr ((readsCtrl_zero (Or.inl rfl) rfl).mp reads).2
      · exact fun slot ctrl reads => absurd reads not_readsCtrl_projNodeOf
      · exact fun slot ctrl reads => absurd reads not_readsCtrl_projNodeOf
    refine grown.resume _ ?_ grown.names
    intro c same
    exact Or.inr (Option.some.inj same ▸ Nat.le_succ _)

/-- In a finished graph the walk continues at projection 0 exactly if the
condition is not zero. -/
theorem branched_step {pend : NodeId → Prop} {s : LowerState}
    (ready : Ready pend frame s) {cond ctrl : NodeId} {final : Graph}
    (completes : Completes pend (branched s (some cond)).graph final)
    (here : s.ctrl = some ctrl) {args : List Word} {phis : Phis} {v : Word}
    (condition : value final args phis cond = some v) :
    Steps final args (.walking ctrl phis)
      (.walking (if v ≠ 0 then s.graph.size + 1 else s.graph.size + 2) phis) := by
  obtain ⟨ifNode, left, right⟩ := branched_nodes s (some cond)
  have settled (extra : Nat) (inside : extra < 3) :
      final.node (s.graph.size + extra) =
        (branched s (some cond)).graph.node (s.graph.size + extra) := by
    refine completes.node _ ?_
      (ready.wired.not_pending (Nat.le_add_right _ _))
    rw [branched_size]
    omega
  have kind : (final.node s.graph.size).kind = .ifNode := by
    rw [← Nat.add_zero s.graph.size, settled 0 (by decide), Nat.add_zero, ifNode]
    rfl
  have inputs : (final.node s.graph.size).inputs = [some ctrl, some cond] := by
    rw [← Nat.add_zero s.graph.size, settled 0 (by decide), Nat.add_zero, ifNode,
      ← here]
    rfl
  refine .single (step_if completes.wired kind inputs condition ?_ ?_ ?_)
  · split
    · rw [settled 1 (by decide), left]
      rfl
    · rw [settled 2 (by decide), right]
      rfl
  · split
    · rw [settled 1 (by decide), left]
      rfl
    · rw [settled 2 (by decide), right]
      rfl
  · split
    · rw [settled 1 (by decide), left]
      rfl
    · rw [settled 2 (by decide), right]
      rfl

end Lowerer

end Aegis
