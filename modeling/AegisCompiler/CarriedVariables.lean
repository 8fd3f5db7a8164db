import AegisCompiler.ControlEnds
import AegisCompiler.LoweringCorrect
import AegisCompiler.LoweringFrame

/-!
# Loop-carried variables

A name gets a header phi when the walk over the loop body finds an assignment
to it.  The walk does not look at the bounds of inner loops, so a name that is
assigned only there is not carried around the loop.
-/

namespace Aegis

namespace Lowerer

/-- The target of an assignment is this name. -/
def isTarget (name : SymbolId) : Ast → Bool
  | .ident other => decide (name = other)
  | _ => false

mutual

/-- The tree assigns the name somewhere the lowerer evaluates.  The bounds of
loops count if `inBounds` says so. -/
def assigns (inBounds : Bool) (name : SymbolId) : Ast → Bool
  | .assignExpr _ target value =>
      isTarget name target || assigns inBounds name value
  | .letStmt _ _ init _ =>
      match init with
      | some init => assigns inBounds name init
      | none => false
  | .exprStmt expr => assigns inBounds name expr
  | .returnStmt value =>
      match value with
      | some value => assigns inBounds name value
      | none => false
  | .ifStmt cond thenBranch elseBranch =>
      assigns inBounds name cond || assigns inBounds name thenBranch ||
        match elseBranch with
        | some elseBranch => assigns inBounds name elseBranch
        | none => false
  | .forStmt _ (.rangeExpr lo hi) body =>
      (inBounds && (assigns inBounds name lo || assigns inBounds name hi)) ||
        assigns inBounds name body
  | .forStmt _ _ body => assigns inBounds name body
  | .block stmts => assignsAny inBounds name stmts
  | .binaryExpr _ lhs rhs => assigns inBounds name lhs || assigns inBounds name rhs
  | .unaryExpr _ operand => assigns inBounds name operand
  | .callExpr _ args => assignsAny inBounds name args
  | _ => false
termination_by structural n => n

def assignsAny (inBounds : Bool) (name : SymbolId) : List Ast → Bool
  | [] => false
  | n :: ns => assigns inBounds name n || assignsAny inBounds name ns
termination_by structural stmts => stmts

end

mutual

/-- The walk over a body finds the assignments outside the bounds of loops. -/
theorem mem_assignedNames (name : SymbolId) :
    (n : Ast) → (name ∈ assignedNames n ↔ assigns false name n = true)
  | .assignExpr _ target value => by
      have inner := mem_assignedNames name value
      cases target <;> simp [assignedNames, assigns, isTarget, inner]
  | .letStmt _ _ (some init) _ => by
      simp [assignedNames, assigns, mem_assignedNames name init]
  | .letStmt _ _ none _ => by simp [assignedNames, assigns]
  | .exprStmt expr => by
      simp [assignedNames, assigns, mem_assignedNames name expr]
  | .returnStmt (some value) => by
      simp [assignedNames, assigns, mem_assignedNames name value]
  | .returnStmt none => by simp [assignedNames, assigns]
  | .ifStmt cond thenBranch (some elseBranch) => by
      simp only [assignedNames, assigns, List.mem_append, Bool.or_eq_true,
        mem_assignedNames name cond, mem_assignedNames name thenBranch,
        mem_assignedNames name elseBranch]
      tauto
  | .ifStmt cond thenBranch none => by
      simp only [assignedNames, assigns, List.mem_append, Bool.or_eq_true,
        mem_assignedNames name cond, mem_assignedNames name thenBranch,
        List.not_mem_nil, Bool.false_eq_true]
      tauto
  | .forStmt _ iter body => by
      have inner := mem_assignedNames name body
      cases iter <;> simp [assignedNames, assigns, inner]
  | .block stmts => by
      simp [assignedNames, assigns, mem_assignedNamesAll name stmts]
  | .binaryExpr _ lhs rhs => by
      simp only [assignedNames, assigns, List.mem_append, Bool.or_eq_true,
        mem_assignedNames name lhs, mem_assignedNames name rhs]
      exact or_comm
  | .unaryExpr _ operand => by
      simp [assignedNames, assigns, mem_assignedNames name operand]
  | .callExpr _ args => by
      simp [assignedNames, assigns, mem_assignedNamesAll name args]
  | .module _ | .fnDecl .. | .param .. | .structDecl .. | .enumDecl ..
  | .matchStmt .. | .fieldExpr .. | .indexExpr .. | .ident _ | .intLit _
  | .floatLit _ | .strLit _ | .boolLit _ | .pathExpr _ | .rangeExpr ..
  | .identPat _ | .pathPat .. | .memberPat .. => by
      simp [assignedNames, assigns]

theorem mem_assignedNamesAll (name : SymbolId) :
    (stmts : List Ast) →
      (name ∈ assignedNamesAll stmts ↔ assignsAny false name stmts = true)
  | [] => by simp [assignedNamesAll, assignsAny]
  | n :: ns => by
      simp only [assignedNamesAll, assignsAny, List.mem_append, Bool.or_eq_true,
        mem_assignedNames name n, mem_assignedNamesAll name ns]
      exact or_comm

end

/-- What is collected was assigned and is bound outside. -/
theorem collected_subset (outer : Bindings) (names out : List SymbolId)
    {name : SymbolId} (member : name ∈ names.foldl (fun out name =>
      if (outer.get name).isSome ∧ name ∉ out then out ++ [name] else out) out) :
    name ∈ out ∨ name ∈ names := by
  induction names generalizing out with
  | nil => exact Or.inl member
  | cons first rest ih =>
      rw [List.foldl_cons] at member
      rcases ih _ member with collected | later
      · split at collected
        · rcases List.mem_append.mp collected with old | single
          · exact Or.inl old
          · exact Or.inr (List.mem_singleton.mp single ▸ List.mem_cons_self)
        · exact Or.inl collected
      · exact Or.inr (List.mem_cons_of_mem _ later)

theorem mem_collect_iff {body : Ast} {outer : Bindings} {name : SymbolId} :
    name ∈ collectLoopAccumulators body outer ↔
      name ∈ outer.names ∧ assigns false name body = true := by
  rw [← mem_assignedNames]
  constructor
  · intro member
    have assigned := collected_subset outer (assignedNames body) [] member
    exact ⟨(collectLoopAccumulators_fit body).bound outer name member,
      assigned.resolve_left List.not_mem_nil⟩
  · exact fun both => mem_collectLoopAccumulators both.1 both.2

/-- The state with the header and the phi of the loop variable, whatever the
lower bound was lowered to. -/
def opened (before : LowerState) (lo : NodeRef) : LowerState :=
  pushed (pushed before (loopNodeOf before.ctrl))
    (phiNodeOf (some before.graph.size) [lo, none])

theorem opened_size (before : LowerState) (lo : NodeRef) :
    (opened before lo).graph.size = before.graph.size + 2 := by
  rw [opened, pushed_size, pushed_size]

theorem opened_loop (before : LowerState) (lo : NodeRef) :
    (opened before lo).graph.node before.graph.size =
      loopNodeOf before.ctrl := by
  have inside : before.graph.size <
      (pushed before (loopNodeOf before.ctrl)).graph.size := by
    rw [pushed_size]
    exact Nat.lt_succ_self _
  rw [opened, pushed_old _ _ inside, pushed_new]

section Halves

variable (varName : SymbolId) (lo hi : LowerM NodeRef)
variable (accumulators : Bindings → List SymbolId) (body : LowerM Unit)

/-- A loop that was lowered: the state and the memory before its body, and the
state after it. -/
structure LoopRun (s t : LowerState) where
  entry : LoopEntry
  start : LowerState
  afterBody : LowerState
  enters : enterLoop varName lo hi accumulators s = .ok entry start
  bodyRun : body start = .ok () afterBody
  live : afterBody.ctrl ≠ none
  closes : closeLoop entry.before entry.loop entry.phiI entry.exit entry.accPhis
    afterBody = .ok () t

variable {varName lo hi accumulators body} {s t : LowerState}

theorem bind_inv {α β : Type} {first : LowerM α} {next : α → LowerM β}
    {value : β} (ran : (first >>= next) s = .ok value t) :
    ∃ a u, first s = .ok a u ∧ next a u = .ok value t := by
  simp only [Bind.bind, EStateM.bind] at ran
  cases started : first s with
  | ok a u =>
      rw [started] at ran
      exact ⟨a, u, rfl, ran⟩
  | error e u =>
      rw [started] at ran
      cases ran

theorem loopRun_of_lowered {u : Unit}
    (ran : lowerFor varName lo hi accumulators body s = .ok u t) :
    Nonempty (LoopRun varName lo hi accumulators body s t) := by
  rw [lowerFor_halves] at ran
  obtain ⟨entry, start, enters, ran⟩ := bind_inv ran
  obtain ⟨⟨⟩, afterBody, bodyRun, ran⟩ := bind_inv ran
  rw [run_get] at ran
  split at ran
  case isTrue => cases ran
  case isFalse live => exact ⟨⟨entry, start, afterBody, enters, bodyRun, live, ran⟩⟩

theorem LoopRun.lowered (run : LoopRun varName lo hi accumulators body s t) :
    lowerFor varName lo hi accumulators body s = .ok () t := by
  rw [lowerFor_halves, run_bind run.enters, run_bind run.bodyRun, run_get, if_neg run.live]
  exact run.closes

/-- What the first half of a loop did. -/
structure LoopEntered (varName : SymbolId) (lo hi : LowerM NodeRef)
    (accumulators : Bindings → List SymbolId) (s : LowerState)
    (entry : LoopEntry) (start : LowerState) : Prop where
  bounds : ∃ loValue afterLo hiValue, lo s = .ok loValue afterLo ∧
    hi afterLo = .ok hiValue entry.before
  loop : entry.loop = entry.before.graph.size
  first : entry.phiI = entry.before.graph.size + 1
  made : ∃ lo afterPhis, PhisMade entry.loop
    (accumulators entry.before.bindings) entry.accPhis
    (opened entry.before lo) afterPhis ∧
      Extends afterPhis.graph start.graph ∧
      start.bindings = afterPhis.bindings.insert varName (some entry.phiI)

theorem enterLoop_entered (fit : AccumulatorsFit accumulators)
    {entry : LoopEntry} {start : LowerState}
    (enters : enterLoop varName lo hi accumulators s = .ok entry start) :
    LoopEntered varName lo hi accumulators s entry start := by
  obtain ⟨loValue, afterLo, loRun, enters⟩ := bind_inv enters
  obtain ⟨hiValue, before, hiRun, enters⟩ := bind_inv enters
  obtain ⟨accPhis, afterPhis, phisRun, made⟩ :=
    @makeAccPhis_made before.graph.size _ (fit.nodup before.bindings)
      (opened before loValue) (fit.bound before.bindings)
  rw [run_get, run_make, run_make] at enters
  obtain ⟨accPhis', afterPhis', phisRun', enters⟩ := bind_inv enters
  have same : makeAccPhis before.graph.size (accumulators before.bindings)
      (opened before loValue) = .ok accPhis' afterPhis' := phisRun'
  rw [phisRun] at same
  cases same
  cases enters
  refine ⟨⟨loValue, afterLo, hiValue, loRun, hiRun⟩, rfl, ?_, loValue, afterPhis,
    made, ?_, rfl⟩
  · exact pushed_size before (loopNodeOf before.ctrl)
  · exact ((((Extends.refl _).push _).push _).push _).push _

/-- Looking up an operation binds nothing. -/
theorem lookupOrInsert_extends (kind : NodeKind) (inputs : List NodeRef)
    (s : LowerState) : ∃ id t, lookupOrInsert kind inputs s = .ok id t ∧
      Extends s.graph t.graph ∧ t.bindings = s.bindings := by
  rcases lookupOrInsert_cases kind inputs s with ⟨id, -, ran⟩ | ran
  · exact ⟨id, s, ran, Extends.refl _, rfl⟩
  · exact ⟨_, _, ran, (Extends.refl _).push _, rfl⟩

/-- What closing a loop did to its header and its phis. -/
structure LoopClosed (entry : LoopEntry) (s t : LowerState) : Prop where
  loopKind : (t.graph.node entry.loop).kind = (s.graph.node entry.loop).kind
  kind : ∀ acc ∈ entry.accPhis,
    (t.graph.node acc.2).kind = (s.graph.node acc.2).kind
  back : ∀ name phi, (name, phi) ∈ entry.accPhis →
    ∃ ref, s.bindings.get name = some ref ∧ (t.graph.node phi).inputs =
      (s.graph.node phi).inputs.set 2 ref
  bound : AccBound entry.accPhis entry.before.bindings t.bindings

theorem closeLoop_closed {entry : LoopEntry} {u : Unit}
    (names : (entry.accPhis.map Prod.fst).Nodup)
    (distinct : (entry.accPhis.map Prod.snd).Nodup)
    (bound : ∀ acc ∈ entry.accPhis, acc.1 ∈ s.bindings.names)
    (loopInside : entry.loop < s.graph.size)
    (inside : ∀ acc ∈ entry.accPhis, acc.2 < s.graph.size)
    (apart : ∀ acc ∈ entry.accPhis, acc.2 ≠ entry.loop ∧ acc.2 ≠ entry.phiI)
    (ran : closeLoop entry.before entry.loop entry.phiI entry.exit entry.accPhis
      s = .ok u t) : LoopClosed entry s t := by
  let first := pushed s (constantNode 1)
  obtain ⟨next, second, looked, secondExtends, secondBindings⟩ :=
    lookupOrInsert_extends .add [some entry.phiI, some s.graph.size] first
  let third := rewired second entry.phiI 2 (some next)
  have bindings : third.bindings = s.bindings := secondBindings
  obtain ⟨fourth, wire, wired⟩ :=
    wireAccPhis_wired distinct (s := third) (bindings ▸ bound)
  let fifth := rewired fourth entry.loop 0 s.ctrl
  let sixth := pushed fifth (phiNodeOf (some entry.exit) [entry.before.eff, s.eff])
  obtain ⟨restored, rebind, rebound⟩ := bindAccPhis_accBound names
    { sixth with
      eff := some fifth.graph.size
      ctrl := some entry.exit
      bindings := entry.before.bindings }
  have run : closeLoop entry.before entry.loop entry.phiI entry.exit
      entry.accPhis s = .ok () { sixth with
        eff := some fifth.graph.size
        ctrl := some entry.exit
        bindings := restored } := by
    rw [closeLoop, run_get, run_bind (makeConstant_eq 1 _), run_bind looked,
      run_setInput, run_bind wire, run_setInput, run_make, run_setEff,
      run_setCtrl, run_setBindings]
    exact rebind
  rw [run] at ran
  cases ran
  have size : fourth.graph.size = second.graph.size :=
    wired.size.trans (rewired_size ..)
  have secondSize : s.graph.size ≤ second.graph.size := by
    have grown := secondExtends.size
    rw [pushed_size] at grown
    exact Nat.le_of_succ_le grown
  have late {id : Nat} (old : id < s.graph.size) : id < fifth.graph.size := by
    rw [rewired_size, size]
    exact Nat.lt_of_lt_of_le old secondSize
  have secondNode {id : Nat} (old : id < s.graph.size) :
      second.graph.node id = s.graph.node id := by
    rw [secondExtends.node id ((pushed_size s _).symm ▸ Nat.lt_succ_of_lt old)]
    exact pushed_old s _ old
  have sixthNode {id : Nat} (old : id < s.graph.size) :
      sixth.graph.node id = fifth.graph.node id := pushed_old fifth _ (late old)
  have kind {id : Nat} (old : id < s.graph.size) :
      (sixth.graph.node id).kind = (s.graph.node id).kind := by
    rw [sixthNode old, rewired_kind, wired.kind, rewired_kind, secondNode old]
  refine ⟨kind loopInside, fun acc member => kind (inside acc member), ?_, rebound⟩
  intro name phi member
  obtain ⟨notLoop, notFirst⟩ := apart _ member
  obtain ⟨ref, found, node⟩ := wired.back name phi member
  refine ⟨ref, bindings ▸ found, ?_⟩
  rw [rewired_other _ _ _ notFirst, secondNode (inside _ member)] at node
  change (sixth.graph.node phi).inputs = _
  rw [sixthNode (inside _ member), rewired_other _ _ _ notLoop, node]

end Halves

section Carried

variable {order : TableOrder} {varName : SymbolId} {lo hi body : Ast}
variable {s t : LowerState}

/-- A run of the lowerer over a range loop. -/
abbrev ForRun (order : TableOrder) (varName : SymbolId) (lo hi body : Ast)
    (s t : LowerState) :=
  LoopRun varName (lowerExpr order lo) (lowerExpr order hi)
    (collectLoopAccumulators body) (lowerStmt order body) s t

/-- The name has a phi at the header of the loop that joins its value before
the loop with its value at the end of the body; the body reads the phi, and so
does what follows the loop. -/
def Carried (run : ForRun order varName lo hi body s t) (name : SymbolId) :
    Prop :=
  ∃ phi before back, run.entry.loop < phi ∧
    (t.graph.node run.entry.loop).kind = .loop ∧
    (t.graph.node phi).kind = .phi ∧
    (t.graph.node phi).inputs = [some run.entry.loop, before, back] ∧
    run.entry.before.bindings.get name = some before ∧
    run.start.bindings.get name = some (some phi) ∧
    run.afterBody.bindings.get name = some back ∧
    t.bindings.get name = some (some phi)

/-- The steps of the run, and what they did. -/
structure RunFacts (run : ForRun order varName lo hi body s t) : Prop where
  entered : LoopEntered varName (lowerExpr order lo) (lowerExpr order hi)
    (collectLoopAccumulators body) s run.entry run.start
  before : Sane run.entry.before
  body : Continues run.start run.afterBody
  closed : LoopClosed run.entry run.afterBody t

theorem runFacts (sane : Sane s) (run : ForRun order varName lo hi body s t) :
    RunFacts run := by
  have fit := collectLoopAccumulators_fit body
  have entered := enterLoop_entered fit run.enters
  have before : Sane run.entry.before := by
    obtain ⟨loValue, afterLo, hiValue, loRun, hiRun⟩ := entered.bounds
    exact ((sane.lowerExpr loRun).1.sane.lowerExpr hiRun).1.sane
  have closed := framed_closed s.graph s.bindings
  have start : Sane run.start :=
    (sane.continues (closed.enterLoop varName _ (closed.lowerExpr order lo s)
      (closed.lowerExpr order hi)) run.enters).1.sane
  have continues : Continues run.start run.afterBody := start.lowerStmt run.bodyRun
  refine ⟨entered, before, continues, ?_⟩
  obtain ⟨loValue, afterPhis, made, extended, bindings⟩ := entered.made
  have inside {id : Nat} (old : id < afterPhis.graph.size) :
      id < run.afterBody.graph.size :=
    Nat.lt_of_lt_of_le old (extended.size.trans continues.extended.size)
  have grown := made.extended.size
  rw [opened_size] at grown
  refine closeLoop_closed ?_ made.distinct ?_ ?_ ?_ ?_ run.closes
  · rw [made.names]
    exact fit.nodup _
  · intro acc member
    have phi : afterPhis.bindings.get acc.1 = some (some acc.2) :=
      made.bound.phi acc.1 acc.2 member
    have named : acc.1 ∈ run.start.bindings.names := by
      rw [bindings, Bindings.mem_names_insert, ← Bindings.get_isSome_iff, phi]
      exact Or.inl rfl
    obtain ⟨entry, isEntry, same⟩ := List.mem_map.mp named
    obtain ⟨other, isOther, sameName⟩ := continues.named entry isEntry
    exact List.mem_map.mpr ⟨other, isOther, sameName.trans same⟩
  · rw [entered.loop]
    exact inside (by omega)
  · exact fun acc member => inside (made.node acc.1 acc.2 member).2.1
  · intro acc member
    have late := (made.node acc.1 acc.2 member).1
    have loop := entered.loop
    have first := entered.first
    rw [opened_size] at late
    constructor
    · intro same
      rw [same, loop] at late
      exact Nat.not_succ_le_self _ (Nat.le_of_succ_le late)
    · intro same
      rw [same, first] at late
      exact Nat.not_succ_le_self _ late

/-- An accumulator other than the loop variable is carried. -/
theorem carried_of_accumulator {run : ForRun order varName lo hi body s t}
    (facts : RunFacts run) {name : SymbolId} (notVar : name ≠ varName)
    (isAcc : name ∈ collectLoopAccumulators body run.entry.before.bindings) :
    Carried run name := by
  obtain ⟨loValue, afterPhis, made, extended, bindings⟩ := facts.entered.made
  rw [← made.names] at isAcc
  obtain ⟨⟨name, phi⟩, member, rfl⟩ := List.mem_map.mp isAcc
  obtain ⟨late, inside, before, found, node⟩ := made.node name phi member
  obtain ⟨back, backFound, inputs⟩ := facts.closed.back name phi member
  have grown := made.extended.size
  rw [opened_size] at grown late
  have oldNode {id : Nat} (old : id < afterPhis.graph.size) :
      run.afterBody.graph.node id = afterPhis.graph.node id := by
    rw [facts.body.extended.node id (Nat.lt_of_lt_of_le old extended.size),
      extended.node id old]
  have loop := facts.entered.loop
  refine ⟨phi, before, back, ?_, ?_, ?_, ?_, found, ?_, backFound,
    facts.closed.bound.phi name phi member⟩
  · rw [loop]
    exact Nat.lt_of_succ_lt late
  · have old : run.entry.before.graph.size < (opened run.entry.before loValue).graph.size := by
      rw [opened_size]
      omega
    rw [facts.closed.loopKind, loop, oldNode (by omega),
      made.extended.node _ old, opened_loop]
    rfl
  · rw [facts.closed.kind _ member, oldNode inside, node]
    rfl
  · rw [inputs, oldNode inside, node]
    rfl
  · rw [bindings, Bindings.get_insert_of_ne _ _ notVar]
    exact made.bound.phi name phi member

/-- What is carried is an accumulator other than the loop variable. -/
theorem accumulator_of_carried {run : ForRun order varName lo hi body s t}
    (facts : RunFacts run) {name : SymbolId} (carried : Carried run name) :
    name ≠ varName ∧
      name ∈ collectLoopAccumulators body run.entry.before.bindings := by
  obtain ⟨phi, before, back, late, -, -, -, -, reads, -, after⟩ := carried
  obtain ⟨loValue, afterPhis, made, extended, bindings⟩ := facts.entered.made
  have isAcc : name ∈ run.entry.accPhis.map Prod.fst := by
    by_contra notAcc
    rw [facts.closed.bound.other name notAcc] at after
    obtain ⟨entry, member, same⟩ := mem_of_get after
    have inside := facts.before.bound entry member phi same
    rw [facts.entered.loop] at late
    exact Nat.lt_asymm late inside
  refine ⟨?_, made.names ▸ isAcc⟩
  rintro rfl
  rw [bindings, Bindings.get_insert_self, Option.some.injEq,
    Option.some.injEq] at reads
  obtain ⟨⟨name, acc⟩, member, rfl⟩ := List.mem_map.mp isAcc
  rw [facts.closed.bound.phi name acc member, Option.some.injEq,
    Option.some.injEq] at after
  have accLate := (made.node name acc member).1
  rw [opened_size, after, ← reads, facts.entered.first] at accLate
  exact Nat.not_succ_le_self _ accLate

/-- The name is bound in front of the loop, if only by its bounds. -/
def BoundBefore (order : TableOrder) (lo hi : Ast) (s : LowerState) (name : SymbolId) :
    Prop :=
  name ∈ s.bindings.names ∨ ∃ loValue afterLo hiValue before,
    lowerExpr order lo s = .ok loValue afterLo ∧
      lowerExpr order hi afterLo = .ok hiValue before ∧ name ∈ before.bindings.names

/-- A run of the loop finds the name bound at its header. -/
theorem BoundBefore.atEntry {name : SymbolId} (bound : BoundBefore order lo hi s name)
    (sane : Sane s) {run : ForRun order varName lo hi body s t} (facts : RunFacts run) :
    name ∈ run.entry.before.bindings.names := by
  obtain ⟨loValue, afterLo, hiValue, loRun, hiRun⟩ := facts.entered.bounds
  rcases bound with early | ⟨_, _, _, before, loSame, hiSame, early⟩
  · have atLo := (sane.lowerExpr loRun).1
    have atHi := (atLo.sane.lowerExpr hiRun).1
    obtain ⟨entry, member, rfl⟩ := List.mem_map.mp early
    obtain ⟨middle, isMiddle, same⟩ := atLo.named entry member
    obtain ⟨last, isLast, sameLast⟩ := atHi.named middle isMiddle
    exact List.mem_map.mpr ⟨last, isLast, sameLast.trans same⟩
  · rw [loRun] at loSame
    cases loSame
    rw [hiRun] at hiSame
    cases hiSame
    exact early

/-- A name bound before a loop is carried around it if and only if no loop body in the
statement ends behind a return, and the body assigns the name outside the bounds of inner
loops, the loop variable apart. -/
theorem carried_iff (sane : Sane s) {name : SymbolId}
    (bound : BoundBefore order lo hi s name) :
    (∃ t, ∃ run : ForRun order varName lo hi body s t, Carried run name) ↔
      (stmtControl (.forStmt varName (.rangeExpr lo hi) body) s.ctrl.isSome).isOk = true ∧
        name ≠ varName ∧ assigns false name body = true := by
  rw [← @lowerStmt_isOk_iff order, lowerStmt]
  constructor
  · rintro ⟨t, run, carried⟩
    obtain ⟨notVar, isAcc⟩ := accumulator_of_carried (runFacts sane run) carried
    exact ⟨⟨t, run.lowered⟩, notVar, (mem_collect_iff.mp isAcc).2⟩
  · rintro ⟨⟨t, lowered⟩, notVar, assigned⟩
    obtain ⟨run⟩ := loopRun_of_lowered lowered
    have facts := runFacts sane run
    exact ⟨t, run, carried_of_accumulator facts notVar
      (mem_collect_iff.mpr ⟨bound.atEntry sane facts, assigned⟩)⟩

/-- The checker does not look for a return in an expression block of a loop body. -/
example :
    let loop : Ast := .forStmt 2 (.rangeExpr (.intLit 0) (.intLit 3)) (.block [
      .assignExpr .plusEq (.ident 1) (.intLit 1),
      .letStmt 3 none (some (.block [.returnStmt (some (.intLit 1))])) false])
    TypeChecker.checkFn [] (.fnDecl 4 [] none
      (.block [.letStmt 1 none (some (.intLit 0)) true, loop]) false) = [] ∧
        (stmtControl loop true).isOk = false := by
  decide

/-- Assign a variable in the bound of an inner loop. -/
def boundsBody : Ast :=
  .block [.forStmt 3 (.rangeExpr (.intLit 0)
    (.assignExpr .eq (.ident 1) (.binaryExpr .plus (.ident 1) (.intLit 1))))
    (.block [])]

/-- A function that counts in the bound of an inner loop. -/
def boundsFn : Ast :=
  .fnDecl 4 [] none (.block [
    .letStmt 1 none (some (.intLit 0)) true,
    .forStmt 2 (.rangeExpr (.intLit 0) (.intLit 3)) boundsBody,
    .returnStmt (some (.ident 1))]) false

/-- The state in front of the outer loop of this function. -/
def boundsStart : LowerState :=
  finalState (do
    enterFunction []
    lowerStmt .asListed (.letStmt 1 none (some (.intLit 0)) true)) {}

theorem boundsStart_sane : Sane boundsStart where
  table := nofun
  bound entry member id same := by
    have only : entry = (1, some 3) := List.mem_singleton.mp member
    subst only
    cases same
    decide

/-- The name bound in front of the outer loop, whatever its body. -/
theorem boundsStart_names {t : LowerState} {body : Ast}
    (run : ForRun .asListed 2 (.intLit 0) (.intLit 3) body boundsStart t) :
    run.entry.before.bindings.names = [1] := by
  obtain ⟨⟨before, loop, phiI, exit, accPhis⟩, start, afterBody, enters, -, -⟩ :=
    run
  obtain ⟨loValue, afterLo, hiValue, loRun, hiRun⟩ :=
    (enterLoop_entered (collectLoopAccumulators_fit body) enters).bounds
  cases loRun
  cases hiRun
  rfl

/-- The computation succeeds. -/
def succeeds (run : LowerM Unit) (s : LowerState) : Bool :=
  match run s with
  | .ok _ _ => true
  | .error _ _ => false

theorem ran_of_succeeds {run : LowerM Unit} {s : LowerState}
    (ends : succeeds run s = true) : ∃ t, run s = .ok () t := by
  cases ran : run s with
  | ok _ t => exact ⟨t, rfl⟩
  | error error t =>
      rw [succeeds, ran] at ends
      cases ends

/-- A sum is carried around its loop. -/
theorem sum_carried : ∃ t, ∃ run : ForRun .asListed 2 (.intLit 0) (.intLit 3)
    (.assignExpr .plusEq (.ident 1) (.ident 2)) boundsStart t,
      Carried run 1 := by
  have bound : BoundBefore .asListed (.intLit 0) (.intLit 3) boundsStart 1 :=
    Or.inl (by decide)
  exact (carried_iff boundsStart_sane bound).mpr (by decide)

/-- The checker accepts the function, but its variable is not carried around
the outer loop. -/
theorem boundsFn_not_carried :
    TypeChecker.checkFn [] boundsFn = [] ∧ ∃ t,
      lowerStmt .asListed (.forStmt 2 (.rangeExpr (.intLit 0) (.intLit 3))
        boundsBody) boundsStart = .ok () t ∧
      ∃ run : ForRun .asListed 2 (.intLit 0) (.intLit 3) boundsBody boundsStart t,
        1 ∈ run.entry.before.bindings.names ∧
          assigns true 1 boundsBody = true ∧ ¬ Carried run 1 := by
  have ends : succeeds (lowerStmt .asListed (.forStmt 2
      (.rangeExpr (.intLit 0) (.intLit 3)) boundsBody)) boundsStart = true := by
    decide +kernel
  obtain ⟨t, ran⟩ := ran_of_succeeds ends
  refine ⟨by decide, t, ran, ?_⟩
  rw [lowerStmt] at ran
  obtain ⟨run⟩ := loopRun_of_lowered ran
  refine ⟨run, ?_, by decide, fun carried => ?_⟩
  · rw [boundsStart_names run]
    exact List.mem_singleton_self 1
  · have isAcc := (accumulator_of_carried (runFacts boundsStart_sane run) carried).2
    exact absurd (mem_collect_iff.mp isAcc).2 (by decide)

end Carried

end Lowerer

end Aegis
