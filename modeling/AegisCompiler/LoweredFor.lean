import AegisCompiler.LoweredLoop

/-!
# Walking a range loop

All parts of a loop run, and a walk of the finished graph goes around it as
often as the range says.
-/

namespace Aegis

namespace Lowerer

open ControlWalk TypeChecker AstEval

variable {pend : NodeId → Prop} {frame inner bodyFrame : TypeChecker.Frame}
variable {evalLo evalHi : Env → Option Word} {evalBody : Env → StmtOutcome}
variable {bodyFree : Prop} {varName : SymbolId} {lo hi : LowerM NodeRef}
variable {accumulators : Bindings → List SymbolId} {body : LowerM Unit}
variable {s : LowerState}

/-- What a loop needs of the list of its accumulators. -/
structure AccumulatorsFit (accumulators : Bindings → List SymbolId) :
    Prop where
  nodup : ∀ bindings, (accumulators bindings).Nodup
  bound : ∀ bindings, ∀ name ∈ accumulators bindings, name ∈ bindings.names

theorem forDone_of_correct (loCorrect : CorrectExpr frame lo evalLo)
    (hiCorrect : CorrectExpr frame hi evalHi)
    (fit : AccumulatorsFit accumulators)
    (sees : ∀ other, inner.Sees other → frame.Sees other ∨ other = varName)
    (bodyCorrect : Correct inner bodyFrame body evalBody bodyFree)
    (free : bodyFree) (ready : Ready pend frame s) :
    ∃ states : ForStates varName lo hi accumulators body s,
      ForDone pend frame inner bodyFrame evalLo evalHi evalBody bodyFree
        states := by
  obtain ⟨loId, afterLo, loRun, loStep, loInside, loMeans⟩ :=
    loCorrect pend s ready
  have middle := loStep.ready pend frame ready
  obtain ⟨hiId, before, hiRun, hiStep, hiInside, hiMeans⟩ :=
    hiCorrect pend afterLo middle
  have entry := hiStep.ready pend frame middle
  have start := headed_ready entry loId
  obtain ⟨accPhis, afterPhis, phisRun, phis⟩ :=
    makeAccPhis_header (fit.nodup before.bindings) start.ready
      (headed_size before loId) Nat.two_pos (fit.bound before.bindings)
  have check := checked_ready start phis hiInside sees
  have opened := branched_opened check afterPhis.graph.size
  have bodyReady := opened.ready.setCtrl afterPhis.eff opened.left.1
    opened.left.2
  obtain ⟨afterBody, bodyRun, bodyDone⟩ := bodyCorrect _ _ bodyReady
  have goesOn := bodyDone.falls free (Option.some_ne_none _)
  have oneStep := makeConstant_step 1 afterBody
  have oneReady := oneStep.ready _ _ bodyDone.ready
  have oneInside : afterBody.graph.size <
      (pushed afterBody (constantNode 1)).graph.size := by
    rw [pushed_size]
    exact Nat.lt_succ_self _
  have firstInside : before.graph.size + 1 < afterPhis.graph.size := by
    rw [phis.size, headed_size]
    exact Nat.lt_of_lt_of_le (Nat.lt_succ_self _) (Nat.le_add_right _ _)
  have startSize : afterPhis.graph.size ≤ afterBody.graph.size := by
    have grown := opened.grows.size.trans bodyDone.grows.size
    refine Nat.le_trans ?_ grown
    exact Nat.le_of_lt (Nat.lt_of_lt_of_eq (Nat.lt_succ_self _)
      (pushed_size afterPhis _).symm)
  have firstIn : before.graph.size + 1 <
      (pushed afterBody (constantNode 1)).graph.size :=
    Nat.lt_trans (Nat.lt_of_lt_of_le firstInside startSize) oneInside
  have isBinary : NodeKind.isBinop .add = true := rfl
  obtain ⟨next, afterNext, nextRun, nextStep, nextInside, nextMeans⟩ :=
    lookupOrInsert_binary oneReady isBinary firstIn oneInside
  have step := oneStep.trans nextStep
  have old {id : Nat} (inside : id < afterPhis.graph.size) :
      afterNext.graph.node id = afterPhis.graph.node id :=
    old_through bodyDone.grows step inside
  have isPhi {id : Nat} (after : before.graph.size < id)
      (inside : id < afterPhis.graph.size) :
      (afterNext.graph.node id).kind = .phi := by
    rw [old inside]
    exact kind_phi phis after inside
  have wireReady : Ready _ bodyFrame
      (rewired afterNext (before.graph.size + 1) 2 (some next)) :=
    (nextStep.ready _ _ oneReady).rewirePhi
      (isPhi (Nat.lt_succ_self _) firstInside) Nat.two_pos.ne'
  have checkGrows : Grows before
      (checked afterPhis before.graph.size varName hiId) :=
    grows_checked start phis
  obtain ⟨afterWire, wireRun, wired⟩ :=
    wireAccPhis_backWired phis.distinct wireReady fun name phi member => by
      obtain ⟨late, inside, entry, found, -⟩ := phis.node name phi member
      rw [headed_size] at late
      refine ⟨?_, ?_⟩
      · have bound : name ∈ before.bindings.names := by
          rw [← Bindings.get_isSome_iff]
          have found : before.bindings.get name = some (some entry) := found
          rw [found]
          rfl
        have atStart := checkGrows.names name bound
        have atBody := bodyDone.grows.names name atStart
        exact step.grows.names name atBody
      · rw [rewired_kind]
        exact isPhi (Nat.lt_of_succ_lt late) inside
  exact ⟨⟨loId, hiId, accPhis, next, afterLo, before, afterPhis, afterBody,
    afterNext, afterWire, loRun, hiRun, phisRun, bodyRun, goesOn, nextRun,
    wireRun⟩, {
      ready := entry
      data := loStep.trans hiStep
      loInside := Nat.lt_of_lt_of_le loInside hiStep.size
      hiInside := hiInside
      loMeans := fun final args phis env v completes =>
        loMeans final args phis env v
          (completes.earlier hiStep.size hiStep.old)
      hiMeans := fun final args phis env v completes represents =>
        hiMeans final args phis env v completes
          (loStep.bindings.symm ▸ represents)
      phis := phis
      check := check
      checkGrows := checkGrows
      body := bodyDone
      nextStep := step
      nextInside := nextInside
      nextMeans := fun final args phis i completes here => by
        have one := makeConstant_value bodyDone.ready 1
          (completes.earlier nextStep.size nextStep.old) args phis
        exact nextMeans final args phis i 1 completes here one
      wired := wired }⟩

namespace ForDone

variable {states : ForStates varName lo hi accumulators body s}
variable (done : ForDone pend frame inner bodyFrame evalLo evalHi evalBody
  bodyFree states)
variable {final : Graph} (completes : Completes pend states.closed.graph final)
include done completes

/-- The nodes of the loop are settled once it is closed. -/
theorem settled {id : Nat} (late : states.base ≤ id)
    (inside : id < states.afterNext.graph.size) :
    final.node id = (rewired states.afterWire states.base 0
      states.afterBody.ctrl).graph.node id := by
  have within : id < (rewired states.afterWire states.base 0
      states.afterBody.ctrl).graph.size := by
    rw [rewired_size, done.size_afterWire]
    exact inside
  have inClosed : id < states.closed.graph.size := by
    rw [done.size_closed]
    exact Nat.lt_succ_of_lt inside
  rw [completes.node id inClosed (done.ready.wired.not_pending late)]
  exact pushed_old _ _ within

omit completes in
theorem inside_next {id : Nat} (inside : id < states.afterPhis.graph.size) :
    id < states.afterNext.graph.size := by
  have start : states.afterPhis.graph.size ≤ states.start.graph.size := by
    rw [size_start, size_check]
    exact Nat.le_add_right _ 4
  exact Nat.lt_of_lt_of_le inside
    ((start.trans done.body.grows.size).trans done.nextStep.size)

theorem final_loop : (final.node states.base).kind = .loop ∧
    (final.node states.base).inputs =
      [states.afterBody.ctrl, states.before.ctrl] := by
  rw [done.settled completes le_rfl (done.inside_next done.base_inside),
    rewired, Graph.setInput_node, if_pos rfl, done.loop_afterWire]
  exact ⟨rfl, rfl⟩

omit completes in
theorem first_inside : states.base + 1 < states.afterPhis.graph.size := by
  rw [done.size_afterPhis]
  exact Nat.lt_of_lt_of_le (Nat.lt_succ_self _) (Nat.le_add_right _ _)

theorem final_first : final.node (states.base + 1) =
    phiNodeOf (some states.base) [some states.loId, some states.next] := by
  have inside := done.first_inside
  have notPhi : states.base + 1 ∉ states.accPhis.map Prod.snd := fun isPhi =>
    Nat.not_succ_le_self _ (done.accPhi_range isPhi).1
  have inHeaded : states.base + 1 <
      (headed states.before states.loId).graph.size := by
    rw [headed_size]
    exact Nat.lt_succ_self _
  rw [done.settled completes (Nat.le_succ _) (done.inside_next inside),
    rewired_other _ _ _ (Nat.succ_ne_self _), done.wired.other _ notPhi, rewired,
    Graph.setInput_node, if_pos rfl, done.old_afterNext inside,
    done.phis.quiet.old _ inHeaded]
  exact congrArg (fun n => { n with inputs := n.inputs.set 2 (some states.next) })
    (headed_phi states.before states.loId)

/-- The phi of an accumulator has its value before the loop and its value at
the end of the body. -/
theorem final_accPhi {name : SymbolId} {phi : NodeId}
    (member : (name, phi) ∈ states.accPhis) :
    ∃ entry back, states.before.bindings.get name = some (some entry) ∧
      states.afterBody.bindings.get name = some (some back) ∧
      final.node phi =
        phiNodeOf (some states.base) [some entry, some back] := by
  obtain ⟨late, inside, entry, entryFound, -, node⟩ :=
    done.phis.node name phi member
  obtain ⟨back, backFound, -, wired⟩ := done.wired.back name phi member
  rw [headed_size] at late
  have notBase : phi ≠ states.base :=
    Nat.ne_of_gt (Nat.lt_of_lt_of_le (Nat.lt_add_of_pos_right Nat.two_pos) late)
  have notFirst : phi ≠ states.base + 1 := Nat.ne_of_gt late
  have backFound : states.afterNext.bindings.get name = some (some back) :=
    backFound
  rw [done.nextStep.bindings] at backFound
  refine ⟨entry, back, entryFound, backFound, ?_⟩
  rw [done.settled completes (Nat.le_of_add_right_le late)
      (done.inside_next inside), rewired_other _ _ _ notBase, wired,
    rewired_other _ _ _ notFirst, done.old_afterNext inside, node]
  rfl

theorem completes_next : Completes (withHeader pend states.base
      (2 + (accumulators states.before.bindings).length))
    states.afterNext.graph final where
  size := by
    refine Nat.le_trans ?_ completes.size
    rw [done.size_closed]
    exact Nat.le_succ _
  node id inside notPending := by
    have inClosed : id < states.closed.graph.size := by
      rw [done.size_closed]
      exact Nat.lt_succ_of_lt inside
    rw [completes.node id inClosed fun old => notPending (Or.inl old)]
    refine done.old_closed inside fun header => notPending (Or.inr ?_)
    rw [done.size_afterPhis, Nat.add_assoc] at header
    exact header
  wired := completes.wired
  hash := completes.hash

theorem completes_body : Completes (withHeader pend states.base
      (2 + (accumulators states.before.bindings).length))
    states.afterBody.graph final :=
  (done.completes_next completes).earlier done.nextStep.size done.nextStep.old

theorem completes_start : Completes (withHeader pend states.base
      (2 + (accumulators states.before.bindings).length))
    states.start.graph final :=
  (done.completes_body completes).earlier done.body.grows.size
    done.body.grows.old

/-- The exit check compares the loop variable with the bound. -/
theorem final_check : final.node states.afterPhis.graph.size =
    cmpNodeOf (some (states.base + 1)) (some states.hiId) := by
  have inCheck : states.afterPhis.graph.size < states.check.graph.size := by
    rw [size_check]
    exact Nat.lt_succ_self _
  have node : states.start.graph.node states.afterPhis.graph.size =
      cmpNodeOf (some (states.base + 1)) (some states.hiId) :=
    (branched_old states.check _ inCheck).trans (pushed_new states.afterPhis _)
  have ready := done.opened.ready
  have inside : states.afterPhis.graph.size < states.start.graph.size :=
    Nat.lt_of_lt_of_le inCheck done.opened.grows.size
  rw [(done.completes_start completes).settled ready.wired inside ?_ ?_, node]
  · exact fun isLoop => by
      have same := (congrArg Node.kind node).symm.trans isLoop
      cases same
  · exact fun isPhi => by
      have same := (congrArg Node.kind node).symm.trans isPhi
      cases same

/-- The walk is at the header with these values of the loop variable and of
the visible names; the phis before the loop are as they were. -/
structure AtHeader (states : ForStates varName lo hi accumulators body s)
    (frame : TypeChecker.Frame) (before : Env) (start : Phis) (i : Word)
    (env : Env) (phis : Phis) : Prop where
  counter : phis (states.base + 1) = some i
  accs : ∀ name phi, (name, phi) ∈ states.accPhis → frame.Sees name →
    phis phi = some (env name)
  below : ∀ id : Nat, id < states.base → phis id = start id
  others : ∀ name, frame.Sees name → name ∉ states.accPhis.map Prod.fst →
    env name = before name

variable {args : List Word} {before env : Env} {start phis : Phis} {i : Word}

omit done completes in
/-- Entering the header from a slot with these operands. -/
theorem atHeader_enter (wired : Wired noPending final)
    (first : final.node (states.base + 1) =
      phiNodeOf (some states.base) [some states.loId, some states.next])
    (accNode : ∀ name phi, (name, phi) ∈ states.accPhis → ∃ entry back,
      final.node phi =
        phiNodeOf (some states.base) [some entry, some back])
    {slot : Nat}
    (counter : valueOf final args phis
      ((final.node (states.base + 1)).inputs.getD slot none) = some i)
    (accs : ∀ name phi, (name, phi) ∈ states.accPhis → frame.Sees name →
      valueOf final args phis ((final.node phi).inputs.getD slot none) =
        some (env name))
    (below : ∀ id : Nat, id < states.base → phis id = start id)
    (others : ∀ name, frame.Sees name →
      name ∉ states.accPhis.map Prod.fst → env name = before name) :
    AtHeader states frame before start i env
      (enter final args states.base slot phis) where
  counter := by
    rw [enter_phi (by rw [first]; rfl) (by rw [first]; rfl), counter]
  accs name phi member seen := by
    obtain ⟨entry, back, node⟩ := accNode name phi member
    rw [enter_phi (by rw [node]; rfl) (by rw [node]; rfl),
      accs name phi member seen]
  below id inside := by
    rw [enter_below wired (Nat.le_of_lt inside), below id inside]
  others := others

/-- At the header every visible name is represented, with the accumulators at
their phis. -/
theorem atHeader_represents (here : AtHeader states frame before start i env phis)
    {bindings : Bindings}
    (bound : AccBound states.accPhis states.before.bindings bindings)
    (represents : Represents final args frame states.before.bindings start
      before) : Represents final args frame bindings phis env := by
  intro name seen
  have ordered := completes.wired.ordered
  by_cases acc : name ∈ states.accPhis.map Prod.fst
  · obtain ⟨⟨_, phi⟩, member, rfl⟩ := List.mem_map.mp acc
    obtain ⟨entry, back, -, -, node⟩ := done.final_accPhi completes member
    refine ⟨phi, bound.phi _ phi member, ?_⟩
    rw [value_phi ordered _ (by rw [node]; rfl), here.accs _ phi member seen]
  · obtain ⟨id, found, value⟩ := represents name seen
    obtain ⟨_, same, inside⟩ := done.ready.bound name _ found
    cases same
    refine ⟨id, (bound.other name acc).trans found, ?_⟩
    rw [value_congr ordered here.below inside, value, here.others name seen acc]

theorem value_first (here : phis (states.base + 1) = some i) :
    value final args phis (states.base + 1) = some i := by
  rw [value_phi completes.wired.ordered _ (by
    rw [done.final_first completes]
    rfl), here]

/-- The exit check at the header. -/
theorem value_check (here : AtHeader states frame before start i env phis)
    {n : Word} (bound : value final args start states.hiId = some n) :
    value final args phis states.afterPhis.graph.size =
      some (ofTruth (i.slt n)) := by
  have ordered := completes.wired.ordered
  have node := done.final_check completes
  have hiValue : value final args phis states.hiId = some n := by
    rw [value_congr ordered here.below done.hiInside, bound]
  rw [value_operation ordered _ (Or.inl (by rw [node]; rfl)), node]
  simp only [operate, cmpNodeOf, done.value_first completes here.counter,
    hiValue, Option.bind_some]
  rfl

theorem check_step (here : AtHeader states frame before start i env phis)
    {n : Word} (bound : value final args start states.hiId = some n) :
    Steps final args (.walking states.base phis)
      (.walking (if i.slt n then states.check.graph.size + 1 else states.exit)
        phis) := by
  have walked := branched_step done.check (done.completes_start completes) rfl
    (done.value_check completes here bound)
  by_cases inside : i.slt n = true
  · rw [if_pos inside]
    rwa [inside, if_pos (by decide)] at walked
  · rw [if_neg inside]
    rw [Bool.not_eq_true] at inside
    rwa [inside, if_neg (by decide)] at walked

theorem accPhi_node (name : SymbolId) (phi : NodeId)
    (member : (name, phi) ∈ states.accPhis) : ∃ entry back,
    final.node phi =
      phiNodeOf (some states.base) [some entry, some back] := by
  obtain ⟨entry, back, -, -, node⟩ := done.final_accPhi completes member
  exact ⟨entry, back, node⟩

/-- Entering the loop for the first time. -/
theorem enters {ctrl : NodeId} (here : states.before.ctrl = some ctrl)
    (counter : value final args phis states.loId = some i)
    (represents : Represents final args frame states.before.bindings phis env) :
    ∃ phis', Steps final args (.walking ctrl phis)
        (.walking states.base phis') ∧
      AtHeader states frame env phis i env phis' := by
  obtain ⟨kind, inputs⟩ := done.final_loop completes
  have first := done.final_first completes
  have input : (final.node states.base).inputs.getD 1 none = some ctrl := by
    rw [inputs]
    exact here
  refine ⟨_, .single (step_loop completes.wired kind input), ?_⟩
  refine atHeader_enter completes.wired first (done.accPhi_node completes) ?_ ?_
    (fun _ _ => rfl) fun _ _ _ => rfl
  · rw [first]
    exact counter
  · intro name phi member seen
    obtain ⟨entry, back, entryFound, -, node⟩ :=
      done.final_accPhi completes member
    obtain ⟨id, found, value⟩ := represents name seen
    rw [entryFound, Option.some.injEq, Option.some.injEq] at found
    rw [node]
    exact found ▸ value

/-- The walk does what the outcome says: it ends with the returned value, or
what is said about a normal end holds. -/
def Walks (final : Graph) (args : List Word) (origin : WalkState)
    (ends : Env → Prop) : StmtOutcome → Prop
  | .trap => True
  | .returned v => Steps final args origin (.returned v)
  | .normal env => ends env

variable {n : Word}

/-- One iteration. -/
theorem iterates
    (sees : ∀ other, inner.Sees other → frame.Sees other ∨ other = varName)
    (keeps : ∀ name, frame.Sees name → bodyFrame.Sees name)
    (fresh : ¬ frame.Sees varName)
    (leaves : ∀ name, frame.Sees name → name ∉ states.accPhis.map Prod.fst →
      ∀ env, Leaves name (env name) (evalBody env))
    (effect : states.before.eff ≠ none)
    (represents : Represents final args frame states.before.bindings start
      before)
    (bound : value final args start states.hiId = some n)
    (here : AtHeader states frame before start i env phis)
    (inside : i.slt n = true) :
    Walks final args (.walking states.base phis) (fun env' => ∃ phis',
      Steps final args (.walking states.base phis)
        (.walking states.base phis') ∧
      AtHeader states frame before start (i + 1) env' phis')
      (evalBody (Function.update env varName i)) := by
  have walked := done.check_step completes here bound
  rw [if_pos inside] at walked
  have atPhis := done.atHeader_represents completes here done.phis.bound
    represents
  have atStart := atPhis.bindName
    (done.value_first completes here.counter) sees
  have startEff : states.start.eff ≠ none := by
    have same : states.start.eff = states.before.eff := done.phis.quiet.eff
    rw [same]
    exact effect
  have followed := done.body.follows final args phis _
    (states.check.graph.size + 1) rfl startEff (done.completes_body completes)
    atStart
  have left (name : SymbolId) (seen : frame.Sees name)
      (notAcc : name ∉ states.accPhis.map Prod.fst) :=
    leaves name seen notAcc (Function.update env varName i)
  cases ends : evalBody (Function.update env varName i) with
  | trap => trivial
  | returned v =>
      rw [ends] at followed
      exact walked.trans followed
  | normal env' =>
      rw [ends] at followed
      simp only [ends] at left
      obtain ⟨ctrl, phis', atEnd, -, steps, same, represents'⟩ := followed
      obtain ⟨kind, inputs⟩ := done.final_loop completes
      have first := done.final_first completes
      have input : (final.node states.base).inputs.getD 0 none = some ctrl := by
        rw [inputs]
        exact atEnd
      have startSize : states.afterPhis.graph.size ≤ states.start.graph.size := by
        rw [size_start, size_check]
        exact Nat.le_add_right _ 4
      have unchanged (id : Nat) (old : id < states.afterPhis.graph.size) :
          phis' id = phis id := same id (Nat.lt_of_lt_of_le old startSize)
      refine ⟨_, (walked.trans steps).tail
        (step_loop completes.wired kind input), ?_⟩
      refine atHeader_enter completes.wired first (done.accPhi_node completes)
        ?_ ?_ ?_ ?_
      · rw [first]
        refine done.nextMeans final args phis' i (done.completes_next completes)
          (done.value_first completes ?_)
        rw [unchanged _ done.first_inside, here.counter]
      · intro name phi member seen
        obtain ⟨entry, back, -, backFound, node⟩ :=
          done.final_accPhi completes member
        obtain ⟨id, found, value⟩ := represents' name (keeps name seen)
        rw [backFound, Option.some.injEq, Option.some.injEq] at found
        rw [node]
        exact found ▸ value
      · intro id old
        rw [unchanged id (Nat.lt_trans old done.base_inside), here.below id old]
      · intro name seen notAcc
        have other : name ≠ varName := by
          rintro rfl
          exact fresh seen
        have kept : env' name = Function.update env varName i name :=
          left name seen notAcc
        rw [kept, Function.update_of_ne other, here.others name seen notAcc]

end ForDone

theorem tripCount_zero {i n : Word} (none : tripCount i n = 0) :
    i.slt n = false := by
  rw [tripCount] at none
  rw [BitVec.slt_eq_decide, decide_eq_false_iff_not]
  omega

theorem tripCount_succ {i n : Word} {trips : Nat}
    (some : tripCount i n = trips + 1) :
    i.slt n = true ∧ tripCount (i + 1) n = trips := by
  rw [tripCount] at some ⊢
  have less : i.toInt < n.toInt := by omega
  have top : n.toInt < 2 ^ 63 := BitVec.toInt_lt
  have bottom : -2 ^ 63 ≤ i.toInt := BitVec.le_toInt i
  have next : (i + 1).toInt = i.toInt + 1 := by
    rw [BitVec.toInt_add]
    have one : (1 : Word).toInt = 1 := rfl
    rw [one]
    refine Int.bmod_eq_of_le ?_ ?_ <;> omega
  rw [BitVec.slt_eq_decide, decide_eq_true_iff, next]
  omega

section Loop

variable {states : ForStates varName lo hi accumulators body s}
variable (done : ForDone pend frame inner bodyFrame evalLo evalHi evalBody
  bodyFree states)
variable {final : Graph} (completes : Completes pend states.closed.graph final)
variable {args : List Word} {before env : Env} {start phis : Phis} {i n : Word}
include done completes

/-- The walk goes around the loop once for each remaining iteration. -/
theorem ForDone.goesAround
    (sees : ∀ other, inner.Sees other → frame.Sees other ∨ other = varName)
    (keeps : ∀ name, frame.Sees name → bodyFrame.Sees name)
    (fresh : ¬ frame.Sees varName)
    (leaves : ∀ name, frame.Sees name → name ∉ states.accPhis.map Prod.fst →
      ∀ env, Leaves name (env name) (evalBody env))
    (effect : states.before.eff ≠ none)
    (represents : Represents final args frame states.before.bindings start
      before)
    (bound : value final args start states.hiId = some n) (trips : Nat)
    (here : ForDone.AtHeader states frame before start i env phis)
    (remain : tripCount i n = trips) :
    ForDone.Walks final args (.walking states.base phis)
      (fun last => ∃ phis' i',
        Steps final args (.walking states.base phis)
          (.walking states.exit phis') ∧
        ForDone.AtHeader states frame before start i' last phis')
      (runLoop varName evalBody trips i env) := by
  induction trips generalizing i env phis with
  | zero =>
      have walked := done.check_step completes here bound
      rw [tripCount_zero remain] at walked
      exact ⟨phis, i, walked, here⟩
  | succ trips ih =>
      obtain ⟨inside, rest⟩ := tripCount_succ remain
      have once := done.iterates completes sees keeps fresh leaves effect
        represents bound here inside
      rw [runLoop]
      cases ends : evalBody (Function.update env varName i) with
      | trap => trivial
      | returned v =>
          rw [ends] at once
          exact once
      | normal env' =>
          rw [ends] at once
          obtain ⟨phis', around, next⟩ := once
          have later := ih next rest
          show ForDone.Walks final args _ _
            (runLoop varName evalBody trips (i + 1) env')
          cases after : runLoop varName evalBody trips (i + 1) env' with
          | trap => trivial
          | returned v =>
              rw [after] at later
              exact around.trans later
          | normal last =>
              rw [after] at later
              obtain ⟨phis'', i', steps, atEnd⟩ := later
              exact ⟨phis'', i', around.trans steps, atEnd⟩

end Loop

/-- A range loop is lowered correctly when its parts are. -/
theorem lowerFor_correct (loCorrect : CorrectExpr frame lo evalLo)
    (hiCorrect : CorrectExpr frame hi evalHi)
    (fit : AccumulatorsFit accumulators)
    (sees : ∀ other, inner.Sees other → frame.Sees other ∨ other = varName)
    (keeps : ∀ name, frame.Sees name → bodyFrame.Sees name)
    (fresh : ¬ frame.Sees varName)
    (leaves : ∀ bindings : Bindings, ∀ name, frame.Sees name →
      name ∈ bindings.names → name ∉ accumulators bindings →
      ∀ env, Leaves name (env name) (evalBody env))
    (bodyCorrect : Correct inner bodyFrame body evalBody bodyFree)
    (free : bodyFree) (returnFree : Prop) :
    Correct frame frame (lowerFor varName lo hi accumulators body)
      (fun env => withValue (evalLo env) fun loValue =>
        withValue (evalHi env) fun hiValue =>
          (runLoop varName evalBody (tripCount loValue hiValue) loValue
            env).andThen fun last =>
              .normal (Function.update last varName (env varName)))
      returnFree := by
  intro pend s ready
  obtain ⟨states, done⟩ :=
    forDone_of_correct loCorrect hiCorrect fit sees bodyCorrect free ready
  have distinct : (states.accPhis.map Prod.fst).Nodup := by
    rw [done.phis.names]
    exact fit.nodup states.before.bindings
  obtain ⟨bindings, bindRun, closed, bound⟩ :=
    bindAccPhis_bound distinct done.closed_ready fun name phi member => by
      have inside := (done.accPhi_range (List.mem_map.mpr ⟨_, member, rfl⟩)).2
      rw [done.size_closed]
      exact Nat.lt_succ_of_lt (done.inside_next inside)
  have grows := done.data.grows.trans done.grows_closed
  refine ⟨{ states.closed with bindings }, states.run.trans bindRun, closed, ?_,
    fun _ _ => Option.some_ne_none _, ?_⟩
  · exact ⟨grows.size, grows.old, grows.reads, grows.ctrl,
      fun name member => bound.names (grows.names name member)⟩
  · intro final args phis env ctrl here eff completes represents
    have atBefore : Completes pend states.before.graph final :=
      completes.earlier done.grows_closed.size done.grows_closed.old
    refine Follows.withValue fun loValue evalLoEq => ?_
    refine Follows.withValue fun hiValue evalHiEq => ?_
    have loMeans := done.loMeans final args phis env loValue atBefore
      represents evalLoEq
    have hiMeans := done.hiMeans final args phis env hiValue atBefore
      represents evalHiEq
    have effect : states.before.eff ≠ none := by
      rw [done.data.eff]
      exact eff
    rw [← done.data.bindings] at represents
    obtain ⟨phis', enters, atHeader⟩ := done.enters completes
      (done.data.ctrl.trans here) loMeans represents
    have walked := done.goesAround completes sees keeps fresh
      (fun name seen notAcc env => leaves states.before.bindings name seen
        (done.ready.sees name seen) (done.phis.names ▸ notAcc) env)
      effect represents hiMeans _ atHeader rfl
    have size : s.graph.size ≤ states.base := done.data.size
    cases ends : runLoop varName evalBody (tripCount loValue hiValue) loValue
        env with
    | trap => trivial
    | returned v =>
        rw [ends] at walked
        exact enters.trans walked
    | normal last =>
        rw [ends] at walked
        obtain ⟨phis'', i', steps, atEnd⟩ := walked
        refine ⟨states.exit, phis'', rfl, Option.some_ne_none _,
          enters.trans steps, ?_, ?_⟩
        · exact fun id inside =>
            atEnd.below id (Nat.lt_of_lt_of_le inside size)
        · intro name seen
          have other : name ≠ varName := by
            rintro rfl
            exact fresh seen
          rw [Function.update_of_ne other]
          exact done.atHeader_represents completes atEnd bound represents name
            seen

end Lowerer

end Aegis
