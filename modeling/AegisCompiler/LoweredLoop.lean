import AegisCompiler.LoweredHeader

/-!
# Lowering a range loop correctly

The header phis hold the values at the start of each iteration.  A walk goes
around the loop once for every value of the range, by induction on the
iterations that remain.
-/

namespace Aegis

namespace Lowerer

open ControlWalk TypeChecker AstEval

def loopNodeOf (entry : NodeRef) : Node :=
  { kind := .loop, typeId := kInvalidTypeId, inputs := [entry, entry] }

def cmpNodeOf (lhs rhs : NodeRef) : Node :=
  { kind := .cmpLt, typeId := kInvalidTypeId, inputs := [lhs, rhs] }

theorem readsCtrl_loopNodeOf {entry : NodeRef} {slot ctrl : Nat}
    (reads : ReadsCtrl (loopNodeOf entry) slot ctrl) :
    slot ≤ 1 ∧ entry = some ctrl := by
  obtain ⟨-, read⟩ := reads
  rcases slot with _ | _ | slot
  · exact ⟨Nat.zero_le 1, read⟩
  · exact ⟨le_rfl, read⟩
  · cases read

theorem not_readsCtrl_cmpNodeOf {lhs rhs : NodeRef} {slot ctrl : Nat} :
    ¬ ReadsCtrl (cmpNodeOf lhs rhs) slot ctrl :=
  not_readsCtrl_of_kind nofun nofun nofun nofun

/-- The state with the header and the phi of the loop variable. -/
def headed (before : LowerState) (lo : NodeId) : LowerState :=
  pushed (pushed before (loopNodeOf before.ctrl))
    (phiNodeOf (some before.graph.size) [some lo, none])

theorem headed_size (before : LowerState) (lo : NodeId) :
    (headed before lo).graph.size = before.graph.size + 2 := by
  simp only [headed, pushed_size]

theorem headed_loop (before : LowerState) (lo : NodeId) :
    (headed before lo).graph.node before.graph.size =
      loopNodeOf before.ctrl := by
  have inside : before.graph.size <
      (pushed before (loopNodeOf before.ctrl)).graph.size := by
    rw [pushed_size]
    exact Nat.lt_succ_self _
  rw [headed, pushed_old _ _ inside, pushed_new]

theorem headed_phi (before : LowerState) (lo : NodeId) :
    (headed before lo).graph.node (before.graph.size + 1) =
      phiNodeOf (some before.graph.size) [some lo, none] := by
  have new := pushed_new (pushed before (loopNodeOf before.ctrl))
    (phiNodeOf (some before.graph.size) [some lo, none])
  rw [pushed_size] at new
  exact new

/-- The header is ready, and nothing follows it yet. -/
structure Headed (pend : NodeId → Prop) (frame : TypeChecker.Frame)
    (before : LowerState) (lo : NodeId) : Prop where
  ready : Ready (withHeader pend before.graph.size 2) frame
    { headed before lo with ctrl := none }
  unused : Unused (withHeader pend before.graph.size 2)
    (headed before lo).graph before.graph.size
  grows : Grows before (headed before lo)

theorem headed_ready {pend : NodeId → Prop} {frame : TypeChecker.Frame}
    {before : LowerState} (ready : Ready pend frame before) (lo : NodeId) :
    Headed pend frame before lo := by
  have start : Ready (withHeader pend before.graph.size 0) frame
      { before with ctrl := none } := by
    rw [withHeader_zero]
    exact ready.stop before.eff
  have loopFits : Fits (withHeader pend before.graph.size 0)
      (withHeader pend before.graph.size 1) before.graph
      (loopNodeOf before.ctrl) := by
    refine Fits.header start.wired rfl (Or.inl rfl) ?_ ?_ ?_ ?_
    · constructor <;> nofun
    · intro slot ctrl reads _
      rw [withHeader_zero]
      exact ready.ctrl ctrl (readsCtrl_loopNodeOf reads).2
    · intro ctrl reads
      exact (ready.ctrl ctrl (readsCtrl_loopNodeOf reads).2).1
    · exact fun slot ctrl reads => (readsCtrl_loopNodeOf reads).1
  have first := start.pushed loopFits nofun
  have firstSize := pushed_size before (loopNodeOf before.ctrl)
  have phiFits : Fits (withHeader pend before.graph.size 1)
      (withHeader pend before.graph.size 2)
      (pushed before (loopNodeOf before.ctrl)).graph
      (phiNodeOf (some before.graph.size) [some lo, none]) := by
    refine Fits.header first.wired firstSize (Or.inr rfl)
      (wellPlaced_phiNodeOf ?_ _) ?_ ?_ ?_
    · rw [firstSize]
      exact Nat.lt_succ_self _
    · exact fun _ _ reads => absurd reads not_readsCtrl_phiNodeOf
    · exact fun _ reads => absurd reads not_readsCtrl_phiNodeOf
    · exact fun _ _ reads => absurd reads not_readsCtrl_phiNodeOf
  refine ⟨first.pushed phiFits nofun, ?_, ?_⟩
  · exact (start.wired.unused_new loopFits).push phiFits
      fun slot => not_readsCtrl_phiNodeOf
  · refine (((Quiet.refl before).grows fun _ bound => bound).pushed ?_).pushed ?_
    · exact fun slot ctrl reads => Or.inr (readsCtrl_loopNodeOf reads).2
    · exact fun slot ctrl reads => absurd reads not_readsCtrl_phiNodeOf

/-- The state in front of the exit check: the loop variable is bound and
compared with the bound, and the control is the header. -/
def checked (afterPhis : LowerState) (base : NodeId) (varName : SymbolId)
    (hi : NodeId) : LowerState :=
  { pushed afterPhis (cmpNodeOf (some (base + 1)) (some hi)) with
    ctrl := some base
    bindings := afterPhis.bindings.insert varName (some (base + 1)) }

/-- The state at the start of the body. -/
def bodyStart (afterPhis : LowerState) (base : NodeId) (varName : SymbolId)
    (hi : NodeId) : LowerState :=
  { branched (checked afterPhis base varName hi) (some afterPhis.graph.size) with
    ctrl := some ((checked afterPhis base varName hi).graph.size + 1) }

section Opening

variable {pend : NodeId → Prop} {frame inner : TypeChecker.Frame}
variable {before afterPhis : LowerState} {lo hi : NodeId}
variable {names : List SymbolId} {accPhis : List (SymbolId × NodeId)}
variable {varName : SymbolId}

/-- The header with its phis can be branched on. -/
theorem checked_ready (headed : Headed pend frame before lo)
    (phis : HeaderPhis pend before.graph.size 2 frame names accPhis
      (Lowerer.headed before lo) afterPhis)
    (hiInside : hi < before.graph.size)
    (sees : ∀ other, inner.Sees other → frame.Sees other ∨ other = varName) :
    Ready (withHeader pend before.graph.size (2 + names.length)) inner
      (checked afterPhis before.graph.size varName hi) := by
  have size := phis.size
  rw [headed_size] at size
  have loopInside : before.graph.size < afterPhis.graph.size := by
    rw [size, Nat.add_assoc]
    exact Nat.lt_add_of_pos_right (Nat.add_pos_left Nat.two_pos _)
  have phiInside : before.graph.size + 1 < afterPhis.graph.size := by
    rw [size]
    exact Nat.lt_of_lt_of_le (Nat.lt_succ_self _) (Nat.le_add_right _ _)
  have bound := phis.ready.bindName phiInside sees
  let start : LowerState := { afterPhis with
    ctrl := some before.graph.size
    bindings := afterPhis.bindings.insert varName
      (some (before.graph.size + 1)) }
  have here : Ready (withHeader pend before.graph.size (2 + names.length)) inner
      start := bound.setCtrl afterPhis.eff loopInside
    (phis.quiet.unused_header headed.unused)
  have placed : WellPlaced afterPhis.graph.size
      (cmpNodeOf (some (before.graph.size + 1)) (some hi)) := by
    constructor
    · exact fun _ => ⟨_, _, rfl, phiInside, Nat.lt_trans hiInside loopInside⟩
    · nofun
    · nofun
    · nofun
  have data : DataStep start (pushed start _) :=
    DataStep.pushed start placed (fun _ _ => not_readsCtrl_cmpNodeOf) nofun
  exact data.ready _ inner here

theorem grows_checked (headed : Headed pend frame before lo)
    (phis : HeaderPhis pend before.graph.size 2 frame names accPhis
      (Lowerer.headed before lo) afterPhis) :
    Grows before (checked afterPhis before.graph.size varName hi) := by
  have quiet := phis.quiet.grows fun name bound => phis.bound.names bound
  refine ((headed.grows.trans quiet).pushed fun slot ctrl reads =>
    absurd reads not_readsCtrl_cmpNodeOf).resume _ ?_ ?_
  · exact fun c same => Or.inr (Option.some.inj same ▸ le_rfl)
  · intro name bound
    rw [Bindings.mem_names_insert]
    exact Or.inl (phis.bound.names (headed.grows.names name bound))

/-- What the header looks like stays as it is until the back edges are
wired. -/
theorem old_through {base : NodeId} {afterBody afterNext : LowerState}
    (body : Grows (bodyStart afterPhis base varName hi) afterBody)
    (next : DataStep afterBody afterNext) {id : Nat}
    (inside : id < afterPhis.graph.size) :
    afterNext.graph.node id = afterPhis.graph.node id := by
  have inCheck : id < (checked afterPhis base varName hi).graph.size :=
    Nat.lt_of_lt_of_eq (Nat.lt_succ_of_lt inside) (pushed_size afterPhis _).symm
  have inStart : id < (bodyStart afterPhis base varName hi).graph.size :=
    Nat.lt_of_lt_of_eq (Nat.lt_add_right 3 inCheck)
      (branched_size (checked afterPhis base varName hi) _).symm
  have inBody := Nat.lt_of_lt_of_le inStart body.size
  rw [next.old id inBody, body.old id inStart]
  exact (branched_old _ _ inCheck).trans (pushed_old afterPhis _ inside)

/-- All nodes after the header are phis until the exit check. -/
theorem kind_phi (phis : HeaderPhis pend before.graph.size 2 frame names accPhis
      (Lowerer.headed before lo) afterPhis)
    {id : Nat} (after : before.graph.size < id)
    (inside : id < afterPhis.graph.size) :
    (afterPhis.graph.node id).kind = .phi := by
  by_cases first : id = before.graph.size + 1
  · have inHeaded : id < (Lowerer.headed before lo).graph.size := by
      rw [headed_size, first]
      exact Nat.lt_succ_self _
    rw [phis.quiet.old id inHeaded, first]
    exact congrArg Node.kind (headed_phi before lo)
  · refine phis.kinds id ?_ inside
    rw [headed_size]
    exact Nat.lt_of_le_of_ne after (Ne.symm first)

end Opening

theorem run_headed {β : Type} (lo : NodeId) (s : LowerState)
    (next : NodeId → NodeId → LowerM β) :
    (do
      let loop ← make fun g => g.makeLoop s.ctrl s.ctrl
      let phiI ← make fun g =>
        g.makePhi (some loop) [some lo, none] kInvalidTypeId
      next loop phiI) s =
      next s.graph.size (s.graph.size + 1) (headed s lo) := by
  show next s.graph.size (pushed s (loopNodeOf s.ctrl)).graph.size _ = _
  rw [pushed_size]
  rfl

/-- The exit projection of a loop whose exit check starts in this state. -/
def exitOf (start : LowerState) : NodeId := start.graph.size + 2

/-- The state at the exit, before the accumulators are bound. -/
def closedLoop (before afterBody afterWire : LowerState) (exit : NodeId) :
    LowerState :=
  { pushed (rewired afterWire before.graph.size 0 afterBody.ctrl)
      (phiNodeOf (some exit) [before.eff, afterBody.eff]) with
    ctrl := some exit
    eff := some (rewired afterWire before.graph.size 0 afterBody.ctrl).graph.size
    bindings := before.bindings }

/-- The states a loop passes through. -/
structure ForStates (varName : SymbolId) (lo hi : LowerM NodeRef)
    (accumulators : Bindings → List SymbolId) (body : LowerM Unit)
    (s : LowerState) where
  loId : NodeId
  hiId : NodeId
  accPhis : List (SymbolId × NodeId)
  next : NodeId
  afterLo : LowerState
  before : LowerState
  afterPhis : LowerState
  afterBody : LowerState
  afterNext : LowerState
  afterWire : LowerState
  loRun : lo s = .ok (some loId) afterLo
  hiRun : hi afterLo = .ok (some hiId) before
  phisRun : makeAccPhis before.graph.size (accumulators before.bindings)
    (headed before loId) = .ok accPhis afterPhis
  bodyRun : body (bodyStart afterPhis before.graph.size varName hiId) =
    .ok () afterBody
  goesOn : afterBody.ctrl ≠ none
  nextRun : lookupOrInsert .add
    [some (before.graph.size + 1), some afterBody.graph.size]
    (pushed afterBody (constantNode 1)) = .ok next afterNext
  wireRun : wireAccPhis accPhis
    (rewired afterNext (before.graph.size + 1) 2 (some next)) = .ok () afterWire

namespace ForStates

variable {varName : SymbolId} {lo hi : LowerM NodeRef}
variable {accumulators : Bindings → List SymbolId} {body : LowerM Unit}
variable {s : LowerState} (states : ForStates varName lo hi accumulators body s)

/-- The header of the loop; its first phi is the next node. -/
def base : NodeId := states.before.graph.size

/-- The state of the exit check. -/
def check : LowerState :=
  checked states.afterPhis states.before.graph.size varName states.hiId

def start : LowerState :=
  bodyStart states.afterPhis states.before.graph.size varName states.hiId

def exit : NodeId := exitOf states.check

def closed : LowerState :=
  closedLoop states.before states.afterBody states.afterWire states.exit

theorem run : lowerFor varName lo hi accumulators body s =
    bindAccPhis states.accPhis states.closed := by
  rw [lowerFor, run_bind states.loRun, run_bind states.hiRun, run_get]
  refine (run_headed _ _ _).trans ?_
  refine (run_bind states.phisRun).trans ?_
  rw [run_bindName, run_make]
  refine (run_branched _ _ _ _).trans ?_
  rw [run_setCtrl]
  refine (run_bind states.bodyRun).trans ?_
  rw [run_get, if_neg states.goesOn, closeLoop, run_get,
    run_bind (makeConstant_eq 1 _), run_bind states.nextRun, run_setInput,
    run_bind states.wireRun, run_setInput, run_make, run_setEff, run_setCtrl,
    run_setBindings]
  rfl

end ForStates

/-- Every part of a loop is lowered correctly. -/
structure ForDone (pend : NodeId → Prop)
    (frame inner bodyFrame : TypeChecker.Frame)
    (evalLo evalHi : Env → Option Word) (evalBody : Env → StmtOutcome)
    (bodyFree : Prop) {varName : SymbolId} {lo hi : LowerM NodeRef}
    {accumulators : Bindings → List SymbolId} {body : LowerM Unit}
    {s : LowerState} (states : ForStates varName lo hi accumulators body s) :
    Prop where
  ready : Ready pend frame states.before
  data : DataStep s states.before
  loInside : states.loId < states.base
  hiInside : states.hiId < states.base
  loMeans : ∀ final args phis env v, Completes pend states.before.graph final →
    Represents final args frame s.bindings phis env →
    evalLo env = some v → value final args phis states.loId = some v
  hiMeans : ∀ final args phis env v, Completes pend states.before.graph final →
    Represents final args frame s.bindings phis env →
    evalHi env = some v → value final args phis states.hiId = some v
  phis : HeaderPhis pend states.base 2 frame
    (accumulators states.before.bindings) states.accPhis
    (headed states.before states.loId) states.afterPhis
  check : Ready (withHeader pend states.base
    (2 + (accumulators states.before.bindings).length)) inner states.check
  checkGrows : Grows states.before states.check
  body : Lowered (withHeader pend states.base
      (2 + (accumulators states.before.bindings).length)) inner bodyFrame
    evalBody bodyFree states.start states.afterBody
  nextStep : DataStep states.afterBody states.afterNext
  nextInside : states.next < states.afterNext.graph.size
  nextMeans : ∀ final args phis i,
    Completes (withHeader pend states.base
      (2 + (accumulators states.before.bindings).length))
      states.afterNext.graph final →
    value final args phis (states.base + 1) = some i →
    value final args phis states.next = some (i + 1)
  wired : BackWired (withHeader pend states.base
      (2 + (accumulators states.before.bindings).length)) bodyFrame
    states.accPhis
    (rewired states.afterNext (states.base + 1) 2 (some states.next))
    states.afterWire

namespace ForDone

variable {pend : NodeId → Prop} {frame inner bodyFrame : TypeChecker.Frame}
variable {evalLo evalHi : Env → Option Word} {evalBody : Env → StmtOutcome}
variable {bodyFree : Prop} {varName : SymbolId} {lo hi : LowerM NodeRef}
variable {accumulators : Bindings → List SymbolId} {body : LowerM Unit}
variable {s : LowerState} {states : ForStates varName lo hi accumulators body s}
variable (done : ForDone pend frame inner bodyFrame evalLo evalHi evalBody
  bodyFree states)
include done

theorem size_afterPhis : states.afterPhis.graph.size =
    states.base + 2 + (accumulators states.before.bindings).length := by
  rw [done.phis.size, headed_size]
  rfl

omit done in
theorem size_check :
    states.check.graph.size = states.afterPhis.graph.size + 1 :=
  pushed_size states.afterPhis _

theorem opened : Opened (withHeader pend states.base
      (2 + (accumulators states.before.bindings).length)) inner states.check
    (branched states.check (some states.afterPhis.graph.size)) :=
  branched_opened done.check _

omit done in
theorem size_start : states.start.graph.size = states.check.graph.size + 3 :=
  branched_size states.check _

theorem old_afterNext {id : Nat} (inside : id < states.afterPhis.graph.size) :
    states.afterNext.graph.node id = states.afterPhis.graph.node id :=
  old_through done.body.grows done.nextStep inside

theorem size_afterWire :
    states.afterWire.graph.size = states.afterNext.graph.size := by
  rw [done.wired.size, rewired_size]

/-- Apart from the phis the header is wired last. -/
theorem old_afterWire {id : Nat} (inside : id < states.afterPhis.graph.size)
    (notPhi : id ∉ states.accPhis.map Prod.snd) (notFirst : id ≠ states.base + 1) :
    states.afterWire.graph.node id = states.afterPhis.graph.node id := by
  rw [done.wired.other id notPhi, rewired_other _ _ _ notFirst,
    done.old_afterNext inside]

theorem base_inside : states.base < states.afterPhis.graph.size := by
  rw [done.size_afterPhis, Nat.add_assoc]
  exact Nat.lt_add_of_pos_right (Nat.add_pos_left Nat.two_pos _)

/-- The accumulator phis come after the header and its first phi. -/
theorem accPhi_range {id : NodeId} (isPhi : id ∈ states.accPhis.map Prod.snd) :
    states.base + 2 ≤ id ∧ id < states.afterPhis.graph.size := by
  obtain ⟨⟨name, _⟩, member, rfl⟩ := List.mem_map.mp isPhi
  obtain ⟨late, inside, -⟩ := done.phis.node name _ member
  rw [headed_size] at late
  exact ⟨late, inside⟩

theorem loop_afterWire : states.afterWire.graph.node states.base =
    loopNodeOf states.before.ctrl := by
  rw [done.old_afterWire done.base_inside ?_ (Nat.ne_of_lt (Nat.lt_succ_self _))]
  · have inside : states.base < (headed states.before states.loId).graph.size := by
      rw [headed_size]
      exact Nat.lt_add_of_pos_right Nat.two_pos
    rw [done.phis.quiet.old _ inside]
    exact headed_loop states.before states.loId
  · intro isPhi
    exact Nat.not_succ_le_self _
      (Nat.le_of_succ_le (done.accPhi_range isPhi).1)

/-- All pending nodes but the header itself are phis. -/
theorem kind_afterWire {id : Nat} (after : states.base < id)
    (inside : id < states.afterPhis.graph.size) :
    (states.afterWire.graph.node id).kind = .phi := by
  rw [done.wired.kind, rewired_kind, done.old_afterNext inside]
  exact kind_phi done.phis after inside

/-- The body never ends at the exit. -/
theorem back_ne_exit {c : NodeId} (here : states.afterBody.ctrl = some c) :
    c ≠ states.exit := by
  have size : states.start.graph.size = states.exit + 1 := size_start
  rcases done.body.grows.ctrl c here with start | late
  · have same : states.check.graph.size + 1 = c := Option.some.inj start
    rw [← same]
    exact Nat.ne_of_lt (Nat.lt_succ_self _)
  · rw [size] at late
    exact Nat.ne_of_gt late

theorem next_ready : Ready (withHeader pend states.base
      (2 + (accumulators states.before.bindings).length)) bodyFrame
    states.afterNext :=
  done.nextStep.ready _ _ done.body.ready

theorem exit_inside : states.exit < states.afterWire.graph.size := by
  have inBody := Nat.lt_of_lt_of_le done.opened.right.1 done.body.grows.size
  rw [done.size_afterWire]
  exact Nat.lt_of_lt_of_le inBody done.nextStep.size

/-- Nothing follows the exit yet. -/
theorem exit_unused : Unused (withHeader pend states.base
      (2 + (accumulators states.before.bindings).length))
    states.afterWire.graph states.exit := by
  obtain ⟨inside, unused⟩ := done.opened.right
  have inBody := Nat.lt_of_lt_of_le inside done.body.grows.size
  have atBody := done.body.grows.unused inside
    (fun same => Nat.ne_of_lt (Nat.lt_succ_self _) (Option.some.inj same)) unused
  have atNext := done.nextStep.grows.unused inBody
    (fun same => done.back_ne_exit same rfl) atBody
  have isPhi : (states.afterNext.graph.node (states.base + 1)).kind = .phi := by
    have inside : states.base + 1 < states.afterPhis.graph.size := by
      rw [done.size_afterPhis]
      exact Nat.lt_of_lt_of_le (Nat.lt_succ_self _) (Nat.le_add_right _ _)
    have kind := done.kind_afterWire (Nat.lt_succ_self _) inside
    rwa [done.wired.kind, rewired_kind] at kind
  exact done.wired.unused _
    ((done.next_ready.wired.setPhiInput isPhi Nat.two_pos.ne').2 _ atNext)

theorem ctrl_afterWire : states.afterWire.ctrl = states.afterBody.ctrl := by
  have same := congrArg LowerState.ctrl done.wired.rest
  exact same.trans done.nextStep.ctrl

/-- Closing the header leaves a wired graph, with the exit unused. -/
theorem closed_wired : Wired pend
      (rewired states.afterWire states.base 0 states.afterBody.ctrl).graph ∧
    Unused pend
      (rewired states.afterWire states.base 0 states.afterBody.ctrl).graph
      states.exit := by
  obtain ⟨back, here⟩ := Option.ne_none_iff_exists'.mp states.goesOn
  obtain ⟨inside, free⟩ := done.wired.ready.ctrl back
    (done.ctrl_afterWire.trans here)
  have loop := done.loop_afterWire
  have isLoop : (states.afterWire.graph.node states.base).kind = .loop := by
    rw [loop]
    rfl
  have pendingLoop : withHeader pend states.base
      (2 + (accumulators states.before.bindings).length) states.base :=
    Or.inr ⟨le_rfl, Nat.lt_add_of_pos_right (Nat.add_pos_left Nat.two_pos _)⟩
  have notStill : ¬ pend states.base := done.ready.wired.not_pending le_rfl
  have slots : 0 < (states.afterWire.graph.node states.base).inputs.length := by
    rw [loop]
    exact Nat.two_pos
  have others (id : NodeId) (isPending : withHeader pend states.base
      (2 + (accumulators states.before.bindings).length) id) :
      pend id ∨ id = states.base ∨
        (states.afterWire.graph.node id).kind = .phi := by
    rcases isPending with old | ⟨after, inside⟩
    · exact Or.inl old
    · by_cases first : id = states.base
      · exact Or.inr (Or.inl first)
      · refine Or.inr (Or.inr (done.kind_afterWire
          (Nat.lt_of_le_of_ne after (Ne.symm first)) ?_))
        rw [done.size_afterPhis, Nat.add_assoc]
        exact inside
  obtain ⟨wired, unused⟩ := done.wired.ready.wired.closeHeader isLoop
    pendingLoop (fun id isPending => Or.inl isPending) notStill others inside
    free slots
  rw [here]
  exact ⟨wired, unused _ (done.back_ne_exit here).symm done.exit_unused⟩

theorem size_mono : states.before.graph.size ≤ states.afterWire.graph.size := by
  have start := done.checkGrows.size.trans
    (Nat.le_add_right states.check.graph.size 3)
  rw [← size_start] at start
  rw [done.size_afterWire]
  exact (start.trans done.body.grows.size).trans done.nextStep.size

theorem closed_ready : Ready pend frame states.closed := by
  obtain ⟨wired, unused⟩ := done.closed_wired
  have size := rewired_size states.afterWire states.base 0 states.afterBody.ctrl
  let closing : LowerState :=
    { rewired states.afterWire states.base 0 states.afterBody.ctrl with
      ctrl := some states.exit
      eff := some (rewired states.afterWire states.base 0
        states.afterBody.ctrl).graph.size
      bindings := states.before.bindings }
  have ready : Ready pend frame closing := by
    refine ⟨wired, ?_, ?_, done.ready.names, done.ready.sees, ?_⟩
    · refine done.wired.ready.table.setInput 0 _ (Or.inl ?_)
      rw [done.loop_afterWire]
      rfl
    · intro name ref found
      obtain ⟨id, same, inside⟩ := done.ready.bound name ref found
      refine ⟨id, same, ?_⟩
      show id < (rewired states.afterWire _ _ _).graph.size
      rw [size]
      exact Nat.lt_of_lt_of_le inside done.size_mono
    · intro c same
      cases same
      refine ⟨?_, unused⟩
      show states.exit < (rewired states.afterWire _ _ _).graph.size
      rw [size]
      exact done.exit_inside
  have placed : WellPlaced closing.graph.size
      (phiNodeOf (some states.exit)
        [states.before.eff, states.afterBody.eff]) := by
    refine wellPlaced_phiNodeOf ?_ _
    show states.exit < (rewired states.afterWire _ _ _).graph.size
    rw [size]
    exact done.exit_inside
  exact (DataStep.pushed closing placed (fun _ _ => not_readsCtrl_phiNodeOf)
    nofun).ready pend frame ready

/-- Only the header and its phis are rewired after the body. -/
theorem old_closed {id : Nat} (inside : id < states.afterNext.graph.size)
    (notHeader : ¬ (states.base ≤ id ∧ id < states.afterPhis.graph.size)) :
    states.closed.graph.node id = states.afterNext.graph.node id := by
  have size := rewired_size states.afterWire states.base 0 states.afterBody.ctrl
  have notPhi : id ∉ states.accPhis.map Prod.snd := fun isPhi =>
    notHeader ⟨Nat.le_of_add_right_le (done.accPhi_range isPhi).1,
      (done.accPhi_range isPhi).2⟩
  have notBase : id ≠ states.base := by
    rintro rfl
    exact notHeader ⟨le_rfl, done.base_inside⟩
  have notFirst : id ≠ states.base + 1 := by
    rintro rfl
    refine notHeader ⟨Nat.le_succ _, ?_⟩
    rw [done.size_afterPhis]
    exact Nat.lt_of_lt_of_le (Nat.lt_succ_self _) (Nat.le_add_right _ _)
  have old : id < (rewired states.afterWire states.base 0
      states.afterBody.ctrl).graph.size := by
    rw [size, done.size_afterWire]
    exact inside
  refine (pushed_old _ _ old).trans ?_
  rw [rewired_other _ _ _ notBase, done.wired.other id notPhi,
    rewired_other _ _ _ notFirst]

theorem size_closed :
    states.closed.graph.size = states.afterNext.graph.size + 1 := by
  refine (pushed_size _ _).trans ?_
  rw [rewired_size, done.size_afterWire]

theorem size_next : states.before.graph.size ≤ states.afterNext.graph.size := by
  rw [← done.size_afterWire]
  exact done.size_mono

theorem grows_next : Grows states.before states.afterNext := by
  have start := done.checkGrows.trans done.opened.grows
  exact (start.trans done.body.grows).trans done.nextStep.grows

theorem grows_closed : Grows states.before states.closed where
  size := by
    rw [done.size_closed]
    exact Nat.le_succ_of_le done.size_next
  old id inside := by
    rw [done.old_closed (Nat.lt_of_lt_of_le inside done.size_next)
      fun both => Nat.not_lt_of_le both.1 inside]
    exact done.grows_next.old id inside
  reads user slot ctrl new reads := by
    have size :=
      rewired_size states.afterWire states.base 0 states.afterBody.ctrl
    have reads : ReadsCtrl ((pushed (rewired states.afterWire states.base 0
        states.afterBody.ctrl) _).graph.node user) slot ctrl := reads
    rw [pushed, Graph.pushNode_node] at reads
    split at reads
    · exact absurd reads not_readsCtrl_phiNodeOf
    by_cases header : states.base ≤ user ∧ user < states.afterPhis.graph.size
    · by_cases first : user = states.base
      · subst first
        rw [rewired, Graph.setInput_node, if_pos rfl, done.loop_afterWire]
          at reads
        obtain ⟨-, read⟩ := reads
        rcases slot with _ | _ | slot
        · have back : states.afterBody.ctrl = some ctrl := read
          rw [← done.nextStep.ctrl] at back
          exact (done.grows_next.ctrl ctrl back).symm
        · exact Or.inr read
        · cases read
      · have isPhi := done.kind_afterWire
          (Nat.lt_of_le_of_ne header.1 (Ne.symm first)) header.2
        rw [rewired_other _ _ _ first] at reads
        refine absurd reads (not_readsCtrl_of_kind ?_ ?_ ?_ ?_) <;>
          rw [isPhi] <;> decide
    · have inside := readsCtrl_inside reads
      rw [size, done.size_afterWire] at inside
      have node : (rewired states.afterWire states.base 0
          states.afterBody.ctrl).graph.node user =
          states.closed.graph.node user := by
        refine (pushed_old _ _ ?_).symm
        rw [size, done.size_afterWire]
        exact inside
      rw [node, done.old_closed inside header] at reads
      exact done.grows_next.reads user slot ctrl new reads
  ctrl c same := by
    have isExit : states.exit = c := Option.some.inj same
    refine Or.inr (isExit ▸ ?_)
    exact done.checkGrows.size.trans (Nat.le_add_right _ 2)
  names _ bound := bound

end ForDone

end Lowerer

end Aegis
