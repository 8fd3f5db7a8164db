import AegisCompiler.CarriedVariables

/-!
# Control made by lowering

The control inputs of a node that lowering a tree makes are nodes it made
before, or the control it started from.  This holds for any tree, whether
lowering it succeeds or not.
-/

namespace Aegis

namespace Lowerer

/-- The kinds of the nodes through which the control is followed upwards. -/
def IsUpward (kind : NodeKind) : Prop :=
  kind = .region ∨ kind = .ifNode ∨ kind = .proj

/-- The next node upwards: a predecessor of a region, or the first input of an If
or of a projection. -/
def LeadsUp (n : Node) (c : NodeId) : Prop :=
  n.kind = .region ∧ some c ∈ n.inputs ∨
    (n.kind = .ifNode ∨ n.kind = .proj) ∧ n.inputs.getD 0 none = some c

theorem LeadsUp.isUpward {n : Node} {c : NodeId} (up : LeadsUp n c) : IsUpward n.kind := by
  rcases up with ⟨kind, -⟩ | ⟨kind, -⟩
  · exact Or.inl kind
  · exact Or.inr kind

/-- The later graph has the nodes of the earlier one, with the same ways up. -/
structure KeepsUpward (g h : Graph) : Prop where
  size : g.size ≤ h.size
  kind : ∀ id, id < g.size → (h.node id).kind = (g.node id).kind
  inputs : ∀ id, id < g.size → IsUpward (g.node id).kind →
    (h.node id).inputs = (g.node id).inputs

theorem KeepsUpward.refl (g : Graph) : KeepsUpward g g :=
  ⟨le_rfl, fun _ _ => rfl, fun _ _ _ => rfl⟩

theorem KeepsUpward.trans {g h i : Graph} (first : KeepsUpward g h)
    (second : KeepsUpward h i) : KeepsUpward g i where
  size := first.size.trans second.size
  kind id old := (second.kind id (Nat.lt_of_lt_of_le old first.size)).trans
    (first.kind id old)
  inputs id old upward := by
    have middle := Nat.lt_of_lt_of_le old first.size
    rw [second.inputs id middle (by rwa [first.kind id old]), first.inputs id old upward]

theorem KeepsUpward.leadsUp {g h : Graph} (keeps : KeepsUpward g h) {id c : NodeId}
    (old : id < g.size) : LeadsUp (h.node id) c ↔ LeadsUp (g.node id) c := by
  have kind := keeps.kind id old
  by_cases upward : IsUpward (g.node id).kind
  · rw [LeadsUp, LeadsUp, kind, keeps.inputs id old upward]
  · constructor
    · intro up
      have isUpward := up.isUpward
      rw [kind] at isUpward
      exact absurd isUpward upward
    · exact fun up => absurd up.isUpward upward

/-- The control of the state is a node of its graph. -/
def CtrlInside (s : LowerState) : Prop := ∀ c, s.ctrl = some c → c < s.graph.size

/-- The node was made after the state, or is its control. -/
def Since (s : LowerState) (c : NodeId) : Prop := s.graph.size ≤ c ∨ s.ctrl = some c

/-- A node made after the state may lead up to this one: to the control of the
state only from an If. -/
def SinceFor (s : LowerState) (n : Node) (c : NodeId) : Prop :=
  s.graph.size ≤ c ∨ s.ctrl = some c ∧ n.kind = .ifNode

/-- What is made from a state on leads up to later nodes or to the control of the
state. -/
structure Descends (s t : LowerState) : Prop where
  keeps : KeepsUpward s.graph t.graph
  up : ∀ id c, s.graph.size ≤ id → LeadsUp (t.graph.node id) c →
    c < id ∧ SinceFor s (t.graph.node id) c
  ctrl : ∀ c, t.ctrl = some c → c < t.graph.size ∧ Since s c

theorem not_leadsUp_outside {g : Graph} {id c : NodeId} (outside : g.size ≤ id) :
    ¬ LeadsUp (g.node id) c := by
  rw [g.node_of_size_le outside]
  rintro (⟨kind, -⟩ | ⟨kind | kind, -⟩) <;> cases kind

theorem Descends.refl {s : LowerState} (inside : CtrlInside s) : Descends s s where
  keeps := KeepsUpward.refl s.graph
  up _ _ new up := absurd up (not_leadsUp_outside new)
  ctrl c here := ⟨inside c here, Or.inr here⟩

theorem Descends.inside {s t : LowerState} (descends : Descends s t) : CtrlInside t :=
  fun c here => (descends.ctrl c here).1

theorem Descends.since {s t : LowerState} (descends : Descends s t) {c : NodeId}
    (later : Since t c) : Since s c := by
  rcases later with late | current
  · exact Or.inl (descends.keeps.size.trans late)
  · exact (descends.ctrl c current).2

theorem Descends.sinceFor {s t : LowerState} (descends : Descends s t) {n : Node}
    {c : NodeId} (later : SinceFor t n c) : SinceFor s n c := by
  rcases later with late | ⟨current, isIf⟩
  · exact Or.inl (descends.keeps.size.trans late)
  · exact (descends.ctrl c current).2.imp_right fun here => ⟨here, isIf⟩

theorem Descends.trans {s t u : LowerState} (first : Descends s t) (second : Descends t u) :
    Descends s u where
  keeps := first.keeps.trans second.keeps
  up id c new up := by
    by_cases middle : id < t.graph.size
    · rw [SinceFor, second.keeps.kind id middle]
      exact first.up id c new ((second.keeps.leadsUp middle).mp up)
    · obtain ⟨below, since⟩ := second.up id c (Nat.le_of_not_lt middle) up
      exact ⟨below, first.sinceFor since⟩
  ctrl c here := by
    obtain ⟨below, since⟩ := second.ctrl c here
    exact ⟨below, first.since since⟩

/-- Nothing that matters changes. -/
theorem Descends.same {s t u : LowerState} (descends : Descends s t)
    (graph : u.graph = t.graph) (ctrl : u.ctrl = t.ctrl) : Descends s u where
  keeps := by
    rw [graph]
    exact descends.keeps
  up := by
    rw [graph]
    exact descends.up
  ctrl := by
    rw [graph, ctrl]
    exact descends.ctrl

/-- Continue from another control. -/
theorem Descends.resume {s t : LowerState} (descends : Descends s t) {ctrl : NodeRef}
    (inside : ∀ c, ctrl = some c → c < t.graph.size ∧ Since s c) :
    Descends s { t with ctrl } where
  keeps := descends.keeps
  up := descends.up
  ctrl := inside

theorem KeepsUpward.push (g : Graph) (n : Node) : KeepsUpward g (g.pushNode n).2 where
  size := by
    rw [Graph.pushNode_size]
    exact Nat.le_succ _
  kind id old := by rw [g.pushNode_node_of_lt n old]
  inputs id old _ := by rw [g.pushNode_node_of_lt n old]

theorem Descends.push {s t : LowerState} (descends : Descends s t) {n : Node}
    (up : ∀ c, LeadsUp n c → c < t.graph.size ∧ SinceFor s n c) :
    Descends s (pushed t n) where
  keeps := descends.keeps.trans (KeepsUpward.push t.graph n)
  up id c new leads := by
    rw [Lowerer.pushed, Graph.pushNode_node] at leads ⊢
    split at leads
    case isTrue here =>
      rw [here, if_pos rfl]
      exact up c leads
    case isFalse there =>
      rw [if_neg there]
      exact descends.up id c new leads
  ctrl c here := by
    obtain ⟨below, since⟩ := descends.ctrl c here
    rw [pushed_size]
    exact ⟨Nat.lt_succ_of_lt below, since⟩

theorem KeepsUpward.setInput {g : Graph} {id : NodeId} (other : ¬ IsUpward (g.node id).kind)
    (slot : Nat) (ref : NodeRef) : KeepsUpward g (g.setInput id slot ref) where
  size := by rw [Graph.setInput_size]
  kind user _ := by
    rw [Graph.setInput_node]
    split <;> rfl
  inputs user _ upward := by
    rw [Graph.setInput_node]
    split
    case isTrue same => exact absurd (same ▸ upward) other
    case isFalse => rfl

theorem Descends.setInput {s t : LowerState} (descends : Descends s t) {id : NodeId}
    (other : ¬ IsUpward (t.graph.node id).kind) (slot : Nat) (ref : NodeRef) :
    Descends s { t with graph := t.graph.setInput id slot ref } where
  keeps := descends.keeps.trans (KeepsUpward.setInput other slot ref)
  up user c new up := by
    change LeadsUp ((t.graph.setInput id slot ref).node user) c at up
    change c < user ∧ SinceFor s ((t.graph.setInput id slot ref).node user) c
    rw [Graph.setInput_node] at up ⊢
    by_cases same : user = id
    · subst same
      rw [if_pos rfl] at up
      exact absurd up.isUpward other
    · rw [if_neg same] at up ⊢
      exact descends.up user c new up
  ctrl c here := by
    obtain ⟨below, since⟩ := descends.ctrl c here
    refine ⟨?_, since⟩
    change c < (t.graph.setInput id slot ref).size
    rwa [Graph.setInput_size]

/-- Whatever the computation makes descends from the state it starts from. -/
def RunsDown {α : Type} (run : LowerM α) : Prop :=
  ∀ s, CtrlInside s → Descends s (finalState run s)

section Rules

variable {α β : Type}

theorem Descends.bind {o s : LowerState} {first : LowerM α} {next : α → LowerM β}
    (here : Descends o (finalState first s))
    (rest : ∀ value t, first s = .ok value t → Descends o t →
      Descends o (finalState (next value) t)) :
    Descends o (finalState (first >>= next) s) := by
  cases started : first s with
  | ok value t =>
      rw [finalState_ok started] at here
      have after := rest value t started here
      rwa [finalState, run_bind started]
  | error e t =>
      rw [finalState_error started] at here
      have same : (first >>= next) s = .error e t := by
        simp only [Bind.bind, EStateM.bind, started]
      rwa [finalState_error same]

theorem Descends.read {o s : LowerState} {next : LowerState → LowerM α}
    (rest : Descends o (finalState (next s) s)) : Descends o (finalState (get >>= next) s) :=
  rest

theorem RunsDown.after {run : LowerM α} (down : RunsDown run) {o s : LowerState}
    (before : Descends o s) : Descends o (finalState run s) :=
  before.trans (down s before.inside)

theorem RunsDown.ok {run : LowerM α} (down : RunsDown run) {s t : LowerState} {value : α}
    (inside : CtrlInside s) (ran : run s = .ok value t) : Descends s t := by
  have descends := down s inside
  rwa [finalState_ok ran] at descends

theorem RunsDown.pure (value : α) : RunsDown (pure value : LowerM α) :=
  fun _ inside => Descends.refl inside

theorem RunsDown.throw (e : TypeError) : RunsDown (throw e : LowerM α) :=
  fun _ inside => Descends.refl inside

theorem RunsDown.bind {first : LowerM α} {next : α → LowerM β} (down : RunsDown first)
    (rest : ∀ value, RunsDown (next value)) : RunsDown (first >>= next) :=
  fun s inside => (down s inside).bind fun value _ _ before => (rest value).after before

theorem RunsDown.get {next : LowerState → LowerM α} (rest : ∀ s, RunsDown (next s)) :
    RunsDown (get >>= next) :=
  fun s inside => rest s s inside

theorem RunsDown.map {run : LowerM α} (down : RunsDown run) (update : α → β) :
    RunsDown (update <$> run) := by
  rw [map_eq_pure_bind]
  exact down.bind fun _ => RunsDown.pure _

theorem RunsDown.ignoreError {run : LowerM α} (down : RunsDown run) :
    RunsDown (ignoreError run) := by
  intro s inside
  have same : finalState (Lowerer.ignoreError run) s = finalState run s := by
    simp only [finalState, Lowerer.ignoreError]
    cases run s <;> rfl
  rw [same]
  exact down s inside

theorem RunsDown.bindName (name : SymbolId) (ref : NodeRef) : RunsDown (bindName name ref) :=
  fun _ inside => (Descends.refl inside).same rfl rfl

theorem RunsDown.setEff (eff : NodeRef) : RunsDown (setEff eff) :=
  fun _ inside => (Descends.refl inside).same rfl rfl

/-- Appending a node through which no control is followed. -/
theorem RunsDown.push {n : Node} (other : ¬ IsUpward n.kind) :
    RunsDown (make fun g => g.pushNode n) :=
  fun _ inside => (Descends.refl inside).push fun _ up => absurd up.isUpward other

theorem RunsDown.makeNode {kind : NodeKind} (other : ¬ IsUpward kind)
    (inputs : List NodeRef) (typeId : TypeId) (payload : NodePayload) :
    RunsDown (make fun g => g.makeNode kind inputs typeId payload) :=
  RunsDown.push other

theorem RunsDown.makeConstant (value : Word) : RunsDown (makeConstant value) :=
  RunsDown.push (by simp [IsUpward])

theorem RunsDown.makePhi (region : NodeRef) (values : List NodeRef) (typeId : TypeId) :
    RunsDown (make fun g => g.makePhi region values typeId) :=
  RunsDown.push (by simp [IsUpward])

theorem RunsDown.lookupOrInsert {kind : NodeKind} (other : ¬ IsUpward kind)
    (inputs : List NodeRef) : RunsDown (lookupOrInsert kind inputs) := by
  intro s inside
  rcases lookupOrInsert_cases kind inputs s with ⟨id, -, ran⟩ | ran
  · rw [finalState_ok ran]
    exact Descends.refl inside
  · rw [finalState_ok ran]
    let n : Node := { kind, effect := effectClassOf kind, typeId := kInvalidTypeId, inputs }
    have pushed : Descends s (pushed s n) :=
      (Descends.refl inside).push fun _ up => absurd up.isUpward other
    exact pushed.same rfl rfl

theorem RunsDown.boundOrZero (name : SymbolId) : RunsDown (boundOrZero name) := by
  refine RunsDown.get fun s => ?_
  cases s.bindings.get name with
  | some ref => exact RunsDown.pure ref
  | none => exact (RunsDown.makeConstant 0).bind fun _ => RunsDown.pure _

theorem binop_not_upward (op : TokenKind) : ¬ IsUpward (binopToNodeKind op) := by
  cases op <;> simp [IsUpward, binopToNodeKind]

theorem unop_not_upward (op : TokenKind) : ¬ IsUpward (unopToNodeKind op) := by
  cases op <;> simp [IsUpward, unopToNodeKind]

theorem assign_not_upward (op : TokenKind) : ¬ IsUpward (assignNodeKind op) := by
  cases op <;> simp [IsUpward, assignNodeKind, binopToNodeKind]

theorem RunsDown.mergeBindings (region : NodeId) (afterElse bindings : Bindings) :
    RunsDown (mergeBindings region afterElse bindings) := by
  induction bindings with
  | nil => exact RunsDown.pure ()
  | cons entry rest ih =>
      obtain ⟨name, thenValue⟩ := entry
      have plain := (RunsDown.bindName name thenValue).bind fun _ => ih
      rw [Lowerer.mergeBindings]
      split
      case h_1 elseValue found =>
        split
        · refine (RunsDown.makePhi _ _ _).bind fun phi => ?_
          exact (RunsDown.bindName name (some phi)).bind fun _ => ih
        · exact plain
      case h_2 => exact plain

theorem RunsDown.assignName (op : TokenKind) {kind : NodeKind} (other : ¬ IsUpward kind)
    (name : SymbolId) (value : NodeRef) : RunsDown (assignName op kind name value) := by
  rw [Lowerer.assignName]
  split
  · exact (RunsDown.bindName name value).bind fun _ => RunsDown.pure _
  · refine (RunsDown.boundOrZero name).bind fun old => ?_
    refine (RunsDown.lookupOrInsert other _).bind fun folded => ?_
    exact (RunsDown.bindName name _).bind fun _ => RunsDown.pure _

theorem RunsDown.lowerLeaf (n : Ast) : RunsDown (lowerLeaf n) := by
  cases n
  case ident name =>
    refine RunsDown.get fun s => ?_
    cases s.bindings.get name with
    | some ref => exact RunsDown.pure ref
    | none =>
        have other : ¬ IsUpward .parameter := by simp [IsUpward]
        exact (RunsDown.makeNode other _ _ _).bind fun _ => RunsDown.pure _
  all_goals exact (RunsDown.makeConstant _).map some

theorem RunsDown.lowerBinary (op : TokenKind) {lhs rhs : LowerM NodeRef}
    (left : RunsDown lhs) (right : RunsDown rhs) : RunsDown (lowerBinary op lhs rhs) :=
  left.bind fun _ => right.bind fun _ =>
    (RunsDown.lookupOrInsert (binop_not_upward op) _).bind fun _ => RunsDown.pure _

theorem RunsDown.lowerUnary (op : TokenKind) {operand : LowerM NodeRef}
    (inner : RunsDown operand) : RunsDown (lowerUnary op operand) :=
  inner.bind fun _ => (RunsDown.lookupOrInsert (unop_not_upward op) _).bind fun _ =>
    RunsDown.pure _

theorem RunsDown.lowerLet (name : SymbolId) {init : LowerM NodeRef} (inner : RunsDown init) :
    RunsDown (lowerLet name init) :=
  inner.bind fun _ => RunsDown.bindName _ _

theorem RunsDown.lowerAssign (op : TokenKind) {kind : NodeKind} (other : ¬ IsUpward kind)
    (target : Ast) {value : LowerM NodeRef} (inner : RunsDown value) :
    RunsDown (lowerAssign op kind target value) := by
  refine inner.bind fun assigned => ?_
  split
  · exact RunsDown.assignName op other _ _
  · exact RunsDown.pure _

/-- The projection of a call leads up to the call. -/
theorem RunsDown.lowerCall (callee : Ast) {args : LowerM (List NodeRef)}
    (inner : RunsDown args) : RunsDown (lowerCall callee args) := by
  refine inner.bind fun values s inside => ?_
  let call : Node :=
    { kind := .callAltered, effect := effectClassOf .callAltered, typeId := kInvalidTypeId
      payload := .ofSym (calleeSymbol callee), inputs := s.ctrl :: s.eff :: values }
  let proj : Node :=
    { kind := .proj, effect := effectClassOf .proj, typeId := kInvalidTypeId
      payload := .ofProjIndex 0, inputs := [some s.graph.size] }
  have called : Descends s (pushed s call) :=
    (Descends.refl inside).push fun _ up => by
      rcases up.isUpward with kind | kind | kind <;> cases kind
  have projected : Descends s (pushed (pushed s call) proj) := called.push fun c up => by
    rcases up with ⟨kind, -⟩ | ⟨-, first⟩
    · cases kind
    · cases first
      rw [pushed_size]
      exact ⟨Nat.lt_succ_self _, Or.inl le_rfl⟩
  exact projected.same rfl rfl

theorem Descends.setCtrl {s t : LowerState} (descends : Descends s t) {c : NodeId}
    (below : c < t.graph.size) (new : s.graph.size ≤ c) :
    Descends s { t with ctrl := some c } :=
  descends.resume fun _ same => Option.some.inj same ▸ ⟨below, Or.inl new⟩

theorem RunsDown.lowerReturn {value : LowerM NodeRef} (inner : RunsDown value) :
    RunsDown (lowerReturn value) := by
  refine inner.bind fun result s inside => ?_
  let ret : Node :=
    { kind := .returnNode, effect := effectClassOf .returnNode, typeId := kInvalidTypeId
      payload := 0, inputs := [s.ctrl, s.eff, result] }
  have made : Descends s (pushed s ret) := (Descends.refl inside).push fun _ up => by
    rcases up.isUpward with kind | kind | kind <;> cases kind
  have left : Descends s { pushed s ret with ctrl := none } := made.resume fun _ same => by
    cases same
  exact left.same rfl rfl

end Rules

section Branches

variable (order : TableOrder) {cond : LowerM NodeRef} {thenBranch elseBranch : LowerM Unit}

/-- The state in front of the first arm. -/
def thenStart (before : LowerState) (cond : NodeRef) : LowerState :=
  { branched before cond with ctrl := some (before.graph.size + 1) }

/-- The state in front of the second arm. -/
def elseStart (before afterThen : LowerState) : LowerState :=
  { afterThen with
    ctrl := some (before.graph.size + 2), eff := before.eff, bindings := before.bindings }

/-- The state at the region, before the bindings are merged. -/
def mergeStart (afterThen afterElse : LowerState) : LowerState :=
  { pushed afterElse (regionNodeOf [afterThen.ctrl, afterElse.ctrl]) with
    ctrl := some afterElse.graph.size
    eff := if afterThen.eff ≠ none then afterThen.eff else afterElse.eff }

/-- The part of a branch behind its arms. -/
def mergeArms (afterThen : LowerState) : LowerM Unit := do
  let afterElse ← get
  let region ← make fun g => g.makeRegion [afterThen.ctrl, afterElse.ctrl]
  setCtrl (some region)
  setEff (if afterThen.eff ≠ none then afterThen.eff else afterElse.eff)
  mergeBindings region afterElse.bindings (order.enumerate afterThen.graph afterThen.bindings)

/-- The part of a branch behind its first arm. -/
def secondArm (before : LowerState) (elseBranch : LowerM Unit) : LowerM Unit := do
  let afterThen ← get
  setCtrl (some (before.graph.size + 2))
  setEff before.eff
  setBindings before.bindings
  elseBranch
  mergeArms order afterThen

theorem lowerIf_arms {s before : LowerState} {value : NodeRef}
    (condRan : cond s = .ok value before) :
    lowerIf order cond thenBranch elseBranch s =
      (thenBranch >>= fun _ => secondArm order before elseBranch)
        (thenStart before value) := by
  rw [lowerIf, run_bind condRan, run_get]
  refine (run_branched _ _ _ _).trans ?_
  rw [run_setCtrl]
  rfl

theorem secondArm_arms (before afterThen : LowerState) :
    secondArm order before elseBranch afterThen =
      (elseBranch >>= fun _ => mergeArms order afterThen) (elseStart before afterThen) := rfl

theorem mergeArms_merge (afterThen afterElse : LowerState) :
    mergeArms order afterThen afterElse =
      mergeBindings afterElse.graph.size afterElse.bindings
        (order.enumerate afterThen.graph afterThen.bindings) (mergeStart afterThen afterElse) := rfl

theorem Descends.branched {before : LowerState} (inside : CtrlInside before)
    (cond : NodeRef) : Descends before (thenStart before cond) := by
  have fork : Descends before (pushed before (ifNodeOf before.ctrl cond)) :=
    (Descends.refl inside).push fun c up => by
      rcases up with ⟨kind, -⟩ | ⟨-, first⟩
      · cases kind
      · exact ⟨inside c first, Or.inr ⟨first, rfl⟩⟩
  have proj {t : LowerState} (descends : Descends before t)
      (below : before.graph.size < t.graph.size) (which : BitVec 32) :
      Descends before (pushed t (projNodeOf (some before.graph.size) which)) :=
    descends.push fun c up => by
      rcases up with ⟨kind, -⟩ | ⟨-, first⟩
      · cases kind
      · cases first
        exact ⟨below, Or.inl le_rfl⟩
  have both : Descends before (Lowerer.branched before cond) := by
    refine proj (proj fork ?_ 0) ?_ 1
    · rw [pushed_size]
      exact Nat.lt_succ_self _
    · rw [pushed_size, pushed_size]
      exact Nat.lt_succ_of_lt (Nat.lt_succ_self _)
  refine both.setCtrl ?_ (Nat.le_succ _)
  rw [branched_size]
  exact Nat.add_lt_add_left (by decide) _

theorem Descends.elseStart {before afterThen : LowerState} {cond : NodeRef}
    (arm : Descends (thenStart before cond) afterThen)
    (descends : Descends before afterThen) : Descends before (elseStart before afterThen) := by
  have below : before.graph.size + 2 < afterThen.graph.size := by
    have size := arm.keeps.size
    change (Lowerer.branched before cond).graph.size ≤ _ at size
    rw [branched_size] at size
    exact size
  exact (descends.setCtrl below (Nat.le_add_right _ _)).same rfl rfl

/-- The arms end at nodes that are made after the condition. -/
theorem Descends.since_arm {before start after : LowerState} (arm : Descends start after)
    (opened : before.graph.size ≤ start.graph.size) {c : NodeId}
    (new : ∀ p, start.ctrl = some p → before.graph.size ≤ p) (here : after.ctrl = some c) :
    before.graph.size ≤ c := by
  rcases (arm.ctrl c here).2 with late | entry
  · exact opened.trans late
  · exact new c entry

theorem Descends.mergeStart {before afterThen afterElse : LowerState} {cond : NodeRef}
    (left : Descends (thenStart before cond) afterThen)
    (right : Descends (Lowerer.elseStart before afterThen) afterElse)
    (descends : Descends before afterElse) :
    Descends before (mergeStart afterThen afterElse) := by
  have forked : before.graph.size ≤ (thenStart before cond).graph.size := by
    change _ ≤ (Lowerer.branched before cond).graph.size
    rw [branched_size]
    exact Nat.le_add_right _ _
  have turned : afterThen.graph.size ≤ afterElse.graph.size := right.keeps.size
  have region : Descends before
      (pushed afterElse (regionNodeOf [afterThen.ctrl, afterElse.ctrl])) :=
    descends.push fun c up => by
      rcases up with ⟨-, pred⟩ | ⟨kind | kind, -⟩
      · rcases List.mem_cons.mp pred with here | there
        · refine ⟨Nat.lt_of_lt_of_le (left.ctrl c here.symm).1 turned, Or.inl ?_⟩
          refine left.since_arm forked (fun p entry => ?_) here.symm
          cases entry
          exact Nat.le_succ _
        · have here := (List.mem_singleton.mp there).symm
          refine ⟨(right.ctrl c here).1, Or.inl ?_⟩
          refine right.since_arm (forked.trans left.keeps.size) (fun p entry => ?_) here
          cases entry
          exact Nat.le_add_right _ _
      · cases kind
      · cases kind
  refine (region.setCtrl ?_ descends.keeps.size).same rfl rfl
  rw [pushed_size]
  exact Nat.lt_succ_self _

theorem RunsDown.lowerIf (condDown : RunsDown cond) (thenDown : RunsDown thenBranch)
    (elseDown : RunsDown elseBranch) :
    RunsDown (lowerIf order cond thenBranch elseBranch) := by
  intro s inside
  cases condRan : cond s with
  | error e t =>
      have down := condDown s inside
      rw [finalState_error condRan] at down
      have same : Lowerer.lowerIf order cond thenBranch elseBranch s = .error e t := by
        simp only [Lowerer.lowerIf, Bind.bind, EStateM.bind, condRan]
      rwa [finalState_error same]
  | ok value before =>
      have toBefore := condDown.ok inside condRan
      have same : finalState (Lowerer.lowerIf order cond thenBranch elseBranch) s =
          finalState (thenBranch >>= fun _ => secondArm order before elseBranch)
            (thenStart before value) := by
        rw [finalState, finalState, lowerIf_arms order condRan]
      rw [same]
      refine toBefore.trans ?_
      have opened := Descends.branched toBefore.inside value
      refine (thenDown.after opened).bind fun _ afterThen thenRan left => ?_
      have inThen := thenDown.ok opened.inside thenRan
      have turned := inThen.elseStart left
      change Descends before (finalState (elseBranch >>= fun _ => mergeArms order afterThen)
        (elseStart before afterThen))
      refine Descends.bind (elseDown.after turned) fun _ afterElse elseRan right => ?_
      have inElse := elseDown.ok turned.inside elseRan
      exact (RunsDown.mergeBindings _ _ _).after (inThen.mergeStart inElse right)

end Branches

/-- The node is there, and no control is followed through it. -/
def IsHeader (t : LowerState) (id : NodeId) : Prop :=
  id < t.graph.size ∧ ¬ IsUpward (t.graph.node id).kind

theorem IsHeader.later {t u : LowerState} {id : NodeId} (header : IsHeader t id)
    (keeps : KeepsUpward t.graph u.graph) : IsHeader u id := by
  refine ⟨Nat.lt_of_lt_of_le header.1 keeps.size, ?_⟩
  rw [keeps.kind id header.1]
  exact header.2

theorem isHeader_new {s : LowerState} {n : Node} (other : ¬ IsUpward n.kind) :
    IsHeader (pushed s n) s.graph.size := by
  refine ⟨?_, ?_⟩
  · rw [pushed_size]
    exact Nat.lt_succ_self _
  · rwa [pushed_new]

theorem RunsDown.makeAccPhis (loop : NodeId) (names : List SymbolId) :
    RunsDown (makeAccPhis loop names) := by
  induction names with
  | nil => exact RunsDown.pure []
  | cons name names ih =>
      refine (RunsDown.boundOrZero name).bind fun entry => ?_
      refine (RunsDown.makePhi _ _ _).bind fun phi => ?_
      refine (RunsDown.bindName name _).bind fun _ => ?_
      exact ih.bind fun _ => RunsDown.pure _

theorem makeAccPhis_headers {loop : NodeId} {names : List SymbolId} {s t : LowerState}
    {accPhis : List (SymbolId × NodeId)} (inside : CtrlInside s)
    (ran : makeAccPhis loop names s = .ok accPhis t) :
    ∀ acc ∈ accPhis, IsHeader t acc.2 := by
  induction names generalizing s accPhis with
  | nil =>
      cases ran
      intro acc member
      cases member
  | cons name names ih =>
      rw [makeAccPhis] at ran
      obtain ⟨entry, u, bound, ran⟩ := bind_inv ran
      have down := (RunsDown.boundOrZero name).ok inside bound
      rw [run_make, run_bindName] at ran
      obtain ⟨rest, v, restRan, done⟩ := bind_inv ran
      cases done
      let n : Node := phiNodeOf (some loop) [entry, none]
      have other : ¬ IsUpward n.kind := by simp [IsUpward, n, phiNodeOf]
      have made := isHeader_new (s := u) other
      have here : Descends s (pushed u n) :=
        down.push fun _ up => absurd up.isUpward other
      have named : Descends s { pushed u n with
          bindings := u.bindings.insert name (some u.graph.size) } := here.same rfl rfl
      have later := (RunsDown.makeAccPhis loop names).ok named.inside restRan
      intro acc member
      rcases List.mem_cons.mp member with rfl | inRest
      · exact made.later later.keeps
      · exact ih named.inside restRan acc inRest

/-- What is remembered of a loop that was entered from a state. -/
structure EntryMade (s : LowerState) (entry : LoopEntry) (t : LowerState) : Prop where
  loop : IsHeader t entry.loop
  phiI : IsHeader t entry.phiI
  accPhis : ∀ acc ∈ entry.accPhis, IsHeader t acc.2
  exit : s.graph.size ≤ entry.exit ∧ entry.exit < t.graph.size

theorem EntryMade.later {s t u : LowerState} {entry : LoopEntry} (made : EntryMade s entry t)
    (keeps : KeepsUpward t.graph u.graph) : EntryMade s entry u where
  loop := made.loop.later keeps
  phiI := made.phiI.later keeps
  accPhis acc member := (made.accPhis acc member).later keeps
  exit := ⟨made.exit.1, Nat.lt_of_lt_of_le made.exit.2 keeps.size⟩

section Loops

variable {varName : SymbolId} {lo hi : LowerM NodeRef} {accumulators : Bindings → List SymbolId}
variable {body : LowerM Unit}

/-- The part of a loop between its phis and its body. -/
def openTest (varName : SymbolId) (before : LowerState) (loop phiI : NodeId)
    (hiValue : NodeRef) (accPhis : List (SymbolId × NodeId)) : LowerM LoopEntry := do
  bindName varName (some phiI)
  let cmp ← make fun g => g.makeCmp .cmpLt (some phiI) hiValue
  let ifNode ← make fun g => g.makeIf (some loop) (some cmp)
  let trueProj ← make fun g => g.makeProj (some ifNode) 0
  let falseProj ← make fun g => g.makeProj (some ifNode) 1
  setCtrl (some trueProj)
  return ⟨before, loop, phiI, falseProj, accPhis⟩

/-- The part of a loop between its bounds and its body. -/
def openHeader (varName : SymbolId) (accumulators : Bindings → List SymbolId)
    (loValue hiValue : NodeRef) : LowerM LoopEntry := do
  let before ← get
  let loop ← make fun g => g.makeLoop before.ctrl before.ctrl
  let phiI ← make fun g => g.makePhi (some loop) [loValue, none] kInvalidTypeId
  let accPhis ← makeAccPhis loop (accumulators before.bindings)
  openTest varName before loop phiI hiValue accPhis

/-- The state in front of the If of a loop, with the loop as its control. -/
def testStart (varName : SymbolId) (u : LowerState) (loop phiI : NodeId)
    (hiValue : NodeRef) : LowerState :=
  { pushed u (cmpNodeOf (some phiI) hiValue) with
    ctrl := some loop, bindings := u.bindings.insert varName (some phiI) }

theorem openTest_run (before u : LowerState) (loop phiI : NodeId) (hiValue : NodeRef)
    (accPhis : List (SymbolId × NodeId)) :
    openTest varName before loop phiI hiValue accPhis u =
      .ok ⟨before, loop, phiI, (testStart varName u loop phiI hiValue).graph.size + 2, accPhis⟩
        (thenStart (testStart varName u loop phiI hiValue) (some u.graph.size)) := by
  rw [openTest, run_bindName, run_make]
  refine (run_branched _ _ _ _).trans ?_
  rw [run_setCtrl]
  rfl

theorem openTest_made {s u before : LowerState} (descends : Descends s u) {loop phiI : NodeId}
    (isLoop : IsHeader u loop) (new : s.graph.size ≤ loop) (isPhi : IsHeader u phiI)
    {accPhis : List (SymbolId × NodeId)} (areAccs : ∀ acc ∈ accPhis, IsHeader u acc.2)
    (hiValue : NodeRef) :
    Descends s (finalState (openTest varName before loop phiI hiValue accPhis) u) ∧
      ∀ entry t, openTest varName before loop phiI hiValue accPhis u = .ok entry t →
        EntryMade s entry t := by
  have ran := @openTest_run varName before u loop phiI hiValue accPhis
  have other : ¬ IsUpward (cmpNodeOf (some phiI) hiValue).kind := by
    simp [IsUpward, cmpNodeOf]
  have toCmp : Descends s (pushed u (cmpNodeOf (some phiI) hiValue)) :=
    descends.push fun _ up => absurd up.isUpward other
  have below : loop < (pushed u (cmpNodeOf (some phiI) hiValue)).graph.size := by
    rw [pushed_size]
    exact Nat.lt_succ_of_lt isLoop.1
  have toTest : Descends s (testStart varName u loop phiI hiValue) :=
    (toCmp.setCtrl below new).same rfl rfl
  have toBody := toTest.trans (Descends.branched toTest.inside (some u.graph.size))
  have keeps : KeepsUpward u.graph
      (thenStart (testStart varName u loop phiI hiValue) (some u.graph.size)).graph :=
    (KeepsUpward.push u.graph _).trans
      (Descends.branched toTest.inside (some u.graph.size)).keeps
  rw [finalState_ok ran]
  refine ⟨toBody, fun entry t same => ?_⟩
  rw [ran] at same
  cases same
  refine ⟨isLoop.later keeps, isPhi.later keeps,
    fun acc member => (areAccs acc member).later keeps, ?_, ?_⟩
  · exact toTest.keeps.size.trans (Nat.le_add_right _ _)
  · change _ < (branched _ _).graph.size
    rw [branched_size]
    exact Nat.lt_succ_self _

theorem openHeader_made {s : LowerState} (inside : CtrlInside s) (loValue hiValue : NodeRef) :
    Descends s (finalState (openHeader varName accumulators loValue hiValue) s) ∧
      ∀ entry t, openHeader varName accumulators loValue hiValue s = .ok entry t →
        EntryMade s entry t := by
  let loopNode : Node :=
    { kind := .loop, effect := effectClassOf .loop, typeId := kInvalidTypeId
      payload := 0, inputs := [s.ctrl, s.ctrl] }
  have loopOther : ¬ IsUpward loopNode.kind := by simp [IsUpward, loopNode]
  have toLoop : Descends s (pushed s loopNode) :=
    (Descends.refl inside).push fun _ up => absurd up.isUpward loopOther
  let phiNode := phiNodeOf (some s.graph.size) [loValue, none]
  have phiOther : ¬ IsUpward phiNode.kind := by simp [IsUpward, phiNode, phiNodeOf]
  let u := pushed (pushed s loopNode) phiNode
  have toPhi : Descends s u := toLoop.push fun _ up => absurd up.isUpward phiOther
  have isLoop : IsHeader u s.graph.size :=
    (isHeader_new loopOther).later (KeepsUpward.push _ phiNode)
  have isPhi : IsHeader u (pushed s loopNode).graph.size := isHeader_new phiOther
  have accDown := RunsDown.makeAccPhis s.graph.size (accumulators s.bindings)
  let rest := openTest varName s s.graph.size (pushed s loopNode).graph.size hiValue
  have same : openHeader varName accumulators loValue hiValue s =
      (makeAccPhis s.graph.size (accumulators s.bindings) >>= rest) u := rfl
  have test {accPhis : List (SymbolId × NodeId)} {v : LowerState}
      (ran : makeAccPhis s.graph.size (accumulators s.bindings) u = .ok accPhis v) :=
    have toAccs := accDown.ok toPhi.inside ran
    @openTest_made varName s v s (toPhi.trans toAccs) _ _
      (isLoop.later toAccs.keeps) le_rfl (isPhi.later toAccs.keeps) _
      (makeAccPhis_headers toPhi.inside ran) hiValue
  have final : finalState (openHeader varName accumulators loValue hiValue) s =
      finalState (makeAccPhis s.graph.size (accumulators s.bindings) >>= rest) u := by
    rw [finalState, finalState, same]
  constructor
  · rw [final]
    exact (accDown.after toPhi).bind fun accPhis v ran _ => (test ran).1
  · intro entry t ran
    rw [same] at ran
    obtain ⟨accPhis, v, accRan, testRan⟩ := bind_inv ran
    exact (test accRan).2 entry t testRan

theorem IsHeader.rewired {t : LowerState} {id : NodeId} (header : IsHeader t id)
    (slot : Nat) (ref : NodeRef) : KeepsUpward t.graph (rewired t id slot ref).graph :=
  KeepsUpward.setInput header.2 slot ref

theorem Descends.wireAccPhis {s t : LowerState} (descends : Descends s t)
    {accPhis : List (SymbolId × NodeId)} (headers : ∀ acc ∈ accPhis, IsHeader t acc.2) :
    Descends s (finalState (wireAccPhis accPhis) t) := by
  induction accPhis generalizing t with
  | nil => exact descends
  | cons acc rest ih =>
      refine Descends.bind ((RunsDown.boundOrZero acc.1).after descends) ?_
      intro back u bound toBack
      have later := (RunsDown.boundOrZero acc.1).ok descends.inside bound
      have here := (headers acc List.mem_cons_self).later later.keeps
      have keeps := later.keeps.trans (here.rewired 2 back)
      exact ih (toBack.setInput here.2 2 back) fun other inRest =>
        (headers other (List.mem_cons_of_mem _ inRest)).later keeps

theorem wireAccPhis_keeps {t u : LowerState} {accPhis : List (SymbolId × NodeId)}
    (inside : CtrlInside t) (headers : ∀ acc ∈ accPhis, IsHeader t acc.2) {x : Unit}
    (ran : wireAccPhis accPhis t = .ok x u) : KeepsUpward t.graph u.graph := by
  have wired := (Descends.refl inside).wireAccPhis headers
  rw [finalState_ok ran] at wired
  exact wired.keeps

theorem RunsDown.bindAccPhis (accPhis : List (SymbolId × NodeId)) :
    RunsDown (bindAccPhis accPhis) := by
  induction accPhis with
  | nil => exact RunsDown.pure ()
  | cons acc rest ih => exact (RunsDown.bindName acc.1 _).bind fun _ => ih

theorem Descends.closeLoop {s t : LowerState} (descends : Descends s t) {entry : LoopEntry}
    (made : EntryMade s entry t) :
    Descends s (finalState
      (closeLoop entry.before entry.loop entry.phiI entry.exit entry.accPhis) t) := by
  apply Descends.read
  refine Descends.bind ((RunsDown.makeConstant 1).after descends) fun one a aRan toOne => ?_
  have atOne := made.later ((RunsDown.makeConstant 1).ok descends.inside aRan).keeps
  have addOther : ¬ IsUpward .add := by simp [IsUpward]
  have addDown (inputs : List NodeRef) := RunsDown.lookupOrInsert addOther inputs
  refine Descends.bind ((addDown _).after toOne) fun nextI b bRan toNext => ?_
  have atNext := atOne.later ((addDown _).ok toOne.inside bRan).keeps
  have toPhi : Descends s (rewired b entry.phiI 2 (some nextI)) :=
    toNext.setInput atNext.phiI.2 2 (some nextI)
  have atPhi := atNext.later (atNext.phiI.rewired 2 (some nextI))
  have wiring : Descends s (finalState (Lowerer.setInput entry.phiI 2 (some nextI)) b) := toPhi
  refine wiring.bind fun _ c reads _ => ?_
  cases reads
  refine Descends.bind (toPhi.wireAccPhis atPhi.accPhis) fun _ d dRan toBacks => ?_
  have atBacks := atPhi.later (wireAccPhis_keeps toPhi.inside atPhi.accPhis dRan)
  have toLoop : Descends s (rewired d entry.loop 0 t.ctrl) :=
    toBacks.setInput atBacks.loop.2 0 t.ctrl
  have atLoop := atBacks.later (atBacks.loop.rewired 0 t.ctrl)
  have closing : Descends s (finalState (Lowerer.setInput entry.loop 0 t.ctrl) d) := toLoop
  refine closing.bind fun _ e reads _ => ?_
  cases reads
  refine Descends.bind ((RunsDown.makePhi _ _ _).after toLoop) fun effPhi f fRan toEff => ?_
  have atEff := atLoop.later ((RunsDown.makePhi _ _ _).ok toLoop.inside fRan).keeps
  have left : Descends s { f with
      ctrl := some entry.exit, eff := some effPhi, bindings := entry.before.bindings } :=
    (toEff.setCtrl atEff.exit.2 made.exit.1).same rfl rfl
  exact (RunsDown.bindAccPhis entry.accPhis).after left

theorem lowerFor_parts (varName : SymbolId) (accumulators : Bindings → List SymbolId) :
    lowerFor varName lo hi accumulators body = (do
      let loValue ← lo
      let hiValue ← hi
      let entry ← openHeader varName accumulators loValue hiValue
      body
      if (← get).ctrl = none then throw {}
      else closeLoop entry.before entry.loop entry.phiI entry.exit entry.accPhis) := by
  simp only [lowerFor, openHeader, openTest, bind_assoc, pure_bind]

theorem RunsDown.lowerFor (varName : SymbolId) (accumulators : Bindings → List SymbolId)
    (loDown : RunsDown lo) (hiDown : RunsDown hi) (bodyDown : RunsDown body) :
    RunsDown (lowerFor varName lo hi accumulators body) := by
  rw [lowerFor_parts]
  refine loDown.bind fun loValue => hiDown.bind fun hiValue s inside => ?_
  obtain ⟨opened, made⟩ := @openHeader_made varName accumulators s inside
    loValue hiValue
  refine opened.bind fun entry start ran toStart => ?_
  have entered := made entry start ran
  refine (bodyDown.after toStart).bind fun _ afterBody bodyRan toBody => ?_
  have kept := entered.later (bodyDown.ok toStart.inside bodyRan).keeps
  apply Descends.read
  split
  · exact (RunsDown.throw _).after toBody
  · exact toBody.closeLoop kept

end Loops

section Trees

variable (order : TableOrder)

mutual

theorem lowerStmt_runsDown : (n : Ast) → RunsDown (lowerStmt order n)
  | .letStmt name _ (some init) _ => (lowerExpr_runsDown init).lowerLet name
  | .letStmt name _ none _ => ((RunsDown.makeConstant 0).map some).lowerLet name
  | .exprStmt expr => (lowerExpr_runsDown expr).bind fun _ => RunsDown.pure ()
  | .returnStmt (some value) => (lowerExpr_runsDown value).lowerReturn
  | .returnStmt none => ((RunsDown.makeConstant 0).map some).lowerReturn
  | .ifStmt cond thenBranch (some elseBranch) =>
      RunsDown.lowerIf order (lowerExpr_runsDown cond) (lowerStmt_runsDown thenBranch)
        (lowerStmt_runsDown elseBranch)
  | .ifStmt cond thenBranch none =>
      RunsDown.lowerIf order (lowerExpr_runsDown cond) (lowerStmt_runsDown thenBranch)
        (RunsDown.pure ())
  | .block stmts => lowerStmts_runsDown stmts
  | .forStmt varName iter body => by
      cases iter with
      | rangeExpr lo hi =>
          exact RunsDown.lowerFor varName _ (lowerExpr_runsDown lo) (lowerExpr_runsDown hi)
            (lowerStmt_runsDown body)
      | _ => exact RunsDown.throw {}
  | .assignExpr op target value =>
      ((lowerExpr_runsDown value).lowerAssign op (assign_not_upward op) target).bind
        fun _ => RunsDown.pure ()
  | .binaryExpr op lhs rhs =>
      ((lowerExpr_runsDown lhs).lowerBinary op (lowerExpr_runsDown rhs)).ignoreError
  | .unaryExpr op operand => ((lowerExpr_runsDown operand).lowerUnary op).ignoreError
  | .callExpr callee args => ((lowerArgs_runsDown args).lowerCall callee).ignoreError
  | .module _ | .fnDecl .. | .param .. | .structDecl .. | .enumDecl ..
  | .matchStmt .. | .fieldExpr .. | .indexExpr .. | .ident _ | .intLit _
  | .floatLit _ | .strLit _ | .boolLit _ | .pathExpr _ | .rangeExpr ..
  | .identPat _ | .pathPat .. | .memberPat .. => (RunsDown.lowerLeaf _).ignoreError

theorem lowerStmts_runsDown : (stmts : List Ast) → RunsDown (lowerStmts order stmts)
  | [] => RunsDown.pure ()
  | n :: ns => (lowerStmt_runsDown n).bind fun _ => lowerStmts_runsDown ns

theorem lowerExpr_runsDown : (n : Ast) → RunsDown (lowerExpr order n)
  | .binaryExpr op lhs rhs => (lowerExpr_runsDown lhs).lowerBinary op (lowerExpr_runsDown rhs)
  | .unaryExpr op operand => (lowerExpr_runsDown operand).lowerUnary op
  | .callExpr callee args => (lowerArgs_runsDown args).lowerCall callee
  | .assignExpr op target value =>
      (lowerExpr_runsDown value).lowerAssign op (binop_not_upward op) target
  | .block stmts => lowerBlockExpr_runsDown stmts none
  | .module _ | .fnDecl .. | .param .. | .structDecl .. | .enumDecl ..
  | .letStmt .. | .exprStmt .. | .returnStmt .. | .ifStmt .. | .forStmt ..
  | .matchStmt .. | .fieldExpr .. | .indexExpr .. | .ident _ | .intLit _
  | .floatLit _ | .strLit _ | .boolLit _ | .pathExpr _ | .rangeExpr ..
  | .identPat _ | .pathPat .. | .memberPat .. => RunsDown.lowerLeaf _

theorem lowerArgs_runsDown : (args : List Ast) → RunsDown (lowerArgs order args)
  | [] => RunsDown.pure []
  | arg :: args => (lowerExpr_runsDown arg).bind fun _ =>
      (lowerArgs_runsDown args).bind fun _ => RunsDown.pure _

theorem lowerBlockExpr_runsDown : (stmts : List Ast) → (last : NodeRef) →
    RunsDown (lowerBlockExpr order stmts last)
  | [], last => RunsDown.pure last
  | n :: ns, last => by
      cases n with
      | exprStmt expr =>
          exact (lowerExpr_runsDown expr).bind fun value => lowerBlockExpr_runsDown ns value
      | _ => exact (lowerStmt_runsDown _).bind fun _ => lowerBlockExpr_runsDown ns last

end

end Trees

/-- All ways up lead to earlier nodes. -/
structure Controlled (s : LowerState) : Prop where
  down : ∀ id c, LeadsUp (s.graph.node id) c → c < id
  inside : CtrlInside s

theorem Controlled.later {s t : LowerState} (controlled : Controlled s)
    (descends : Descends s t) : Controlled t where
  down id c up := by
    by_cases old : id < s.graph.size
    · exact controlled.down id c ((descends.keeps.leadsUp old).mp up)
    · exact (descends.up id c (Nat.le_of_not_lt old) up).1
  inside := descends.inside

theorem RunsDown.lowerParams (params : List Ast) : RunsDown (lowerParams params) := by
  induction params with
  | nil => exact RunsDown.pure ()
  | cons param params ih =>
      cases param with
      | param name _ _ =>
          have other : ¬ IsUpward .parameter := by simp [IsUpward]
          refine (RunsDown.makeNode other _ _ _).bind fun node => ?_
          exact (RunsDown.bindName name _).bind fun _ => ih
      | _ => exact ih

/-- The state in which the body of a function is lowered. -/
theorem enterFunction_controlled (params : List Ast) :
    Controlled (finalState (enterFunction params) {}) := by
  let ctrl := projNodeOf (some kStartNodeId) 0
  let eff := projNodeOf (some kStartNodeId) 1
  let entered : LowerState :=
    { pushed (pushed {} ctrl) eff with ctrl := some 1, eff := some 2 }
  have controlled : Controlled entered := by
    refine ⟨fun id c up => ?_, fun c here => ?_⟩
    · have few : id < 3 := by
        by_contra outside
        exact not_leadsUp_outside (Nat.le_of_not_lt outside) up
      rcases id with _ | _ | _ | id
      · rcases up.isUpward with kind | kind | kind <;> cases kind
      · rcases up with ⟨kind, -⟩ | ⟨-, first⟩
        · cases kind
        · cases first
          decide
      · rcases up with ⟨kind, -⟩ | ⟨-, first⟩
        · cases kind
        · cases first
          decide
      · exact absurd few (Nat.not_lt_of_le (Nat.le_add_left 3 id))
    · cases here
      decide
  exact controlled.later (RunsDown.lowerParams params _ controlled.inside)

end Lowerer

end Aegis
