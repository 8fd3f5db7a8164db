import AegisCompiler.ControlWalk

/-!
# Walking a graph with calls

The walk of a graph performs the calls that hang off each control node it
reaches before it goes on.  What a call returns is up to the callees, which see
all the calls made so far.  Only live nodes take part in the control.
-/

namespace Aegis

namespace CallWalk

open ControlWalk (operate paramRank isPhiOf)

/-- A call as the callee sees it. -/
structure Call where
  callee : SymbolId
  args : List Word
  deriving DecidableEq, Repr

/-- What the last of a sequence of calls returns. -/
abbrev Callees := List Call → Word

/-- The current values of the phis and the results of the calls. -/
abbrev Held := NodeId → Option Word

section Values

variable (g : Graph) (args : List Word) (held : Held)

/-- The value of a data node from the values of its operands. -/
def valueStep (id : NodeId) (operandValue : NodeId → Option Word) :
    Option Word :=
  match (g.node id).kind with
  | .constant => some (g.node id).payload
  | .parameter => some (args.getD (paramRank g id) 0)
  | .phi | .callPure | .callAltered | .callCrowded => held id
  | .proj =>
      match (g.node id).inputs with
      | [some source] => operandValue source
      | _ => none
  | _ => operate (g.node id) operandValue

/-- The value of a data node; the fuel bounds the depth of operands. -/
def valueAt : Nat → NodeId → Option Word
  | 0, _ => none
  | fuel + 1, id => valueStep g args held id (valueAt fuel)

/-- The node evaluates to this value. -/
def HasValue (id : NodeId) (v : Word) : Prop :=
  ∃ fuel, valueAt g args held fuel id = some v

/-- The input slot evaluates to this value. -/
def RefValue (ref : NodeRef) (v : Word) : Prop :=
  ∃ id, ref = some id ∧ HasValue g args held id v

/-- The slots of a list evaluate to these values. -/
abbrev RefValues : List NodeRef → List Word → Prop :=
  List.Forall₂ (RefValue g args held)

end Values

section Control

variable (g : Graph)

/-- The node takes its control from this one. -/
def ReadsControl (n : Node) (ctrl : NodeId) : Prop :=
  match n.kind with
  | .ifNode | .returnNode => n.ctrlIn = some ctrl
  | .region | .loop => some ctrl ∈ n.inputs
  | _ => False

instance (n : Node) (ctrl : NodeId) : Decidable (ReadsControl n ctrl) := by
  unfold ReadsControl
  split <;> infer_instance

/-- The live control nodes that follow a control node. -/
def consumers (ctrl : NodeId) : List NodeId :=
  (List.range g.size).filter fun user =>
    !(g.node user).isDead && decide (ReadsControl (g.node user) ctrl)

/-- The live projections of a node with the given index. -/
def projs (source : NodeId) (which : BitVec 32) : List NodeId :=
  (List.range g.size).filter fun p =>
    !(g.node p).isDead && decide ((g.node p).kind = .proj) &&
      decide ((g.node p).inputs = [some source]) &&
        decide ((g.node p).payload.projIndex = which)

/-- The live calls at a control node, in order. -/
def callsAt (ctrl : NodeId) : List NodeId :=
  (List.range g.size).filter fun call =>
    !(g.node call).isDead && (g.node call).kind.isCall &&
      decide ((g.node call).ctrlIn = some ctrl)

/-- The slot of the phis that belongs to the control input through which a
region or a loop is entered.  Slot 0 of a loop is its back edge. -/
def phiSlot (n : Node) (ctrl : NodeId) : Nat :=
  let slot := n.inputs.idxOf (some ctrl)
  if n.kind = .loop then (if slot = 1 then 1 else 2) else slot + 1

end Control

/-- Where a walk is: at a control node, with the calls there that are still to
be performed, or at the end. -/
inductive WalkState where
  | walking (ctrl : NodeId) (pending : List NodeId) (held : Held)
      (calls : List Call)
  | returned (value : Word) (calls : List Call)

/-- The walk gets to a control node. -/
def arrive (g : Graph) (ctrl : NodeId) (held : Held) (calls : List Call) :
    WalkState :=
  .walking ctrl (callsAt g ctrl) held calls

/-- Change what a state holds. -/
def WalkState.mapHeld (change : Held → Held) : WalkState → WalkState
  | .walking ctrl pending held calls =>
      .walking ctrl pending (change held) calls
  | .returned value calls => .returned value calls

section Steps

variable (g : Graph) (callees : Callees) (args : List Word)

/-- A phi of the region takes the value of one of its slots, and any other
node keeps its value. -/
def EnteredAt (region : NodeId) (slot : Nat) (held held' : Held)
    (id : NodeId) : Prop :=
  if isPhiOf g region id then
    ∀ v, held' id = some v ↔
      RefValue g args held ((g.node id).inputs.getD slot none) v
  else held' id = held id

/-- The phis of a region take the values of one of their slots, all at
once. -/
def Entered (region : NodeId) (slot : Nat) (held held' : Held) : Prop :=
  ∀ id, EnteredAt g args region slot held held' id

/-- What a call node asks of its callee. -/
def callOf (call : NodeId) (values : List Word) : Call :=
  ⟨(g.node call).payload.sym, values⟩

/-- One step.  A control node with several users, or an undefined condition,
leaves the walk stuck. -/
inductive Step : WalkState → WalkState → Prop where
  | call {ctrl call pending held calls values}
      (evaluated : RefValues g args held ((g.node call).inputs.drop 2) values) :
      Step (.walking ctrl (call :: pending) held calls)
        (.walking ctrl pending
          (Function.update held call
            (some (callees (calls ++ [callOf g call values]))))
          (calls ++ [callOf g call values]))
  | branch {ctrl user proj held calls cond}
      (only : consumers g ctrl = [user]) (kind : (g.node user).kind = .ifNode)
      (evaluated : RefValue g args held ((g.node user).inputs.getD 1 none) cond)
      (taken : projs g user (if cond ≠ 0 then 0 else 1) = [proj]) :
      Step (.walking ctrl [] held calls) (arrive g proj held calls)
  | enter {ctrl user held held' calls}
      (only : consumers g ctrl = [user])
      (kind : (g.node user).kind = .region ∨ (g.node user).kind = .loop)
      (entered : Entered g args user (phiSlot (g.node user) ctrl) held held') :
      Step (.walking ctrl [] held calls) (arrive g user held' calls)
  | finish {ctrl user held calls value}
      (only : consumers g ctrl = [user])
      (kind : (g.node user).kind = .returnNode)
      (evaluated :
        RefValue g args held ((g.node user).inputs.getD 2 none) value) :
      Step (.walking ctrl [] held calls) (.returned value calls)

/-- Any number of steps. -/
abbrev Steps : WalkState → WalkState → Prop :=
  Relation.ReflTransGen (Step g callees args)

/-- A state that the walk from the control projection of the start node gets
to. -/
def Visits (s : WalkState) : Prop :=
  ∃ start, projs g kStartNodeId 0 = [start] ∧
    Steps g callees args (arrive g start (fun _ => none) []) s

/-- The walk ends with this value after these calls. -/
def Returns (value : Word) (calls : List Call) : Prop :=
  Visits g callees args (.returned value calls)

end Steps

section Places

variable {g : Graph} {callees : Callees} {args : List Word}

/-- The kinds of nodes that a walk stops at. -/
def IsControl (kind : NodeKind) : Prop :=
  kind = .proj ∨ kind = .region ∨ kind = .loop

/-- The walk is at a control node of the graph, with calls of the graph. -/
def OnControl (g : Graph) : WalkState → Prop
  | .walking ctrl pending _ _ =>
      ctrl < g.size ∧ IsControl (g.node ctrl).kind ∧
        ∀ call ∈ pending, call < g.size ∧ (g.node call).kind.isCall = true
  | .returned .. => True

theorem mem_consumers {ctrl user : NodeId} :
    user ∈ consumers g ctrl ↔ user < g.size ∧ (g.node user).isDead = false ∧
      ReadsControl (g.node user) ctrl := by
  simp [consumers]

theorem mem_projs {source proj : NodeId} {which : BitVec 32} :
    proj ∈ projs g source which ↔ proj < g.size ∧
      (g.node proj).isDead = false ∧ (g.node proj).kind = .proj ∧
        (g.node proj).inputs = [some source] ∧
          (g.node proj).payload.projIndex = which := by
  simp [projs, and_assoc]

theorem mem_callsAt {ctrl call : NodeId} :
    call ∈ callsAt g ctrl ↔ call < g.size ∧ (g.node call).isDead = false ∧
      (g.node call).kind.isCall = true ∧ (g.node call).ctrlIn = some ctrl := by
  simp [callsAt, and_assoc]

theorem onControl_arrive {ctrl : NodeId} (inside : ctrl < g.size)
    (kind : IsControl (g.node ctrl).kind) (held : Held) (calls : List Call) :
    OnControl g (arrive g ctrl held calls) :=
  ⟨inside, kind, fun _ member =>
    ⟨(mem_callsAt.mp member).1, (mem_callsAt.mp member).2.2.1⟩⟩

theorem onControl_proj {source proj : NodeId} {which : BitVec 32}
    (only : projs g source which = [proj]) (held : Held) (calls : List Call) :
    OnControl g (arrive g proj held calls) := by
  have member : proj ∈ projs g source which := by
    rw [only]
    exact List.mem_singleton_self proj
  obtain ⟨inside, -, kind, -⟩ := mem_projs.mp member
  exact onControl_arrive inside (Or.inl kind) held calls

theorem consumer_inside {ctrl user : NodeId} (only : consumers g ctrl = [user]) :
    user < g.size := by
  have member : user ∈ consumers g ctrl := by
    rw [only]
    exact List.mem_singleton_self user
  exact (mem_consumers.mp member).1

theorem OnControl.step {s t : WalkState} (on : OnControl g s)
    (next : Step g callees args s t) : OnControl g t := by
  cases next with
  | call =>
      exact ⟨on.1, on.2.1, fun call member =>
        on.2.2 call (List.mem_cons_of_mem _ member)⟩
  | branch only kind evaluated taken => exact onControl_proj taken _ _
  | enter only kind entered =>
      exact onControl_arrive (consumer_inside only) (Or.inr kind) _ _
  | finish => trivial

/-- Every state that the walk visits is at a control node. -/
theorem Visits.onControl {s : WalkState} (visits : Visits g callees args s) :
    OnControl g s := by
  obtain ⟨start, starts, steps⟩ := visits
  have first := onControl_proj starts (fun _ => none) []
  induction steps with
  | refl => exact first
  | tail _ last ih => exact ih.step last

end Places

section ValueRules

variable {g : Graph} {args : List Word} {held : Held}

theorem operate_mono {n : Node} {first second : NodeId → Option Word}
    (more : ∀ id v, first id = some v → second id = some v) {v : Word}
    (value : operate n first = some v) : operate n second = some v := by
  unfold operate at value ⊢
  split at value
  · obtain ⟨a, operand, result⟩ := Option.bind_eq_some_iff.mp value
    exact Option.bind_eq_some_iff.mpr ⟨a, more _ _ operand, result⟩
  · obtain ⟨a, left, rest⟩ := Option.bind_eq_some_iff.mp value
    obtain ⟨b, right, result⟩ := Option.bind_eq_some_iff.mp rest
    exact Option.bind_eq_some_iff.mpr ⟨a, more _ _ left,
      Option.bind_eq_some_iff.mpr ⟨b, more _ _ right, result⟩⟩
  · cases value

theorem valueStep_mono {id : NodeId} {first second : NodeId → Option Word}
    (more : ∀ id v, first id = some v → second id = some v) {v : Word}
    (value : valueStep g args held id first = some v) :
    valueStep g args held id second = some v := by
  unfold valueStep at value ⊢
  split at value
  case h_7 =>
    split at value
    · exact more _ _ value
    · cases value
  case h_8 => exact operate_mono more value
  all_goals exact value

/-- More fuel gives no other value. -/
theorem valueAt_mono {fuel more : Nat} (enough : fuel ≤ more) {id : NodeId}
    {v : Word} (value : valueAt g args held fuel id = some v) :
    valueAt g args held more id = some v := by
  induction fuel generalizing more id v with
  | zero => cases value
  | succ fuel ih =>
      obtain ⟨rest, rfl⟩ := Nat.exists_eq_add_of_le' enough
      exact valueStep_mono (fun operand w => ih (Nat.le_of_succ_le_succ enough))
        value

/-- A node has at most one value. -/
theorem HasValue.unique {id : NodeId} {v w : Word}
    (first : HasValue g args held id v) (second : HasValue g args held id w) :
    v = w := by
  obtain ⟨fuel, first⟩ := first
  obtain ⟨fuel', second⟩ := second
  have left := valueAt_mono (Nat.le_max_left fuel fuel') first
  have right := valueAt_mono (Nat.le_max_right fuel fuel') second
  exact Option.some.inj (left.symm.trans right)

theorem RefValue.unique {ref : NodeRef} {v w : Word}
    (first : RefValue g args held ref v) (second : RefValue g args held ref w) :
    v = w := by
  obtain ⟨id, rfl, first⟩ := first
  obtain ⟨_, same, second⟩ := second
  cases same
  exact first.unique second

theorem refValue_some {id : NodeId} {v : Word} :
    RefValue g args held (some id) v ↔ HasValue g args held id v := by
  constructor
  · rintro ⟨_, same, value⟩
    cases same
    exact value
  · exact fun value => ⟨id, rfl, value⟩

theorem not_refValue_none {v : Word} : ¬ RefValue g args held none v := by
  rintro ⟨_, same, _⟩
  cases same

theorem RefValues.unique {refs : List NodeRef} {vs ws : List Word}
    (first : RefValues g args held refs vs)
    (second : RefValues g args held refs ws) : vs = ws := by
  induction first generalizing ws with
  | nil =>
      cases second
      rfl
  | cons head _ ih =>
      cases second with
      | cons head' tail' => rw [head.unique head', ih tail']

theorem hasValue_iff {id : NodeId} {v : Word} :
    HasValue g args held id v ↔
      ∃ fuel, valueStep g args held id (valueAt g args held fuel) = some v := by
  constructor
  · rintro ⟨fuel, value⟩
    cases fuel with
    | zero => cases value
    | succ fuel => exact ⟨fuel, value⟩
  · exact fun ⟨fuel, value⟩ => ⟨fuel + 1, value⟩

/-- The value of a node from values of its operands. -/
theorem HasValue.of_step {id : NodeId} {operandValue : NodeId → Option Word}
    (each : ∀ operand w, operandValue operand = some w →
      HasValue g args held operand w) {v : Word}
    (value : valueStep g args held id operandValue = some v) :
    HasValue g args held id v := by
  have lift {first second : NodeId} {a b : Word}
      (left : operandValue first = some a) (right : operandValue second = some b) :
      ∃ fuel, valueAt g args held fuel first = some a ∧
        valueAt g args held fuel second = some b := by
    obtain ⟨fuel, left⟩ := each first a left
    obtain ⟨fuel', right⟩ := each second b right
    exact ⟨max fuel fuel', valueAt_mono (Nat.le_max_left _ _) left,
      valueAt_mono (Nat.le_max_right _ _) right⟩
  rw [hasValue_iff]
  unfold valueStep at value ⊢
  split at value
  case h_7 =>
    split at value
    · exact each _ _ value
    · cases value
  case h_8 =>
    unfold operate at value ⊢
    split at value
    · obtain ⟨a, operand, result⟩ := Option.bind_eq_some_iff.mp value
      obtain ⟨fuel, operand, -⟩ := lift operand operand
      exact ⟨fuel, Option.bind_eq_some_iff.mpr ⟨a, operand, result⟩⟩
    · obtain ⟨a, left, rest⟩ := Option.bind_eq_some_iff.mp value
      obtain ⟨b, right, result⟩ := Option.bind_eq_some_iff.mp rest
      obtain ⟨fuel, left, right⟩ := lift left right
      exact ⟨fuel, Option.bind_eq_some_iff.mpr ⟨a, left,
        Option.bind_eq_some_iff.mpr ⟨b, right, result⟩⟩⟩
    · cases value
  all_goals exact ⟨0, value⟩

section Kinds

variable {id : NodeId} {v : Word}

theorem hasValue_constant (kind : (g.node id).kind = .constant) :
    HasValue g args held id v ↔ v = (g.node id).payload := by
  simp [hasValue_iff, valueStep, kind, eq_comm]

theorem hasValue_phi (kind : (g.node id).kind = .phi) :
    HasValue g args held id v ↔ held id = some v := by
  simp [hasValue_iff, valueStep, kind]

theorem hasValue_call (kind : (g.node id).kind.isCall = true) :
    HasValue g args held id v ↔ held id = some v := by
  have step (operandValue : NodeId → Option Word) :
      valueStep g args held id operandValue = held id := by
    unfold valueStep
    cases call : (g.node id).kind <;>
      first | rfl | simp [call, NodeKind.isCall] at kind
  simp [hasValue_iff, step]

theorem hasValue_binop {lhs rhs : NodeId}
    (kind : (g.node id).kind.isBinop = true)
    (inputs : (g.node id).inputs = [some lhs, some rhs]) :
    HasValue g args held id v ↔
      ∃ a b, HasValue g args held lhs a ∧ HasValue g args held rhs b ∧
        evalBinop (g.node id).kind a b = some v := by
  have step (operandValue : NodeId → Option Word) :
      valueStep g args held id operandValue =
        (operandValue lhs).bind fun a =>
          (operandValue rhs).bind (evalBinop (g.node id).kind a) := by
    unfold valueStep operate
    rw [inputs]
    cases op : (g.node id).kind <;> first | rfl | simp [op, NodeKind.isBinop] at kind
  rw [hasValue_iff]
  constructor
  · rintro ⟨fuel, value⟩
    rw [step] at value
    obtain ⟨a, left, rest⟩ := Option.bind_eq_some_iff.mp value
    obtain ⟨b, right, result⟩ := Option.bind_eq_some_iff.mp rest
    exact ⟨a, b, ⟨fuel, left⟩, ⟨fuel, right⟩, result⟩
  · rintro ⟨a, b, ⟨fuel, left⟩, ⟨fuel', right⟩, result⟩
    refine ⟨max fuel fuel', ?_⟩
    rw [step, valueAt_mono (Nat.le_max_left fuel fuel') left,
      valueAt_mono (Nat.le_max_right fuel fuel') right]
    exact result

theorem hasValue_parameter (kind : (g.node id).kind = .parameter) :
    HasValue g args held id v ↔ v = args.getD (paramRank g id) 0 := by
  simp [hasValue_iff, valueStep, kind, eq_comm]

theorem hasValue_unop {operand : NodeId} (kind : (g.node id).kind.isUnop = true)
    (inputs : (g.node id).inputs = [some operand]) :
    HasValue g args held id v ↔
      ∃ a, HasValue g args held operand a ∧ evalUnop (g.node id).kind a = some v := by
  have step (operandValue : NodeId → Option Word) :
      valueStep g args held id operandValue =
        (operandValue operand).bind (evalUnop (g.node id).kind) := by
    unfold valueStep operate
    rw [inputs]
    cases op : (g.node id).kind <;> first | rfl | simp [op, NodeKind.isUnop] at kind
  rw [hasValue_iff]
  constructor
  · rintro ⟨fuel, value⟩
    rw [step] at value
    obtain ⟨a, operand, result⟩ := Option.bind_eq_some_iff.mp value
    exact ⟨a, ⟨fuel, operand⟩, result⟩
  · rintro ⟨a, ⟨fuel, operand⟩, result⟩
    refine ⟨fuel, ?_⟩
    rw [step, operand]
    exact result

end Kinds

end ValueRules

section Deterministic

variable {g : Graph} {callees : Callees} {args : List Word}

theorem Entered.unique {region : NodeId} {slot : Nat} {held first second : Held}
    (left : Entered g args region slot held first)
    (right : Entered g args region slot held second) : first = second := by
  funext id
  have leftHere := left id
  have rightHere := right id
  unfold EnteredAt at leftHere rightHere
  split at leftHere
  case isTrue phi =>
    rw [if_pos phi] at rightHere
    exact Option.ext fun v => (leftHere v).trans (rightHere v).symm
  case isFalse phi =>
    rw [if_neg phi] at rightHere
    exact leftHere.trans rightHere.symm

theorem Step.unique {s t u : WalkState} (first : Step g callees args s t)
    (second : Step g callees args s u) : t = u := by
  have same {ctrl user user' : NodeId} (only : consumers g ctrl = [user])
      (only' : consumers g ctrl = [user']) : user' = user := by
    rw [only, List.cons.injEq] at only'
    exact only'.1.symm
  cases first with
  | call evaluated =>
      cases second with
      | call evaluated' => rw [evaluated.unique evaluated']
  | branch only kind evaluated taken =>
      cases second with
      | branch only' kind' evaluated' taken' =>
          cases same only only'
          rw [evaluated.unique evaluated', taken'] at taken
          rw [(List.cons.inj taken).1]
      | enter only' kind' _ =>
          cases same only only'
          simp [kind] at kind'
      | finish only' kind' _ =>
          cases same only only'
          simp [kind] at kind'
  | enter only kind entered =>
      cases second with
      | branch only' kind' _ _ =>
          cases same only only'
          simp [kind'] at kind
      | enter only' kind' entered' =>
          cases same only only'
          rw [entered.unique entered']
      | finish only' kind' _ =>
          cases same only only'
          simp [kind'] at kind
  | finish only kind evaluated =>
      cases second with
      | branch only' kind' _ _ =>
          cases same only only'
          simp [kind] at kind'
      | enter only' kind' _ =>
          cases same only only'
          simp [kind] at kind'
      | finish only' kind' evaluated' =>
          cases same only only'
          rw [evaluated.unique evaluated']

theorem not_step_returned {value : Word} {calls : List Call} {t : WalkState} :
    ¬ Step g callees args (.returned value calls) t := nofun

theorem Steps.returned_of_steps {s t : WalkState} {value : Word}
    {calls : List Call} (first : Steps g callees args s (.returned value calls))
    (second : Steps g callees args s t) :
    Steps g callees args t (.returned value calls) := by
  induction second with
  | refl => exact first
  | tail _ last ih =>
      rcases Relation.ReflTransGen.cases_head ih with done | ⟨u, next, rest⟩
      · subst done
        exact absurd last not_step_returned
      · rwa [next.unique last] at rest

/-- A graph returns at most once. -/
theorem Returns.unique {value value' : Word} {calls calls' : List Call}
    (left : Returns g callees args value calls)
    (right : Returns g callees args value' calls') :
    value = value' ∧ calls = calls' := by
  obtain ⟨start, starts, leftRun⟩ := left
  obtain ⟨other, others, rightRun⟩ := right
  rw [starts, List.cons.injEq] at others
  obtain ⟨rfl, -⟩ := others
  rcases Relation.ReflTransGen.cases_head (leftRun.returned_of_steps rightRun)
    with same | ⟨_, next, _⟩
  · cases same
    exact ⟨rfl, rfl⟩
  · exact absurd next not_step_returned

end Deterministic

end CallWalk

end Aegis
