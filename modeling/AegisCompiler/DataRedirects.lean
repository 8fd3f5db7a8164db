import AegisCompiler.ValueTransfer
import AegisCompiler.Simulation

/-!
# Redirecting reads of a value

A pass may append data nodes to a graph and let users of one node read another
one instead.  When both nodes have the same value in every state, the walk
stays the same.
-/

namespace Aegis

namespace CallWalk

open ControlWalk (paramRank isPhiOf)

/-- A kind that takes no part in the control of a walk and is no argument. -/
def IsData (kind : NodeKind) : Prop :=
  kind ≠ .ifNode ∧ kind ≠ .returnNode ∧ kind ≠ .region ∧ kind ≠ .loop ∧
    kind ≠ .proj ∧ kind ≠ .parameter ∧ kind.isCall = false

/-- The index of a parameter depends on the kinds of the nodes in front of it. -/
theorem paramRank_congr {g h : Graph} {id : NodeId}
    (kinds : ∀ p, p < id → (h.node p).kind = (g.node p).kind) :
    paramRank h id = paramRank g id := by
  refine List.countP_congr fun p member => ?_
  simp [kinds p (List.mem_range.mp member)]

/-- The same node of the old graph, or a node and its replacement. -/
def Replaced (g : Graph) (old new id id' : NodeId) : Prop :=
  (id = id' ∧ id < g.size) ∨ (id = old ∧ id' = new)

/-- The second graph appends data nodes to the first and redirects reads. -/
structure Redirects (g h : Graph) (old new : NodeId) : Prop where
  size : g.size ≤ h.size
  added : g.size ≤ new
  notStart : old ≠ kStartNodeId
  nonempty : kStartNodeId < g.size
  oldData : IsData (g.node old).kind
  newData : ∀ id, g.size ≤ id → IsData (h.node id).kind
  kind : ∀ id, id < g.size → (h.node id).kind = (g.node id).kind
  payload : ∀ id, id < g.size → (h.node id).payload = (g.node id).payload
  dead : ∀ id, id < g.size → id ≠ old →
    (h.node id).isDead = (g.node id).isDead
  inputs : ∀ id, id < g.size → List.Forall₂ (RefAlike (Replaced g old new))
    (g.node id).inputs (h.node id).inputs

section Slots

variable {g h : Graph} {old new : NodeId}

theorem refAlike_getD {alike : NodeId → NodeId → Prop} {refs refs' : List NodeRef}
    (pairs : List.Forall₂ (RefAlike alike) refs refs') (slot : Nat) :
    RefAlike alike (refs.getD slot none) (refs'.getD slot none) := by
  induction pairs generalizing slot with
  | nil => exact Or.inl ⟨rfl, rfl⟩
  | cons pair _ ih =>
      cases slot with
      | zero => exact pair
      | succ slot => exact ih slot

/-- A reference to a node that is not replaced stays. -/
theorem Replaced.ref_iff {ref ref' : NodeRef}
    (pair : RefAlike (Replaced g old new) ref ref') {ctrl : NodeId}
    (notOld : ctrl ≠ old) (notNew : ctrl ≠ new) :
    ref' = some ctrl ↔ ref = some ctrl := by
  rcases pair with ⟨rfl, rfl⟩ | ⟨id, id', rfl, rfl, ⟨rfl, -⟩ | ⟨rfl, rfl⟩⟩
  · rfl
  · rfl
  · simp [Ne.symm notOld, Ne.symm notNew]

theorem mem_iff_of_forall₂ {refs refs' : List NodeRef} {ref : NodeRef}
    (pairs : List.Forall₂ (fun a b => b = ref ↔ a = ref) refs refs') :
    ref ∈ refs' ↔ ref ∈ refs := by
  induction pairs with
  | nil => rfl
  | cons pair _ ih =>
      rw [List.mem_cons, List.mem_cons, ih, eq_comm, pair, eq_comm]

theorem idxOf_eq_of_forall₂ {refs refs' : List NodeRef} {ref : NodeRef}
    (pairs : List.Forall₂ (fun a b => b = ref ↔ a = ref) refs refs') :
    refs'.idxOf ref = refs.idxOf ref := by
  induction pairs with
  | nil => rfl
  | @cons a b _ _ pair _ ih =>
      have same : (b == ref) = (a == ref) := by
        rw [Bool.eq_iff_iff, beq_iff_eq, beq_iff_eq, pair]
      rw [List.idxOf_cons, List.idxOf_cons, ih, same]

theorem head?_iff_of_forall₂ {refs refs' : List NodeRef} {ref : NodeRef}
    (pairs : List.Forall₂ (fun a b => b = ref ↔ a = ref) refs refs') :
    refs'.head? = some ref ↔ refs.head? = some ref := by
  cases pairs with
  | nil => rfl
  | cons pair _ => simpa using pair

theorem eq_singleton_iff_of_forall₂ {refs refs' : List NodeRef} {ref : NodeRef}
    (pairs : List.Forall₂ (fun a b => b = ref ↔ a = ref) refs refs') :
    refs' = [ref] ↔ refs = [ref] := by
  cases pairs with
  | nil => rfl
  | cons pair rest =>
      cases rest with
      | nil => simp [pair]
      | cons _ _ => simp

/-- Filtering a longer range with a predicate that holds of no new number. -/
theorem filter_range_grow {p q : NodeId → Bool} {m n : Nat} (longer : m ≤ n)
    (same : ∀ id, id < m → q id = p id) (none : ∀ id, m ≤ id → q id = false) :
    (List.range n).filter q = (List.range m).filter p := by
  obtain ⟨extra, rfl⟩ := Nat.exists_eq_add_of_le longer
  rw [List.range_add, List.filter_append]
  have empty : (((List.range extra).map (m + ·)).filter q) = [] := by
    rw [List.filter_eq_nil_iff]
    intro id member
    obtain ⟨k, -, rfl⟩ := List.mem_map.mp member
    simp [none (m + k) (Nat.le_add_right m k)]
  rw [empty, List.append_nil]
  exact List.filter_congr fun id member => same id (List.mem_range.mp member)

end Slots

namespace Redirects

variable {g h : Graph} {old new : NodeId} (redirects : Redirects g h old new)
include redirects

section Control

variable {ctrl : NodeId} (notOld : ctrl ≠ old) (notNew : ctrl ≠ new)
include notOld notNew

theorem slots {id : NodeId} (inside : id < g.size) :
    List.Forall₂ (fun a b => b = some ctrl ↔ a = some ctrl) (g.node id).inputs
      (h.node id).inputs :=
  (redirects.inputs id inside).imp fun _ _ pair =>
    Replaced.ref_iff pair notOld notNew

theorem ctrlIn_iff {id : NodeId} (inside : id < g.size) :
    (h.node id).ctrlIn = some ctrl ↔ (g.node id).ctrlIn = some ctrl :=
  Replaced.ref_iff (refAlike_getD (redirects.inputs id inside) 0) notOld notNew

theorem readsControl_iff {id : NodeId} (inside : id < g.size) :
    ReadsControl (h.node id) ctrl ↔ ReadsControl (g.node id) ctrl := by
  have member := mem_iff_of_forall₂ (redirects.slots notOld notNew inside)
  have first := redirects.ctrlIn_iff notOld notNew inside
  unfold ReadsControl
  rw [redirects.kind id inside]
  split <;> first | exact first | exact member | rfl

omit notOld notNew in
theorem not_dead {id : NodeId} (inside : id < g.size)
    (steers : ¬ IsData (g.node id).kind) :
    (h.node id).isDead = (g.node id).isDead := by
  refine redirects.dead id inside ?_
  rintro rfl
  exact steers redirects.oldData

omit redirects notOld notNew in
theorem not_readsControl {n : Node} (data : IsData n.kind) :
    ¬ ReadsControl n ctrl := by
  obtain ⟨isIf, isReturn, isRegion, isLoop, -⟩ := data
  unfold ReadsControl
  split <;> simp_all

theorem consumers_eq : consumers h ctrl = consumers g ctrl := by
  refine filter_range_grow redirects.size (fun id inside => ?_) fun id new => ?_
  · have reads := redirects.readsControl_iff notOld notNew inside
    by_cases steers : ReadsControl (g.node id) ctrl
    · rw [redirects.not_dead inside fun data => not_readsControl data steers]
      simp [reads, steers]
    · simp [reads, steers]
  · simp [not_readsControl (redirects.newData id new)]

theorem projs_eq (which : BitVec 32) : projs h ctrl which = projs g ctrl which := by
  refine filter_range_grow redirects.size (fun id inside => ?_) fun id new => ?_
  · have inputs := eq_singleton_iff_of_forall₂
      (redirects.slots notOld notNew inside)
    simp only [redirects.kind id inside, redirects.payload id inside, inputs]
    by_cases proj : (g.node id).kind = .proj
    · rw [redirects.not_dead inside fun data => data.2.2.2.2.1 proj]
    · simp [proj]
  · simp [(redirects.newData id new).2.2.2.2.1]

theorem callsAt_eq : callsAt h ctrl = callsAt g ctrl := by
  refine filter_range_grow redirects.size (fun id inside => ?_) fun id new => ?_
  · have first := redirects.ctrlIn_iff notOld notNew inside
    simp only [redirects.kind id inside, first]
    by_cases call : (g.node id).kind.isCall = true
    · rw [redirects.not_dead inside fun data => by simp [data.2.2.2.2.2.2] at call]
    · simp [call]
  · simp [(redirects.newData id new).2.2.2.2.2.2]

theorem phiSlot_eq {id : NodeId} (inside : id < g.size) :
    phiSlot (h.node id) ctrl = phiSlot (g.node id) ctrl := by
  have index := idxOf_eq_of_forall₂ (redirects.slots notOld notNew inside)
  simp only [phiSlot, index, redirects.kind id inside]

theorem isPhiOf_eq {id : NodeId} (inside : id < g.size) :
    isPhiOf h ctrl id = isPhiOf g ctrl id := by
  have head : (h.node id).inputs.head? = some (some ctrl) ↔
      (g.node id).inputs.head? = some (some ctrl) :=
    head?_iff_of_forall₂ (redirects.slots notOld notNew inside)
  simp only [isPhiOf, redirects.kind id inside, head]

end Control

theorem paramRank_eq {id : NodeId} (inside : id < g.size) :
    paramRank h id = paramRank g id :=
  paramRank_congr fun p earlier => redirects.kind p (Nat.lt_trans earlier inside)

section Values

variable {args : List Word} {held held' : Held}
variable (keeps : ∀ id, id < g.size → held' id = held id)
variable (value : ∀ v, HasValue g args held old v ↔ HasValue h args held' new v)
include keeps value

theorem hasValue_iff {id id' : NodeId} (pair : Replaced g old new id id')
    {v : Word} : HasValue g args held id v ↔ HasValue h args held' id' v := by
  constructor
  · refine HasValue.transfer (fun a b pair => ?_) pair
    rcases pair with ⟨rfl, inside⟩ | ⟨rfl, rfl⟩
    · exact Or.inl ⟨redirects.kind a inside, redirects.payload a inside,
        fun _ => redirects.paramRank_eq inside, fun _ => keeps a inside,
        redirects.inputs a inside⟩
    · exact Or.inr fun v => (value v).mp
  · refine HasValue.transfer
      (fun b a (pair : Replaced g old new a b) => ?_) pair
    rcases pair with ⟨rfl, inside⟩ | ⟨rfl, rfl⟩
    · refine Or.inl ⟨(redirects.kind a inside).symm,
        (redirects.payload a inside).symm,
        fun _ => (redirects.paramRank_eq inside).symm,
        fun _ => (keeps a inside).symm, ?_⟩
      refine (redirects.inputs a inside).flip.imp fun _ _ pair => ?_
      rcases pair with ⟨rfl, rfl⟩ | ⟨id, id', rfl, rfl, pair⟩
      · exact Or.inl ⟨rfl, rfl⟩
      · exact Or.inr ⟨id', id, rfl, rfl, pair⟩
    · exact Or.inr fun v => (value v).mpr

theorem refValue_iff {ref ref' : NodeRef}
    (pair : RefAlike (Replaced g old new) ref ref') {v : Word} :
    RefValue g args held ref v ↔ RefValue h args held' ref' v := by
  rcases pair with ⟨rfl, rfl⟩ | ⟨id, id', rfl, rfl, pair⟩
  · exact ⟨fun value => absurd value not_refValue_none,
      fun value => absurd value not_refValue_none⟩
  · rw [refValue_some, refValue_some]
    exact redirects.hasValue_iff keeps value pair

theorem refValues_iff {refs refs' : List NodeRef}
    (pairs : List.Forall₂ (RefAlike (Replaced g old new)) refs refs')
    {vs : List Word} :
    RefValues g args held refs vs ↔ RefValues h args held' refs' vs := by
  induction pairs generalizing vs with
  | nil => simp
  | cons pair _ ih =>
      cases vs with
      | nil => simp
      | cons v vs =>
          simp only [List.forall₂_cons]
          exact and_congr (redirects.refValue_iff keeps value pair) ih

end Values

end Redirects

/-- The new nodes hold what the old ones determine. -/
structure Follows (g h : Graph) (args : List Word) (old new : NodeId)
    (follow : Held → Held) : Prop where
  keeps : ∀ held id, id < g.size → follow held id = held id
  value : ∀ held v, HasValue g args held old v ↔
    HasValue h args (follow held) new v
  update : ∀ held call v, call < g.size → (g.node call).kind.isCall = true →
    follow (Function.update held call v) = Function.update (follow held) call v
  entered : ∀ region ctrl held held',
    (g.node region).kind = .region ∨ (g.node region).kind = .loop →
    Entered g args region (phiSlot (g.node region) ctrl) held held' →
      ∀ id, g.size ≤ id → EnteredAt h args region
        (phiSlot (g.node region) ctrl) (follow held) (follow held') id
  start : follow (fun _ => none) = fun _ => none

namespace Redirects

variable {g h : Graph} {old new : NodeId} (redirects : Redirects g h old new)
variable {args : List Word} {follow : Held → Held}
variable (follows : Follows g h args old new follow)
include redirects follows

theorem refValue_follow (held : Held) {id : NodeId} (inside : id < g.size)
    (slot : Nat) (v : Word) :
    RefValue g args held ((g.node id).inputs.getD slot none) v ↔
      RefValue h args (follow held) ((h.node id).inputs.getD slot none) v :=
  redirects.refValue_iff (follows.keeps held) (follows.value held)
    (refAlike_getD (redirects.inputs id inside) slot)

omit redirects follows in
theorem forall₂_drop {alike : NodeRef → NodeRef → Prop} {refs refs' : List NodeRef}
    (pairs : List.Forall₂ alike refs refs') (n : Nat) :
    List.Forall₂ alike (refs.drop n) (refs'.drop n) := by
  induction pairs generalizing n with
  | nil => simp
  | cons pair rest ih =>
      cases n with
      | zero => exact .cons pair rest
      | succ n => exact ih n

theorem refValues_follow (held : Held) {id : NodeId} (inside : id < g.size)
    (values : List Word) :
    RefValues g args held ((g.node id).inputs.drop 2) values ↔
      RefValues h args (follow held) ((h.node id).inputs.drop 2) values :=
  redirects.refValues_iff (follows.keeps held) (follows.value held)
    (forall₂_drop (redirects.inputs id inside) 2)

omit follows in
theorem ne_of_control {ctrl : NodeId} (inside : ctrl < g.size)
    (kind : IsControl (g.node ctrl).kind) : ctrl ≠ old ∧ ctrl ≠ new := by
  refine ⟨?_, Nat.ne_of_lt (Nat.lt_of_lt_of_le inside redirects.added)⟩
  rintro rfl
  obtain ⟨-, -, isRegion, isLoop, isProj, -⟩ := redirects.oldData
  rcases kind with proj | region | loop
  · exact isProj proj
  · exact isRegion region
  · exact isLoop loop

theorem entered_iff {region : NodeId} (inside : region < g.size)
    (kind : (g.node region).kind = .region ∨ (g.node region).kind = .loop)
    (ctrl : NodeId) {held : Held} {held₂ : Held} :
    Entered h args region (phiSlot (g.node region) ctrl) (follow held) held₂ ↔
      ∃ held₁, Entered g args region (phiSlot (g.node region) ctrl) held held₁ ∧
        held₂ = follow held₁ := by
  obtain ⟨notOld, notNew⟩ := redirects.ne_of_control inside (Or.inr kind)
  have forward {held₁ : Held}
      (entered : Entered g args region (phiSlot (g.node region) ctrl) held held₁) :
      Entered h args region (phiSlot (g.node region) ctrl) (follow held)
        (follow held₁) := by
    intro id
    by_cases old : id < g.size
    · have here := entered id
      unfold EnteredAt at here ⊢
      rw [redirects.isPhiOf_eq notOld notNew old, follows.keeps held₁ id old,
        follows.keeps held id old]
      split
      case isTrue phi =>
        rw [if_pos phi] at here
        exact fun v => (here v).trans (redirects.refValue_follow follows held old _ v)
      case isFalse phi =>
        rw [if_neg phi] at here
        exact here
    · exact follows.entered region ctrl held held₁ kind entered id
        (Nat.le_of_not_lt old)
  constructor
  · intro entered
    let held₁ : Held := fun id => if id < g.size then held₂ id else held id
    have back : Entered g args region (phiSlot (g.node region) ctrl) held held₁ := by
      intro id
      have here := entered id
      unfold EnteredAt at here ⊢
      by_cases old : id < g.size
      · rw [redirects.isPhiOf_eq notOld notNew old, follows.keeps held id old]
          at here
        simp only [held₁, if_pos old]
        split
        case isTrue phi =>
          rw [if_pos phi] at here
          exact fun v => (here v).trans
            (redirects.refValue_follow follows held old _ v).symm
        case isFalse phi =>
          rw [if_neg phi] at here
          exact here
      · have blank : (g.node id).kind = .start := by
          rw [g.node_of_size_le (Nat.le_of_not_lt old)]
          rfl
        simp [held₁, old, isPhiOf, blank]
    exact ⟨held₁, back, entered.unique (forward back)⟩
  · rintro ⟨held₁, entered, rfl⟩
    exact forward entered

section Steps

variable {callees : Callees}

omit follows in
theorem arrive_follow {ctrl : NodeId} (inside : ctrl < g.size)
    (kind : IsControl (g.node ctrl).kind) (held : Held) (calls : List Call) :
    arrive h ctrl (follow held) calls =
      (arrive g ctrl held calls).mapHeld follow := by
  obtain ⟨notOld, notNew⟩ := redirects.ne_of_control inside kind
  rw [arrive, redirects.callsAt_eq notOld notNew]
  rfl

omit redirects follows in
theorem proj_control {source proj : NodeId} {which : BitVec 32}
    (only : projs g source which = [proj]) :
    proj < g.size ∧ IsControl (g.node proj).kind := by
  have member : proj ∈ projs g source which := by
    rw [only]
    exact List.mem_singleton_self proj
  exact ⟨(mem_projs.mp member).1, Or.inl (mem_projs.mp member).2.2.1⟩

omit follows in
theorem projs_user {user : NodeId} (inside : user < g.size)
    (kind : (g.node user).kind = .ifNode) (which : BitVec 32) :
    projs h user which = projs g user which := by
  refine redirects.projs_eq ?_ ?_ which
  · rintro rfl
    exact redirects.oldData.1 kind
  · exact Nat.ne_of_lt (Nat.lt_of_lt_of_le inside redirects.added)

/-- Both walks take the same steps. -/
theorem step_iff {s t : WalkState} (on : OnControl g s) :
    Step h callees args (s.mapHeld follow) t ↔
      ∃ s', Step g callees args s s' ∧ t = s'.mapHeld follow := by
  cases s with
  | returned value calls =>
      constructor
      · intro next
        cases next
      · rintro ⟨s', next, -⟩
        cases next
  | walking ctrl pending held calls =>
      obtain ⟨inside, isControl, onCalls⟩ := on
      obtain ⟨notOld, notNew⟩ := redirects.ne_of_control inside isControl
      have sameUsers := redirects.consumers_eq notOld notNew
      constructor
      · intro next
        cases next with
        | @call _ call pending _ _ values evaluated =>
            obtain ⟨callInside, isCall⟩ := onCalls call List.mem_cons_self
            have same : callOf h call values = callOf g call values := by
              rw [callOf, callOf, redirects.payload call callInside]
            refine ⟨_, .call ((redirects.refValues_follow follows held callInside
              values).mpr evaluated), ?_⟩
            rw [same]
            simp only [WalkState.mapHeld, follows.update _ _ _ callInside isCall]
        | @branch _ user proj _ _ cond only kind evaluated taken =>
            rw [sameUsers] at only
            have userInside := consumer_inside only
            rw [redirects.kind user userInside] at kind
            rw [redirects.projs_user userInside kind] at taken
            have projControl := proj_control taken
            exact ⟨_, .branch only kind ((redirects.refValue_follow follows held
              userInside 1 cond).mpr evaluated) taken,
              redirects.arrive_follow projControl.1 projControl.2 held
                calls⟩
        | @enter _ user _ held₂ _ only kind entered =>
            rw [sameUsers] at only
            have userInside := consumer_inside only
            rw [redirects.kind user userInside] at kind
            rw [redirects.phiSlot_eq notOld notNew userInside] at entered
            obtain ⟨held₁, before, rfl⟩ :=
              (redirects.entered_iff follows userInside kind ctrl).mp entered
            exact ⟨_, .enter only kind before,
              redirects.arrive_follow userInside (Or.inr kind) held₁ calls⟩
        | @finish _ user _ _ value only kind evaluated =>
            rw [sameUsers] at only
            have userInside := consumer_inside only
            rw [redirects.kind user userInside] at kind
            exact ⟨_, .finish only kind ((redirects.refValue_follow follows held
              userInside 2 value).mpr evaluated), rfl⟩
      · rintro ⟨s', next, rfl⟩
        cases next with
        | @call _ call pending _ _ values evaluated =>
            obtain ⟨callInside, isCall⟩ := onCalls call List.mem_cons_self
            have same : callOf h call values = callOf g call values := by
              rw [callOf, callOf, redirects.payload call callInside]
            have next : Step h callees args
                (.walking ctrl (call :: pending) _ calls) _ :=
              .call ((redirects.refValues_follow follows held callInside values).mp
                evaluated)
            rw [same] at next
            simp only [WalkState.mapHeld, follows.update _ _ _ callInside isCall]
            exact next
        | @branch _ user proj _ _ cond only kind evaluated taken =>
            have userInside := consumer_inside only
            have projControl := proj_control taken
            rw [← redirects.arrive_follow projControl.1 projControl.2]
            rw [← sameUsers] at only
            rw [← redirects.projs_user userInside kind] at taken
            rw [← redirects.kind user userInside] at kind
            exact .branch only kind ((redirects.refValue_follow follows held
              userInside 1 cond).mp evaluated) taken
        | @enter _ user _ held₁ _ only kind entered =>
            have userInside := consumer_inside only
            rw [← redirects.arrive_follow userInside (Or.inr kind)]
            have entered' := (redirects.entered_iff follows userInside kind ctrl).mpr
              ⟨held₁, entered, rfl⟩
            rw [← redirects.phiSlot_eq notOld notNew userInside] at entered'
            rw [← sameUsers] at only
            rw [← redirects.kind user userInside] at kind
            exact .enter only kind entered'
        | @finish _ user _ _ value only kind evaluated =>
            have userInside := consumer_inside only
            rw [← sameUsers] at only
            rw [← redirects.kind user userInside] at kind
            exact .finish only kind ((redirects.refValue_follow follows held
              userInside 2 value).mp evaluated)

/-- The walk visits the same states, with the new nodes following. -/
theorem visits_iff {t : WalkState} :
    Visits h callees args t ↔
      ∃ s, Visits g callees args s ∧ t = s.mapHeld follow := by
  have starts : projs h kStartNodeId 0 = projs g kStartNodeId 0 :=
    redirects.projs_eq (Ne.symm redirects.notStart)
      (Nat.ne_of_lt (Nat.lt_of_lt_of_le redirects.nonempty redirects.added)) 0
  have first {start : NodeId} (only : projs g kStartNodeId 0 = [start]) :
      arrive h start (fun _ => none) [] =
        (arrive g start (fun _ => none) []).mapHeld follow := by
    have control := proj_control only
    rw [← redirects.arrive_follow control.1 control.2, follows.start]
  constructor
  · rintro ⟨start, only, steps⟩
    rw [starts] at only
    have simulates : Simulation.Simulates (Step h callees args)
        (Step g callees args) fun t s => OnControl g s ∧ t = s.mapHeld follow := by
      rintro t t' s ⟨on, rfl⟩ next
      obtain ⟨s', before, rfl⟩ := (redirects.step_iff follows on).mp next
      exact ⟨s', .single before, on.step before, rfl⟩
    obtain ⟨s, run, -, same⟩ := simulates.run
      ⟨onControl_proj only _ _, first only⟩ steps
    exact ⟨s, ⟨start, only, run⟩, same⟩
  · rintro ⟨s, ⟨start, only, steps⟩, rfl⟩
    have simulates : Simulation.Simulates (Step g callees args)
        (Step h callees args) fun s t => OnControl g s ∧ t = s.mapHeld follow := by
      rintro s s' t ⟨on, rfl⟩ next
      exact ⟨_, .single ((redirects.step_iff follows on).mpr ⟨s', next, rfl⟩),
        on.step next, rfl⟩
    obtain ⟨t, run, -, same⟩ := simulates.run
      ⟨onControl_proj only _ _, first only⟩ steps
    rw [← starts] at only
    exact ⟨start, only, same ▸ run⟩

theorem returns_iff {value : Word} {calls : List Call} :
    Returns h callees args value calls ↔ Returns g callees args value calls := by
  constructor
  · intro returns
    obtain ⟨s, visits, same⟩ := (redirects.visits_iff follows).mp returns
    cases s with
    | walking => cases same
    | returned =>
        cases same
        exact visits
  · exact fun returns =>
      (redirects.visits_iff follows).mpr ⟨_, returns, rfl⟩

end Steps

end Redirects

end CallWalk

end Aegis
