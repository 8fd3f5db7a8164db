import AegisCompiler.ValueTransfer
import AegisCompiler.Simulation

/-!
# Walks of a graph with less control

A pass may take control nodes out of a graph when the walk goes through them
without performing a call.  The walk of the smaller graph stays where the old
walk entered such nodes, and performs the calls behind them there.
-/

namespace Aegis

namespace CallWalk

open ControlWalk (isPhiOf)

/-- How the walk of one graph follows the walk of another: where it is, which
calls it still performs there, the nodes at which it waits, the nodes whose
values it does not share, and the nodes that have the same values. -/
structure Shadow where
  place : NodeId → NodeId
  rest : NodeId → List NodeId
  silent : NodeId → Prop
  changed : NodeId → Prop
  alike : NodeId → NodeId → Prop

/-- Apart from the changed nodes, whatever the first state holds the second
holds too. -/
def Agrees (changed : NodeId → Prop) (held held' : Held) : Prop :=
  ∀ id v, ¬ changed id → held id = some v → held' id = some v

theorem Agrees.update {changed : NodeId → Prop} {held held' : Held}
    (agrees : Agrees changed held held') (id : NodeId) (v : Option Word) :
    Agrees changed (Function.update held id v) (Function.update held' id v) := by
  intro other w same value
  by_cases here : other = id
  · subst here
    rwa [Function.update_self] at value ⊢
  · rw [Function.update_of_ne here] at value ⊢
    exact agrees other w same value

/-- The second walk is where it should be, given the state of the first. -/
inductive Shadows (shadow : Shadow) : WalkState → WalkState → Prop where
  | walking {ctrl pending held held' calls}
      (agrees : Agrees shadow.changed held held') :
      Shadows shadow (.walking ctrl pending held calls)
        (.walking (shadow.place ctrl) (pending ++ shadow.rest ctrl) held' calls)
  | returned {value calls} :
      Shadows shadow (.returned value calls) (.returned value calls)

section Carrying

variable (g h : Graph) (callees : Callees) (args : List Word) (shadow : Shadow)

/-- At the place of a control node the second graph has the calls of the
control node, and then those that it still performs there. -/
def Arrives (ctrl : NodeId) : Prop :=
  callsAt h (shadow.place ctrl) = callsAt g ctrl ++ shadow.rest ctrl

/-- The second graph goes on from the place of a control node as the first
does from the control node. -/
structure GoesOn (ctrl user : NodeId) : Prop where
  only : consumers h (shadow.place ctrl) = [user]
  kind : (h.node user).kind = (g.node user).kind
  branch : (g.node user).kind = .ifNode →
    RefAlike shadow.alike ((g.node user).inputs.getD 1 none)
        ((h.node user).inputs.getD 1 none) ∧
      ∀ which proj, projs g user which = [proj] →
        projs h user which = [shadow.place proj] ∧ Arrives g h shadow proj
  enter : (g.node user).kind = .region ∨ (g.node user).kind = .loop →
    shadow.place user = user ∧ Arrives g h shadow user ∧
      phiSlot (h.node user) (shadow.place ctrl) = phiSlot (g.node user) ctrl ∧
      ∀ id, ¬ shadow.changed id →
        isPhiOf h user id = isPhiOf g user id ∧
          (isPhiOf g user id = true → RefAlike shadow.alike
            ((g.node id).inputs.getD (phiSlot (g.node user) ctrl) none)
            ((h.node id).inputs.getD (phiSlot (g.node user) ctrl) none))
  finish : (g.node user).kind = .returnNode →
    RefAlike shadow.alike ((g.node user).inputs.getD 2 none)
      ((h.node user).inputs.getD 2 none)

/-- The second graph carries the walk of the first. -/
structure Carries : Prop where
  start : ∀ start, projs g kStartNodeId 0 = [start] →
    projs h kStartNodeId 0 = [shadow.place start] ∧ Arrives g h shadow start
  values : ∀ {ctrl pending held calls held'},
    Visits g callees args (.walking ctrl pending held calls) →
      Agrees shadow.changed held held' → ∀ id id', shadow.alike id id' →
        ∀ v, HasValue g args held id v → HasValue h args held' id' v
  call : ∀ ctrl, ∀ call ∈ callsAt g ctrl,
    (h.node call).payload = (g.node call).payload ∧
      List.Forall₂ (RefAlike shadow.alike) ((g.node call).inputs.drop 2)
        ((h.node call).inputs.drop 2)
  silent : ∀ {ctrl held held' calls t}, shadow.silent ctrl →
    Visits g callees args (.walking ctrl [] held calls) →
      Step g callees args (.walking ctrl [] held calls) t →
        Agrees shadow.changed held held' →
          Shadows shadow t
            (.walking (shadow.place ctrl) (shadow.rest ctrl) held' calls)
  loud : ∀ {ctrl held calls}, ¬ shadow.silent ctrl →
    Visits g callees args (.walking ctrl [] held calls) →
      shadow.rest ctrl = [] ∧
        ∀ user, consumers g ctrl = [user] → GoesOn g h shadow ctrl user

end Carrying

section Run

variable {g h : Graph} {callees : Callees} {args : List Word} {shadow : Shadow}

theorem Visits.step {s t : WalkState} (visits : Visits g callees args s)
    (next : Step g callees args s t) : Visits g callees args t := by
  obtain ⟨start, starts, steps⟩ := visits
  exact ⟨start, starts, steps.tail next⟩

/-- The pending calls of a state are calls at its control node. -/
def PendingHere (g : Graph) : WalkState → Prop
  | .walking ctrl pending _ _ => ∀ call ∈ pending, call ∈ callsAt g ctrl
  | .returned .. => True

theorem PendingHere.step {s t : WalkState} (here : PendingHere g s)
    (next : Step g callees args s t) : PendingHere g t := by
  cases next with
  | call => exact fun call member => here call (List.mem_cons_of_mem _ member)
  | branch => exact fun call member => member
  | enter => exact fun call member => member
  | finish => trivial

theorem Visits.pendingHere {s : WalkState} (visits : Visits g callees args s) :
    PendingHere g s := by
  obtain ⟨start, starts, steps⟩ := visits
  induction steps with
  | refl => exact fun call member => member
  | tail _ last ih => exact ih.step last

open Classical in
/-- A region can be entered in every state. -/
theorem exists_entered (g : Graph) (args : List Word) (region : NodeId)
    (slot : Nat) (held : Held) : ∃ held', Entered g args region slot held held' := by
  let found : NodeId → Option Word := fun id =>
    if known : ∃ v, RefValue g args held ((g.node id).inputs.getD slot none) v then
      some known.choose
    else none
  refine ⟨fun id => if isPhiOf g region id then found id else held id,
    fun id => ?_⟩
  by_cases phi : isPhiOf g region id = true
  · simp only [EnteredAt, if_pos phi]
    intro v
    by_cases known : ∃ v, RefValue g args held ((g.node id).inputs.getD slot none) v
    · simp only [found, dif_pos known, Option.some.injEq]
      constructor
      · rintro rfl
        exact known.choose_spec
      · exact known.choose_spec.unique
    · simp only [found, dif_neg known, reduceCtorEq, false_iff]
      exact fun value => known ⟨v, value⟩
  · simp only [EnteredAt, if_neg phi]

/-- Entering corresponding regions keeps the states in agreement. -/
theorem Entered.agrees {changed : NodeId → Prop} {user : NodeId}
    {slot : Nat} {held held' held₁ held₁' : Held}
    (agrees : Agrees changed held held')
    (each : ∀ id, ¬ changed id → isPhiOf h user id = isPhiOf g user id ∧
      (isPhiOf g user id = true → ∀ v,
        RefValue g args held ((g.node id).inputs.getD slot none) v →
          RefValue h args held' ((h.node id).inputs.getD slot none) v))
    (entered : Entered g args user slot held held₁)
    (entered' : Entered h args user slot held' held₁') :
    Agrees changed held₁ held₁' := by
  intro id v same value
  obtain ⟨phis, slots⟩ := each id same
  have first := entered id
  have second := entered' id
  unfold EnteredAt at first second
  rw [phis] at second
  split at first
  case isTrue phi =>
    rw [if_pos phi] at second
    exact (second v).mpr (slots phi v ((first v).mp value))
  case isFalse phi =>
    rw [if_neg phi] at second
    rw [second]
    exact agrees id v same (first ▸ value)

variable (carries : Carries g h callees args shadow)
include carries

theorem Carries.refValue {ctrl : NodeId} {pending : List NodeId}
    {held held' : Held} {calls : List Call}
    (visits : Visits g callees args (.walking ctrl pending held calls))
    (agrees : Agrees shadow.changed held held') {ref ref' : NodeRef}
    (pair : RefAlike shadow.alike ref ref') {v : Word}
    (value : RefValue g args held ref v) : RefValue h args held' ref' v :=
  RefValue.transfer (carries.values visits agrees) pair value

/-- One step of the first walk is at most one step of the second. -/
theorem Carries.simulates {s t s' : WalkState}
    (visits : Visits g callees args s) (matched : Shadows shadow s s')
    (next : Step g callees args s t) :
    ∃ t', Steps h callees args s' t' ∧ Shadows shadow t t' := by
  cases matched with
  | returned => exact absurd next not_step_returned
  | @walking ctrl pending held held' calls agrees =>
      by_cases waits : shadow.silent ctrl ∧ pending = []
      · obtain ⟨silent, rfl⟩ := waits
        exact ⟨_, .refl, carries.silent silent visits next agrees⟩
      cases next with
      | @call _ call pending _ _ values evaluated =>
          have here := visits.pendingHere call List.mem_cons_self
          obtain ⟨payload, operands⟩ := carries.call ctrl call here
          have evaluated' := RefValues.transfer (carries.values visits agrees)
            operands evaluated
          have same : callOf h call values = callOf g call values := by
            rw [callOf, callOf, payload]
          have step : Step h callees args
              (.walking (shadow.place ctrl)
                (call :: (pending ++ shadow.rest ctrl)) held' calls) _ :=
            .call evaluated'
          rw [same] at step
          exact ⟨_, .single step, .walking (agrees.update call _)⟩
      | @branch _ user proj _ _ cond only kind evaluated taken =>
          have loud : ¬ shadow.silent ctrl := fun silent => waits ⟨silent, rfl⟩
          obtain ⟨none, goesOn⟩ := carries.loud loud visits
          have on := goesOn user only
          obtain ⟨sameCond, arms⟩ := on.branch kind
          obtain ⟨taken', arrives⟩ := arms _ _ taken
          have step : Step h callees args
              (.walking (shadow.place ctrl) [] held' calls) _ :=
            .branch on.only (on.kind.trans kind)
              (carries.refValue visits agrees sameCond evaluated) taken'
          rw [none, List.append_nil]
          refine ⟨_, .single step, ?_⟩
          rw [arrive, arrive, arrives]
          exact .walking agrees
      | @enter _ user _ held₁ _ only kind entered =>
          have loud : ¬ shadow.silent ctrl := fun silent => waits ⟨silent, rfl⟩
          obtain ⟨none, goesOn⟩ := carries.loud loud visits
          have on := goesOn user only
          obtain ⟨stays, arrives, slot, phis⟩ := on.enter kind
          obtain ⟨held₁', entered'⟩ := exists_entered h args user
            (phiSlot (g.node user) ctrl) held'
          have agrees₁ := Entered.agrees agrees (fun id same =>
            ⟨(phis id same).1, fun phi v value =>
              carries.refValue visits agrees ((phis id same).2 phi) value⟩)
            entered entered'
          have step : Step h callees args
              (.walking (shadow.place ctrl) [] held' calls) _ :=
            .enter on.only (on.kind ▸ kind) (slot ▸ entered')
          rw [none, List.append_nil]
          refine ⟨_, .single step, ?_⟩
          have arrives' := arrives
          rw [Arrives, stays] at arrives'
          rw [arrive, arrive, arrives']
          have place : Shadows shadow
              (.walking user (callsAt g user) held₁ calls)
              (.walking (shadow.place user)
                (callsAt g user ++ shadow.rest user) held₁' calls) :=
            .walking agrees₁
          rwa [stays] at place
      | @finish _ user _ _ value only kind evaluated =>
          have loud : ¬ shadow.silent ctrl := fun silent => waits ⟨silent, rfl⟩
          obtain ⟨none, goesOn⟩ := carries.loud loud visits
          have on := goesOn user only
          have step : Step h callees args
              (.walking (shadow.place ctrl) [] held' calls) _ :=
            .finish on.only (on.kind.trans kind)
              (carries.refValue visits agrees (on.finish kind) evaluated)
          rw [none, List.append_nil]
          exact ⟨_, .single step, .returned⟩

/-- What the first walk returns the second returns too, after the same
calls. -/
theorem Carries.returns {value : Word} {calls : List Call}
    (returns : Returns g callees args value calls) :
    Returns h callees args value calls := by
  obtain ⟨start, starts, steps⟩ := returns
  obtain ⟨starts', arrives⟩ := carries.start start starts
  have first : Shadows shadow (arrive g start (fun _ => none) [])
      (arrive h (shadow.place start) (fun _ => none) []) := by
    rw [arrive, arrive, arrives]
    exact .walking fun _ _ _ value => value
  have simulates : Simulation.Simulates (Step g callees args)
      (Step h callees args) fun s s' =>
        Visits g callees args s ∧ Shadows shadow s s' := by
    rintro s t s' ⟨visits, matched⟩ next
    obtain ⟨t', steps', matched'⟩ := carries.simulates visits matched next
    exact ⟨t', steps', visits.step next, matched'⟩
  obtain ⟨_, steps', -, matched⟩ := simulates.run ⟨⟨start, starts, .refl⟩, first⟩
    steps
  cases matched
  exact ⟨shadow.place start, starts', steps'⟩

end Run

end CallWalk

end Aegis
