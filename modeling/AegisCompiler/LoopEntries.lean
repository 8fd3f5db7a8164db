import AegisCompiler.CallWalkRuns

/-!
# The entries of a loop

A walk is followed together with the number of times that it has gone around a
loop since it last came to the loop from outside.  A phi of the loop keeps its
value from one entry of the header to the next.
-/

namespace Aegis

namespace CallWalk

open ControlWalk (isPhiOf)

section Counting

variable (g : Graph) (loop : NodeId)

/-- How often the walk has gone around the loop after a step out of this state;
slot 1 of the phis of a loop belongs to its entry from outside. -/
def countAfter : WalkState → Option Nat → Option Nat
  | .walking ctrl [] _ _, count =>
      if consumers g ctrl = [loop] then
        if phiSlot (g.node loop) ctrl = 1 then some 0 else count.map (· + 1)
      else count
  | _, count => count

/-- The walk gets to this state, having gone around the loop so many times; there
is no number before the loop is first entered. -/
inductive Counted (callees : Callees) (args : List Word) :
    WalkState → Option Nat → Prop where
  | start {first} (only : projs g kStartNodeId 0 = [first]) :
      Counted callees args (arrive g first (fun _ => none) []) none
  | next {s t count} (before : Counted callees args s count)
      (step : Step g callees args s t) : Counted callees args t (countAfter g loop s count)

end Counting

section Counted

variable {g : Graph} {loop : NodeId} {callees : Callees} {args : List Word}

theorem Counted.visits {s : WalkState} {count : Option Nat}
    (counted : Counted g loop callees args s count) : Visits g callees args s := by
  induction counted with
  | start only => exact ⟨_, only, .refl⟩
  | next _ step ih =>
      obtain ⟨first, only, steps⟩ := ih
      exact ⟨first, only, steps.tail step⟩

/-- Every state that the walk visits is counted. -/
theorem Visits.counted {s : WalkState} (visits : Visits g callees args s) :
    ∃ count, Counted g loop callees args s count := by
  obtain ⟨first, only, steps⟩ := visits
  induction steps with
  | refl => exact ⟨none, .start only⟩
  | tail _ last ih =>
      obtain ⟨count, counted⟩ := ih
      exact ⟨_, counted.next last⟩

/-- The node holds this value, unless the walk has ended. -/
def Holds (id : NodeId) (v : Word) : WalkState → Prop
  | .walking _ _ held _ => held id = some v
  | .returned .. => True

/-- What one step means for a phi of the loop: it enters the loop, or the phi and
the count stay as they are. -/
theorem step_phi (isLoop : (g.node loop).kind = .loop) {phi : NodeId}
    (isPhi : isPhiOf g loop phi = true) {s t : WalkState} (on : OnControl g s)
    (next : Step g callees args s t) (count : Option Nat) :
    (countAfter g loop s count = count ∧ ∀ v, Holds phi v s → Holds phi v t) ∨
      ∃ ctrl held held' calls, s = .walking ctrl [] held calls ∧
        t = arrive g loop held' calls ∧ consumers g ctrl = [loop] ∧
          Entered g args loop (phiSlot (g.node loop) ctrl) held held' := by
  simp only [isPhiOf, Bool.and_eq_true, decide_eq_true_eq] at isPhi
  obtain ⟨kind, header⟩ := isPhi
  have elsewhere {ctrl user : NodeId} (only : consumers g ctrl = [user])
      (apart : user ≠ loop) (held : Held) (calls : List Call) :
      countAfter g loop (.walking ctrl [] held calls) count = count := by
    rw [countAfter, only, if_neg]
    intro same
    exact apart (List.cons.inj same).1
  cases next with
  | @call _ call _ held _ values evaluated =>
      refine Or.inl ⟨rfl, fun v holds => ?_⟩
      have isCall := (on.2.2 call List.mem_cons_self).2
      have differs : phi ≠ call := by
        rintro rfl
        rw [kind] at isCall
        cases isCall
      have same (w : Option Word) : Function.update held call w phi = held phi :=
        Function.update_of_ne differs w held
      exact (same _).trans holds
  | @branch ctrl user proj held calls cond only userKind evaluated taken =>
      have apart : user ≠ loop := by
        rintro rfl
        rw [isLoop] at userKind
        cases userKind
      exact Or.inl ⟨elsewhere only apart held calls, fun v holds => holds⟩
  | @enter ctrl user held held' calls only userKind entered =>
      by_cases same : user = loop
      · subst same
        exact Or.inr ⟨ctrl, held, held', calls, rfl, rfl, only, entered⟩
      · refine Or.inl ⟨elsewhere only same held calls, fun v holds => ?_⟩
        have notPhi : isPhiOf g user phi = false := by
          rw [isPhiOf, header, decide_eq_false (p := some (some loop) = some (some user)),
            Bool.and_false]
          intro both
          exact same (Option.some.inj (Option.some.inj both)).symm
        have here := entered phi
        rw [EnteredAt, notPhi, if_neg Bool.false_ne_true] at here
        exact here.trans holds
  | @finish ctrl user held calls value only userKind evaluated =>
      have apart : user ≠ loop := by
        rintro rfl
        rw [isLoop] at userKind
        cases userKind
      exact Or.inl ⟨elsewhere only apart held calls, fun _ _ => trivial⟩

/-- What holds of a phi at every entry with a count holds in every state with it. -/
theorem Counted.holds (isLoop : (g.node loop).kind = .loop) {phi : NodeId}
    (isPhi : isPhiOf g loop phi = true) {valueAt : Nat → Word}
    (entries : ∀ count held calls,
      Counted g loop callees args (arrive g loop held calls) (some count) →
        held phi = some (valueAt count))
    {s : WalkState} {count : Nat} (counted : Counted g loop callees args s (some count)) :
    Holds phi (valueAt count) s := by
  generalize state : some count = c at counted
  induction counted generalizing count with
  | start only => cases state
  | @next s t before counted step ih =>
      rcases step_phi isLoop isPhi counted.visits.onControl step before with
        ⟨same, kept⟩ | ⟨ctrl, held, held', calls, rfl, rfl, only, entered⟩
      · rw [same] at state
        exact kept _ (ih state)
      · have here := counted.next step
        rw [← state] at here
        exact entries count held' calls here

end Counted

section Running

variable (g : Graph) (callees : Callees) (args : List Word) (fuel : Nat) (loop : NodeId)

/-- The state after so many steps, with its count. -/
def countedAt : Nat → WalkState → Option Nat → Option (WalkState × Option Nat)
  | 0, s, count => some (s, count)
  | steps + 1, s, count =>
      (stepAt g callees args fuel s).bind fun t =>
        countedAt steps t (countAfter g loop s count)

/-- The count and the value of a phi after so many steps, when the walk is at an
entry of the loop then. -/
def entryAt (phi : NodeId) (steps : Nat) : Option (Option Nat × Option Word) :=
  match projs g kStartNodeId 0 with
  | [first] =>
      (countedAt g callees args fuel loop steps (arrive g first (fun _ => none) [])
        none).bind fun entry =>
          match entry.1 with
          | .walking ctrl pending held _ =>
              if ctrl = loop ∧ pending = callsAt g loop then some (entry.2, held phi)
              else none
          | .returned .. => none
  | _ => none

variable {g callees args fuel loop}

theorem counted_of_countedAt {steps : Nat} {s t : WalkState} {count count' : Option Nat}
    (counted : Counted g loop callees args s count)
    (ran : countedAt g callees args fuel loop steps s count = some (t, count')) :
    Counted g loop callees args t count' := by
  induction steps generalizing s count with
  | zero =>
      cases ran
      exact counted
  | succ steps ih =>
      obtain ⟨u, next, rest⟩ := Option.bind_eq_some_iff.mp ran
      exact ih (counted.next (step_of_stepAt next)) rest

theorem counted_of_entryAt {phi : NodeId} {steps : Nat} {count : Option Nat}
    {value : Option Word}
    (ran : entryAt g callees args fuel loop phi steps = some (count, value)) :
    ∃ held calls, Counted g loop callees args (arrive g loop held calls) count ∧
      held phi = value := by
  unfold entryAt at ran
  split at ran
  case h_2 => cases ran
  case h_1 first only =>
    obtain ⟨⟨s, after⟩, walked, here⟩ := Option.bind_eq_some_iff.mp ran
    have counted := counted_of_countedAt (.start only) walked
    cases s with
    | returned value calls => cases here
    | walking ctrl pending held calls =>
        simp only [Option.ite_none_right_eq_some, Option.some.injEq, Prod.mk.injEq] at here
        obtain ⟨⟨rfl, rfl⟩, rfl, rfl⟩ := here
        exact ⟨held, calls, counted, rfl⟩

end Running

end CallWalk

end Aegis
