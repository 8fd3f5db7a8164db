import AegisCompiler.CallWalk

/-!
# Running a walk

The walk of a concrete graph, with fuel for the depth of operands and for the
number of steps.  A run that ends is a walk that returns.
-/

namespace Aegis

namespace CallWalk

open ControlWalk (isPhiOf)

section Running

variable (g : Graph) (callees : Callees) (args : List Word) (fuel : Nat)

def refAt (held : Held) (ref : NodeRef) : Option Word :=
  ref.bind (valueAt g args held fuel)

/-- The phis of a region, with the values they take from a slot. -/
def enterAt (region : NodeId) (slot : Nat) (held : Held) : Option Held :=
  (((List.range g.size).filter (isPhiOf g region)).mapM fun id =>
    (refAt g args fuel held ((g.node id).inputs.getD slot none)).map
      (Prod.mk id)).map fun entered id =>
        if isPhiOf g region id then
          (List.find? (fun entry => entry.1 = id) entered).map Prod.snd
        else held id

def stepAt : WalkState → Option WalkState
  | .returned .. => none
  | .walking ctrl (call :: pending) held calls =>
      (((g.node call).inputs.drop 2).mapM (refAt g args fuel held)).map
        fun values =>
          let calls := calls ++ [callOf g call values]
          .walking ctrl pending
            (Function.update held call (some (callees calls))) calls
  | .walking ctrl [] held calls =>
      match consumers g ctrl with
      | [user] =>
          match (g.node user).kind with
          | .ifNode =>
              (refAt g args fuel held ((g.node user).inputs.getD 1 none)).bind
                fun cond =>
                  match projs g user (if cond ≠ 0 then 0 else 1) with
                  | [proj] => some (arrive g proj held calls)
                  | _ => none
          | .region | .loop =>
              (enterAt g args fuel user (phiSlot (g.node user) ctrl) held).map
                fun held' => arrive g user held' calls
          | .returnNode =>
              (refAt g args fuel held ((g.node user).inputs.getD 2 none)).map
                fun value => .returned value calls
          | _ => none
      | _ => none

def runAt : Nat → WalkState → Option (Word × List Call)
  | _, .returned value calls => some (value, calls)
  | 0, _ => none
  | steps + 1, s => (stepAt g callees args fuel s).bind (runAt steps)

/-- Run the walk from the start node. -/
def returnsAt (steps : Nat) : Option (Word × List Call) :=
  match projs g kStartNodeId 0 with
  | [start] => runAt g callees args fuel steps (arrive g start (fun _ => none) [])
  | _ => none

/-- The state after so many steps. -/
def walkAt : Nat → WalkState → Option WalkState
  | 0, s => some s
  | steps + 1, s => (stepAt g callees args fuel s).bind (walkAt steps)

/-- The only step left would return the value of a phi that is not set. -/
def isStuck : WalkState → Bool
  | .walking ctrl [] held _ =>
      match consumers g ctrl with
      | [user] =>
          decide ((g.node user).kind = .returnNode) &&
            ((g.node user).inputs.getD 2 none).any fun phi =>
              decide ((g.node phi).kind = .phi) && (held phi).isNone
      | _ => false
  | _ => false

/-- The walk from the start node is stuck after so many steps. -/
def stuckAt (steps : Nat) : Bool :=
  match projs g kStartNodeId 0 with
  | [start] =>
      (walkAt g callees args fuel steps (arrive g start (fun _ => none) [])).any
        (isStuck g)
  | _ => false

end Running

section Sound

variable {g : Graph} {callees : Callees} {args : List Word} {fuel : Nat}

theorem refValue_of_refAt {held : Held} {ref : NodeRef} {v : Word}
    (value : refAt g args fuel held ref = some v) :
    RefValue g args held ref v := by
  obtain ⟨id, rfl, value⟩ := Option.bind_eq_some_iff.mp value
  exact ⟨id, rfl, fuel, value⟩

theorem refValues_of_mapM {held : Held} {refs : List NodeRef} {vs : List Word}
    (values : refs.mapM (refAt g args fuel held) = some vs) :
    RefValues g args held refs vs := by
  induction refs generalizing vs with
  | nil =>
      cases values
      exact .nil
  | cons ref refs ih =>
      rw [List.mapM_cons] at values
      obtain ⟨v, head, rest⟩ := Option.bind_eq_some_iff.mp values
      obtain ⟨ws, tail, same⟩ := Option.bind_eq_some_iff.mp rest
      cases same
      exact .cons (refValue_of_refAt head) (ih tail)

theorem find?_of_mapM {value : NodeId → Option Word} {ids : List NodeId}
    {entries : List (NodeId × Word)}
    (made : ids.mapM (fun id => (value id).map (Prod.mk id)) = some entries)
    {id : NodeId} (member : id ∈ ids) :
    ∃ v, value id = some v ∧
      (List.find? (fun entry => entry.1 = id) entries).map Prod.snd = some v := by
  induction ids generalizing entries with
  | nil => cases member
  | cons first ids ih =>
      rw [List.mapM_cons] at made
      obtain ⟨entry, head, rest⟩ := Option.bind_eq_some_iff.mp made
      obtain ⟨others, tail, same⟩ := Option.bind_eq_some_iff.mp rest
      obtain ⟨v, known, rfl⟩ := Option.map_eq_some_iff.mp head
      cases same
      by_cases here : first = id
      · subst here
        exact ⟨v, known, by simp⟩
      · have later : id ∈ ids := by
          rcases List.mem_cons.mp member with same | later
          · exact absurd same.symm here
          · exact later
        obtain ⟨w, known, found⟩ := ih tail later
        exact ⟨w, known, by rw [List.find?_cons_of_neg (by simpa using here), found]⟩

theorem entered_of_enterAt {region : NodeId} {slot : Nat} {held held' : Held}
    (entered : enterAt g args fuel region slot held = some held') :
    Entered g args region slot held held' := by
  obtain ⟨entries, made, rfl⟩ := Option.map_eq_some_iff.mp entered
  intro id
  unfold EnteredAt
  split
  case isTrue phi =>
    have inside : id < g.size := by
      by_contra outside
      rw [isPhiOf, g.node_of_size_le (Nat.le_of_not_lt outside)] at phi
      cases phi
    obtain ⟨v, known, found⟩ := find?_of_mapM made
      (List.mem_filter.mpr ⟨List.mem_range.mpr inside, phi⟩)
    have value := refValue_of_refAt known
    intro w
    simp only [if_pos phi]
    rw [found, Option.some.injEq]
    constructor
    · rintro rfl
      exact value
    · exact fun other => value.unique other
  case isFalse phi => exact if_neg phi

theorem step_of_stepAt {s t : WalkState}
    (next : stepAt g callees args fuel s = some t) : Step g callees args s t := by
  unfold stepAt at next
  split at next
  case h_1 => cases next
  case h_2 ctrl call pending held calls =>
    obtain ⟨values, evaluated, rfl⟩ := Option.map_eq_some_iff.mp next
    exact .call (refValues_of_mapM evaluated)
  case h_3 ctrl held calls =>
    split at next
    case h_1 user only =>
      split at next
      case h_1 kind =>
        obtain ⟨cond, evaluated, taken⟩ := Option.bind_eq_some_iff.mp next
        split at taken
        case h_1 proj single =>
          cases taken
          exact .branch only kind (refValue_of_refAt evaluated) single
        case h_2 => cases taken
      case h_2 kind =>
        obtain ⟨held', entered, rfl⟩ := Option.map_eq_some_iff.mp next
        exact .enter only (Or.inl kind) (entered_of_enterAt entered)
      case h_3 kind =>
        obtain ⟨held', entered, rfl⟩ := Option.map_eq_some_iff.mp next
        exact .enter only (Or.inr kind) (entered_of_enterAt entered)
      case h_4 kind =>
        obtain ⟨value, evaluated, rfl⟩ := Option.map_eq_some_iff.mp next
        exact .finish only kind (refValue_of_refAt evaluated)
      case h_5 => cases next
    case h_2 => cases next

theorem steps_of_runAt {steps : Nat} {s : WalkState} {value : Word}
    {calls : List Call}
    (ran : runAt g callees args fuel steps s = some (value, calls)) :
    Steps g callees args s (.returned value calls) := by
  induction steps generalizing s with
  | zero =>
      cases s with
      | walking => cases ran
      | returned =>
          cases ran
          exact .refl
  | succ steps ih =>
      cases s with
      | walking =>
          obtain ⟨t, next, rest⟩ := Option.bind_eq_some_iff.mp ran
          exact .head (step_of_stepAt next) (ih rest)
      | returned =>
          cases ran
          exact .refl

/-- A run that ends is a walk that returns. -/
theorem returns_of_returnsAt {steps : Nat} {value : Word} {calls : List Call}
    (ran : returnsAt g callees args fuel steps = some (value, calls)) :
    Returns g callees args value calls := by
  unfold returnsAt at ran
  split at ran
  case h_1 start only => exact ⟨start, only, steps_of_runAt ran⟩
  case h_2 => cases ran

theorem steps_of_walkAt {steps : Nat} {s t : WalkState}
    (walked : walkAt g callees args fuel steps s = some t) :
    Steps g callees args s t := by
  induction steps generalizing s with
  | zero =>
      cases walked
      exact .refl
  | succ steps ih =>
      obtain ⟨u, next, rest⟩ := Option.bind_eq_some_iff.mp walked
      exact .head (step_of_stepAt next) (ih rest)

theorem not_step_of_isStuck {s t : WalkState} (stuck : isStuck g s = true) :
    ¬ Step g callees args s t := by
  unfold isStuck at stuck
  split at stuck
  case h_2 => cases stuck
  case h_1 ctrl held calls =>
    split at stuck
    case h_2 => cases stuck
    case h_1 user only =>
      rw [Bool.and_eq_true, decide_eq_true_eq, Option.any_eq_true] at stuck
      obtain ⟨isReturn, phi, reads, unset⟩ := stuck
      simp only [Bool.and_eq_true, decide_eq_true_eq, Option.isNone_iff_eq_none]
        at unset
      obtain ⟨isPhi, unset⟩ := unset
      intro next
      cases next with
      | branch only' kind =>
          rw [only, List.cons.injEq] at only'
          rw [← only'.1, isReturn] at kind
          cases kind
      | enter only' kind =>
          rw [only, List.cons.injEq] at only'
          rw [← only'.1, isReturn] at kind
          rcases kind with kind | kind <;> cases kind
      | finish only' kind evaluated =>
          rw [only, List.cons.injEq] at only'
          rw [← only'.1, reads, refValue_some, hasValue_phi isPhi, unset]
            at evaluated
          cases evaluated

/-- A walk that gets stuck does not return. -/
theorem not_returns_of_stuckAt {steps : Nat}
    (stuck : stuckAt g callees args fuel steps = true) (value : Word)
    (calls : List Call) : ¬ Returns g callees args value calls := by
  rintro ⟨other, others, returned⟩
  unfold stuckAt at stuck
  split at stuck
  case h_2 => cases stuck
  case h_1 start only =>
    rw [others, List.cons.injEq] at only
    obtain ⟨rfl, -⟩ := only
    obtain ⟨s, walked, isStuck⟩ := (Option.any_eq_true _ _).mp stuck
    have rest := returned.returned_of_steps (steps_of_walkAt walked)
    rcases Relation.ReflTransGen.cases_head rest with same | ⟨t, next, -⟩
    · subst same
      cases isStuck
    · exact not_step_of_isStuck isStuck next

end Sound

end CallWalk

end Aegis
