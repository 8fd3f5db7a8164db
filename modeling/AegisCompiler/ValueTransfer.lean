import AegisCompiler.CallWalk

/-!
# Values in two graphs

When two nodes, of the same graph or of two, compute the same from operands
that are matched again, they have the same value.
-/

namespace Aegis

namespace CallWalk

open ControlWalk (operate paramRank)

section Transfer

variable (g h : Graph) (args : List Word) (held held' : Held)

/-- Both slots are unset, or their nodes are alike. -/
def RefAlike (alike : NodeId → NodeId → Prop) (ref ref' : NodeRef) : Prop :=
  (ref = none ∧ ref' = none) ∨
    ∃ id id', ref = some id ∧ ref' = some id' ∧ alike id id'

/-- Both nodes compute the same from alike operands. -/
structure SameOperation (alike : NodeId → NodeId → Prop) (id id' : NodeId) :
    Prop where
  kind : (h.node id').kind = (g.node id).kind
  payload : (h.node id').payload = (g.node id).payload
  rank : (g.node id).kind = .parameter → paramRank h id' = paramRank g id
  held : (g.node id).kind = .phi ∨ (g.node id).kind.isCall = true →
    held' id' = held id
  inputs : List.Forall₂ (RefAlike alike) (g.node id).inputs (h.node id').inputs

variable {g h args held held'} {alike : NodeId → NodeId → Prop}

theorem RefAlike.of_some {a : NodeId} {ref : NodeRef}
    (pair : RefAlike alike (some a) ref) : ∃ b, ref = some b ∧ alike a b := by
  rcases pair with ⟨unset, -⟩ | ⟨a', b, same, same', pair⟩
  · cases unset
  · cases same
    exact ⟨b, same', pair⟩

theorem RefAlike.one {a : NodeId} {refs : List NodeRef}
    (pairs : List.Forall₂ (RefAlike alike) [some a] refs) :
    ∃ b, refs = [some b] ∧ alike a b := by
  cases pairs with
  | cons head rest =>
      cases rest
      obtain ⟨b, rfl, pair⟩ := head.of_some
      exact ⟨b, rfl, pair⟩

theorem RefAlike.two {a b : NodeId} {refs : List NodeRef}
    (pairs : List.Forall₂ (RefAlike alike) [some a, some b] refs) :
    ∃ c d, refs = [some c, some d] ∧ alike a c ∧ alike b d := by
  cases pairs with
  | cons head rest =>
      obtain ⟨c, rfl, left⟩ := head.of_some
      obtain ⟨d, rfl, right⟩ := RefAlike.one rest
      exact ⟨c, d, rfl, left, right⟩

section Matched

variable {first second : NodeId → Option Word}
variable (values : ∀ a b w, alike a b → first a = some w → second b = some w)
include values

theorem SameOperation.operate {id id' : NodeId}
    (same : SameOperation g h held held' alike id id') {v : Word}
    (value : operate (g.node id) first = some v) :
    operate (h.node id') second = some v := by
  have pairs := same.inputs
  unfold ControlWalk.operate at value
  split at value
  case h_1 operand one =>
    rw [one] at pairs
    obtain ⟨b, inputs, pair⟩ := RefAlike.one pairs
    obtain ⟨a, operand, result⟩ := Option.bind_eq_some_iff.mp value
    rw [ControlWalk.operate, inputs, same.kind]
    exact Option.bind_eq_some_iff.mpr ⟨a, values _ _ _ pair operand, result⟩
  case h_2 lhs rhs two =>
    rw [two] at pairs
    obtain ⟨c, d, inputs, leftPair, rightPair⟩ := RefAlike.two pairs
    obtain ⟨a, left, rest⟩ := Option.bind_eq_some_iff.mp value
    obtain ⟨b, right, result⟩ := Option.bind_eq_some_iff.mp rest
    rw [ControlWalk.operate, inputs, same.kind]
    exact Option.bind_eq_some_iff.mpr ⟨a, values _ _ _ leftPair left,
      Option.bind_eq_some_iff.mpr ⟨b, values _ _ _ rightPair right, result⟩⟩
  case h_3 => cases value

theorem SameOperation.valueStep {id id' : NodeId}
    (same : SameOperation g h held held' alike id id') {v : Word}
    (value : valueStep g args held id first = some v) :
    valueStep h args held' id' second = some v := by
  have operated := same.operate values (v := v)
  have inputs := same.inputs
  unfold CallWalk.valueStep at value ⊢
  rw [same.kind]
  cases kind : (g.node id).kind <;> simp only [kind] at value ⊢
  case constant => rwa [same.payload]
  case parameter => rwa [same.rank kind]
  case phi => rwa [same.held (Or.inl kind)]
  case callPure | callAltered | callCrowded =>
    rwa [same.held (Or.inr (by rw [kind]; rfl))]
  case proj =>
    split at value
    case h_1 source one =>
      rw [one] at inputs
      obtain ⟨b, inputs, pair⟩ := RefAlike.one inputs
      rw [inputs]
      exact values _ _ _ pair value
    case h_2 => cases value
  all_goals exact operated value

end Matched

/-- Alike nodes have the same values, when each of them computes the same from
alike operands or is known to have the value of the other. -/
theorem HasValue.transfer
    (each : ∀ id id', alike id id' →
      SameOperation g h held held' alike id id' ∨
        ∀ v, HasValue g args held id v → HasValue h args held' id' v)
    {id id' : NodeId} (pair : alike id id') {v : Word}
    (value : HasValue g args held id v) : HasValue h args held' id' v := by
  obtain ⟨fuel, value⟩ := value
  induction fuel generalizing id id' v with
  | zero => cases value
  | succ fuel ih =>
      rcases each id id' pair with same | known
      · classical
        let second : NodeId → Option Word := fun id' =>
          if known : ∃ v, HasValue h args held' id' v then some known.choose
          else none
        have holds (b : NodeId) (w : Word) (value : second b = some w) :
            HasValue h args held' b w := by
          simp only [second] at value
          split at value
          case isTrue known =>
            cases value
            exact known.choose_spec
          case isFalse => cases value
        have values (a b : NodeId) (w : Word) (pair : alike a b)
            (value : valueAt g args held fuel a = some w) : second b = some w := by
          have result := ih pair value
          have known : ∃ v, HasValue h args held' b v := ⟨w, result⟩
          simp only [second, dif_pos known]
          exact congrArg some (known.choose_spec.unique result)
        exact HasValue.of_step holds (same.valueStep values value)
      · exact known v ⟨fuel + 1, value⟩

theorem RefValue.transfer
    (each : ∀ id id', alike id id' → ∀ v, HasValue g args held id v →
      HasValue h args held' id' v)
    {ref ref' : NodeRef} (pair : RefAlike alike ref ref') {v : Word}
    (value : RefValue g args held ref v) : RefValue h args held' ref' v := by
  obtain ⟨id, rfl, value⟩ := value
  obtain ⟨id', rfl, matched⟩ := pair.of_some
  exact ⟨id', rfl, each id id' matched v value⟩

theorem RefValues.transfer
    (each : ∀ id id', alike id id' → ∀ v, HasValue g args held id v →
      HasValue h args held' id' v)
    {refs refs' : List NodeRef} (pairs : List.Forall₂ (RefAlike alike) refs refs')
    {vs : List Word} (values : RefValues g args held refs vs) :
    RefValues h args held' refs' vs := by
  induction pairs generalizing vs with
  | nil =>
      cases values
      exact .nil
  | cons pair _ ih =>
      cases values with
      | cons head tail => exact .cons (head.transfer each pair) (ih tail)

end Transfer

end CallWalk

end Aegis
