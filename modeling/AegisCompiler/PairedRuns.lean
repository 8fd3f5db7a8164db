/-!
# Runs side by side

Two computations with state and errors that start in related states and give the same
value, or fail with the same error of a tolerated kind, in related states.  The first one may
also give up.
-/

namespace PairedRuns

variable {ε σ α β : Type} {givesUp tolerated : ε → Prop} {related : σ → σ → Prop}
  {after after' : σ → Prop}

/-- The results are the same, in related states, or the first computation gives up; a value
comes in a state with a property. -/
inductive Agree (givesUp tolerated : ε → Prop) (related : σ → σ → Prop) (after : σ → Prop) :
    EStateM.Result ε σ α → EStateM.Result ε σ α → Prop
  | ok {value : α} {s s' : σ} (states : related s s') (holds : after s) :
      Agree givesUp tolerated related after (.ok value s) (.ok value s')
  | error {failure : ε} {s s' : σ} (allowed : tolerated failure) (states : related s s') :
      Agree givesUp tolerated related after (.error failure s) (.error failure s')
  | aborted {failure : ε} {s : σ} {result' : EStateM.Result ε σ α} (allowed : givesUp failure) :
      Agree givesUp tolerated related after (.error failure s) result'

namespace Agree

theorem imp {result result' : EStateM.Result ε σ α}
    (agree : Agree givesUp tolerated related after result result')
    (weaker : ∀ s, after s → after' s) :
    Agree givesUp tolerated related after' result result' := by
  cases agree with
  | ok states holds => exact .ok states (weaker _ holds)
  | error allowed states => exact .error allowed states
  | aborted allowed => exact .aborted allowed

/-- Computations agree if their first parts do and the rest does from there. -/
theorem bind {first first' : EStateM ε σ α} {next next' : α → EStateM ε σ β} {s s' : σ}
    (here : Agree givesUp tolerated related after (first s) (first' s'))
    (rest : ∀ value t t', related t t' → after t →
      Agree givesUp tolerated related after' (next value t) (next' value t')) :
    Agree givesUp tolerated related after' ((first >>= next) s) ((first' >>= next') s') := by
  change Agree givesUp tolerated related after' (EStateM.bind first next s)
    (EStateM.bind first' next' s')
  unfold EStateM.bind
  generalize first s = one at here
  generalize first' s' = two at here
  cases here with
  | ok states holds => exact rest _ _ _ states holds
  | error allowed states => exact .error allowed states
  | aborted allowed => exact .aborted allowed

/-- The value that the first computation gives is given by the other. -/
theorem of_ok {result result' : EStateM.Result ε σ α} {value : α} {s : σ}
    (agree : Agree givesUp tolerated related after result result') (ok : result = .ok value s) :
    ∃ s', result' = .ok value s' ∧ related s s' ∧ after s := by
  subst ok
  cases agree with
  | ok states holds => exact ⟨_, rfl, states, holds⟩

end Agree

end PairedRuns
