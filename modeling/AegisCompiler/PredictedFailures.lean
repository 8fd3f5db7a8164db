import Mathlib.Data.List.Basic

/-!
# Predicted failures

Whether a computation fails, and how, can be read off its input: a fault is predicted
exactly when there is an error, and the error is of the kind of the fault.  The first
fault of a sequence is the one that shows.
-/

namespace PredictedFailures

variable {ε φ α β σ : Type} {kind : φ → ε → Prop}

/-- Nothing was predicted and there is a value, or the error is of the predicted kind. -/
inductive Predicts (kind : φ → ε → Prop) : Option φ → Except ε α → Prop where
  | ok (value : α) : Predicts kind none (.ok value)
  | error {fault : φ} {failure : ε} (fits : kind fault failure) :
      Predicts kind (some fault) (.error failure)

theorem findSome?_cons_or (f : α → Option φ) (x : α) (xs : List α) :
    (x :: xs).findSome? f = (f x).or (xs.findSome? f) := by
  rw [List.findSome?_cons]
  cases f x <;> rfl

namespace Predicts

/-- The first of two faults shows. -/
theorem bind {fault other : Option φ} {first : Except ε α} {next : α → Except ε β}
    (here : Predicts kind fault first)
    (later : ∀ value, first = .ok value → Predicts kind other (next value)) :
    Predicts kind (fault.or other) (first >>= next) := by
  cases here with
  | ok value => exact later value rfl
  | error fits => exact .error fits

/-- A step that cannot fail comes last. -/
theorem bind_ok {fault : Option φ} {first : Except ε α} (value : α → β)
    (here : Predicts kind fault first) :
    Predicts kind fault (first >>= fun x => .ok (value x)) := by
  have both := here.bind fun x _ => .ok (value x)
  rwa [Option.or_none] at both

theorem mapM {faultOf : α → Option φ} {f : α → Except ε β}
    (each : ∀ x, Predicts kind (faultOf x) (f x)) (xs : List α) :
    Predicts kind (xs.findSome? faultOf) (xs.mapM f) := by
  induction xs with
  | nil => exact .ok []
  | cons x xs ih =>
      rw [List.mapM_cons, findSome?_cons_or]
      exact (each x).bind fun value _ => ih.bind_ok (value :: ·)

/-- The first fault of a fold shows, as long as the state keeps what the predictions
rest on. -/
theorem foldlM {faultOf : α → Option φ} {step : σ → α → Except ε σ} {Inv : σ → Prop}
    (each : ∀ s x, Inv s → Predicts kind (faultOf x) (step s x))
    (keeps : ∀ s x after, Inv s → step s x = .ok after → Inv after) (xs : List α) {s : σ}
    (inv : Inv s) : Predicts kind (xs.findSome? faultOf) (xs.foldlM step s) := by
  induction xs generalizing s with
  | nil => exact .ok s
  | cons x xs ih =>
      rw [List.foldlM_cons, findSome?_cons_or]
      exact (each s x inv).bind fun after ran => ih (keeps s x after inv ran)

end Predicts

end PredictedFailures
