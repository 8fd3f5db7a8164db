import Mathlib.Logic.Relation

/-!
# Invariants and simulations

What every step keeps holds after any number of steps, and a relation under
which every step is matched by some steps carries over to whole runs.
-/

namespace Simulation

open Relation (ReflTransGen)

variable {α β : Type*} {step : α → α → Prop} {step' : β → β → Prop}

/-- Every step keeps the property. -/
def Keeps (step : α → α → Prop) (holds : α → Prop) : Prop :=
  ∀ ⦃a a'⦄, holds a → step a a' → holds a'

theorem Keeps.run {holds : α → Prop} (keeps : Keeps step holds) {a a' : α}
    (start : holds a) (steps : ReflTransGen step a a') : holds a' := by
  induction steps with
  | refl => exact start
  | tail _ last ih => exact keeps ih last

/-- Every step from a related state is matched by some steps. -/
def Simulates (step : α → α → Prop) (step' : β → β → Prop)
    (related : α → β → Prop) : Prop :=
  ∀ ⦃a a' b⦄, related a b → step a a' →
    ∃ b', ReflTransGen step' b b' ∧ related a' b'

theorem Simulates.run {related : α → β → Prop}
    (simulates : Simulates step step' related) {a a' : α} {b : β}
    (start : related a b) (steps : ReflTransGen step a a') :
    ∃ b', ReflTransGen step' b b' ∧ related a' b' := by
  induction steps with
  | refl => exact ⟨b, .refl, start⟩
  | tail _ last ih =>
      obtain ⟨middle, before, matched⟩ := ih
      obtain ⟨b', after, matched'⟩ := simulates matched last
      exact ⟨b', before.trans after, matched'⟩

end Simulation
