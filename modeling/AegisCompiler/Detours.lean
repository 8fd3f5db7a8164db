import Mathlib.Logic.Relation

/-!
# Detours

A path from one member of a set to another leaves the first member for the next member it comes
to over an edge or over a detour: through one or more nodes outside of the set.
-/

namespace Detours

open Relation (TransGen)

variable {α : Type*}

/-- The nodes that are reached from a node without a member of the set behind it. -/
inductive Outside (edge : α → α → Prop) (member : α → Prop) (start : α) : α → Prop
  | leave {x : α} (first : edge start x) (other : ¬member x) : Outside edge member start x
  | goOn {x y : α} (before : Outside edge member start x) (next : edge x y)
      (other : ¬member y) : Outside edge member start y

/-- A path through one or more nodes, all of them outside of the set. -/
def Detour (edge : α → α → Prop) (member : α → Prop) (start finish : α) : Prop :=
  ∃ x, Outside edge member start x ∧ edge x finish

variable {edge : α → α → Prop} {member : α → Prop} {a b : α}

theorem Outside.transGen (outside : Outside edge member a b) : TransGen edge a b := by
  induction outside with
  | leave first _ => exact .single first
  | goOn _ next _ ih => exact ih.tail next

theorem Detour.transGen (detour : Detour edge member a b) : TransGen edge a b := by
  obtain ⟨x, outside, last⟩ := detour
  exact outside.transGen.tail last

/-- A path from a member comes to another member, or it is back at the first one or outside. -/
theorem next_member (path : TransGen edge a b) :
    (∃ c, member c ∧ a ≠ c ∧ (edge a c ∨ Detour edge member a c)) ∨ b = a ∨
      Outside edge member a b := by
  induction path with
  | @single y first =>
      by_cases home : y = a
      · exact .inr (.inl home)
      · by_cases arrived : member y
        · exact .inl ⟨y, arrived, Ne.symm home, .inl first⟩
        · exact .inr (.inr (.leave first arrived))
  | @tail x y _ next ih =>
      rcases ih with known | rfl | outside
      · exact .inl known
      · by_cases home : y = x
        · exact .inr (.inl home)
        · by_cases arrived : member y
          · exact .inl ⟨y, arrived, Ne.symm home, .inl next⟩
          · exact .inr (.inr (.leave next arrived))
      · by_cases home : y = a
        · exact .inr (.inl home)
        · by_cases arrived : member y
          · exact .inl ⟨y, arrived, Ne.symm home, .inr ⟨x, outside, next⟩⟩
          · exact .inr (.inr (.goOn outside next arrived))

theorem Outside.not_member (outside : Outside edge member a b) : ¬member b := by
  cases outside with
  | leave _ other => exact other
  | goOn _ _ other => exact other

/-- Where one member reaches another one, a member has an edge or a detour to another one. -/
theorem exists_next (path : TransGen edge a b) (inside : member b) (apart : a ≠ b) :
    ∃ c, member c ∧ a ≠ c ∧ (edge a c ∨ Detour edge member a c) := by
  rcases next_member path with known | home | outside
  · exact known
  · exact absurd home.symm apart
  · exact absurd inside outside.not_member

/-- No member of the set reaches another one if and only if there is neither an edge nor a
detour between two of them. -/
theorem unreached_iff :
    (∀ a, member a → ∀ b, member b → a ≠ b → ¬TransGen edge a b) ↔
      ∀ a, member a → ∀ b, member b → a ≠ b → ¬edge a b ∧ ¬Detour edge member a b := by
  constructor
  · intro unreached a inA b inB apart
    exact ⟨fun direct => unreached a inA b inB apart (.single direct),
      fun detour => unreached a inA b inB apart detour.transGen⟩
  · intro none a inA b inB apart path
    obtain ⟨c, inC, other, found⟩ := exists_next path inB apart
    obtain ⟨direct, detour⟩ := none a inA c inC other
    exact found.elim direct detour

end Detours
