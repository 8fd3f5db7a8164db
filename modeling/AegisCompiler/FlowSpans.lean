import Mathlib.Data.List.Pairwise

/-!
# Liveness in texts with loop spans

A text is a line of positions with edges between them.  Every edge goes
forward, except that the tail of a span goes back to its head, and a span is
entered at its head only.  What is live at a position of such a text was then
defined at an earlier position of the text, and an interval that reaches the
end of every span it lives through covers every position where it is live.
-/

namespace Aegis

namespace FlowSpans

section Paths

variable (flows : Nat → Nat → Prop)

/-- Position 0, and the positions some path leads to whose earlier positions
all pass. -/
inductive Reaches (passes : Nat → Prop) : Nat → Prop
  | start : Reaches passes 0
  | step {p q : Nat} : Reaches passes p → passes p → flows p q →
      Reaches passes q

/-- Edges go forward or from the tail of a span to its head, and spans are
entered at their heads. -/
structure SingleEntry (spans : List (Nat × Nat)) : Prop where
  ordered : ∀ {head tail}, (head, tail) ∈ spans → head < tail
  forward : ∀ {p q}, flows p q → p < q ∨ (q, p) ∈ spans
  enter : ∀ {head tail}, (head, tail) ∈ spans → ∀ {p q}, flows p q →
    (p < head ∨ tail < p) → head ≤ q → q ≤ tail → q = head

variable {flows} {passes passes' : Nat → Prop} {p : Nat}

theorem Reaches.mono (reaches : Reaches flows passes p)
    (imp : ∀ p, passes p → passes' p) : Reaches flows passes' p := by
  induction reaches with
  | start => exact .start
  | step _ pass edge ih => exact .step ih (imp _ pass) edge

variable {spans : List (Nat × Nat)} (single : SingleEntry flows spans)
include single

/-- A path enters a span from outside, or never enters it. -/
theorem Reaches.outside {head tail : Nat} (span : (head, tail) ∈ spans)
    (reaches : Reaches flows passes p) :
    Reaches flows (fun p => passes p ∧ (p < head ∨ tail < p)) head ∨
      (p < head ∨ tail < p) ∧
        Reaches flows (fun p => passes p ∧ (p < head ∨ tail < p)) p := by
  induction reaches with
  | start =>
      by_cases inside : head = 0
      · left
        rw [inside]
        exact .start
      · exact Or.inr ⟨Or.inl (Nat.pos_of_ne_zero inside), .start⟩
  | @step p q _ pass edge ih =>
      rcases ih with entered | ⟨out, reaches⟩
      · exact Or.inl entered
      · have next := Reaches.step reaches ⟨pass, out⟩ edge
        by_cases inside : head ≤ q ∧ q ≤ tail
        · have atHead := single.enter span edge out inside.1 inside.2
          exact Or.inl (atHead ▸ next)
        · exact Or.inr ⟨by omega, next⟩

/-- Whatever is reachable is reachable through earlier positions only. -/
theorem Reaches.earlier (reaches : Reaches flows passes p) :
    Reaches flows (fun q => passes q ∧ q < p) p := by
  induction reaches with
  | start => exact .start
  | @step p q _ pass edge ih =>
      rcases single.forward edge with less | span
      · refine .step (ih.mono fun r below => ?_) ⟨pass, less⟩ edge
        exact ⟨below.1, Nat.lt_trans below.2 less⟩
      · -- The path came through the head before it came to the tail.
        have less := single.ordered span
        rcases ih.outside single span with entered | ⟨out, -⟩
        · refine entered.mono fun r below => ⟨below.1.1, ?_⟩
          have below := below.2
          omega
        · omega

end Paths

section Liveness

variable {V : Type*} (flows : Nat → Nat → Prop) (defines reads : Nat → V → Prop)

/-- Some path from before a position reads the value before it is defined
again. -/
inductive LiveBefore (v : V) : Nat → Prop
  | use {p : Nat} : reads p v → LiveBefore v p
  | pass {p q : Nat} : ¬ defines p v → flows p q → LiveBefore v q →
      LiveBefore v p

/-- Some path from after a position reads the value before it is defined
again. -/
def LiveAfter (v : V) (p : Nat) : Prop :=
  ∃ q, flows p q ∧ LiveBefore flows defines reads v q

/-- Every path that leads to a use defines the value. -/
def DefinedBeforeUse : Prop :=
  ∀ p v, reads p v → ¬ Reaches flows (fun q => ¬ defines q v) p

variable {flows defines reads} {v : V} {p : Nat}

/-- What is live is defined on every path. -/
theorem LiveBefore.defined (wellDefined : DefinedBeforeUse flows defines reads)
    (live : LiveBefore flows defines reads v p) :
    ¬ Reaches flows (fun q => ¬ defines q v) p := by
  induction live with
  | use reads => exact wellDefined _ v reads
  | pass untouched edge _ ih =>
      intro reaches
      exact ih (.step reaches untouched edge)

variable {spans : List (Nat × Nat)} (single : SingleEntry flows spans)
include single

/-- What is live at a reachable position was defined at an earlier one. -/
theorem LiveBefore.defined_earlier
    (wellDefined : DefinedBeforeUse flows defines reads)
    (reaches : Reaches flows (fun _ => True) p)
    (live : LiveBefore flows defines reads v p) :
    ∃ q, q < p ∧ defines q v := by
  by_contra never
  refine live.defined wellDefined ((reaches.earlier single).mono ?_)
  intro q earlier isDefined
  exact never ⟨q, earlier.2, isDefined⟩

/-- An interval that contains every mention of a value and reaches the end of
every span it lives through contains every reachable position where the value
is live. -/
theorem LiveBefore.covered
    (wellDefined : DefinedBeforeUse flows defines reads) {first last : Nat}
    (opens : ∀ q, defines q v → first ≤ q) (closes : ∀ q, reads q v → q ≤ last)
    (spanned : ∀ {head tail}, (head, tail) ∈ spans → first < head →
      head ≤ last → tail ≤ last)
    (reaches : Reaches flows (fun _ => True) p)
    (live : LiveBefore flows defines reads v p) : first < p ∧ p ≤ last := by
  have started {q : Nat} (reaches : Reaches flows (fun _ => True) q)
      (live : LiveBefore flows defines reads v q) : first < q := by
    obtain ⟨d, earlier, isDefined⟩ :=
      live.defined_earlier single wellDefined reaches
    exact Nat.lt_of_le_of_lt (opens d isDefined) earlier
  refine ⟨started reaches live, ?_⟩
  induction live with
  | use reads => exact closes _ reads
  | @pass p q untouched edge live ih =>
      have next : Reaches flows (fun _ => True) q := .step reaches trivial edge
      have below := ih next
      rcases single.forward edge with less | span
      · exact Nat.le_of_lt (Nat.lt_of_lt_of_le less below)
      · exact spanned span (started next live) below

/-- The same after a position. -/
theorem LiveAfter.covered
    (wellDefined : DefinedBeforeUse flows defines reads) {first last : Nat}
    (opens : ∀ q, defines q v → first ≤ q ∧ q ≤ last)
    (closes : ∀ q, reads q v → q ≤ last)
    (spanned : ∀ {head tail}, (head, tail) ∈ spans → first < head →
      head ≤ last → tail ≤ last)
    (reaches : Reaches flows (fun _ => True) p)
    (live : LiveAfter flows defines reads v p) : first ≤ p ∧ p ≤ last := by
  by_cases written : defines p v
  · exact opens p written
  · obtain ⟨q, edge, live⟩ := live
    have covered := (LiveBefore.pass written edge live).covered single wellDefined
      (fun q written => (opens q written).1) closes spanned reaches
    exact ⟨Nat.le_of_lt covered.1, covered.2⟩

end Liveness

end FlowSpans

end Aegis
