import Mathlib.Data.Finset.Card
import Mathlib.Data.List.Nodup

/-!
# Lists of first occurrences

Entering an element into a list appends it unless it is there.  The places of the elements
never change, and entering the elements of a list into an empty one leaves each of them
there once.
-/

namespace Aegis.FirstOccurrences

variable {α : Type} [DecidableEq α]

/-- Append an element that is not there. -/
def enter (entered : List α) (a : α) : List α :=
  if a ∈ entered then entered else entered ++ [a]

/-- Enter the elements of a list, one after the other. -/
def enterAll (entered : List α) (as : List α) : List α := as.foldl enter entered

/-- The place of an entry. -/
def position (entered : List α) (a : α) : Nat := entered.idxOf a

section Positions

theorem position_lt {entered : List α} {a : α} (present : a ∈ entered) :
    position entered a < entered.length :=
  List.idxOf_lt_length_iff.mpr present

theorem getElem?_position {entered : List α} {a : α} (present : a ∈ entered) :
    entered[position entered a]? = some a :=
  List.getElem?_idxOf present

theorem position_inj {entered : List α} {a b : α} (present : a ∈ entered) :
    position entered a = position entered b ↔ a = b :=
  List.idxOf_inj present

/-- Every place is the place of its entry. -/
theorem exists_position {entered : List α} (once : entered.Nodup) {n : Nat}
    (small : n < entered.length) : ∃ a ∈ entered, position entered a = n :=
  ⟨entered[n], List.getElem_mem small, once.idxOf_getElem n small⟩

/-- An entry keeps its place. -/
theorem position_kept {entered later : List α} (kept : entered <+: later) {a : α}
    (present : a ∈ entered) : position later a = position entered a := by
  obtain ⟨added, rfl⟩ := kept
  exact List.idxOf_append_of_mem present

end Positions

section One

theorem enter_of_mem {entered : List α} {a : α} (present : a ∈ entered) :
    enter entered a = entered :=
  if_pos present

theorem enter_of_notMem {entered : List α} {a : α} (absent : a ∉ entered) :
    enter entered a = entered ++ [a] :=
  if_neg absent

theorem mem_enter {entered : List α} {a b : α} :
    b ∈ enter entered a ↔ b ∈ entered ∨ b = a := by
  by_cases present : a ∈ entered
  · rw [enter_of_mem present]
    constructor
    · exact .inl
    · rintro (there | rfl)
      · exact there
      · exact present
  · rw [enter_of_notMem present, List.mem_append, List.mem_singleton]

theorem position_enter_of_notMem {entered : List α} {a : α} (absent : a ∉ entered) :
    position (enter entered a) a = entered.length := by
  rw [enter_of_notMem absent, position, List.idxOf_append_of_notMem absent]
  simp

theorem prefix_enter (entered : List α) (a : α) : entered <+: enter entered a := by
  by_cases present : a ∈ entered
  · rw [enter_of_mem present]
  · rw [enter_of_notMem present]
    exact List.prefix_append _ _

theorem nodup_enter {entered : List α} (once : entered.Nodup) (a : α) :
    (enter entered a).Nodup := by
  by_cases present : a ∈ entered
  · rwa [enter_of_mem present]
  · rw [enter_of_notMem present]
    exact List.nodup_append'.mpr ⟨once, List.nodup_singleton a, by simpa using present⟩

end One

section All

theorem enterAll_append (entered as bs : List α) :
    enterAll entered (as ++ bs) = enterAll (enterAll entered as) bs :=
  List.foldl_append

theorem mem_enterAll {entered as : List α} {b : α} :
    b ∈ enterAll entered as ↔ b ∈ entered ∨ b ∈ as := by
  induction as generalizing entered with
  | nil => simp [enterAll]
  | cons a as ih =>
      change b ∈ enterAll (enter entered a) as ↔ _
      rw [ih, mem_enter, List.mem_cons, or_assoc]

theorem prefix_enterAll (entered as : List α) : entered <+: enterAll entered as := by
  induction as generalizing entered with
  | nil => exact List.prefix_rfl
  | cons a as ih => exact (prefix_enter entered a).trans (ih _)

theorem nodup_enterAll {entered : List α} (once : entered.Nodup) (as : List α) :
    (enterAll entered as).Nodup := by
  induction as generalizing entered with
  | nil => exact once
  | cons a as ih => exact ih (nodup_enter once a)

/-- There are as many entries as different elements. -/
theorem length_enterAll_nil (as : List α) :
    (enterAll [] as).length = as.toFinset.card := by
  have once : (enterAll [] as).Nodup := nodup_enterAll List.nodup_nil as
  rw [← List.toFinset_card_of_nodup once]
  congr 1
  apply Finset.ext
  intro b
  simp [mem_enterAll]

end All

end Aegis.FirstOccurrences
