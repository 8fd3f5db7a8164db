import Mathlib.Data.List.Basic

/-!
# Writing windows of a list

Overwriting a window of a list changes what the window reads and nothing outside.
Writes to windows that do not overlap therefore all stay readable.
-/

namespace WindowWrites

variable {α : Type}

/-- The elements from a position on, overwritten. -/
def write (xs : List α) (pos : Nat) (new : List α) : List α :=
  xs.take pos ++ new ++ xs.drop (pos + new.length)

/-- A position lies in a window. -/
def Inside (pos size i : Nat) : Prop := pos ≤ i ∧ i < pos + size

/-- Two windows of a size do not overlap. -/
def Apart (size pos other : Nat) : Prop := pos + size ≤ other ∨ other + size ≤ pos

/-- Both lists have the same length and agree at the positions that are not in a window. -/
structure AgreeOutside (size : Nat) (places : List Nat) (xs ys : List α) : Prop where
  length : xs.length = ys.length
  same : ∀ i, (∀ pos ∈ places, ¬ Inside pos size i) → xs[i]? = ys[i]?

section Write

variable {xs new : List α} {pos : Nat}

theorem length_write (inside : pos + new.length ≤ xs.length) :
    (write xs pos new).length = xs.length := by
  simp only [write, List.length_append, List.length_take, List.length_drop]
  omega

/-- A written window reads what was written. -/
theorem drop_write (inside : pos + new.length ≤ xs.length) :
    (write xs pos new).drop pos = new ++ xs.drop (pos + new.length) := by
  have front : (xs.take pos).length = pos := by
    rw [List.length_take]
    omega
  rw [write, List.append_assoc, List.drop_append_of_le_length (by omega),
    List.drop_of_length_le (by omega), List.nil_append]

theorem agreeOutside_write (inside : pos + new.length ≤ xs.length) :
    AgreeOutside new.length [pos] (write xs pos new) xs where
  length := length_write inside
  same := by
    intro i outside
    have apart : i < pos ∨ pos + new.length ≤ i := by
      have here := outside pos (List.mem_singleton_self pos)
      simp only [Inside] at here
      omega
    have front : (xs.take pos).length = pos := by
      rw [List.length_take]
      omega
    rcases apart with below | above
    · rw [write, List.append_assoc, List.getElem?_append_left (by omega),
        List.getElem?_take_of_lt below]
    · rw [write, List.getElem?_append_right (by rw [List.length_append]; omega),
        List.length_append, front, List.getElem?_drop]
      congr 1
      omega

end Write

namespace AgreeOutside

variable {size : Nat} {places : List Nat} {xs ys zs : List α}

theorem refl (size : Nat) (xs : List α) : AgreeOutside size [] xs xs :=
  ⟨rfl, fun _ _ => rfl⟩

theorem trans {more : List Nat} (first : AgreeOutside size places xs ys)
    (second : AgreeOutside size more ys zs) :
    AgreeOutside size (places ++ more) xs zs where
  length := first.length.trans second.length
  same := fun i outside =>
    (first.same i fun pos member => outside pos (List.mem_append_left _ member)).trans
      (second.same i fun pos member => outside pos (List.mem_append_right _ member))

/-- What is read from a window depends on the window only. -/
theorem take_drop (agree : AgreeOutside size places xs ys) {pos : Nat}
    (apart : ∀ other ∈ places, Apart size pos other) :
    (xs.drop pos).take size = (ys.drop pos).take size := by
  apply List.ext_getElem?
  intro i
  simp only [List.getElem?_take, List.getElem?_drop]
  split
  case isFalse => rfl
  case isTrue below =>
    apply agree.same
    rintro other member ⟨low, high⟩
    have away := apart other member
    simp only [Apart] at away
    omega

end AgreeOutside

end WindowWrites
