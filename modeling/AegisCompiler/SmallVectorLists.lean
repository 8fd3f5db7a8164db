import AegisCompiler.SmallVector

/-!
# Vectors as lists

A vector shows a list when its elements are those of the list, in either storage.  Every
operation does to the list what it should, apart from three: moving from an inline vector
into a spilled one, reading an own element after the vector has grown, and growing at the
end of the 32-bit capacities.
-/

namespace Aegis

/-- What a reference refers to in a list. -/
def ElementRef.of {T : Type} (l : List T) : ElementRef T → Option T
  | .value x => some x
  | .own i => l[i]?

/-- Move the last element into the place of another one. -/
def holeFilled {T : Type} (l : List T) (i : Nat) : List T :=
  match l.getLast? with
  | none => l
  | some last => (l.set i last).dropLast

/-- Drop elements at the end, or append copies of an element. -/
def resized {T : Type} (l : List T) (n : Nat) (x : T) : List T :=
  l.take n ++ List.replicate (n - l.length) x

namespace SmallVector

section Programs

variable {T Var : Type} [Inhabited T] [BEq T] [DecidableEq Var]

/-- One operation of a program on lists.  There is no result when an element is asked for
that does not exist, or when a vector is constructed from itself. -/
def listStep (lists : Var → List T) : VectorOp T Var → Option (Var → List T)
  | .construct a => some (Function.update lists a [])
  | .constructSized a n => some (Function.update lists a (List.replicate n.toNat default))
  | .constructFilled a n x => some (Function.update lists a (List.replicate n.toNat x))
  | .constructListed a il => some (Function.update lists a il)
  | .copyConstruct a b => if a = b then none else some (Function.update lists a (lists b))
  | .moveConstruct a b => if a = b then none else some (update₂ lists a b (lists b, []))
  | .pushBack a arg =>
      (arg.of (lists a)).map fun x => Function.update lists a (lists a ++ [x])
  | .popBack a =>
      if lists a = [] then none else some (Function.update lists a (lists a).dropLast)
  | .resize a n => some (Function.update lists a (resized (lists a) n.toNat default))
  | .resizeFilled a n arg =>
      (arg.of (lists a)).map fun x => Function.update lists a (resized (lists a) n.toNat x)
  | .reserve _ _ => some lists
  | .clear a => some (Function.update lists a [])
  | .eraseUnordered a i =>
      if i.toNat < (lists a).length then
        some (Function.update lists a (holeFilled (lists a) i.toNat))
      else none
  | .removeFirst a arg =>
      (arg.of (lists a)).map fun x =>
        match (lists a).findIdx? (· == x) with
        | none => lists
        | some i => Function.update lists a (holeFilled (lists a) i)
  | .copyAssign a b => some (Function.update lists a (lists b))
  | .moveAssign a b => if a = b then some lists else some (update₂ lists a b (lists b, []))

/-- A program on lists. -/
def listRun (lists : Var → List T) (program : List (VectorOp T Var)) :
    Option (Var → List T) :=
  program.foldlM listStep lists

/-- An operation that does to a vector what it does to a list. -/
def Safe (store : Var → SmallVector T) : VectorOp T Var → Prop
  | .constructListed _ il => il.length < 2 ^ 32
  | .pushBack a arg => (store a).size = (store a).capacity →
      (∃ x, arg = .value x) ∧ (store a).capacity + 4 < 2 ^ 32
  | .resizeFilled a n arg => (store a).capacity < n.toNat → ∃ x, arg = .value x
  | .moveAssign a b => a = b ∨ (store a).isInline = true ∨ (store b).isInline = false ∨
      (store b).size = 0
  | _ => True

/-- Every operation of a program is safe when it comes. -/
def SafeRun (kInlineCapacity : Nat) : (Var → SmallVector T) → List (VectorOp T Var) → Prop
  | _, [] => True
  | store, op :: program => Safe store op ∧
      ∀ store', step kInlineCapacity store op = some store' →
        SafeRun kInlineCapacity store' program

end Programs

variable {T : Type} {kInlineCapacity : Nat} {v : SmallVector T} {l : List T}

/-- The first slots of the storage hold the elements of a list, whatever the size says. -/
structure Holds (kInlineCapacity : Nat) (v : SmallVector T) (l : List T) : Prop where
  inlineLength : v.inlineSlots.length = kInlineCapacity
  remoteLength : v.remoteSlots.length = v.remoteCap
  small : v.remoteCap < 2 ^ 32
  fits : l.length ≤ v.capacity
  elements : v.data.take l.length = l.map some

/-- A vector shows the elements of a list. -/
structure Shows (kInlineCapacity : Nat) (v : SmallVector T) (l : List T) : Prop
    extends Holds kInlineCapacity v l where
  size_eq : v.size = l.length

section Storage

@[simp] theorem isInline_setData (v : SmallVector T) (slots : List (Option T)) :
    (v.setData slots).isInline = v.isInline := by
  unfold setData
  cases inl : v.isInline <;> simpa [isInline] using inl

@[simp] theorem data_setData (v : SmallVector T) (slots : List (Option T)) :
    (v.setData slots).data = slots := by
  rw [data, isInline_setData]
  unfold setData
  cases v.isInline <;> rfl

@[simp] theorem size_setData (v : SmallVector T) (slots : List (Option T)) :
    (v.setData slots).size = v.size := by
  unfold setData
  cases v.isInline <;> rfl

theorem capacity_setData (v : SmallVector T) {slots : List (Option T)}
    (same : slots.length = v.data.length) : (v.setData slots).capacity = v.capacity := by
  rw [capacity, capacity, isInline_setData]
  unfold data at same
  unfold setData
  cases inl : v.isInline with
  | true =>
      rw [inl, if_pos rfl] at same
      simp [same]
  | false => rfl

/-- The size alone does not decide what the slots hold. -/
theorem Holds.resize (holds : Holds kInlineCapacity v l) (n : Nat) :
    Holds kInlineCapacity { v with size := n } l :=
  ⟨holds.inlineLength, holds.remoteLength, holds.small, holds.fits, holds.elements⟩

theorem Holds.shows (holds : Holds kInlineCapacity v l) {n : Nat} (count : n = l.length) :
    Shows kInlineCapacity { v with size := n } l :=
  ⟨holds.resize n, count⟩

theorem Holds.capacity_le (holds : Holds kInlineCapacity v l) :
    v.capacity ≤ v.data.length := by
  unfold capacity data
  cases v.isInline with
  | true => exact Nat.mod_le _ _
  | false => simp [holds.remoteLength]

theorem Holds.capacity_lt (holds : Holds kInlineCapacity v l) : v.capacity < 2 ^ 32 := by
  unfold capacity
  split
  · exact Nat.mod_lt _ (by decide)
  · exact holds.small

/-- Other slots of the same number hold another list. -/
theorem Holds.setData (holds : Holds kInlineCapacity v l) {slots : List (Option T)}
    {l' : List T} (same : slots.length = v.data.length) (fits : l'.length ≤ v.capacity)
    (elements : slots.take l'.length = l'.map some) :
    Holds kInlineCapacity (v.setData slots) l' := by
  refine ⟨?_, ?_, ?_, ?_, ?_⟩
  · unfold SmallVector.setData
    unfold data at same
    cases inl : v.isInline with
    | true =>
        rw [inl, if_pos rfl] at same
        simpa [same] using holds.inlineLength
    | false => exact holds.inlineLength
  · unfold SmallVector.setData
    unfold data at same
    cases inl : v.isInline with
    | true => exact holds.remoteLength
    | false =>
        rw [inl, if_neg Bool.false_ne_true] at same
        simpa [same] using holds.remoteLength
  · unfold SmallVector.setData
    cases v.isInline <;> exact holds.small
  · rw [capacity_setData v same]
    exact fits
  · rw [data_setData]
    exact elements

/-- A slot in front of the end holds the element of the list. -/
theorem Holds.read (holds : Holds kInlineCapacity v l) {i : Nat} (inside : i < l.length) :
    readSlot v.data i = l[i]? := by
  have slot := congrArg (fun slots => slots[i]?) holds.elements
  simp only [List.getElem?_take, if_pos inside, List.getElem?_map] at slot
  unfold readSlot
  rw [slot]
  cases l[i]? <;> rfl

/-- Fewer elements are held as well. -/
theorem Holds.take (holds : Holds kInlineCapacity v l) (n : Nat) :
    Holds kInlineCapacity v (l.take n) := by
  refine ⟨holds.inlineLength, holds.remoteLength, holds.small, ?_, ?_⟩
  · rw [List.length_take]
    have fits := holds.fits
    omega
  · have shorter := congrArg (List.take n) holds.elements
    rw [List.take_take, ← List.map_take] at shorter
    rw [List.length_take]
    exact shorter

theorem Holds.nil (holds : Holds kInlineCapacity v l) : Holds kInlineCapacity v [] := by
  simpa using holds.take 0

/-- A reference to an own element reads the element when the storage is still there. -/
theorem Holds.readRef (holds : Holds kInlineCapacity v l) (arg : ElementRef T) {x : T}
    (known : arg.of l = some x) : arg.read v.data = some x := by
  cases arg with
  | value y => exact known
  | own i =>
      change l[i]? = some x at known
      obtain ⟨inside, -⟩ := List.getElem?_eq_some_iff.mp known
      change readSlot v.data i = some x
      rw [holds.read inside, known]

/-- An element may be constructed behind the others. -/
theorem Holds.construct (holds : Holds kInlineCapacity v l) (x : T)
    (room : l.length < v.capacity) :
    ∃ v', v.construct l.length x = some v' ∧ Holds kInlineCapacity v' (l ++ [x]) ∧
      v'.size = v.size ∧ v'.capacity = v.capacity ∧ v'.isInline = v.isInline := by
  have inside : l.length < v.data.length := Nat.lt_of_lt_of_le room holds.capacity_le
  refine ⟨v.setData (v.data.set l.length (some x)), if_pos inside, ?_, size_setData _ _,
    capacity_setData v (List.length_set ..), isInline_setData _ _⟩
  apply holds.setData (List.length_set ..)
  · rw [List.length_append, List.length_singleton]
    exact room
  · rw [List.length_append, List.length_singleton, List.take_add_one, 
      List.take_set_of_le (Nat.le_refl _), List.getElem?_set_self inside, holds.elements]
    simp

end Storage

section Growth

theorem destroyed_length (slots : List (Option T)) (n : Nat) :
    (destroyed slots n).length = slots.length := by
  unfold destroyed
  rw [List.length_append, List.length_map, ← List.length_append, List.take_append_drop]

/-- The storage of a spilled vector is its remote buffer. -/
theorem spilled (v : SmallVector T) (positive : 0 < v.remoteCap) :
    v.isInline = false ∧ v.capacity = v.remoteCap ∧ v.data = v.remoteSlots := by
  have remote : v.isInline = false := by
    simp only [isInline, decide_eq_false_iff_not]
    omega
  refine ⟨remote, ?_, ?_⟩
  · rw [capacity, remote, if_neg Bool.false_ne_true]
  · rw [data, remote, if_neg Bool.false_ne_true]

/-- A spilled vector shows what its remote buffer holds. -/
theorem shows_of_spilled (positive : 0 < v.remoteCap)
    (inlineLength : v.inlineSlots.length = kInlineCapacity)
    (remoteLength : v.remoteSlots.length = v.remoteCap) (small : v.remoteCap < 2 ^ 32)
    (fits : l.length ≤ v.remoteCap) (elements : v.remoteSlots.take l.length = l.map some)
    (size : v.size = l.length) : Shows kInlineCapacity v l := by
  obtain ⟨-, capacity, data⟩ := spilled v positive
  refine ⟨⟨inlineLength, remoteLength, small, ?_, ?_⟩, size⟩
  · rw [capacity]
    exact fits
  · rw [data]
    exact elements

/-- The buffer that a vector moves to. -/
def newBuf (v : SmallVector T) (newCap : Nat) : List (Option T) :=
  v.data.take v.size ++ List.replicate (newCap - v.size) none

theorem Shows.newBuf_length (shows : Shows kInlineCapacity v l) {newCap : Nat}
    (larger : v.capacity ≤ newCap) : (v.newBuf newCap).length = newCap := by
  have taken : (v.data.take v.size).length = v.size := by
    rw [shows.size_eq, shows.elements, List.length_map]
  have fits := shows.fits
  have size := shows.size_eq
  unfold newBuf
  rw [List.length_append, taken, List.length_replicate]
  omega

theorem Shows.newBuf_elements (shows : Shows kInlineCapacity v l) (newCap : Nat) :
    (v.newBuf newCap).take l.length = l.map some := by
  have taken : (v.data.take v.size).length = l.length := by
    rw [shows.size_eq, shows.elements, List.length_map]
  unfold newBuf
  rw [List.take_append_of_le_length (Nat.le_of_eq taken.symm),
    List.take_of_length_le (Nat.le_of_eq taken), shows.size_eq]
  exact shows.elements

/-- A vector keeps its elements when it grows. -/
theorem Shows.grow (shows : Shows kInlineCapacity v l) {newCap : Nat}
    (larger : v.capacity < newCap) (small : newCap < 2 ^ 32) :
    Shows kInlineCapacity (v.grow newCap).1 l ∧ (v.grow newCap).1.capacity = newCap := by
  have fits : l.length ≤ newCap := Nat.le_trans shows.fits (Nat.le_of_lt larger)
  have positive : 0 < newCap := Nat.lt_of_le_of_lt (Nat.zero_le _) larger
  have length := shows.newBuf_length (Nat.le_of_lt larger)
  have elements := shows.newBuf_elements newCap
  unfold SmallVector.grow
  rw [if_neg (Nat.not_le_of_lt larger)]
  cases v.isInline with
  | true =>
      rw [if_pos rfl]
      refine ⟨shows_of_spilled positive ?_ length small fits elements shows.size_eq,
        (spilled _ positive).2.1⟩
      exact (destroyed_length _ _).trans shows.inlineLength
  | false =>
      rw [if_neg Bool.false_ne_true]
      exact ⟨shows_of_spilled positive shows.inlineLength length small fits elements
        shows.size_eq, (spilled _ positive).2.1⟩

theorem Shows.reserve (shows : Shows kInlineCapacity v l) {n : Nat} (small : n < 2 ^ 32) :
    Shows kInlineCapacity (v.reserve n).1 l ∧ n ≤ (v.reserve n).1.capacity := by
  unfold SmallVector.reserve
  by_cases larger : v.capacity < n
  · rw [if_pos larger]
    obtain ⟨grown, capacity⟩ := shows.grow larger small
    exact ⟨grown, Nat.le_of_eq capacity.symm⟩
  · rw [if_neg larger]
    exact ⟨shows, Nat.le_of_not_lt larger⟩

end Growth

section Operations

/-- Appending works when a slot is left, or when the vector can grow and the element is not
its own. -/
theorem Shows.emplaceBack (shows : Shows kInlineCapacity v l) (arg : ElementRef T) {x : T}
    (known : arg.of l = some x)
    (safe : v.size = v.capacity → (∃ y, arg = .value y) ∧ v.capacity + 4 < 2 ^ 32) :
    ∃ v', v.emplaceBack arg = some v' ∧ Shows kInlineCapacity v' (l ++ [x]) ∧
      (v.size < v.capacity → v'.capacity = v.capacity) := by
  have fits := shows.fits
  have size := shows.size_eq
  unfold SmallVector.emplaceBack
  by_cases full : v.size = v.capacity
  · obtain ⟨⟨y, rfl⟩, small⟩ := safe full
    obtain rfl : y = x := Option.some.inj known
    have larger : v.capacity < max (v.capacity * 2 % 2 ^ 32) ((v.capacity + 4) % 2 ^ 32) := by
      rw [Nat.mod_eq_of_lt small]
      omega
    have bound : max (v.capacity * 2 % 2 ^ 32) ((v.capacity + 4) % 2 ^ 32) < 2 ^ 32 := by
      omega
    obtain ⟨grown, capacity⟩ := shows.grow larger bound
    obtain ⟨v', built, holds, sameSize, -⟩ := grown.construct y (by
      rw [capacity]
      omega)
    rw [← grown.size_eq] at built
    refine ⟨{ v' with size := v'.size + 1 }, ?_, holds.shows ?_, by omega⟩
    · rw [if_pos full]
      simp only [growForOne, ElementRef.read, Option.bind_eq_bind, Option.bind_some, built,
        sameSize]
      rfl
    · rw [sameSize, grown.size_eq, List.length_append, List.length_singleton]
  · obtain ⟨v', built, holds, sameSize, sameCapacity, -⟩ := shows.construct x (by omega)
    rw [← size] at built
    refine ⟨{ v' with size := v'.size + 1 }, ?_, holds.shows ?_, fun _ => sameCapacity⟩
    · rw [if_neg full]
      simp only [shows.readRef arg known, Option.bind_eq_bind, Option.bind_some, built, sameSize]
      rfl
    · rw [sameSize, size, List.length_append, List.length_singleton]

/-- A full vector that can grow leaves its storage, and reads an own element there after
the element has been destroyed. -/
theorem Shows.emplaceBack_own (shows : Shows kInlineCapacity v l) {i : Nat}
    (inside : i < l.length) (full : v.size = v.capacity)
    (small : v.capacity + 4 < 2 ^ 32) : v.emplaceBack (.own i) = none := by
  have size := shows.size_eq
  have larger :
      ¬max (v.capacity * 2 % 2 ^ 32) ((v.capacity + 4) % 2 ^ 32) ≤ v.capacity := by
    rw [Nat.mod_eq_of_lt small]
    omega
  have gone : ElementRef.read v.growForOne.2 (.own i) = none := by
    unfold growForOne SmallVector.grow
    rw [if_neg larger]
    cases v.isInline with
    | true =>
        have short : i < v.size := by omega
        change readSlot (destroyed v.inlineSlots v.size) i = none
        unfold readSlot destroyed
        rcases Nat.lt_or_ge i (v.inlineSlots.take v.size).length with within | beyond
        · rw [List.getElem?_append_left (by rw [List.length_map]; exact within), List.getElem?_map]
          cases (v.inlineSlots.take v.size)[i]? <;> rfl
        · rw [List.getElem?_append_right (by rw [List.length_map]; exact beyond)]
          rw [List.length_take] at beyond
          rw [List.drop_of_length_le (by omega)]
          rfl
    | false => rfl
  unfold SmallVector.emplaceBack
  rw [if_pos full]
  simp only [gone, Option.bind_eq_bind, Option.bind_none]

/-- The last element may be dropped. -/
theorem Shows.popBack (shows : Shows kInlineCapacity v l) (nonempty : l ≠ []) :
    ∃ v', v.popBack = some v' ∧ Shows kInlineCapacity v' l.dropLast := by
  have size := shows.size_eq
  have positive := List.length_pos_iff.mpr nonempty
  unfold SmallVector.popBack
  refine ⟨_, if_neg (by omega), ?_⟩
  have shorter : (l.take (l.length - 1)).length = l.length - 1 := by
    rw [List.length_take]
    omega
  rw [List.dropLast_eq_take]
  apply Holds.shows
  · apply shows.setData (List.length_set ..)
    · have fits := shows.fits
      omega
    · rw [shorter, List.take_set_of_le (by omega)]
      have taken := (shows.take (l.length - 1)).elements
      rwa [shorter] at taken
  · omega

theorem holds_empty (kInlineCapacity : Nat) :
    Holds kInlineCapacity (empty kInlineCapacity : SmallVector T) [] :=
  ⟨List.length_replicate, rfl, Nat.two_pow_pos 32, Nat.zero_le _, rfl⟩

theorem shows_empty (kInlineCapacity : Nat) :
    Shows kInlineCapacity (empty kInlineCapacity : SmallVector T) [] :=
  ⟨holds_empty kInlineCapacity, rfl⟩

theorem Holds.destroyAll (holds : Holds kInlineCapacity v l) :
    Holds kInlineCapacity v.destroyAll [] :=
  holds.setData (destroyed_length _ _) (Nat.zero_le _) rfl

theorem Shows.clear (shows : Shows kInlineCapacity v l) : Shows kInlineCapacity v.clear [] :=
  shows.destroyAll.shows rfl

/-- Copies of an element are constructed one behind the other. -/
theorem Holds.fill (x : T) (count : Nat) : ∀ {v : SmallVector T} {l : List T},
    Holds kInlineCapacity v l → l.length + count ≤ v.capacity →
    ∃ v', fill x l.length count v = some v' ∧
      Holds kInlineCapacity v' (l ++ List.replicate count x) := by
  induction count with
  | zero =>
      intro v l holds _
      exact ⟨v, rfl, by simpa using holds⟩
  | succ count ih =>
      intro v l holds room
      obtain ⟨v', built, longer, -, capacity, -⟩ := holds.construct x (by omega)
      have length : (l ++ [x]).length = l.length + 1 := by simp
      obtain ⟨v'', filled, all⟩ := ih longer (by rw [length, capacity]; omega)
      refine ⟨v'', ?_, ?_⟩
      · rw [SmallVector.fill, built, Option.bind_some, ← length]
        exact filled
      · rw [List.append_assoc] at all
        exact all

/-- Resizing drops elements, or appends an element that is not read from storage that the
vector has left. -/
theorem Shows.resizeTo (shows : Shows kInlineCapacity v l) {n : Nat} (small : n < 2 ^ 32)
    (arg : ElementRef T) {x : T} (known : arg.of l = some x)
    (safe : v.capacity < n → ∃ y, arg = .value y) :
    ∃ v', v.resizeTo n arg = some v' ∧ Shows kInlineCapacity v' (resized l n x) := by
  have size := shows.size_eq
  unfold SmallVector.resizeTo resized
  by_cases fewer : n < v.size
  · refine ⟨{ v with size := n }, if_pos fewer, ?_⟩
    have none : n - l.length = 0 := by omega
    rw [none, List.replicate_zero, List.append_nil]
    apply (shows.take n).shows
    rw [List.length_take]
    omega
  · rw [if_neg fewer, List.take_of_length_le (by omega)]
    obtain ⟨reserved, room⟩ := shows.reserve small
    have read : arg.read (v.reserve n).2 = some x := by
      by_cases larger : v.capacity < n
      · obtain ⟨y, rfl⟩ := safe larger
        exact known
      · unfold SmallVector.reserve
        rw [if_neg larger]
        exact shows.readRef arg known
    have sameSize : (v.reserve n).1.size = l.length := reserved.size_eq
    by_cases same : n = l.length
    · refine ⟨(v.reserve n).1, ?_, ?_⟩
      · have reached : n = (v.reserve n).1.size := same.trans sameSize.symm
        simp only [if_pos reached]
        rfl
      · have none : n - l.length = 0 := by omega
        rw [none, List.replicate_zero, List.append_nil]
        exact reserved
    · obtain ⟨v', filled, holds⟩ := reserved.fill x (n - l.length) (by omega)
      refine ⟨{ v' with size := n }, ?_, holds.shows ?_⟩
      · simp only [sameSize, same, if_neg, not_false_eq_true, read, Option.bind_eq_bind,
          Option.bind_some, filled]
        rfl
      · rw [List.length_append, List.length_replicate]
        omega

/-- The last element moves into the place of another one. -/
theorem Shows.eraseUnordered (shows : Shows kInlineCapacity v l) {i : Nat}
    (inside : i < l.length) :
    ∃ v', v.eraseUnordered i = some v' ∧ Shows kInlineCapacity v' (holeFilled l i) := by
  have size := shows.size_eq
  have nonempty : l ≠ [] := List.ne_nil_of_length_pos (by omega)
  have lastElement : l.getLast? = some (l.getLast nonempty) := List.getLast?_eq_some_getLast nonempty
  unfold SmallVector.eraseUnordered holeFilled
  rw [if_neg (by omega), lastElement]
  by_cases atEnd : i + 1 = v.size
  · rw [if_pos atEnd]
    have unchanged : l.set i (l.getLast nonempty) = l := by
      have place : i = l.length - 1 := by omega
      subst place
      rw [List.getLast_eq_getElem]
      exact List.set_getElem_self _
    simp only [unchanged]
    exact shows.popBack nonempty
  · rw [if_neg atEnd]
    have read : readSlot v.data (v.size - 1) = some (l.getLast nonempty) := by
      rw [size, shows.read (by omega), ← List.getLast?_eq_getElem?, lastElement]
    have moved : Shows kInlineCapacity (v.setData (v.data.set i (some (l.getLast nonempty))))
        (l.set i (l.getLast nonempty)) := by
      refine ⟨shows.setData (List.length_set ..) ?_ ?_, ?_⟩
      · rw [List.length_set]
        exact shows.fits
      · rw [List.length_set, List.take_set, shows.elements, List.map_set]
      · rw [size_setData, List.length_set, size]
    obtain ⟨v', popped, shown⟩ := moved.popBack (by simpa using nonempty)
    refine ⟨v', ?_, shown⟩
    simp only [read, Option.bind_eq_bind, Option.bind_some]
    exact popped

end Operations

end SmallVector

end Aegis
