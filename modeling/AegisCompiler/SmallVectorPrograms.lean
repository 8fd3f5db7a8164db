import AegisCompiler.SmallVectorLists
import Mathlib.Data.List.Range

/-!
# Programs on vectors

Copies, moves and searches show what they should, and so does every program whose
operations are safe when they come.
-/

namespace Aegis

namespace SmallVector

variable {T : Type} {kInlineCapacity : Nat} {v o : SmallVector T} {l k : List T}

section Transfers

/-- The visible elements are the elements of the list. -/
theorem Shows.visible_eq (shows : Shows kInlineCapacity v l) : v.visible = l.map some := by
  unfold visible
  rw [shows.size_eq]
  apply List.ext_getElem
  · simp
  · intro i inRange inList
    have inside : i < l.length := by simpa using inRange
    simp only [List.getElem_map, List.getElem_range]
    rw [shows.read inside, List.getElem?_eq_getElem inside]

/-- Copies are appended within the capacity. -/
theorem Shows.appendAll (added : List T) : ∀ {v : SmallVector T} {l : List T},
    Shows kInlineCapacity v l → l.length + added.length ≤ v.capacity →
    ∃ v', v.appendAll (added.map some) = some v' ∧ Shows kInlineCapacity v' (l ++ added) := by
  induction added with
  | nil =>
      intro v l shows _
      exact ⟨v, rfl, by simpa using shows⟩
  | cons x added ih =>
      intro v l shows room
      have size := shows.size_eq
      rw [List.length_cons] at room
      obtain ⟨v', appended, longer, capacity⟩ := shows.emplaceBack (.value x) rfl
        (by omega)
      have kept := capacity (by omega)
      obtain ⟨v'', rest, all⟩ := ih longer (by
        rw [List.length_append, List.length_singleton, kept]
        omega)
      refine ⟨v'', ?_, ?_⟩
      · simp only [List.map_cons, SmallVector.appendAll, Option.bind_eq_bind, Option.bind_some,
          appended]
        exact rest
      · rw [List.append_assoc] at all
        exact all

/-- Copies are appended to a vector without elements, in either storage. -/
theorem Shows.appendCopies (shows : Shows kInlineCapacity v []) (added : List T)
    (small : added.length < 2 ^ 32) :
    ∃ v', v.appendCopies (added.map some) = some v' ∧ Shows kInlineCapacity v' added := by
  unfold SmallVector.appendCopies
  rw [List.length_map, Nat.mod_eq_of_lt small]
  by_cases larger : v.capacity < added.length
  · rw [if_pos larger]
    obtain ⟨grown, capacity⟩ := shows.grow larger small
    exact grown.appendAll added (by simp [capacity])
  · rw [if_neg larger]
    exact shows.appendAll added (by simpa using larger)

theorem Shows.length_lt (shows : Shows kInlineCapacity v l) : l.length < 2 ^ 32 :=
  Nat.lt_of_le_of_lt shows.fits shows.capacity_lt

/-- A copy shows the same list, wherever it is put. -/
theorem Shows.copy (shows : Shows kInlineCapacity v []) (other : Shows kInlineCapacity o k) :
    ∃ v', v.appendCopies o.visible = some v' ∧ Shows kInlineCapacity v' k := by
  rw [other.visible_eq]
  exact shows.appendCopies k other.length_lt

theorem constructInline_eq (inl : v.isInline = true) (i : Nat) (x : T) :
    v.constructInline i x = v.construct i x := by
  unfold constructInline construct setData data
  rw [inl]
  rfl

/-- Elements are moved into the inline storage of an inline vector. -/
theorem Holds.moveInline (moved : List T) : ∀ {v : SmallVector T} {l : List T},
    Holds kInlineCapacity v l → v.isInline = true → l.length + moved.length ≤ v.capacity →
    ∃ v', v.moveInline l.length (moved.map some) = some v' ∧
      Holds kInlineCapacity v' (l ++ moved) := by
  induction moved with
  | nil =>
      intro v l holds _ _
      exact ⟨v, rfl, by simpa using holds⟩
  | cons x moved ih =>
      intro v l holds inl room
      rw [List.length_cons] at room
      obtain ⟨v', built, longer, -, capacity, storage⟩ := holds.construct x (by omega)
      have length : (l ++ [x]).length = l.length + 1 := by simp
      obtain ⟨v'', rest, all⟩ := ih longer (storage.trans inl) (by
        rw [length, capacity]
        omega)
      refine ⟨v'', ?_, ?_⟩
      · rw [length] at rest
        simp only [List.map_cons, SmallVector.moveInline, Option.bind_eq_bind,
          Option.bind_some, constructInline_eq inl, built]
        exact rest
      · rw [List.append_assoc] at all
        exact all

/-- What a vector is left with when its elements have been moved. -/
theorem Shows.left (other : Shows kInlineCapacity o k) :
    Shows kInlineCapacity { o with size := 0 } [] :=
  other.nil.shows rfl

theorem Shows.robbed (other : Shows kInlineCapacity o k) : Shows kInlineCapacity o.robbed [] :=
  ⟨⟨other.inlineLength, rfl, Nat.two_pow_pos 32, Nat.zero_le _, rfl⟩, rfl⟩

theorem Shows.inline_elements (other : Shows kInlineCapacity o k) (inl : o.isInline = true) :
    o.inlineSlots.take o.size = k.map some ∧ k.length ≤ kInlineCapacity % 2 ^ 32 := by
  have elements := other.elements
  have fits := other.fits
  unfold data at elements
  unfold capacity at fits
  rw [inl, if_pos rfl] at elements fits
  rw [other.inlineLength] at fits
  exact ⟨other.size_eq ▸ elements, fits⟩

/-- A vector that takes a remote buffer shows what the other one showed. -/
theorem Shows.steal (other : Shows kInlineCapacity o k) (remote : o.isInline = false)
    (length : v.inlineSlots.length = kInlineCapacity) :
    Shows kInlineCapacity
      { v with remoteSlots := o.remoteSlots, remoteCap := o.remoteCap, size := o.size } k := by
  have positive : 0 < o.remoteCap := by
    simp only [isInline, decide_eq_false_iff_not] at remote
    omega
  obtain ⟨-, capacity, data⟩ := spilled o positive
  have fits := other.fits
  have elements := other.elements
  rw [capacity] at fits
  rw [data] at elements
  exact shows_of_spilled positive length other.remoteLength other.small fits elements
    other.size_eq

/-- Moving from an inline vector into an inline one without elements. -/
theorem Holds.takeInline (holds : Holds kInlineCapacity v []) (inl : v.isInline = true)
    (other : Shows kInlineCapacity o k) (otherInline : o.isInline = true) :
    ∃ v', v.moveInline 0 (o.inlineSlots.take o.size) = some v' ∧
      Shows kInlineCapacity { v' with size := o.size } k := by
  obtain ⟨elements, fits⟩ := other.inline_elements otherInline
  have capacity : v.capacity = kInlineCapacity % 2 ^ 32 := by
    rw [SmallVector.capacity, inl, if_pos rfl, holds.inlineLength]
  obtain ⟨v', moved, all⟩ := holds.moveInline k inl (by simpa [capacity] using fits)
  rw [elements]
  exact ⟨v', moved, all.shows other.size_eq⟩

theorem Shows.moveConstruct (other : Shows kInlineCapacity o k) :
    ∃ v' o', o.moveConstruct kInlineCapacity = some (v', o') ∧
      Shows kInlineCapacity v' k ∧ Shows kInlineCapacity o' [] := by
  unfold SmallVector.moveConstruct
  cases inl : o.isInline with
  | true =>
      obtain ⟨v', moved, shown⟩ := (holds_empty kInlineCapacity).takeInline rfl other inl
      refine ⟨_, _, ?_, shown, other.left⟩
      simp only [if_true, moved, Option.bind_eq_bind, Option.bind_some]
      rfl
  | false =>
      exact ⟨_, _, if_neg Bool.false_ne_true, other.steal inl List.length_replicate,
        other.robbed⟩

/-- The assignment that moves is right unless it moves elements from the inline storage of
one vector into a spilled one. -/
theorem Shows.moveAssign (shows : Shows kInlineCapacity v l) (other : Shows kInlineCapacity o k)
    (safe : v.isInline = true ∨ o.isInline = false ∨ o.size = 0) :
    ∃ v' o', v.moveAssign o = some (v', o') ∧ Shows kInlineCapacity v' k ∧
      Shows kInlineCapacity o' [] := by
  have bare := shows.destroyAll
  unfold SmallVector.moveAssign
  cases inl : o.isInline with
  | true =>
      rcases safe with here | there | none
      · have storage : v.destroyAll.isInline = true := (isInline_setData _ _).trans here
        obtain ⟨v', moved, shown⟩ := bare.takeInline storage other inl
        refine ⟨_, _, ?_, shown, other.left⟩
        simp only [if_true, moved, Option.bind_eq_bind, Option.bind_some]
        rfl
      · rw [inl] at there
        cases there
      · have vacant : k = [] := List.length_eq_zero_iff.mp (other.size_eq.symm.trans none)
        subst vacant
        refine ⟨{ v.destroyAll with size := o.size }, _, ?_, bare.shows none, other.left⟩
        rw [if_pos rfl, none, List.take_zero]
        rfl
  | false =>
      exact ⟨_, _, if_neg Bool.false_ne_true, other.steal inl bare.inlineLength, other.robbed⟩

variable [BEq T]

/-- The search finds the first equal element from a place on. -/
theorem Holds.findFirst (holds : Holds kInlineCapacity v l) (x : T) :
    ∀ left i, i + left = l.length → findFirst v.data x i left =
      some (((l.drop i).findIdx? (· == x)).map (· + i)) := by
  intro left
  induction left with
  | zero =>
      intro i total
      rw [List.drop_of_length_le (by omega)]
      rfl
  | succ left ih =>
      intro i total
      have inside : i < l.length := by omega
      rw [SmallVector.findFirst, holds.read inside, List.getElem?_eq_getElem inside,
        List.drop_eq_getElem_cons inside, List.findIdx?_cons]
      simp only [Option.bind_eq_bind, Option.bind_some]
      by_cases same : (l[i] == x) = true
      · simp [same]
      · rw [if_neg same, if_neg same, ih (i + 1) (by omega), Option.map_map]
        congr 2
        funext j
        change j + (i + 1) = j + 1 + i
        omega

/-- Erasing the first equal element. -/
theorem Shows.removeFirst (shows : Shows kInlineCapacity v l) {arg : ElementRef T} {x : T}
    (known : arg.of l = some x) :
    ∃ v' found, v.removeFirst arg = some (v', found) ∧ Shows kInlineCapacity v'
      (match l.findIdx? (· == x) with
        | none => l
        | some i => holeFilled l i) := by
  have size := shows.size_eq
  unfold SmallVector.removeFirst
  by_cases none : v.size = 0
  · have vacant : l = [] := List.length_eq_zero_iff.mp (size.symm.trans none)
    subst vacant
    exact ⟨v, false, if_pos none, shows⟩
  · have search := shows.findFirst x v.size 0 (by omega)
    rw [List.drop_zero] at search
    simp only [if_neg none, shows.readRef arg known, Option.bind_eq_bind, Option.bind_some,
      search]
    cases found : l.findIdx? (· == x) with
    | none => exact ⟨v, false, rfl, shows⟩
    | some i =>
        have inside : i < l.length := by
          obtain ⟨inside, -⟩ := List.findIdx?_eq_some_iff_getElem.mp found
          exact inside
        obtain ⟨v', erased, shown⟩ := shows.eraseUnordered inside
        refine ⟨v', true, ?_, shown⟩
        simp only [Option.map_some, Nat.add_zero, erased, Option.bind_some]
        rfl

end Transfers

section Runs

variable {Var : Type} [Inhabited T] [BEq T] [DecidableEq Var]

/-- Every vector of a store shows its list. -/
def StoreShows (kInlineCapacity : Nat) (store : Var → SmallVector T) (lists : Var → List T) :
    Prop :=
  ∀ a, Shows kInlineCapacity (store a) (lists a)

variable {store : Var → SmallVector T} {lists : Var → List T}

omit [Inhabited T] [BEq T] in
theorem StoreShows.update (shows : StoreShows kInlineCapacity store lists) (a : Var)
    (new : Shows kInlineCapacity v l) :
    StoreShows kInlineCapacity (Function.update store a v) (Function.update lists a l) := by
  intro b
  by_cases same : b = a
  · subst same
    rw [Function.update_self, Function.update_self]
    exact new
  · rw [Function.update_of_ne same, Function.update_of_ne same]
    exact shows b

omit [Inhabited T] [BEq T] in
theorem StoreShows.update₂ (shows : StoreShows kInlineCapacity store lists) (a b : Var)
    (new : Shows kInlineCapacity v l) (left : Shows kInlineCapacity o k) :
    StoreShows kInlineCapacity (update₂ store a b (v, o)) (update₂ lists a b (l, k)) :=
  (shows.update b left).update a new

/-- A safe operation does to the vectors what it does to the lists. -/
theorem StoreShows.step (shows : StoreShows kInlineCapacity store lists)
    (op : VectorOp T Var) (safe : Safe store op) {lists' : Var → List T}
    (defined : listStep lists op = some lists') :
    ∃ store', step kInlineCapacity store op = some store' ∧
      StoreShows kInlineCapacity store' lists' := by
  have fresh := shows_empty (T := T) kInlineCapacity
  cases op with
  | construct a =>
      cases defined
      exact ⟨_, rfl, shows.update a fresh⟩
  | constructSized a n =>
      cases defined
      obtain ⟨v', resized, shown⟩ := fresh.resizeTo n.toNat_lt (.value default) rfl
        fun _ => ⟨_, rfl⟩
      refine ⟨_, by rw [SmallVector.step, resize, resized]; rfl, shows.update a ?_⟩
      simpa [Aegis.resized] using shown
  | constructFilled a n x =>
      cases defined
      obtain ⟨v', resized, shown⟩ := fresh.resizeTo n.toNat_lt (.value x) rfl
        fun _ => ⟨_, rfl⟩
      refine ⟨_, by rw [SmallVector.step, resized]; rfl, shows.update a ?_⟩
      simpa [Aegis.resized] using shown
  | constructListed a il =>
      cases defined
      obtain ⟨v', appended, shown⟩ := fresh.appendCopies il safe
      exact ⟨_, by rw [SmallVector.step, appended]; rfl, shows.update a shown⟩
  | copyConstruct a b =>
      rw [listStep] at defined
      split at defined
      case isTrue => cases defined
      case isFalse =>
        cases defined
        obtain ⟨v', copied, shown⟩ := fresh.copy (shows b)
        exact ⟨_, by rw [SmallVector.step, copyConstruct, copied]; rfl, shows.update a shown⟩
  | moveConstruct a b =>
      rw [listStep] at defined
      split at defined
      case isTrue => cases defined
      case isFalse =>
        cases defined
        obtain ⟨v', o', moved, shown, left⟩ := (shows b).moveConstruct
        exact ⟨_, by rw [SmallVector.step, moved]; rfl, shows.update₂ a b shown left⟩
  | pushBack a arg =>
      obtain ⟨x, known, rfl⟩ := Option.map_eq_some_iff.mp defined
      obtain ⟨v', pushed, shown, -⟩ := (shows a).emplaceBack arg known safe
      exact ⟨_, by rw [SmallVector.step, pushed]; rfl, shows.update a shown⟩
  | popBack a =>
      rw [listStep] at defined
      split at defined
      case isTrue => cases defined
      case isFalse nonempty =>
        cases defined
        obtain ⟨v', popped, shown⟩ := (shows a).popBack nonempty
        exact ⟨_, by rw [SmallVector.step, popped]; rfl, shows.update a shown⟩
  | resize a n =>
      cases defined
      obtain ⟨v', resized, shown⟩ := (shows a).resizeTo n.toNat_lt (.value default) rfl
        fun _ => ⟨_, rfl⟩
      exact ⟨_, by rw [SmallVector.step, resize, resized]; rfl, shows.update a shown⟩
  | resizeFilled a n arg =>
      obtain ⟨x, known, rfl⟩ := Option.map_eq_some_iff.mp defined
      obtain ⟨v', resized, shown⟩ := (shows a).resizeTo n.toNat_lt arg known safe
      exact ⟨_, by rw [SmallVector.step, resized]; rfl, shows.update a shown⟩
  | reserve a n =>
      cases defined
      have reserved := shows.update a ((shows a).reserve n.toNat_lt).1
      rw [Function.update_eq_self] at reserved
      exact ⟨_, rfl, reserved⟩
  | clear a =>
      cases defined
      exact ⟨_, rfl, shows.update a (shows a).clear⟩
  | eraseUnordered a i =>
      rw [listStep] at defined
      split at defined
      case isTrue inside =>
        cases defined
        obtain ⟨v', erased, shown⟩ := (shows a).eraseUnordered inside
        exact ⟨_, by rw [SmallVector.step, erased]; rfl, shows.update a shown⟩
      case isFalse => cases defined
  | removeFirst a arg =>
      obtain ⟨x, known, rfl⟩ := Option.map_eq_some_iff.mp defined
      obtain ⟨v', found, removed, shown⟩ := (shows a).removeFirst known
      refine ⟨_, by rw [SmallVector.step, removed]; rfl, ?_⟩
      have updated := shows.update a shown
      cases search : (lists a).findIdx? (· == x) with
      | none =>
          rw [search] at updated
          simpa using updated
      | some i =>
          rw [search] at updated
          exact updated
  | copyAssign a b =>
      cases defined
      rw [SmallVector.step]
      by_cases same : a = b
      · subst same
        refine ⟨store, if_pos rfl, ?_⟩
        rw [Function.update_eq_self]
        exact shows
      · obtain ⟨v', copied, shown⟩ := (shows a).clear.copy (shows b)
        exact ⟨_, by rw [if_neg same, copyAssign, copied]; rfl, shows.update a shown⟩
  | moveAssign a b =>
      rw [listStep] at defined
      rw [SmallVector.step]
      by_cases same : a = b
      · rw [if_pos same] at defined ⊢
        cases defined
        exact ⟨store, rfl, shows⟩
      · rw [if_neg same] at defined ⊢
        cases defined
        obtain ⟨v', o', moved, shown, left⟩ :=
          (shows a).moveAssign (shows b) (safe.resolve_left same)
        exact ⟨_, by rw [moved]; rfl, shows.update₂ a b shown left⟩

/-- A program whose operations are safe does to the vectors what it does to the lists. -/
theorem StoreShows.run (shows : StoreShows kInlineCapacity store lists)
    (program : List (VectorOp T Var)) (safe : SafeRun kInlineCapacity store program)
    {lists' : Var → List T} (defined : listRun lists program = some lists') :
    ∃ store', run kInlineCapacity store program = some store' ∧
      StoreShows kInlineCapacity store' lists' := by
  induction program generalizing store lists with
  | nil =>
      cases defined
      exact ⟨store, rfl, shows⟩
  | cons op program ih =>
      unfold listRun at defined
      rw [List.foldlM_cons] at defined
      obtain ⟨next, first, rest⟩ := Option.bind_eq_some_iff.mp defined
      obtain ⟨store', stepped, shown⟩ := shows.step op safe.1 first
      obtain ⟨store'', ran, all⟩ := ih shown (safe.2 store' stepped) rest
      refine ⟨store'', ?_, all⟩
      unfold SmallVector.run
      rw [List.foldlM_cons, stepped]
      exact ran

/-- A vector is a list: after every program whose operations are safe when they come, each
vector shows the elements of the corresponding program on lists. -/
theorem run_lists (kInlineCapacity : Nat) (program : List (VectorOp T Var))
    (lists : Var → List T) (defined : listRun (fun _ => []) program = some lists)
    (safe : SafeRun kInlineCapacity (fun _ => empty kInlineCapacity) program) :
    ∃ store, run kInlineCapacity (fun _ => empty kInlineCapacity) program = some store ∧
      ∀ a, (store a).size = (lists a).length ∧ (store a).visible = (lists a).map some := by
  have shows : StoreShows kInlineCapacity (fun _ : Var => empty kInlineCapacity)
      (fun _ => ([] : List T)) := fun _ => shows_empty kInlineCapacity
  obtain ⟨store, ran, shown⟩ := shows.run program safe defined
  exact ⟨store, ran, fun a => ⟨(shown a).size_eq, (shown a).visible_eq⟩⟩

end Runs

/-- A copy of a list, and an own element that is appended while a slot is left. -/
def copyAndPush : List (VectorOp Nat Bool) :=
  [.constructListed true [1, 2], .copyAssign false true, .pushBack false (.own 0)]

/-- The lists that it makes. -/
def copiedAndPushed : Bool → List Nat
  | true => [1, 2]
  | false => [1, 2, 1]

theorem run_lists_copyAndPush :
    ∃ store, run 4 (fun _ => empty 4) copyAndPush = some store ∧
      ∀ a, (store a).size = (copiedAndPushed a).length ∧
        (store a).visible = (copiedAndPushed a).map some := by
  apply run_lists 4 copyAndPush
  · change some _ = some _
    congr 1
    funext b
    cases b <;> rfl
  · refine ⟨show 2 < 2 ^ 32 by decide, ?_⟩
    rintro _ ⟨⟩
    refine ⟨trivial, ?_⟩
    rintro _ ⟨⟩
    refine ⟨fun full => ?_, fun _ _ => trivial⟩
    exact absurd full (by decide)

/-- A vector of five elements, which is spilled, takes the element of an inline one. -/
def spillThenMove : List (VectorOp Nat Bool) :=
  [.constructListed true [1, 2, 3, 4, 5], .constructListed false [7], .moveAssign true false]

/-- The element goes to the inline storage, and the vector still shows its old buffer. -/
theorem run_lists_spilled :
    ¬∀ lists : Bool → List Nat, listRun (fun _ => []) spillThenMove = some lists →
      ∃ store, run 4 (fun _ => empty 4) spillThenMove = some store ∧
        ∀ a, (store a).visible = (lists a).map some := by
  intro all
  obtain ⟨store, ran, shown⟩ := all _ rfl
  have seen : (run 4 (fun _ => empty 4) spillThenMove).map (fun store => (store true).visible) =
      some [none] := by decide
  rw [ran, Option.map_some, shown true] at seen
  exact absurd seen (by decide)

end SmallVector

end Aegis
