import AegisCompiler.SwissTable

/-!
# The invariant of the hash table

Every live key is reached from its home before an empty place, and no key is live twice.
Deleted places stay on the walks that lead over them, so an insertion may take the first
one only after the walk has met an empty place.
-/

namespace Aegis

@[simp] theorem isLive_empty : isLive kCtrlEmpty = false := rfl

@[simp] theorem isLive_deleted : isLive kCtrlDeleted = false := rfl

theorem isLive_of_small (c : UInt8) (small : c.toNat < 128) : isLive c = true := by
  have each : ∀ n : Fin 128, isLive (UInt8.ofNat n) = true := by decide
  rw [← UInt8.ofNat_toNat (x := c)]
  exact each ⟨c.toNat, small⟩

/-- The control bytes of keys are live. -/
@[simp] theorem isLive_ctrlForHash (h : UInt64) : isLive (ctrlForHash h) = true := by
  apply isLive_of_small
  unfold ctrlForHash
  have low : (h &&& 0x7F).toUInt8.toNat < 128 := by
    have masked : (h &&& 0x7F).toNat = h.toNat % 2 ^ 7 := by
      rw [UInt64.toNat_and]
      exact Nat.and_two_pow_sub_one_eq_mod _ 7
    rw [UInt64.toNat_toUInt8, masked]
    omega
  change (if (h &&& 0x7F).toUInt8 = 0 then 1 else (h &&& 0x7F).toUInt8).toNat < 128
  by_cases zero : (h &&& 0x7F).toUInt8 = 0
  · rw [if_pos zero]
    decide
  · rw [if_neg zero]
    exact low

theorem ctrlForHash_ne_deleted (h : UInt64) : ctrlForHash h ≠ kCtrlDeleted := by
  intro same
  have live := isLive_ctrlForHash h
  rw [same] at live
  cases live

theorem ctrlForHash_ne_empty (h : UInt64) : ctrlForHash h ≠ kCtrlEmpty := by
  intro same
  have live := isLive_ctrlForHash h
  rw [same] at live
  cases live

namespace SwissTable

open Probing

variable {K V : Type} [Inhabited K] [Inhabited V]

/-- No key is there, and a walk would stop. -/
abbrev Vacant (t : SwissTable K V) (i : Nat) : Prop := t.ctrlAt i = kCtrlEmpty

/-- A place holds a key. -/
structure Holds (hashing : Hashing K) (t : SwissTable K V) (k : K) (i : Nat) : Prop where
  inside : i < t.capacity
  live : isLive (t.ctrlAt i) = true
  keyEq : hashing.keyEq (t.slotAt i).key k = true

/-- What holds of every table. -/
structure Sound (hashing : Hashing K) (t : SwissTable K V) : Prop where
  ctrl_length : t.ctrl.length = t.capacity
  slots_length : t.slots.length = t.capacity
  power : t.capacity = 0 ∨ ∃ e < 64, t.capacity = 2 ^ e
  mark : ∀ i < t.capacity, t.ctrlAt i = kCtrlEmpty ∨ t.ctrlAt i = kCtrlDeleted ∨
    t.ctrlAt i = ctrlForHash (hashing.hash (t.slotAt i).key)
  reached : ∀ i < t.capacity, isLive (t.ctrlAt i) = true →
    Reached t.capacity t.Vacant (t.home hashing (t.slotAt i).key) i
  distinct : ∀ i < t.capacity, ∀ j < t.capacity, isLive (t.ctrlAt i) = true →
    isLive (t.ctrlAt j) = true →
    hashing.keyEq (t.slotAt i).key (t.slotAt j).key = true → i = j
  size_eq : t.size = t.entries.length

section Buffers

omit [Inhabited K] [Inhabited V] in
theorem ctrlAt_setCtrl (t : SwissTable K V) {i : Nat} (inside : i < t.ctrl.length) (j : Nat)
    (c : UInt8) : (t.setCtrl i c).ctrlAt j = if j = i then c else t.ctrlAt j := by
  unfold ctrlAt setCtrl
  by_cases same : j = i
  · subst same
    simp [inside]
  · simp [List.getD_eq_getElem?_getD, same, Ne.symm same]

theorem slotAt_setSlot (t : SwissTable K V) {i : Nat} (inside : i < t.slots.length) (j : Nat)
    (s : Slot K V) : (t.setSlot i s).slotAt j = if j = i then s else t.slotAt j := by
  unfold slotAt setSlot
  by_cases same : j = i
  · subst same
    simp [inside]
  · simp [List.getD_eq_getElem?_getD, same, Ne.symm same]

@[simp] theorem slotAt_setCtrl (t : SwissTable K V) (i j : Nat) (c : UInt8) :
    (t.setCtrl i c).slotAt j = t.slotAt j := rfl

omit [Inhabited K] [Inhabited V] in
@[simp] theorem ctrlAt_setSlot (t : SwissTable K V) (i j : Nat) (s : Slot K V) :
    (t.setSlot i s).ctrlAt j = t.ctrlAt j := rfl

theorem ctrlAt_fresh (newCap i : Nat) :
    (fresh newCap : SwissTable K V).ctrlAt i = kCtrlEmpty := by
  simp only [ctrlAt, fresh, List.getD_eq_getElem?_getD, List.getElem?_replicate]
  split <;> rfl

theorem entries_fresh (newCap : Nat) : (fresh newCap : SwissTable K V).entries = [] := by
  unfold entries entryAt
  simp [ctrlAt_fresh]

end Buffers

variable {hashing : Hashing K} {t : SwissTable K V}

namespace Sound

/-- The mask of the capacity takes the remainder. -/
theorem mask (sound : Sound hashing t) (some : 0 < t.capacity) (x : Nat) :
    x &&& (t.capacity - 1) = x % t.capacity := by
  rcases sound.power with none | ⟨e, -, power⟩
  · omega
  · rw [power]
    exact Nat.and_two_pow_sub_one_eq_mod x e

theorem home_lt (sound : Sound hashing t) (some : 0 < t.capacity) (k : K) :
    t.home hashing k < t.capacity := by
  unfold home
  rw [sound.mask some]
  exact Nat.mod_lt _ some

/-- The control byte and the comparison of keys find exactly the places that hold a key. -/
theorem holdsKey_iff (sound : Sound hashing t) (k : K) {i : Nat} (inside : i < t.capacity) :
    t.holdsKey hashing k i = true ↔ Holds hashing t k i := by
  unfold holdsKey
  rw [Bool.and_eq_true, decide_eq_true_iff]
  constructor
  · rintro ⟨marked, same⟩
    exact ⟨inside, by rw [marked]; exact isLive_ctrlForHash _, same⟩
  · rintro ⟨-, live, same⟩
    refine ⟨?_, same⟩
    rcases sound.mark i inside with empty | deleted | marked
    · rw [empty] at live
      cases live
    · rw [deleted] at live
      cases live
    · rw [marked, hashing.respects _ _ same]

/-- A key is at one place at most. -/
theorem holds_unique (sound : Sound hashing t) {k : K} {i j : Nat}
    (here : Holds hashing t k i) (there : Holds hashing t k j) : i = j := by
  apply sound.distinct i here.inside j there.inside here.live there.live
  exact hashing.equivalence.trans here.keyEq (hashing.equivalence.symm there.keyEq)

end Sound

/-- What the probe loop finds on the part of the walk that is left. -/
def Finding (hashing : Hashing K) (t : SwissTable K V) (k : K) (start steps left : Nat)
    (firstDeleted : Option Nat) : Option (Nat × Bool) → Prop
  | none => ∀ s, steps ≤ s → s < steps + left →
      ¬t.Vacant (place t.capacity start s) ∧
        t.holdsKey hashing k (place t.capacity start s) = false
  | some (p, false) => ∃ s, s < steps + left ∧ p = place t.capacity start s ∧
      t.holdsKey hashing k p = true
  | some (p, true) => ∃ s, steps ≤ s ∧ s < steps + left ∧
      t.Vacant (place t.capacity start s) ∧
      (∀ e, steps ≤ e → e < s → ¬t.Vacant (place t.capacity start e) ∧
        t.holdsKey hashing k (place t.capacity start e) = false) ∧
      (firstDeleted = some p ∨ ∃ e, steps ≤ e ∧ e ≤ s ∧ p = place t.capacity start e ∧
        isLive (t.ctrlAt p) = false)

/-- What is found on the rest of a walk is found on the walk, when the first place neither
is vacant nor holds the key. -/
theorem Finding.later {k : K} {start steps left : Nat} {firstDeleted : Option Nat}
    {deleted : Option Nat} {result : Option (Nat × Bool)}
    (passed : ¬t.Vacant (place t.capacity start steps))
    (other : t.holdsKey hashing k (place t.capacity start steps) = false)
    (kept : ∀ p, deleted = some p → firstDeleted = some p ∨
      p = place t.capacity start steps ∧ isLive (t.ctrlAt p) = false)
    (rest : Finding hashing t k start (steps + 1) left deleted result) :
    Finding hashing t k start steps (left + 1) firstDeleted result := by
  have here : ∀ e, steps ≤ e → ¬steps + 1 ≤ e → e = steps := by omega
  rcases result with _ | ⟨p, _ | _⟩
  · intro s late small
    by_cases next : steps + 1 ≤ s
    · exact rest s next (by omega)
    · rw [here s late next]
      exact ⟨passed, other⟩
  · obtain ⟨s, small, there, holds⟩ := rest
    exact ⟨s, by omega, there, holds⟩
  · obtain ⟨s, late, small, vacant, before, taken⟩ := rest
    refine ⟨s, by omega, by omega, vacant, ?_, ?_⟩
    · intro e since early
      by_cases next : steps + 1 ≤ e
      · exact before e next early
      · rw [here e since next]
        exact ⟨passed, other⟩
    · rcases taken with first | ⟨e, since, early, there, dead⟩
      · rcases kept p first with older | ⟨there, dead⟩
        · exact .inl older
        · exact .inr ⟨steps, le_refl _, by omega, there, dead⟩
      · exact .inr ⟨e, by omega, early, there, dead⟩

/-- The probe loop, by the number of probes that are left. -/
theorem findOrInsertFrom_finding (hashing : Hashing K)
    (mask : ∀ x, x &&& (t.capacity - 1) = x % t.capacity) (k : K) (start : Nat) :
    ∀ left steps firstDeleted, Finding hashing t k start steps left firstDeleted
      (t.findOrInsertFrom hashing k left (place t.capacity start steps) firstDeleted) := by
  intro left
  induction left with
  | zero =>
      intro steps firstDeleted s late small
      omega
  | succ left ih =>
      intro steps firstDeleted
      rw [findOrInsertFrom, mask, ← place_succ]
      by_cases vacant : t.ctrlAt (place t.capacity start steps) = kCtrlEmpty
      · rw [if_pos vacant]
        refine ⟨steps, le_refl _, by omega, vacant, by omega, ?_⟩
        cases firstDeleted with
        | none =>
            exact .inr ⟨steps, le_refl _, le_refl _, rfl, by rw [Option.getD_none, vacant]; rfl⟩
        | some p => exact .inl rfl
      · rw [if_neg vacant]
        by_cases deleted : t.ctrlAt (place t.capacity start steps) = kCtrlDeleted
        · rw [if_pos deleted]
          refine Finding.later vacant ?_ ?_ (ih (steps + 1) _)
          · simp [holdsKey, deleted, (ctrlForHash_ne_deleted _).symm]
          · intro p first
            cases firstDeleted with
            | none =>
                cases first
                exact .inr ⟨rfl, by rw [Option.getD_none, deleted]; rfl⟩
            | some q => exact .inl first
        · rw [if_neg deleted]
          by_cases holds : t.holdsKey hashing k (place t.capacity start steps) = true
          · rw [if_pos holds]
            exact ⟨steps, by omega, rfl, holds⟩
          · rw [if_neg holds]
            refine Finding.later vacant (Bool.eq_false_iff.mpr holds) ?_ (ih (steps + 1) _)
            intro p first
            exact .inl first

/-- A search is a probe loop that drops the places for new keys. -/
theorem findFrom_eq (hashing : Hashing K) (t : SwissTable K V) (k : K) :
    ∀ left pos firstDeleted, t.findFrom hashing k left pos =
      (t.findOrInsertFrom hashing k left pos firstDeleted).bind
        fun (p, isNew) => if isNew then none else some p := by
  intro left
  induction left with
  | zero =>
      intro pos firstDeleted
      rfl
  | succ left ih =>
      intro pos firstDeleted
      rw [findFrom, findOrInsertFrom]
      by_cases vacant : t.ctrlAt pos = kCtrlEmpty
      · simp [vacant]
      · by_cases deleted : t.ctrlAt pos = kCtrlDeleted
        · have other : t.holdsKey hashing k pos = false := by
            simp [holdsKey, deleted, (ctrlForHash_ne_deleted _).symm]
          rw [if_neg vacant, if_neg vacant, if_pos deleted, other, if_neg Bool.false_ne_true]
          exact ih _ _
        · rw [if_neg vacant, if_neg vacant, if_neg deleted]
          by_cases holds : t.holdsKey hashing k pos = true
          · simp [holds]
          · rw [if_neg holds, if_neg holds]
            exact ih _ _

/-- The whole probe loop of a sound table: every place is taken and the key is absent, the
key is found, or a place that the walk reaches is found for the absent key. -/
theorem Sound.probe_cases (sound : Sound hashing t) (k : K) :
    (t.findOrInsertFrom hashing k t.capacity (t.home hashing k) none = none ∧
      (∀ i < t.capacity, ¬t.Vacant i) ∧ ∀ i, ¬Holds hashing t k i) ∨
    (∃ i, t.findOrInsertFrom hashing k t.capacity (t.home hashing k) none = some (i, false) ∧
      Holds hashing t k i) ∨
    (∃ i, t.findOrInsertFrom hashing k t.capacity (t.home hashing k) none = some (i, true) ∧
      i < t.capacity ∧ isLive (t.ctrlAt i) = false ∧
      Reached t.capacity t.Vacant (t.home hashing k) i ∧ (∀ j, ¬Holds hashing t k j) ∧
      ∃ j < t.capacity, t.Vacant j) := by
  rcases Nat.eq_zero_or_pos t.capacity with none | positive
  · refine .inl ⟨by rw [none]; rfl, by omega, ?_⟩
    intro i holds
    have := holds.inside
    omega
  have homeSmall := sound.home_lt positive k
  have finding := findOrInsertFrom_finding hashing (sound.mask positive) k
    (t.home hashing k) t.capacity 0 none
  rw [place_zero homeSmall] at finding
  rcases result : t.findOrInsertFrom hashing k t.capacity (t.home hashing k) none
    with _ | ⟨p, _ | _⟩
  · rw [result] at finding
    have everywhere : ∀ i < t.capacity, ¬t.Vacant i ∧ t.holdsKey hashing k i = false := by
      intro i inside
      obtain ⟨s, small, there⟩ := exists_place homeSmall inside
      rw [← there]
      exact finding s (Nat.zero_le _) (by omega)
    refine .inl ⟨rfl, fun i inside => (everywhere i inside).1, ?_⟩
    intro i holds
    have found := (sound.holdsKey_iff k holds.inside).mpr holds
    rw [(everywhere i holds.inside).2] at found
    cases found
  · rw [result] at finding
    obtain ⟨s, small, there, holds⟩ := finding
    have inside : p < t.capacity := there ▸ place_lt positive _ _
    exact .inr (.inl ⟨p, rfl, (sound.holdsKey_iff k inside).mp holds⟩)
  · rw [result] at finding
    obtain ⟨s, -, small, vacant, before, taken⟩ := finding
    obtain ⟨e, -, early, there, dead⟩ := taken.resolve_left (by simp)
    have inside : p < t.capacity := there ▸ place_lt positive _ _
    refine .inr (.inr ⟨p, rfl, inside, dead, ?_, ?_, _, place_lt positive _ s, vacant⟩)
    · exact ⟨e, by omega, there.symm,
        fun e' earlier => (before e' (Nat.zero_le _) (by omega)).1⟩
    · intro j holds
      have sameHome : t.home hashing (t.slotAt j).key = t.home hashing k := by
        unfold home
        rw [hashing.respects _ _ holds.keyEq]
      obtain ⟨r, rSmall, atKey, free⟩ := sound.reached j holds.inside holds.live
      rw [sameHome] at atKey free
      -- The walk meets the key before the vacant place, or the vacant place before the key.
      rcases Nat.lt_trichotomy r s with sooner | same | later
      · have missed := (before r (Nat.zero_le _) sooner).2
        rw [atKey, (sound.holdsKey_iff k holds.inside).mpr holds] at missed
        cases missed
      · have live := holds.live
        rw [← atKey, same, vacant] at live
        cases live
      · exact free s later vacant

/-- A search finds exactly the place that holds the key. -/
theorem Sound.find_eq_some_iff (sound : Sound hashing t) (k : K) (i : Nat) :
    t.find hashing k = some i ↔ Holds hashing t k i := by
  have searched : t.find hashing k =
      (t.findOrInsertFrom hashing k t.capacity (t.home hashing k) none).bind
        fun (p, isNew) => if isNew then none else some p := by
    rw [← findFrom_eq]
    unfold find
    by_cases none : t.capacity = 0
    · rw [if_pos none, none]
      rfl
    · rw [if_neg none]
  rw [searched]
  rcases sound.probe_cases k with ⟨result, -, absent⟩ | ⟨j, result, holds⟩ |
    ⟨j, result, -, -, -, absent, -⟩
  · simp [result, absent i]
  · rw [result]
    constructor
    · intro same
      cases same
      exact holds
    · intro here
      rw [sound.holds_unique here holds]
      rfl
  · simp [result, absent i]

end SwissTable

end Aegis
