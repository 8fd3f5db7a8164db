import AegisCompiler.SwissTableSound

/-!
# Steps of the hash table

Inserting, replacing, erasing and rehashing keep the invariant, and each changes the live
entries by one entry or not at all.
-/

namespace Aegis

namespace SwissTable

open Probing

variable {K V : Type} [Inhabited K] [Inhabited V] {hashing : Hashing K} {t : SwissTable K V}

/-- Make a place live. -/
def put (hashing : Hashing K) (t : SwissTable K V) (i : Nat) (s : Slot K V) : SwissTable K V :=
  { (t.setCtrl i (ctrlForHash (hashing.hash s.key))).setSlot i s with size := t.size + 1 }

/-- Make a live place deleted. -/
def bury (t : SwissTable K V) (i : Nat) : SwissTable K V :=
  { t.setCtrl i kCtrlDeleted with size := t.size - 1 }

/-- The live entries, apart from one place. -/
def others (t : SwissTable K V) (i : Nat) : List (Slot K V) :=
  ((List.range t.capacity).erase i).filterMap t.entryAt

theorem entries_perm (t : SwissTable K V) {i : Nat} (inside : i < t.capacity) :
    t.entries.Perm ((t.entryAt i).toList ++ t.others i) :=
  listing_perm t.entryAt inside

theorem others_congr {t t' : SwissTable K V} {i : Nat} (capacity : t'.capacity = t.capacity)
    (same : ∀ j < t.capacity, j ≠ i → t'.entryAt j = t.entryAt j) :
    t'.others i = t.others i := by
  unfold others
  rw [capacity]
  exact listing_elsewhere same

theorem mem_entries {s : Slot K V} :
    s ∈ t.entries ↔ ∃ i < t.capacity, isLive (t.ctrlAt i) = true ∧ t.slotAt i = s := by
  simp [entries, entryAt, List.mem_filterMap]

theorem entryAt_live {i : Nat} (live : isLive (t.ctrlAt i) = true) :
    t.entryAt i = some (t.slotAt i) := by
  rw [entryAt, if_pos live]

theorem entryAt_dead {i : Nat} (dead : isLive (t.ctrlAt i) = false) : t.entryAt i = none := by
  rw [entryAt, dead, if_neg Bool.false_ne_true]

section Put

variable {i : Nat} {s : Slot K V}

theorem Sound.ctrlAt_put (sound : Sound hashing t) (inside : i < t.capacity) (j : Nat) :
    (put hashing t i s).ctrlAt j =
      if j = i then ctrlForHash (hashing.hash s.key) else t.ctrlAt j :=
  ctrlAt_setCtrl t (sound.ctrl_length ▸ inside) j _

theorem Sound.slotAt_put (sound : Sound hashing t) (inside : i < t.capacity) (j : Nat) :
    (put hashing t i s).slotAt j = if j = i then s else t.slotAt j :=
  slotAt_setSlot (t.setCtrl i _) (sound.slots_length ▸ inside) j s

theorem Sound.entries_put (sound : Sound hashing t) (inside : i < t.capacity)
    (dead : isLive (t.ctrlAt i) = false) :
    (put hashing t i s).entries.Perm (s :: t.entries) := by
  have now : (put hashing t i s).entryAt i = some s := by
    rw [entryAt_live (by simp [sound.ctrlAt_put inside]), sound.slotAt_put inside, if_pos rfl]
  have elsewhere : (put hashing t i s).others i = t.others i := by
    refine others_congr rfl ?_
    intro j _ other
    unfold entryAt
    rw [sound.ctrlAt_put inside, sound.slotAt_put inside, if_neg other, if_neg other]
  calc (put hashing t i s).entries.Perm
        (((put hashing t i s).entryAt i).toList ++ (put hashing t i s).others i) :=
        entries_perm _ inside
    _ = s :: ((t.entryAt i).toList ++ t.others i) := by
        rw [now, elsewhere, entryAt_dead dead]
        rfl
    List.Perm _ (s :: t.entries) := (entries_perm t inside).symm.cons s

/-- An absent key may become live at a dead place that its walk reaches. -/
theorem Sound.put (sound : Sound hashing t) (inside : i < t.capacity)
    (dead : isLive (t.ctrlAt i) = false)
    (reached : Reached t.capacity t.Vacant (t.home hashing s.key) i)
    (absent : ∀ j, ¬Holds hashing t s.key j) : Sound hashing (put hashing t i s) := by
  have fewer : ∀ p < t.capacity, (SwissTable.put hashing t i s).Vacant p → t.Vacant p := by
    intro p _ vacant
    by_cases same : p = i
    · rw [Vacant, sound.ctrlAt_put inside, if_pos same] at vacant
      exact absurd vacant (ctrlForHash_ne_empty _)
    · rwa [Vacant, sound.ctrlAt_put inside, if_neg same] at vacant
  constructor
  case ctrl_length =>
    simpa [SwissTable.put, setSlot, setCtrl] using sound.ctrl_length
  case slots_length =>
    simpa [SwissTable.put, setSlot, setCtrl] using sound.slots_length
  case power => exact sound.power
  case mark =>
    intro j jInside
    rw [sound.ctrlAt_put inside, sound.slotAt_put inside]
    by_cases same : j = i
    · simp [same]
    · rw [if_neg same, if_neg same]
      exact sound.mark j jInside
  case reached =>
    intro j jInside live
    rw [sound.slotAt_put inside]
    by_cases same : j = i
    · rw [if_pos same, same]
      exact reached.mono fewer
    · rw [sound.ctrlAt_put inside, if_neg same] at live
      rw [if_neg same]
      exact (sound.reached j jInside live).mono fewer
  case distinct =>
    intro j jInside l lInside jLive lLive same
    rw [sound.ctrlAt_put inside] at jLive lLive
    rw [sound.slotAt_put inside, sound.slotAt_put inside] at same
    by_cases jHere : j = i <;> by_cases lHere : l = i
    · rw [jHere, lHere]
    · rw [if_neg lHere] at lLive same
      rw [if_pos jHere] at same
      exact absurd ⟨lInside, lLive, hashing.equivalence.symm same⟩ (absent l)
    · rw [if_neg jHere] at jLive same
      rw [if_pos lHere] at same
      exact absurd ⟨jInside, jLive, same⟩ (absent j)
    · rw [if_neg jHere] at jLive same
      rw [if_neg lHere] at lLive same
      exact sound.distinct j jInside l lInside jLive lLive same
  case size_eq =>
    rw [(sound.entries_put inside dead).length_eq, List.length_cons, ← sound.size_eq]
    rfl

end Put

section Replace

variable {k : K} {i : Nat}

theorem Sound.slotAt_replace (sound : Sound hashing t) (holds : Holds hashing t k i) (v : V)
    (j : Nat) : (t.setSlot i { t.slotAt i with val := v }).slotAt j =
      if j = i then { t.slotAt i with val := v } else t.slotAt j :=
  slotAt_setSlot t (sound.slots_length ▸ holds.inside) j _

theorem Sound.key_replace (sound : Sound hashing t) (holds : Holds hashing t k i) (v : V)
    (j : Nat) : ((t.setSlot i { t.slotAt i with val := v }).slotAt j).key =
      (t.slotAt j).key := by
  rw [sound.slotAt_replace holds]
  by_cases same : j = i
  · rw [if_pos same, same]
  · rw [if_neg same]

theorem Sound.entries_replace (sound : Sound hashing t) (holds : Holds hashing t k i) (v : V) :
    ∃ rest, t.entries.Perm (t.slotAt i :: rest) ∧
      (t.setSlot i { t.slotAt i with val := v }).entries.Perm
        ({ t.slotAt i with val := v } :: rest) := by
  refine ⟨t.others i, ?_, ?_⟩
  · have split := entries_perm t holds.inside
    rwa [entryAt_live holds.live] at split
  · have split := entries_perm (t.setSlot i { t.slotAt i with val := v }) holds.inside
    have elsewhere : (t.setSlot i { t.slotAt i with val := v }).others i = t.others i := by
      refine others_congr rfl ?_
      intro j _ other
      unfold entryAt
      rw [ctrlAt_setSlot, sound.slotAt_replace holds, if_neg other]
    rw [entryAt_live (by rw [ctrlAt_setSlot]; exact holds.live),
      sound.slotAt_replace holds, if_pos rfl, elsewhere] at split
    exact split

/-- The value of a live key may change. -/
theorem Sound.replace (sound : Sound hashing t) (holds : Holds hashing t k i) (v : V) :
    Sound hashing (t.setSlot i { t.slotAt i with val := v }) := by
  constructor
  case ctrl_length => exact sound.ctrl_length
  case slots_length => simpa [setSlot] using sound.slots_length
  case power => exact sound.power
  case mark =>
    intro j inside
    rw [sound.key_replace holds]
    exact sound.mark j inside
  case reached =>
    intro j inside live
    rw [sound.key_replace holds]
    exact sound.reached j inside live
  case distinct =>
    intro j jInside l lInside jLive lLive same
    rw [sound.key_replace holds, sound.key_replace holds] at same
    exact sound.distinct j jInside l lInside jLive lLive same
  case size_eq =>
    obtain ⟨rest, before, after⟩ := sound.entries_replace holds v
    rw [after.length_eq, List.length_cons, ← List.length_cons (a := t.slotAt i),
      ← before.length_eq]
    exact sound.size_eq

end Replace

section Bury

variable {k : K} {i : Nat}

theorem Sound.ctrlAt_bury (sound : Sound hashing t) (holds : Holds hashing t k i) (j : Nat) :
    (t.bury i).ctrlAt j = if j = i then kCtrlDeleted else t.ctrlAt j :=
  ctrlAt_setCtrl t (sound.ctrl_length ▸ holds.inside) j _

theorem Sound.live_bury (sound : Sound hashing t) (holds : Holds hashing t k i) {j : Nat}
    (live : isLive ((t.bury i).ctrlAt j) = true) : isLive (t.ctrlAt j) = true := by
  rw [sound.ctrlAt_bury holds] at live
  by_cases same : j = i
  · rw [if_pos same] at live
    cases live
  · rwa [if_neg same] at live

theorem Sound.entries_bury (sound : Sound hashing t) (holds : Holds hashing t k i) :
    t.entries.Perm (t.slotAt i :: (t.bury i).entries) := by
  have dead : isLive ((t.bury i).ctrlAt i) = false := by
    rw [sound.ctrlAt_bury holds, if_pos rfl]
    rfl
  have elsewhere : (t.bury i).others i = t.others i := by
    refine others_congr rfl ?_
    intro j _ other
    unfold entryAt
    rw [sound.ctrlAt_bury holds, if_neg other]
    rfl
  have after := entries_perm (t.bury i) holds.inside
  rw [entryAt_dead dead, elsewhere] at after
  have before := entries_perm t holds.inside
  rw [entryAt_live holds.live] at before
  exact before.trans (after.symm.cons _)

/-- A live key may be erased: the deleted place still does not stop a walk. -/
theorem Sound.bury (sound : Sound hashing t) (holds : Holds hashing t k i) :
    Sound hashing (t.bury i) := by
  constructor
  case ctrl_length => simpa [SwissTable.bury, setCtrl] using sound.ctrl_length
  case slots_length => exact sound.slots_length
  case power => exact sound.power
  case mark =>
    intro j inside
    rw [sound.ctrlAt_bury holds]
    by_cases same : j = i
    · simp [same]
    · rw [if_neg same]
      exact sound.mark j inside
  case reached =>
    intro j inside live
    apply (sound.reached j inside (sound.live_bury holds live)).mono
    intro p _ vacant
    rw [Vacant, sound.ctrlAt_bury holds] at vacant
    by_cases same : p = i
    · rw [if_pos same] at vacant
      cases vacant
    · rwa [if_neg same] at vacant
  case distinct =>
    intro j jInside l lInside jLive lLive same
    exact sound.distinct j jInside l lInside (sound.live_bury holds jLive)
      (sound.live_bury holds lLive) same
  case size_eq =>
    have split := (sound.entries_bury holds).length_eq
    rw [List.length_cons, ← sound.size_eq] at split
    change t.size - 1 = _
    omega

end Bury

section Fresh

theorem sound_empty (hashing : Hashing K) : Sound hashing ({} : SwissTable K V) := by
  constructor
  case ctrl_length => rfl
  case slots_length => rfl
  case power => exact .inl rfl
  case mark => exact fun i inside => absurd inside (Nat.not_lt_zero i)
  case reached => exact fun i inside => absurd inside (Nat.not_lt_zero i)
  case distinct => exact fun i inside => absurd inside (Nat.not_lt_zero i)
  case size_eq => rfl

/-- A table without a live place is sound. -/
theorem sound_of_vacant (ctrl : t.ctrl.length = t.capacity)
    (slots : t.slots.length = t.capacity)
    (power : t.capacity = 0 ∨ ∃ e < 64, t.capacity = 2 ^ e)
    (vacant : ∀ i, t.Vacant i) (size : t.size = 0) : Sound hashing t := by
  have dead : ∀ i, ¬isLive (t.ctrlAt i) = true := by
    intro i
    rw [vacant i]
    exact Bool.false_ne_true
  constructor
  case ctrl_length => exact ctrl
  case slots_length => exact slots
  case power => exact power
  case mark => exact fun i _ => .inl (vacant i)
  case reached => exact fun i _ live => absurd live (dead i)
  case distinct => exact fun i _ j _ live => absurd live (dead i)
  case size_eq =>
    have none : t.entries = [] := by
      unfold entries entryAt
      simp [dead]
    rw [size, none]
    rfl

theorem sound_fresh (hashing : Hashing K) {newCap : Nat}
    (power : newCap = 0 ∨ ∃ e < 64, newCap = 2 ^ e) :
    Sound hashing (fresh newCap : SwissTable K V) :=
  sound_of_vacant (by simp [fresh]) (by simp [fresh]) power (ctrlAt_fresh newCap) rfl

theorem clear_entries (t : SwissTable K V) : t.clear.entries = [] := by
  unfold clear
  by_cases none : t.capacity = 0
  · simp [none, entries]
  · rw [if_neg none]
    simp [entries, entryAt, ctrlAt]

theorem Sound.clear (sound : Sound hashing t) : Sound hashing t.clear := by
  unfold SwissTable.clear
  by_cases none : t.capacity = 0
  · rwa [if_pos none]
  · rw [if_neg none]
    refine sound_of_vacant (by simp) sound.slots_length sound.power ?_ rfl
    exact ctrlAt_fresh (V := V) (K := K) t.capacity

end Fresh

end SwissTable

end Aegis
