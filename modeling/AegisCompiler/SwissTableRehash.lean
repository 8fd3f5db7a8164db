import AegisCompiler.SwissTableSteps

/-!
# Rehashing

A rehash moves the live entries, one after the other, into buffers without deleted places.
Each of them is new there, and finds a place whenever the capacity is at least the number
of entries.
-/

namespace Aegis

namespace SwissTable

open Probing

variable {K V : Type} [Inhabited K] [Inhabited V] {hashing : Hashing K} {t : SwissTable K V}

/-- The number of deleted places. -/
def tombstones (t : SwissTable K V) : Nat :=
  (List.range t.capacity).countP fun i => t.ctrlAt i = kCtrlDeleted

section Counting

omit [Inhabited K] [Inhabited V] in
/-- Among places that are live, deleted or vacant, the three kinds add up. -/
theorem count_kinds (t : SwissTable K V) (places : List Nat)
    (kinds : ∀ i ∈ places, t.ctrlAt i = kCtrlEmpty ∨ t.ctrlAt i = kCtrlDeleted ∨
      isLive (t.ctrlAt i) = true) :
    places.countP (fun i => isLive (t.ctrlAt i)) +
        places.countP (fun i => t.ctrlAt i = kCtrlDeleted) +
      places.countP (fun i => t.ctrlAt i = kCtrlEmpty) = places.length := by
  induction places with
  | nil => rfl
  | cons i places ih =>
      have rest := ih fun j listed => kinds j (List.mem_cons_of_mem i listed)
      rw [List.countP_cons, List.countP_cons, List.countP_cons, List.length_cons, ← rest]
      have differ : kCtrlEmpty ≠ kCtrlDeleted := by decide
      rcases kinds i List.mem_cons_self with vacant | deleted | live
      · simp only [vacant, isLive_empty, differ, decide_true, decide_false, if_true,
          Bool.false_eq_true, if_false]
        omega
      · simp only [deleted, isLive_deleted, differ.symm, decide_true, decide_false, if_true,
          Bool.false_eq_true, if_false]
        omega
      · have notVacant : t.ctrlAt i ≠ kCtrlEmpty := by
          intro vacant
          rw [vacant] at live
          cases live
        have notDeleted : t.ctrlAt i ≠ kCtrlDeleted := by
          intro deleted
          rw [deleted] at live
          cases live
        simp only [live, notVacant, notDeleted, decide_false, if_true, Bool.false_eq_true,
          if_false]
        omega

/-- The size counts the live places. -/
theorem entries_length (t : SwissTable K V) :
    t.entries.length = (List.range t.capacity).countP fun i => isLive (t.ctrlAt i) := by
  unfold entries
  rw [List.length_filterMap_eq_countP]
  apply List.countP_congr
  intro i _
  unfold entryAt
  cases isLive (t.ctrlAt i) <;> simp

theorem Sound.kind (sound : Sound hashing t) {i : Nat} (inside : i < t.capacity) :
    t.ctrlAt i = kCtrlEmpty ∨ t.ctrlAt i = kCtrlDeleted ∨ isLive (t.ctrlAt i) = true := by
  rcases sound.mark i inside with vacant | deleted | marked
  · exact .inl vacant
  · exact .inr (.inl deleted)
  · exact .inr (.inr (by rw [marked]; exact isLive_ctrlForHash _))

/-- A place is vacant unless the live entries and the deleted places fill the table. -/
theorem Sound.exists_vacant_iff (sound : Sound hashing t) :
    (∃ i < t.capacity, t.Vacant i) ↔ t.size + t.tombstones < t.capacity := by
  have total := count_kinds t (List.range t.capacity)
    fun i listed => sound.kind (List.mem_range.mp listed)
  rw [← entries_length, ← sound.size_eq, List.length_range] at total
  have some : (∃ i < t.capacity, t.Vacant i) ↔
      0 < (List.range t.capacity).countP fun i => t.ctrlAt i = kCtrlEmpty := by
    simp [List.countP_pos_iff]
  rw [some]
  unfold tombstones
  omega

theorem Sound.size_le (sound : Sound hashing t) : t.size ≤ t.capacity := by
  rw [sound.size_eq]
  exact listing_length_le t.entryAt t.capacity

end Counting

omit [Inhabited K] [Inhabited V] in
theorem tombstones_eq_zero (undeleted : ∀ i, t.ctrlAt i ≠ kCtrlDeleted) : t.tombstones = 0 := by
  unfold tombstones
  rw [List.countP_eq_zero]
  intro i _ deleted
  exact undeleted i (by simpa using deleted)

section Reinsert

/-- A place that an insertion may take for a key. -/
structure Takes (hashing : Hashing K) (t : SwissTable K V) (k : K) (i : Nat) : Prop where
  inside : i < t.capacity
  dead : isLive (t.ctrlAt i) = false
  reached : Reached t.capacity t.Vacant (t.home hashing k) i
  absent : ∀ j, ¬Holds hashing t k j

theorem Sound.put_taken (sound : Sound hashing t) {i : Nat} {s : Slot K V}
    (taken : Takes hashing t s.key i) : Sound hashing (SwissTable.put hashing t i s) :=
  sound.put taken.inside taken.dead taken.reached taken.absent

/-- An insertion finds the key, takes a place for it, or meets no vacant place. -/
theorem Sound.findOrInsert_cases (sound : Sound hashing t) (k : K) :
    (t.findOrInsert hashing k = none ∧ (∀ i < t.capacity, ¬t.Vacant i) ∧
      ∀ i, ¬Holds hashing t k i) ∨
    (∃ i, t.findOrInsert hashing k = some (t, i, false) ∧ Holds hashing t k i) ∨
    (∃ i, t.findOrInsert hashing k =
        some (t.setCtrl i (ctrlForHash (hashing.hash k)), i, true) ∧
      Takes hashing t k i ∧ ∃ j < t.capacity, t.Vacant j) := by
  unfold findOrInsert
  rcases sound.probe_cases k with ⟨result, full, absent⟩ | ⟨i, result, holds⟩ |
    ⟨i, result, inside, dead, reached, absent, vacant⟩
  · exact .inl ⟨by rw [result]; rfl, full, absent⟩
  · exact .inr (.inl ⟨i, by rw [result]; rfl, holds⟩)
  · exact .inr (.inr ⟨i, by rw [result]; rfl, ⟨inside, dead, reached, absent⟩, vacant⟩)

/-- An absent key is reinserted at a place that it takes, when a place is vacant. -/
theorem Sound.reinsert_cases (sound : Sound hashing t) {s : Slot K V}
    (absent : ∀ i, ¬Holds hashing t s.key i) :
    (t.reinsert hashing s = none ∧ ∀ i < t.capacity, ¬t.Vacant i) ∨
    ∃ i, t.reinsert hashing s = some (SwissTable.put hashing t i s) ∧
      Takes hashing t s.key i := by
  unfold reinsert
  rcases sound.findOrInsert_cases s.key with ⟨result, full, -⟩ | ⟨i, -, holds⟩ |
    ⟨i, result, taken, -⟩
  · exact .inl ⟨by rw [result]; rfl, full⟩
  · exact absurd holds (absent i)
  · exact .inr ⟨i, by rw [result]; rfl, taken⟩

end Reinsert

section Rehash

/-- The new buffers, after the places up to `m` have been moved. -/
structure Moved (hashing : Hashing K) (t : SwissTable K V) (newCap m : Nat)
    (moved : SwissTable K V) : Prop where
  sound : Sound hashing moved
  capacity : moved.capacity = newCap
  entries : moved.entries.Perm ((List.range m).filterMap t.entryAt)
  undeleted : ∀ i, moved.ctrlAt i ≠ kCtrlDeleted

/-- The work of one place. -/
def moveOne (hashing : Hashing K) (t moved : SwissTable K V) (i : Nat) :
    Option (SwissTable K V) :=
  if isLive (t.ctrlAt i) then moved.reinsert hashing (t.slotAt i) else some moved

theorem listing_succ (t : SwissTable K V) (m : Nat) :
    ((List.range (m + 1)).filterMap t.entryAt) =
      (List.range m).filterMap t.entryAt ++ (t.entryAt m).toList := by
  rw [List.range_succ, List.filterMap_append]
  cases here : t.entryAt m <;> simp [here]

variable {newCap m : Nat} {moved : SwissTable K V}

/-- The next live key is not among those that have been moved. -/
theorem Moved.absent (before : Moved hashing t newCap m moved) (sound : Sound hashing t)
    (inside : m < t.capacity) (live : isLive (t.ctrlAt m) = true) (j : Nat) :
    ¬Holds hashing moved (t.slotAt m).key j := by
  intro holds
  have listed : moved.slotAt j ∈ moved.entries :=
    mem_entries.mpr ⟨j, holds.inside, holds.live, rfl⟩
  rw [before.entries.mem_iff, List.mem_filterMap] at listed
  obtain ⟨l, small, entry⟩ := listed
  have lSmall := List.mem_range.mp small
  unfold entryAt at entry
  split at entry
  case isTrue lLive =>
    have alike := holds.keyEq
    rw [← Option.some.inj entry] at alike
    have same := sound.distinct l (by omega) m inside lLive live alike
    omega
  case isFalse => cases entry

/-- One place is moved, and there is room for it when the new buffers have room for all. -/
theorem Moved.step (before : Moved hashing t newCap m moved) (sound : Sound hashing t)
    (inside : m < t.capacity) :
    (∀ moved', moveOne hashing t moved m = some moved' →
      Moved hashing t newCap (m + 1) moved') ∧
    (t.size ≤ newCap → moveOne hashing t moved m ≠ none) := by
  unfold moveOne
  by_cases live : isLive (t.ctrlAt m) = true
  · rw [if_pos live]
    have absent := before.absent sound inside live
    rcases before.sound.reinsert_cases absent with ⟨result, full⟩ | ⟨i, result, taken⟩
    · rw [result]
      refine ⟨fun _ impossible => (nomatch impossible), ?_⟩
      intro room _
      have noTombstones := tombstones_eq_zero before.undeleted
      have filled : ¬moved.size + moved.tombstones < moved.capacity := by
        rw [← before.sound.exists_vacant_iff]
        rintro ⟨j, small, vacant⟩
        exact full j small vacant
      have all := listing_succ t m
      rw [entryAt_live live] at all
      have movedSize := before.sound.size_eq.trans before.entries.length_eq
      have part : ((List.range (m + 1)).filterMap t.entryAt).length ≤ t.entries.length := by
        apply List.Sublist.length_le
        apply List.Sublist.filterMap
        exact List.range_sublist.mpr inside
      rw [all, List.length_append, ← movedSize, ← sound.size_eq] at part
      have capacity := before.capacity
      simp only [Option.toList, List.length_singleton] at part
      omega
    · rw [result]
      refine ⟨?_, fun _ impossible => nomatch impossible⟩
      intro moved' done
      cases done
      refine ⟨before.sound.put_taken taken, before.capacity, ?_, ?_⟩
      · rw [listing_succ, entryAt_live live]
        calc (put hashing moved i (t.slotAt m)).entries.Perm
              (t.slotAt m :: moved.entries) :=
              before.sound.entries_put taken.inside taken.dead
          List.Perm _ (t.slotAt m :: (List.range m).filterMap t.entryAt) :=
              before.entries.cons _
          List.Perm _ ((List.range m).filterMap t.entryAt ++ [t.slotAt m]) :=
              (List.perm_append_singleton _ _).symm
      · intro j deleted
        rw [before.sound.ctrlAt_put taken.inside] at deleted
        by_cases same : j = i
        · rw [if_pos same] at deleted
          exact ctrlForHash_ne_deleted _ deleted
        · rw [if_neg same] at deleted
          exact before.undeleted j deleted
  · rw [if_neg live]
    refine ⟨?_, fun _ impossible => nomatch impossible⟩
    intro moved' done
    cases done
    have none := entryAt_dead (t := t) (Bool.eq_false_iff.mpr live)
    refine ⟨before.sound, before.capacity, ?_, before.undeleted⟩
    rw [listing_succ, none]
    simpa using before.entries

/-- All places up to a bound are moved. -/
theorem Moved.run (sound : Sound hashing t)
    (power : newCap = 0 ∨ ∃ e < 64, newCap = 2 ^ e) :
    ∀ m ≤ t.capacity,
      (∀ moved, (List.range m).foldlM (moveOne hashing t) (fresh newCap) = some moved →
        Moved hashing t newCap m moved) ∧
      (t.size ≤ newCap → (List.range m).foldlM (moveOne hashing t) (fresh newCap) ≠ none) := by
  intro m
  induction m with
  | zero =>
      intro _
      refine ⟨?_, fun _ impossible => nomatch impossible⟩
      intro moved done
      cases done
      refine ⟨sound_fresh hashing power, rfl, by rw [entries_fresh]; rfl, ?_⟩
      intro i deleted
      rw [ctrlAt_fresh] at deleted
      cases deleted
  | succ m ih =>
      intro inside
      obtain ⟨sofar, possible⟩ := ih (by omega)
      rw [List.range_succ, List.foldlM_append]
      cases earlier : (List.range m).foldlM (moveOne hashing t) (fresh newCap) with
      | none =>
          exact ⟨fun _ impossible => (nomatch impossible),
            fun room => absurd earlier (possible room)⟩
      | some moved =>
          have step := (sofar moved earlier).step sound inside
          simpa using step

/-- A rehash keeps the entries, and is possible when they fit. -/
theorem Sound.rehash (sound : Sound hashing t)
    (power : newCap = 0 ∨ ∃ e < 64, newCap = 2 ^ e) :
    (∀ moved, t.rehash hashing newCap = some moved →
      Sound hashing moved ∧ moved.capacity = newCap ∧ moved.entries.Perm t.entries ∧
        moved.tombstones = 0) ∧
    (t.size ≤ newCap → t.rehash hashing newCap ≠ none) := by
  obtain ⟨all, possible⟩ := Moved.run sound power t.capacity (le_refl _)
  refine ⟨?_, possible⟩
  intro moved done
  have after := all moved done
  exact ⟨after.sound, after.capacity, after.entries, tombstones_eq_zero after.undeleted⟩

end Rehash

end SwissTable

end Aegis
