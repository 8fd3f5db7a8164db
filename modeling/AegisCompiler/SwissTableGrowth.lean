import AegisCompiler.SwissTableRoom

/-!
# Hash tables from which nothing is erased

Without deleted places the load check sees everything that fills a table.  Insertions then
end as long as the number of entries is far from the overflow of the check, which bounds the
capacity by the number of entries.
-/

namespace Aegis

namespace SwissTable

variable {K V : Type} [Inhabited K] [Inhabited V] {hashing : Hashing K} {t : SwissTable K V}

/-- No place is deleted, and the capacity is the first one or at most doubled when the load
check failed. -/
structure Unerased (t : SwissTable K V) : Prop where
  undeleted : t.tombstones = 0
  capacity : t.capacity ≤ 16 ∨ t.capacity * 7 ≤ (t.size + 1) * 16

omit [Inhabited K] [Inhabited V] in
theorem unerased_empty : Unerased ({} : SwissTable K V) :=
  ⟨rfl, .inl (Nat.zero_le _)⟩

omit [Inhabited K] [Inhabited V] in
/-- Far from an overflow the load check compares without wrapping around. -/
theorem Unerased.overloaded_iff (unerased : Unerased t) (small : t.size + 1 < 2 ^ 60) :
    t.overloaded = true ↔ t.capacity * 7 ≤ (t.size + 1) * 8 := by
  have bound := unerased.capacity
  have places : t.capacity * 7 < 2 ^ 64 := by omega
  have entries : (t.size + 1) * 8 < 2 ^ 64 := by omega
  unfold overloaded
  rw [decide_eq_true_iff, Nat.mod_eq_of_lt places, Nat.mod_eq_of_lt entries]

/-- There is room for every insertion. -/
theorem Unerased.roomFor (unerased : Unerased t) (small : t.size + 1 < 2 ^ 60)
    (hashing : Hashing K) (k : K) : RoomFor hashing t k := by
  have check := unerased.overloaded_iff small
  unfold RoomFor
  by_cases loaded : t.overloaded = true
  · rw [if_pos loaded]
    have few := check.mp loaded
    omega
  · rw [if_neg loaded]
    have many := mt check.mpr loaded
    have none := unerased.undeleted
    right
    omega

/-- Making room keeps the entries, deletes nothing, and keeps the bound of the capacity. -/
theorem Unerased.makeRoom (unerased : Unerased t) (sound : Sound hashing t)
    (small : t.size + 1 < 2 ^ 60) {roomy : SwissTable K V}
    (done : t.makeRoom hashing = some roomy) :
    Sound hashing roomy ∧ roomy.size = t.size ∧ Unerased roomy := by
  have check := unerased.overloaded_iff small
  unfold SwissTable.makeRoom at done
  by_cases loaded : t.overloaded = true
  · rw [if_pos loaded] at done
    obtain ⟨after, capacity, same, none⟩ := (sound.rehash sound.grown_power).1 roomy done
    have size : roomy.size = t.size := by
      rw [after.size_eq, sound.size_eq]
      exact same.length_eq
    refine ⟨after, size, none, ?_⟩
    rw [capacity, size, grownCapacity]
    have few := check.mp loaded
    have fits : t.capacity * 2 < 2 ^ 64 := by omega
    by_cases first : t.capacity = 0
    · rw [if_pos first]
      exact .inl (le_refl _)
    · rw [if_neg first, Nat.mod_eq_of_lt fits]
      right
      omega
  · rw [if_neg loaded] at done
    cases done
    exact ⟨sound, rfl, unerased⟩

/-- A place that is taken is not deleted afterwards. -/
theorem Sound.tombstones_put (sound : Sound hashing t) {i : Nat} {s : Slot K V}
    (inside : i < t.capacity) (none : t.tombstones = 0) :
    (SwissTable.put hashing t i s).tombstones = 0 := by
  unfold tombstones at none ⊢
  rw [List.countP_eq_zero] at none ⊢
  intro j listed deleted
  rw [sound.ctrlAt_put inside] at deleted
  by_cases same : j = i
  · rw [if_pos same, decide_eq_true_iff] at deleted
    exact ctrlForHash_ne_deleted _ deleted
  · rw [if_neg same] at deleted
    exact none j listed deleted

section Putting

omit [Inhabited K] [Inhabited V]

@[simp] theorem capacity_put (hashing : Hashing K) (t : SwissTable K V) (i : Nat)
    (s : Slot K V) : (SwissTable.put hashing t i s).capacity = t.capacity := rfl

@[simp] theorem size_put (hashing : Hashing K) (t : SwissTable K V) (i : Nat)
    (s : Slot K V) : (SwissTable.put hashing t i s).size = t.size + 1 := rfl

end Putting

theorem Unerased.put (unerased : Unerased t) (sound : Sound hashing t) {i : Nat}
    {s : Slot K V} (inside : i < t.capacity) : Unerased (SwissTable.put hashing t i s) := by
  refine ⟨sound.tombstones_put inside unerased.undeleted, ?_⟩
  rw [capacity_put, size_put]
  have grows : (t.size + 1) * 16 ≤ (t.size + 1 + 1) * 16 :=
    Nat.mul_le_mul_right 16 (Nat.le_succ _)
  exact unerased.capacity.imp_right fun bound => bound.trans grows

/-- A key that takes a place behind the load check is put there. -/
theorem emplace_taken {roomy : SwissTable K V} (room : t.makeRoom hashing = some roomy)
    {k : K} {i : Nat} (result : roomy.findOrInsert hashing k =
      some (roomy.setCtrl i (ctrlForHash (hashing.hash k)), i, true)) (v : V) :
    t.emplace hashing k v = some (SwissTable.put hashing roomy i ⟨k, v⟩, i, true) := by
  unfold emplace
  rw [room]
  simp only [Option.bind_eq_bind, Option.bind_some, result]
  rfl

/-- An insertion into a table from which nothing was erased ends.  A key that was absent
makes the table larger by one. -/
theorem Represents.insert_unerased {m : hashing.KeyMap V} (represents : Represents hashing t m)
    (unerased : Unerased t) (small : t.size + 1 < 2 ^ 60) {k : K} (v : V)
    (absent : hashing.key k ∉ m) :
    ∃ t', t.insert hashing k v = some (t', true) ∧
      Represents hashing t' (m.insert (hashing.key k) v) ∧ Unerased t' ∧
      t'.size = t.size + 1 := by
  have ends := (represents.sound.room_iff k).mpr (unerased.roomFor small hashing k)
  cases room : t.makeRoom hashing with
  | none =>
      rw [room] at ends
      cases ends
  | some roomy =>
      have before := represents.makeRoom room
      obtain ⟨sound, size, kept⟩ := unerased.makeRoom represents.sound small room
      rw [room, Option.bind_some] at ends
      rcases sound.findOrInsert_cases k with ⟨result, -⟩ | ⟨i, -, holds⟩ |
        ⟨i, result, taken, -⟩
      · rw [result] at ends
        cases ends
      · exact absurd ((before.mem_iff k).mpr ⟨i, holds⟩) absent
      · have done := emplace_taken room result v
        refine ⟨SwissTable.put hashing roomy i ⟨k, v⟩, ?_, represents.emplace k v done,
          kept.put sound taken.inside, ?_⟩
        · rw [SwissTable.insert, done, Option.map_some]
        · rw [size_put, size]

end SwissTable

end Aegis
