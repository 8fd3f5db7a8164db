import AegisCompiler.SwissTableMap

/-!
# Room in the hash table

The load check counts live entries only.  An insertion of an absent key finds a place
exactly when the live entries and the deleted places together leave one, or when the load
check has failed and the rehash has dropped the deleted places.
-/

namespace Aegis

namespace SwissTable

variable {K V : Type} [Inhabited K] [Inhabited V] {hashing : Hashing K} {t : SwissTable K V}

/-- There is room for an insertion: the table is about to grow, the key is known, or the
live entries and the deleted places do not fill the table. -/
def RoomFor (hashing : Hashing K) (t : SwissTable K V) (k : K) : Prop :=
  if t.overloaded then t.capacity * 2 < 2 ^ 64
  else t.contains hashing k = true ∨ t.size + t.tombstones < t.capacity

/-- There is room for an operation. -/
def Roomy (hashing : Hashing K) (t : SwissTable K V) : TableOp K V → Prop
  | .emplace k _ => RoomFor hashing t k
  | .insert k _ => RoomFor hashing t k
  | _ => True

theorem Sound.contains_iff (sound : Sound hashing t) (k : K) :
    t.contains hashing k = true ↔ ∃ i, Holds hashing t k i := by
  unfold contains
  rw [Option.isSome_iff_exists]
  exact exists_congr fun i => sound.find_eq_some_iff k i

/-- The probe loop ends in front of the last slot when the key is there or a place is
vacant. -/
theorem Sound.findOrInsert_isSome_iff (sound : Sound hashing t) (k : K) :
    (t.findOrInsert hashing k).isSome = true ↔
      t.contains hashing k = true ∨ t.size + t.tombstones < t.capacity := by
  rw [sound.contains_iff, ← sound.exists_vacant_iff]
  rcases sound.findOrInsert_cases k with ⟨result, full, absent⟩ | ⟨i, result, holds⟩ |
    ⟨i, result, -, vacant⟩
  · rw [result]
    constructor
    · intro impossible
      cases impossible
    · rintro (⟨i, holds⟩ | ⟨i, inside, vacant⟩)
      · exact absurd holds (absent i)
      · exact absurd vacant (full i inside)
  · rw [result]
    exact ⟨fun _ => .inl ⟨i, holds⟩, fun _ => rfl⟩
  · rw [result]
    exact ⟨fun _ => .inr vacant, fun _ => rfl⟩

/-- A table that grows has room for all live entries and one more, unless the capacity
overflows. -/
theorem Sound.grown_cases (sound : Sound hashing t) :
    (t.capacity * 2 < 2 ^ 64 ∧ t.size < t.grownCapacity) ∨
      (¬t.capacity * 2 < 2 ^ 64 ∧ t.grownCapacity = 0) := by
  have small := sound.size_le
  unfold grownCapacity
  rcases sound.power with none | ⟨e, bound, power⟩
  · rw [if_pos none]
    omega
  · have positive : 0 < t.capacity := by
      rw [power]
      exact Nat.two_pow_pos e
    rw [if_neg positive.ne']
    by_cases fits : t.capacity * 2 < 2 ^ 64
    · rw [Nat.mod_eq_of_lt fits]
      omega
    · have atMost : t.capacity ≤ 2 ^ 63 := by
        rw [power]
        exact Nat.pow_le_pow_right Nat.two_pos (by omega)
      have exactly : t.capacity * 2 = 2 ^ 64 := by omega
      rw [exactly]
      simp

/-- A key finds a place behind the load check exactly when there is room for it. -/
theorem Sound.room_iff (sound : Sound hashing t) (k : K) :
    ((t.makeRoom hashing).bind fun t => t.findOrInsert hashing k).isSome = true ↔
      RoomFor hashing t k := by
  unfold makeRoom RoomFor
  by_cases loaded : t.overloaded = true
  · rw [if_pos loaded, if_pos loaded]
    obtain ⟨after, possible⟩ := sound.rehash sound.grown_power
    rcases sound.grown_cases with ⟨fits, room⟩ | ⟨overflow, none⟩
    · simp only [fits, iff_true]
      obtain ⟨grown, done⟩ := Option.ne_none_iff_exists'.mp (possible room.le)
      obtain ⟨grownSound, capacity, same, noTombstones⟩ := after grown done
      have size : grown.size = t.size := by
        rw [grownSound.size_eq, sound.size_eq]
        exact same.length_eq
      rw [done, Option.bind_some, grownSound.findOrInsert_isSome_iff, noTombstones, capacity,
        size]
      exact .inr room
    · simp only [overflow, iff_false]
      cases done : t.rehash hashing t.grownCapacity with
      | none => exact Bool.false_ne_true
      | some grown =>
          obtain ⟨grownSound, capacity, -, -⟩ := after grown done
          rw [none] at capacity
          rw [Option.bind_some, grownSound.findOrInsert_isSome_iff, grownSound.contains_iff,
            capacity]
          rintro (⟨i, holds⟩ | impossible)
          · have inside := holds.inside
            omega
          · omega
  · rw [if_neg loaded, if_neg loaded]
    exact sound.findOrInsert_isSome_iff k

/-- An insertion ends exactly when there is room for it. -/
theorem Sound.emplace_isSome_iff (sound : Sound hashing t) (k : K) (v : V) :
    (t.emplace hashing k v).isSome = true ↔ RoomFor hashing t k := by
  rw [← sound.room_iff]
  unfold emplace
  cases t.makeRoom hashing with
  | none => rfl
  | some roomy =>
      rw [Option.bind_some]
      simp only [Option.bind_eq_bind, Option.bind_some]
      rcases roomy.findOrInsert hashing k with _ | ⟨after, pos, _ | _⟩ <;> simp

theorem reserve_isSome (sound : Sound hashing t) (n : Nat) :
    (t.reserve hashing n).isSome = true := by
  unfold reserve
  by_cases larger : t.capacity < max 16 (bitCeil ((n * 8 + 6) % 2 ^ 64 / 7))
  · rw [if_pos larger, Option.isSome_iff_ne_none]
    exact (sound.rehash (.inr (reserve_power n))).2 (sound.size_le.trans larger.le)
  · rw [if_neg larger]
    rfl

/-- An operation ends exactly when there is room for it. -/
theorem Sound.step_isSome_iff (sound : Sound hashing t) (op : TableOp K V) :
    (t.step hashing op).isSome = true ↔ Roomy hashing t op := by
  cases op with
  | emplace k v =>
      rw [step, Option.isSome_map]
      exact sound.emplace_isSome_iff k v
  | insert k v =>
      rw [step, Option.isSome_map, insert, Option.isSome_map]
      exact sound.emplace_isSome_iff k v
  | erase k => exact ⟨fun _ => trivial, fun _ => rfl⟩
  | clear => exact ⟨fun _ => trivial, fun _ => rfl⟩
  | reserve n => exact ⟨fun _ => trivial, fun _ => reserve_isSome sound n⟩

end SwissTable

end Aegis
