import AegisCompiler.SwissTableRehash
import Mathlib.Data.Finmap

/-!
# The hash table as a finite map

The finite map of a sequence of operations has the keys up to their equality.  A table
represents it when the live entries are its entries, each once.
-/

namespace Aegis

section Entries

variable {α : Type} {β : α → Type} [DecidableEq α]

/-- Erasing a key drops its entry. -/
theorem entries_erase_of_cons {m : Finmap β} {a : α} {b : β a} {rest : Multiset (Sigma β)}
    (split : m.entries = ⟨a, b⟩ ::ₘ rest) : (m.erase a).entries = rest := by
  induction m using Finmap.induction_on with
  | H m =>
      induction rest using Quotient.inductionOn with
      | h rest =>
          have perm : m.entries.Perm (⟨a, b⟩ :: rest) := Quotient.exact split
          have erased := perm.kerase (a := a) m.nodupKeys
          rw [List.kerase_cons_eq (s := ⟨a, b⟩) rfl] at erased
          rw [Finmap.erase_toFinmap]
          exact Quotient.sound erased

/-- Inserting a key replaces its entry. -/
theorem entries_insert_of_cons {m : Finmap β} {a : α} {b : β a} {rest : Multiset (Sigma β)}
    (split : m.entries = ⟨a, b⟩ ::ₘ rest) (c : β a) :
    (m.insert a c).entries = ⟨a, c⟩ ::ₘ rest := by
  induction m using Finmap.induction_on with
  | H m =>
      induction rest using Quotient.inductionOn with
      | h rest =>
          have perm : m.entries.Perm (⟨a, b⟩ :: rest) := Quotient.exact split
          have erased := perm.kerase (a := a) m.nodupKeys
          rw [List.kerase_cons_eq (s := ⟨a, b⟩) rfl] at erased
          rw [Finmap.insert_toFinmap, AList.toFinmap_entries, AList.entries_insert]
          exact Quotient.sound (erased.cons _)

/-- Erasing an absent key changes nothing. -/
theorem erase_of_notMem {m : Finmap β} {a : α} (absent : a ∉ m) : m.erase a = m := by
  apply Finmap.ext_lookup
  intro x
  by_cases same : x = a
  · rw [same, Finmap.lookup_erase, Finmap.lookup_eq_none.mpr absent]
  · exact Finmap.lookup_erase_ne same

end Entries

namespace Hashing

variable {K : Type} (hashing : Hashing K)

def setoid : Setoid K := ⟨fun a b => hashing.keyEq a b = true, hashing.equivalence⟩

/-- Keys up to their equality. -/
abbrev Key : Type := Quotient hashing.setoid

def key (k : K) : hashing.Key := Quotient.mk hashing.setoid k

theorem key_eq_iff (a b : K) : hashing.key a = hashing.key b ↔ hashing.keyEq a b = true :=
  Quotient.eq (r := hashing.setoid)

instance : DecidableEq hashing.Key :=
  @Quotient.decidableEq K hashing.setoid fun a b =>
    inferInstanceAs (Decidable (hashing.keyEq a b = true))

/-- Finite maps from keys. -/
abbrev KeyMap (V : Type) : Type := Finmap fun _ : hashing.Key => V

/-- What an operation does to a finite map. -/
def apply {V : Type} (m : hashing.KeyMap V) : TableOp K V → hashing.KeyMap V
  | .emplace k v => m.insert (hashing.key k) v
  | .insert k v => m.insert (hashing.key k) v
  | .erase k => m.erase (hashing.key k)
  | .clear => ∅
  | .reserve _ => m

/-- The finite map of a sequence of operations. -/
def mapOf {V : Type} (ops : List (TableOp K V)) : hashing.KeyMap V :=
  ops.foldl hashing.apply ∅

/-- The entry of a finite map that a slot stands for. -/
def entry {V : Type} (s : Slot K V) : Σ _ : hashing.Key, V := ⟨hashing.key s.key, s.val⟩

end Hashing

namespace SwissTable

variable {K V : Type} [Inhabited K] [Inhabited V] {hashing : Hashing K} {t : SwissTable K V}

/-- A sound table whose live entries are the entries of a finite map. -/
structure Represents (hashing : Hashing K) (t : SwissTable K V) (m : hashing.KeyMap V) :
    Prop where
  sound : Sound hashing t
  entries : ((t.entries.map hashing.entry : List _) : Multiset _) = m.entries

/-- What a program sees of a table is what it would see of a finite map. -/
structure Agrees (hashing : Hashing K) (t : SwissTable K V) (m : hashing.KeyMap V) :
    Prop where
  found : ∀ k i, t.find hashing k = some i → Holds hashing t k i ∧
    m.lookup (hashing.key k) = some (t.slotAt i).val
  missing : ∀ k, t.find hashing k = none → m.lookup (hashing.key k) = none
  get : ∀ k, t.get hashing k = m.lookup (hashing.key k)
  contains : ∀ k, t.contains hashing k = true ↔ hashing.key k ∈ m
  size : t.size = m.keys.card
  visits : ∃ visited : List (Slot K V),
    (∀ (State : Type) (f : State → K → V → State) (s : State),
      t.forEach f s = visited.foldl (fun s e => f s e.key e.val) s) ∧
    (visited.map fun e => hashing.key e.key).Nodup ∧
    ∀ (k : hashing.Key) (v : V), m.lookup k = some v ↔
      ∃ e ∈ visited, hashing.key e.key = k ∧ e.val = v
  unique : ∀ i < t.capacity, ∀ j < t.capacity, isLive (t.ctrlAt i) = true →
    isLive (t.ctrlAt j) = true →
    hashing.keyEq (t.slotAt i).key (t.slotAt j).key = true → i = j

section Seeing

variable {m : hashing.KeyMap V}

/-- Calling a function at every live place is calling it on the live entries. -/
theorem forEach_eq {State : Type} (t : SwissTable K V) (f : State → K → V → State)
    (s : State) : t.forEach f s = t.entries.foldl (fun s e => f s e.key e.val) s := by
  unfold forEach entries
  generalize List.range t.capacity = places
  induction places generalizing s with
  | nil => rfl
  | cons i places ih =>
      rw [List.foldl_cons, ih]
      cases live : isLive (t.ctrlAt i) with
      | false => simp [entryAt_dead live]
      | true => simp [entryAt_live live]

/-- The entries of the map are the live entries. -/
theorem Represents.lookup_iff (represents : Represents hashing t m) (k : hashing.Key) (v : V) :
    m.lookup k = some v ↔ ∃ e ∈ t.entries, hashing.key e.key = k ∧ e.val = v := by
  rw [Finmap.lookup_eq_some_iff, ← represents.entries, Multiset.mem_coe, List.mem_map]
  constructor
  · rintro ⟨e, listed, same⟩
    cases same
    exact ⟨e, listed, rfl, rfl⟩
  · rintro ⟨e, listed, rfl, rfl⟩
    exact ⟨e, listed, rfl⟩

/-- A key of the map is at a place of the table. -/
theorem Represents.mem_iff (represents : Represents hashing t m) (k : K) :
    hashing.key k ∈ m ↔ ∃ i, Holds hashing t k i := by
  rw [Finmap.mem_iff]
  constructor
  · rintro ⟨v, looked⟩
    obtain ⟨e, listed, same, -⟩ := (represents.lookup_iff _ _).mp looked
    obtain ⟨i, inside, live, rfl⟩ := mem_entries.mp listed
    exact ⟨i, inside, live, (hashing.key_eq_iff _ _).mp same⟩
  · rintro ⟨i, holds⟩
    refine ⟨(t.slotAt i).val, (represents.lookup_iff _ _).mpr ?_⟩
    exact ⟨t.slotAt i, mem_entries.mpr ⟨i, holds.inside, holds.live, rfl⟩,
      (hashing.key_eq_iff _ _).mpr holds.keyEq, rfl⟩

theorem Represents.found (represents : Represents hashing t m) {k : K} {i : Nat}
    (holds : Holds hashing t k i) : m.lookup (hashing.key k) = some (t.slotAt i).val :=
  (represents.lookup_iff _ _).mpr ⟨t.slotAt i,
    mem_entries.mpr ⟨i, holds.inside, holds.live, rfl⟩,
    (hashing.key_eq_iff _ _).mpr holds.keyEq, rfl⟩

theorem Represents.missing (represents : Represents hashing t m) {k : K}
    (absent : ∀ i, ¬Holds hashing t k i) : m.lookup (hashing.key k) = none := by
  rw [Finmap.lookup_eq_none, represents.mem_iff]
  rintro ⟨i, holds⟩
  exact absent i holds

theorem Sound.absent_of_find_none (sound : Sound hashing t) {k : K}
    (none : t.find hashing k = none) (i : Nat) : ¬Holds hashing t k i := by
  intro holds
  have found := (sound.find_eq_some_iff k i).mpr holds
  rw [none] at found
  cases found

/-- A table that represents a finite map is seen as that map. -/
theorem Represents.agrees (represents : Represents hashing t m) : Agrees hashing t m := by
  have sound := represents.sound
  have looked : ∀ k, t.get hashing k = m.lookup (hashing.key k) := by
    intro k
    unfold SwissTable.get
    cases search : t.find hashing k with
    | none => exact (represents.missing (sound.absent_of_find_none search)).symm
    | some i => exact (represents.found ((sound.find_eq_some_iff k i).mp search)).symm
  constructor
  case found =>
    intro k i search
    have holds := (sound.find_eq_some_iff k i).mp search
    exact ⟨holds, represents.found holds⟩
  case missing =>
    intro k search
    exact represents.missing (sound.absent_of_find_none search)
  case get => exact looked
  case contains =>
    intro k
    rw [← Finmap.lookup_isSome, ← looked k]
    simp [SwissTable.contains, SwissTable.get]
  case size =>
    have count : m.keys.card = m.entries.card := by
      change (m.entries.map Sigma.fst).card = m.entries.card
      exact Multiset.card_map _ _
    rw [count, ← represents.entries, Multiset.coe_card, List.length_map]
    exact sound.size_eq
  case visits =>
    refine ⟨t.entries, fun State f s => forEach_eq t f s, ?_, represents.lookup_iff⟩
    have once := m.keys.nodup
    change (m.entries.map Sigma.fst).Nodup at once
    rw [← represents.entries, Multiset.map_coe, List.map_map, Multiset.coe_nodup] at once
    exact once
  case unique => exact sound.distinct

end Seeing

section Steps

variable {m : hashing.KeyMap V}

theorem represents_empty (hashing : Hashing K) :
    Represents hashing ({} : SwissTable K V) ∅ :=
  ⟨sound_empty hashing, rfl⟩

/-- The entries decide what is represented. -/
theorem Represents.of_perm (represents : Represents hashing t m) {t' : SwissTable K V}
    (sound : Sound hashing t') (same : t'.entries.Perm t.entries) :
    Represents hashing t' m := by
  refine ⟨sound, ?_⟩
  rw [← represents.entries]
  exact Quotient.sound (same.map _)

/-- A new key gets an entry. -/
theorem Represents.put (represents : Represents hashing t m) {i : Nat} {s : Slot K V}
    (taken : Takes hashing t s.key i) :
    Represents hashing (put hashing t i s) (m.insert (hashing.key s.key) s.val) := by
  have absent : hashing.key s.key ∉ m := by
    rw [represents.mem_iff]
    rintro ⟨j, holds⟩
    exact taken.absent j holds
  refine ⟨represents.sound.put_taken taken, ?_⟩
  rw [Finmap.entries_insert_of_notMem absent, ← represents.entries]
  have perm := represents.sound.entries_put (s := s) taken.inside taken.dead
  exact Quotient.sound (perm.map hashing.entry)

/-- What is left of the map apart from one live entry. -/
theorem Represents.split (represents : Represents hashing t m) {e : Slot K V}
    {rest : List (Slot K V)} (perm : t.entries.Perm (e :: rest)) :
    m.entries = hashing.entry e ::ₘ ((rest.map hashing.entry : List _) : Multiset _) := by
  rw [← represents.entries]
  exact Quotient.sound (perm.map hashing.entry)

/-- A known key gets another value, and the slot keeps its key. -/
theorem Represents.replace (represents : Represents hashing t m) {k : K} {i : Nat}
    (holds : Holds hashing t k i) (v : V) :
    Represents hashing (t.setSlot i { t.slotAt i with val := v })
      (m.insert (hashing.key k) v) := by
  have same : hashing.key (t.slotAt i).key = hashing.key k :=
    (hashing.key_eq_iff _ _).mpr holds.keyEq
  obtain ⟨rest, before, after⟩ := represents.sound.entries_replace holds v
  refine ⟨represents.sound.replace holds v, ?_⟩
  rw [← same, entries_insert_of_cons (represents.split before) v]
  exact Quotient.sound (after.map hashing.entry)

/-- An erased key loses its entry. -/
theorem Represents.bury (represents : Represents hashing t m) {k : K} {i : Nat}
    (holds : Holds hashing t k i) :
    Represents hashing (t.bury i) (m.erase (hashing.key k)) := by
  have same : hashing.key (t.slotAt i).key = hashing.key k :=
    (hashing.key_eq_iff _ _).mpr holds.keyEq
  refine ⟨represents.sound.bury holds, ?_⟩
  rw [← same, entries_erase_of_cons
    (represents.split (represents.sound.entries_bury holds))]

theorem Represents.erase (represents : Represents hashing t m) (k : K) :
    Represents hashing (t.erase hashing k) (m.erase (hashing.key k)) := by
  unfold SwissTable.erase
  cases search : t.find hashing k with
  | none =>
      have absent : hashing.key k ∉ m := by
        rw [← Finmap.lookup_eq_none]
        exact represents.missing (represents.sound.absent_of_find_none search)
      rwa [erase_of_notMem absent]
  | some i => exact represents.bury ((represents.sound.find_eq_some_iff k i).mp search)

theorem Represents.clear (represents : Represents hashing t m) :
    Represents hashing t.clear ∅ := by
  refine ⟨represents.sound.clear, ?_⟩
  rw [clear_entries]
  rfl

theorem Represents.rehash (represents : Represents hashing t m) {newCap : Nat}
    (power : newCap = 0 ∨ ∃ e < 64, newCap = 2 ^ e) {t' : SwissTable K V}
    (done : t.rehash hashing newCap = some t') : Represents hashing t' m := by
  obtain ⟨sound, -, same, -⟩ := (represents.sound.rehash power).1 t' done
  exact represents.of_perm sound same

/-- The capacities that a reservation asks for are powers of two. -/
theorem reserve_power (n : Nat) :
    ∃ e < 64, max 16 (bitCeil ((n * 8 + 6) % 2 ^ 64 / 7)) = 2 ^ e := by
  have small : Nat.clog 2 ((n * 8 + 6) % 2 ^ 64 / 7) ≤ 62 := by
    apply Nat.clog_le_of_le_pow
    omega
  unfold bitCeil
  by_cases large : 4 ≤ Nat.clog 2 ((n * 8 + 6) % 2 ^ 64 / 7)
  · refine ⟨_, by omega, max_eq_right ?_⟩
    exact Nat.pow_le_pow_right (n := 2) Nat.two_pos large
  · refine ⟨4, by decide, max_eq_left ?_⟩
    exact Nat.pow_le_pow_right (n := 2) Nat.two_pos (by omega : _ ≤ 4)

theorem Represents.reserve (represents : Represents hashing t m) (n : Nat)
    {t' : SwissTable K V} (done : t.reserve hashing n = some t') :
    Represents hashing t' m := by
  unfold SwissTable.reserve at done
  by_cases larger : t.capacity < max 16 (bitCeil ((n * 8 + 6) % 2 ^ 64 / 7))
  · rw [if_pos larger] at done
    exact represents.rehash (.inr (reserve_power n)) done
  · rw [if_neg larger] at done
    cases done
    exact represents

/-- Doubling gives a power of two, or nothing when it overflows. -/
theorem Sound.grown_power (sound : Sound hashing t) :
    t.grownCapacity = 0 ∨ ∃ e < 64, t.grownCapacity = 2 ^ e := by
  unfold grownCapacity
  rcases sound.power with none | ⟨e, small, power⟩
  · refine .inr ⟨4, by decide, ?_⟩
    rw [if_pos none]
    rfl
  · have positive : t.capacity ≠ 0 := by
      rw [power]
      exact (Nat.two_pow_pos e).ne'
    rw [if_neg positive, power, ← Nat.pow_succ]
    by_cases last : e = 63
    · left
      rw [last]
      rfl
    · right
      refine ⟨e + 1, by omega, Nat.mod_eq_of_lt ?_⟩
      exact Nat.pow_lt_pow_right (by decide) (by omega)

theorem Represents.makeRoom (represents : Represents hashing t m) {t' : SwissTable K V}
    (done : t.makeRoom hashing = some t') : Represents hashing t' m := by
  unfold SwissTable.makeRoom at done
  by_cases loaded : t.overloaded = true
  · rw [if_pos loaded] at done
    exact represents.rehash represents.sound.grown_power done
  · rw [if_neg loaded] at done
    cases done
    exact represents

/-- An insertion, whether or not it rehashes and whether or not the key is new. -/
theorem Represents.emplace (represents : Represents hashing t m) (k : K) (v : V)
    {t' : SwissTable K V} {pos : Nat} {isNew : Bool}
    (done : t.emplace hashing k v = some (t', pos, isNew)) :
    Represents hashing t' (m.insert (hashing.key k) v) := by
  unfold SwissTable.emplace at done
  cases room : t.makeRoom hashing with
  | none =>
      rw [room] at done
      cases done
  | some roomy =>
      have before := represents.makeRoom room
      rw [room] at done
      rcases before.sound.findOrInsert_cases k with ⟨result, -⟩ | ⟨i, result, holds⟩ |
        ⟨i, result, taken, -⟩
      · simp [result] at done
      · simp only [Option.bind_eq_bind, Option.bind_some, result] at done
        cases done
        exact before.replace holds v
      · simp only [Option.bind_eq_bind, Option.bind_some, result] at done
        cases done
        exact before.put (s := ⟨k, v⟩) taken

/-- One operation on a table does what it does to the map. -/
theorem Represents.step (represents : Represents hashing t m) (op : TableOp K V)
    {t' : SwissTable K V} (done : t.step hashing op = some t') :
    Represents hashing t' (hashing.apply m op) := by
  cases op with
  | emplace k v =>
      obtain ⟨⟨after, pos, isNew⟩, inserted, rfl⟩ := Option.map_eq_some_iff.mp done
      exact represents.emplace k v inserted
  | insert k v =>
      obtain ⟨⟨after, isNew⟩, inserted, rfl⟩ := Option.map_eq_some_iff.mp done
      obtain ⟨⟨after, pos, isNew⟩, emplaced, same⟩ := Option.map_eq_some_iff.mp inserted
      cases same
      exact represents.emplace k v emplaced
  | erase k =>
      cases done
      exact represents.erase k
  | clear =>
      cases done
      exact represents.clear
  | reserve n => exact represents.reserve n done

/-- A sequence of operations on a table does what it does to the map. -/
theorem Represents.run (represents : Represents hashing t m) (ops : List (TableOp K V))
    {t' : SwissTable K V} (done : t.run hashing ops = some t') :
    Represents hashing t' (ops.foldl hashing.apply m) := by
  induction ops generalizing t m with
  | nil =>
      cases done
      exact represents
  | cons op ops ih =>
      unfold SwissTable.run at done
      rw [List.foldlM_cons] at done
      obtain ⟨next, first, rest⟩ := Option.bind_eq_some_iff.mp done
      exact ih (represents.step op first) rest

/-- A table is a finite map: after every sequence of operations in which no insertion
exhausts its probe loop, it is seen as the finite map of the same sequence. -/
theorem run_agrees (hashing : Hashing K) (ops : List (TableOp K V)) (t : SwissTable K V)
    (done : run hashing {} ops = some t) : Agrees hashing t (hashing.mapOf ops) :=
  ((represents_empty hashing).run ops done).agrees

end Steps

/-- Numbers with the low bits of their values as hashes. -/
def lowBits : Hashing Nat where
  hash k := UInt64.ofNat k
  keyEq a b := a == b
  equivalence := ⟨fun a => beq_self_eq_true a, fun same => by simpa using (eq_of_beq same).symm,
    fun first second => by simpa using (eq_of_beq first).trans (eq_of_beq second)⟩
  respects a b same := by rw [eq_of_beq same]

/-- Two keys of one home, a deleted place between them, and one value replaced. -/
theorem run_agrees_reused : ∃ t : SwissTable Nat Nat,
    run lowBits {} [.insert 3 1, .insert 19 2, .insert 35 5, .erase 19, .emplace 35 7] = some t ∧
      Agrees lowBits t (lowBits.mapOf
        [.insert 3 1, .insert 19 2, .insert 35 5, .erase 19, .emplace 35 7]) := by
  have some : (run lowBits ({} : SwissTable Nat Nat)
      [.insert 3 1, .insert 19 2, .insert 35 5, .erase 19, .emplace 35 7]).isSome = true := by
    decide
  refine ⟨_, (Option.some_get some).symm, ?_⟩
  exact run_agrees lowBits _ _ (Option.some_get some).symm

end SwissTable

end Aegis
