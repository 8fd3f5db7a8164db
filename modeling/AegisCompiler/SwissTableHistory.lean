import AegisCompiler.SwissTableRoom

/-!
# Room in the hash table, by its history

The load check does not see the keys that were erased.  An insertion is sure to find a
place as long as fewer different keys than places have been seen since the last rehash or
clear: every deleted place belongs to a seen key that is absent, because an absent key
takes the first deleted place on its walk.  Once there are as many, some hash function
gives each of them a home of its own, and no place is vacant.
-/

namespace Aegis

namespace Probing

/-- A walk may be continued from where it leads. -/
theorem Reached.trans {n home i j : Nat} {stops : Nat → Prop} (first : Reached n stops home i)
    (second : Reached n stops i j) : Reached n stops home j := by
  obtain ⟨a, aSmall, rfl, aFree⟩ := first
  obtain ⟨b, bSmall, rfl, bFree⟩ := second
  have joined (steps : Nat) : place n (place n home a) steps = place n home (a + steps) := by
    rw [place, place, place, Nat.mod_add_mod, Nat.add_assoc]
  have free (steps : Nat) (early : steps < a + b) : ¬stops (place n home steps) := by
    by_cases before : steps < a
    · exact aFree steps before
    · have later := bFree (steps - a) (by omega)
      rwa [joined, Nat.add_sub_cancel' (Nat.le_of_not_lt before)] at later
  by_cases around : a + b < n
  · exact ⟨a + b, around, (joined b).symm, free⟩
  · -- The walk has gone around, and the place was met before.
    refine ⟨a + b - n, by omega, ?_, fun steps early => free steps (by omega)⟩
    rw [joined, place, place, ← Nat.add_mod_right, Nat.add_assoc,
      Nat.sub_add_cancel (Nat.le_of_not_lt around)]

/-- The rest of a walk is a walk. -/
theorem Reached.rest {n home e s : Nat} {stops : Nat → Prop} (order : e ≤ s) (small : s < n)
    (free : ∀ earlier < s, ¬stops (place n home earlier)) :
    Reached n stops (place n home e) (place n home s) := by
  have joined (steps : Nat) : place n (place n home e) steps = place n home (e + steps) := by
    rw [place, place, place, Nat.mod_add_mod, Nat.add_assoc]
  refine ⟨s - e, by omega, ?_, fun steps early => ?_⟩
  · rw [joined, Nat.add_sub_cancel' order]
  · rw [joined]
    exact free _ (by omega)

end Probing

namespace SwissTable

open Probing

/-- What the operations on a table tell about it: its capacity, its keys, and the keys that
were in it at some time since the last rehash or clear. -/
structure History (Key : Type) where
  capacity : Nat := 0
  keys : Finset Key := ∅
  seen : Finset Key := ∅

namespace History

variable {K V Key : Type} [DecidableEq Key]

/-- The load check in front of an insertion. -/
def overloaded (h : History Key) : Bool :=
  h.capacity * 7 % 2 ^ 64 ≤ (h.keys.card + 1) * 8 % 2 ^ 64

def grownCapacity (h : History Key) : Nat :=
  if h.capacity = 0 then 16 else h.capacity * 2 % 2 ^ 64

/-- New buffers take the keys that are left. -/
def rehash (h : History Key) (newCap : Nat) : History Key :=
  { h with capacity := newCap, seen := h.keys }

def makeRoom (h : History Key) : History Key :=
  if h.overloaded then h.rehash h.grownCapacity else h

/-- A key is there, and has been seen. -/
def see (h : History Key) (k : Key) : History Key :=
  { h with keys := Insert.insert k h.keys, seen := Insert.insert k h.seen }

def reserve (h : History Key) (n : Nat) : History Key :=
  let newCap := max 16 (bitCeil ((n * 8 + 6) % 2 ^ 64 / 7))
  if h.capacity < newCap then h.rehash newCap else h

/-- What an operation adds to the history. -/
def apply (key : K → Key) (h : History Key) : TableOp K V → History Key
  | .emplace k _ => h.makeRoom.see (key k)
  | .insert k _ => h.makeRoom.see (key k)
  | .erase k => { h with keys := h.keys.erase (key k) }
  | .clear => { h with keys := ∅, seen := ∅ }
  | .reserve n => h.reserve n

/-- An insertion is sure to find a place: the capacity can be doubled when the load check
asks for it, and otherwise the key is known, or fewer keys than places have been seen. -/
def Admits (h : History Key) (k : Key) : Prop :=
  if h.overloaded then h.capacity * 2 < 2 ^ 64
  else k ∈ h.keys ∨ h.seen.card < h.capacity

def AdmitsOp (key : K → Key) (h : History Key) : TableOp K V → Prop
  | .emplace k _ => h.Admits (key k)
  | .insert k _ => h.Admits (key k)
  | _ => True

/-- Every insertion of a sequence is sure to find a place when it comes. -/
def AdmitsAll (key : K → Key) : History Key → List (TableOp K V) → Prop
  | _, [] => True
  | h, op :: ops => h.AdmitsOp key op ∧ AdmitsAll key (h.apply key op) ops

/-- If not every insertion is sure to find a place, there is a first one. -/
theorem exists_first_not_admitted (key : K → Key) (h : History Key) (ops : List (TableOp K V))
    (unsure : ¬h.AdmitsAll key ops) : ∃ before op after, ops = before ++ op :: after ∧
      h.AdmitsAll key before ∧ ¬(before.foldl (apply key) h).AdmitsOp key op := by
  induction ops generalizing h with
  | nil => exact absurd trivial unsure
  | cons op ops ih =>
      by_cases here : h.AdmitsOp key op
      · obtain ⟨before, other, after, rfl, admitted, fails⟩ :=
          ih (h.apply key op) fun rest => unsure ⟨here, rest⟩
        exact ⟨op :: before, other, after, rfl, ⟨here, admitted⟩, fails⟩
      · exact ⟨[], op, ops, rfl, trivial, here⟩

end History

variable {K V : Type} [Inhabited K] [Inhabited V] {hashing : Hashing K} {t : SwissTable K V}

section Places

/-- The home of a live key is not vacant. -/
theorem Sound.home_occupied (sound : Sound hashing t) {k : K} {i : Nat}
    (holds : Holds hashing t k i) : ¬t.Vacant (t.home hashing k) := by
  have sameHome : t.home hashing (t.slotAt i).key = t.home hashing k := by
    unfold home
    rw [hashing.respects _ _ holds.keyEq]
  obtain ⟨steps, small, there, free⟩ := sound.reached i holds.inside holds.live
  rw [sameHome] at there free
  have positive : 0 < t.capacity := by omega
  have atHome := place_zero (sound.home_lt positive k)
  rcases Nat.eq_zero_or_pos steps with rfl | later
  · rw [atHome] at there
    intro vacant
    rw [there] at vacant
    have live := holds.live
    rw [vacant] at live
    cases live
  · have first := free 0 later
    rwa [atHome] at first

/-- A new key gets the first place of its walk that is vacant or deleted. -/
theorem findOrInsertFrom_first (mask : ∀ x, x &&& (t.capacity - 1) = x % t.capacity) (k : K)
    (start p : Nat) : ∀ left steps firstDeleted,
      t.findOrInsertFrom hashing k left (place t.capacity start steps) firstDeleted =
        some (p, true) →
      firstDeleted = some p ∨ firstDeleted = none ∧ ∃ e, steps ≤ e ∧ e < steps + left ∧
        p = place t.capacity start e ∧ ∀ earlier, steps ≤ earlier → earlier < e →
          ¬t.Vacant (place t.capacity start earlier) ∧
            t.ctrlAt (place t.capacity start earlier) ≠ kCtrlDeleted := by
  intro left
  induction left with
  | zero => exact fun _ _ result => nomatch result
  | succ left ih =>
      intro steps firstDeleted result
      rw [findOrInsertFrom, mask, ← place_succ] at result
      by_cases vacant : t.ctrlAt (place t.capacity start steps) = kCtrlEmpty
      · rw [if_pos vacant] at result
        cases firstDeleted with
        | none =>
            cases result
            exact .inr ⟨rfl, steps, le_rfl, by omega, rfl, by omega⟩
        | some q =>
            cases result
            exact .inl rfl
      · rw [if_neg vacant] at result
        by_cases deleted : t.ctrlAt (place t.capacity start steps) = kCtrlDeleted
        · rw [if_pos deleted] at result
          rcases ih _ _ result with taken | ⟨impossible, -⟩
          · cases firstDeleted with
            | none =>
                cases taken
                exact .inr ⟨rfl, steps, le_rfl, by omega, rfl, by omega⟩
            | some q => exact .inl taken
          · cases impossible
        · rw [if_neg deleted] at result
          by_cases holds : t.holdsKey hashing k (place t.capacity start steps) = true
          · rw [if_pos holds] at result
            cases result
          · rw [if_neg holds] at result
            rcases ih _ _ result with taken | ⟨none, e, late, small, there, free⟩
            · exact .inl taken
            · refine .inr ⟨none, e, by omega, by omega, there, fun earlier from' before => ?_⟩
              by_cases here : earlier = steps
              · rw [here]
                exact ⟨vacant, deleted⟩
              · exact free earlier (by omega) before

/-- Where a new key is put, and that nothing in front of it on the walk is vacant or
deleted. -/
structure TakesFirst (hashing : Hashing K) (t : SwissTable K V) (k : K) (i : Nat) : Prop
    extends Takes hashing t k i where
  first : ∃ e < t.capacity, place t.capacity (t.home hashing k) e = i ∧ ∀ earlier < e,
    ¬t.Vacant (place t.capacity (t.home hashing k) earlier) ∧
      t.ctrlAt (place t.capacity (t.home hashing k) earlier) ≠ kCtrlDeleted

theorem Sound.takes_first (sound : Sound hashing t) {k : K} {i : Nat}
    (taken : Takes hashing t k i) (result : t.findOrInsert hashing k =
      some (t.setCtrl i (ctrlForHash (hashing.hash k)), i, true)) :
    TakesFirst hashing t k i := by
  have positive : 0 < t.capacity := by
    have inside := taken.inside
    omega
  obtain ⟨⟨p, isNew⟩, probed, same⟩ := Option.map_eq_some_iff.mp result
  cases isNew with
  | false => simp at same
  | true =>
      obtain rfl : p = i := (Prod.mk.inj (Prod.mk.inj same).2).1
      rw [← place_zero (sound.home_lt positive k)] at probed
      rcases findOrInsertFrom_first (sound.mask positive) k _ _ _ _ _ probed with
        impossible | ⟨-, e, -, small, there, free⟩
      · cases impossible
      · exact ⟨taken, e, by omega, there.symm, fun earlier => free earlier (Nat.zero_le _)⟩

end Places

section Owners

/-- A place that was erased and not taken again. -/
def Deleted (t : SwissTable K V) (i : Nat) : Prop :=
  i < t.capacity ∧ t.ctrlAt i = kCtrlDeleted

/-- Each deleted place belongs to a seen key that is absent, on whose walk it lies. -/
structure Owns (hashing : Hashing K) (t : SwissTable K V) (h : History hashing.Key)
    (owner : Nat → K) : Prop where
  reached : ∀ i, t.Deleted i → Reached t.capacity t.Vacant (t.home hashing (owner i)) i
  seen : ∀ i, t.Deleted i → hashing.key (owner i) ∈ h.seen
  absent : ∀ i, t.Deleted i → hashing.key (owner i) ∉ h.keys
  apart : ∀ i j, t.Deleted i → t.Deleted j →
    hashing.key (owner i) = hashing.key (owner j) → i = j

/-- What the history of a table says of its places. -/
structure Records (hashing : Hashing K) (t : SwissTable K V) (m : hashing.KeyMap V)
    (h : History hashing.Key) : Prop where
  represents : Represents hashing t m
  capacity : h.capacity = t.capacity
  keys : h.keys = m.keys
  subset : h.keys ⊆ h.seen
  owned : ∃ owner, Owns hashing t h owner
  homes : ∀ k, hashing.key k ∈ h.seen → ¬t.Vacant (t.home hashing k)

variable {m : hashing.KeyMap V} {h : History hashing.Key}

theorem Records.mem_iff (records : Records hashing t m h) (k : K) :
    hashing.key k ∈ h.keys ↔ ∃ i, Holds hashing t k i := by
  rw [records.keys, Finmap.mem_keys]
  exact records.represents.mem_iff k

theorem Records.size (records : Records hashing t m h) : t.size = h.keys.card := by
  rw [records.keys]
  exact records.represents.agrees.size

omit [Inhabited K] [Inhabited V] in
theorem tombstones_eq_card (t : SwissTable K V) : t.tombstones =
    ((Finset.range t.capacity).filter fun i => t.ctrlAt i = kCtrlDeleted).card := by
  rw [tombstones, List.countP_eq_length_filter]
  rfl

/-- The live entries and the deleted places are no more than the seen keys. -/
theorem Records.filled_le (records : Records hashing t m h) :
    t.size + t.tombstones ≤ h.seen.card := by
  obtain ⟨owner, owns⟩ := records.owned
  have deleted {i : Nat} (member : i ∈ (Finset.range t.capacity).filter fun i =>
      t.ctrlAt i = kCtrlDeleted) : t.Deleted i := by
    rw [Finset.mem_filter, Finset.mem_range] at member
    exact member
  have few : ((Finset.range t.capacity).filter fun i => t.ctrlAt i = kCtrlDeleted).card ≤
      (h.seen \ h.keys).card := by
    apply Finset.card_le_card_of_injOn fun i => hashing.key (owner i)
    · intro i member
      have here := deleted member
      exact Finset.mem_coe.mpr (Finset.mem_sdiff.mpr ⟨owns.seen i here, owns.absent i here⟩)
    · intro i iMember j jMember same
      exact owns.apart i j (deleted iMember) (deleted jMember) same
  have total := Finset.card_sdiff_add_card_eq_card records.subset
  rw [records.size, tombstones_eq_card]
  omega

/-- Where the history is sure of a place, the table has room. -/
theorem Records.roomFor (records : Records hashing t m h) {k : K}
    (admits : h.Admits (hashing.key k)) : RoomFor hashing t k := by
  have same : h.overloaded = t.overloaded := by
    rw [History.overloaded, overloaded, records.capacity, records.size]
  unfold History.Admits at admits
  unfold RoomFor
  rw [same, records.capacity] at admits
  by_cases loaded : t.overloaded = true
  · rw [if_pos loaded] at admits ⊢
    exact admits
  · rw [if_neg loaded] at admits ⊢
    rcases admits with known | few
    · exact .inl ((records.represents.sound.contains_iff k).mpr ((records.mem_iff k).mp known))
    · exact .inr (Nat.lt_of_le_of_lt records.filled_le few)

end Owners

section Recording

variable {m : hashing.KeyMap V} {h : History hashing.Key}

/-- A table without deleted places records the keys that it has. -/
theorem Represents.records (represents : Represents hashing t m) (none : t.tombstones = 0)
    (capacity : h.capacity = t.capacity) (keys : h.keys = m.keys) (seen : h.seen = h.keys) :
    Records hashing t m h := by
  have undeleted (i : Nat) : ¬t.Deleted i := by
    rintro ⟨inside, deleted⟩
    rw [tombstones, List.countP_eq_zero] at none
    exact none i (List.mem_range.mpr inside) (decide_eq_true deleted)
  refine ⟨represents, capacity, keys, seen.ge, ⟨fun _ => default, ?_⟩, fun k known => ?_⟩
  · exact ⟨fun i deleted => absurd deleted (undeleted i),
      fun i deleted => absurd deleted (undeleted i),
      fun i deleted => absurd deleted (undeleted i),
      fun i _ deleted => absurd deleted (undeleted i)⟩
  · rw [seen, keys, Finmap.mem_keys, represents.mem_iff] at known
    obtain ⟨i, holds⟩ := known
    exact represents.sound.home_occupied holds

theorem records_empty (hashing : Hashing K) :
    Records hashing ({} : SwissTable K V) ∅ {} :=
  (represents_empty hashing).records rfl rfl rfl rfl

/-- A rehash forgets the keys that were erased. -/
theorem Records.rehash (records : Records hashing t m h) {newCap : Nat}
    (power : newCap = 0 ∨ ∃ e < 64, newCap = 2 ^ e) {t' : SwissTable K V}
    (done : t.rehash hashing newCap = some t') : Records hashing t' m (h.rehash newCap) := by
  obtain ⟨-, capacity, -, none⟩ := (records.represents.sound.rehash power).1 t' done
  exact (records.represents.rehash power done).records none capacity.symm records.keys rfl

theorem Records.makeRoom (records : Records hashing t m h) {t' : SwissTable K V}
    (done : t.makeRoom hashing = some t') : Records hashing t' m h.makeRoom := by
  have same : h.overloaded = t.overloaded := by
    rw [History.overloaded, overloaded, records.capacity, records.size]
  unfold SwissTable.makeRoom at done
  unfold History.makeRoom
  rw [same]
  by_cases loaded : t.overloaded = true
  · rw [if_pos loaded] at done ⊢
    have grown : h.grownCapacity = t.grownCapacity := by
      rw [History.grownCapacity, grownCapacity, records.capacity]
    rw [grown]
    exact records.rehash records.represents.sound.grown_power done
  · rw [if_neg loaded] at done ⊢
    cases done
    exact records

theorem Records.clear (records : Records hashing t m h) :
    Records hashing t.clear ∅ { h with keys := ∅, seen := ∅ } := by
  have none : t.clear.tombstones = 0 := by
    apply tombstones_eq_zero
    intro i deleted
    unfold SwissTable.clear at deleted
    by_cases empty : t.capacity = 0
    · rw [if_pos empty] at deleted
      have length := records.represents.sound.ctrl_length
      rw [empty, List.length_eq_zero_iff] at length
      rw [ctrlAt, length] at deleted
      cases deleted
    · rw [if_neg empty] at deleted
      have vacant := ctrlAt_fresh (K := K) (V := V) t.capacity i
      rw [show ctrlAt { t with ctrl := List.replicate t.capacity kCtrlEmpty, size := 0 } i =
        kCtrlEmpty from vacant] at deleted
      cases deleted
  refine records.represents.clear.records none ?_ rfl rfl
  rw [records.capacity, SwissTable.clear]
  split <;> rfl

omit [Inhabited K] [Inhabited V] in
/-- Equal keys have one home. -/
theorem home_congr (t : SwissTable K V) {a b : K} (same : hashing.key a = hashing.key b) :
    t.home hashing a = t.home hashing b := by
  unfold home
  rw [hashing.respects _ _ ((hashing.key_eq_iff _ _).mp same)]

/-- A known key keeps its place. -/
theorem Records.replace (records : Records hashing t m h) {k : K} {i : Nat}
    (holds : Holds hashing t k i) (v : V) :
    Records hashing (t.setSlot i { t.slotAt i with val := v }) (m.insert (hashing.key k) v)
      (h.see (hashing.key k)) := by
  have known := (records.mem_iff k).mpr ⟨i, holds⟩
  have unchanged : h.see (hashing.key k) = h := by
    rw [History.see, Finset.insert_eq_of_mem known,
      Finset.insert_eq_of_mem (records.subset known)]
  rw [unchanged]
  obtain ⟨owner, owns⟩ := records.owned
  refine ⟨records.represents.replace holds v, records.capacity, ?_, records.subset,
    ⟨owner, owns.reached, owns.seen, owns.absent, owns.apart⟩, records.homes⟩
  ext other
  rw [Finmap.mem_keys, Finmap.mem_insert, ← Finmap.mem_keys, ← records.keys]
  refine ⟨.inr, ?_⟩
  rintro (rfl | member)
  · exact known
  · exact member

/-- An erased key owns the place that it leaves. -/
theorem Records.bury (records : Records hashing t m h) {k : K} {i : Nat}
    (holds : Holds hashing t k i) :
    Records hashing (t.bury i) (m.erase (hashing.key k))
      { h with keys := h.keys.erase (hashing.key k) } := by
  have sound := records.represents.sound
  have known := (records.mem_iff k).mpr ⟨i, holds⟩
  have older {j : Nat} (other : j ≠ i) : (t.bury i).Deleted j ↔ t.Deleted j := by
    change j < t.capacity ∧ (t.bury i).ctrlAt j = kCtrlDeleted ↔ _
    rw [sound.ctrlAt_bury holds, if_neg other]
    rfl
  have stops (p : Nat) (vacant : (t.bury i).Vacant p) : t.Vacant p := by
    rw [Vacant, sound.ctrlAt_bury holds] at vacant
    by_cases same : p = i
    · rw [if_pos same] at vacant
      cases vacant
    · rwa [if_neg same] at vacant
  obtain ⟨owner, owns⟩ := records.owned
  have apartFrom {j : Nat} (deleted : t.Deleted j) :
      hashing.key (owner j) ≠ hashing.key k := by
    intro same
    exact owns.absent j deleted (same ▸ known)
  -- the buried place belongs to the key that is erased
  have belongs {j : Nat} (deleted : (t.bury i).Deleted j) :
      Reached t.capacity t.Vacant (t.home hashing (Function.update owner i k j)) j ∧
        hashing.key (Function.update owner i k j) ∈ h.seen ∧
          hashing.key (Function.update owner i k j) ∉ h.keys.erase (hashing.key k) := by
    by_cases here : j = i
    · subst here
      have reached := sound.reached j holds.inside holds.live
      rw [home_congr t ((hashing.key_eq_iff _ _).mpr holds.keyEq)] at reached
      rw [Function.update_self]
      exact ⟨reached, records.subset known, Finset.notMem_erase _ _⟩
    · have before := (older here).mp deleted
      rw [Function.update_of_ne here]
      exact ⟨owns.reached j before, owns.seen j before,
        fun member => owns.absent j before (Finset.mem_of_mem_erase member)⟩
  refine ⟨records.represents.bury holds, records.capacity, ?_, ?_,
    ⟨Function.update owner i k, ?_⟩, ?_⟩
  · rw [Finmap.keys_erase, records.keys]
  · exact (Finset.erase_subset _ _).trans records.subset
  · constructor
    case reached => exact fun j deleted => (belongs deleted).1.mono fun p _ => stops p
    case seen => exact fun j deleted => (belongs deleted).2.1
    case absent => exact fun j deleted => (belongs deleted).2.2
    case apart =>
      intro j l jDeleted lDeleted same
      by_cases jHere : j = i <;> by_cases lHere : l = i
      · rw [jHere, lHere]
      · rw [jHere, Function.update_self, Function.update_of_ne lHere] at same
        exact absurd same.symm (apartFrom ((older lHere).mp lDeleted))
      · rw [lHere, Function.update_self, Function.update_of_ne jHere] at same
        exact absurd same (apartFrom ((older jHere).mp jDeleted))
      · rw [Function.update_of_ne jHere, Function.update_of_ne lHere] at same
        exact owns.apart j l ((older jHere).mp jDeleted) ((older lHere).mp lDeleted) same
  · exact fun other member vacant => records.homes other member (stops _ vacant)

theorem Records.erase (records : Records hashing t m h) (k : K) :
    Records hashing (t.erase hashing k) (m.erase (hashing.key k))
      { h with keys := h.keys.erase (hashing.key k) } := by
  have sound := records.represents.sound
  unfold SwissTable.erase
  cases search : t.find hashing k with
  | none =>
      have absent : hashing.key k ∉ h.keys := by
        rw [records.mem_iff]
        rintro ⟨i, holds⟩
        exact sound.absent_of_find_none search i holds
      have gone : hashing.key k ∉ m := by
        rwa [records.keys, Finmap.mem_keys] at absent
      rw [erase_of_notMem gone, Finset.erase_eq_of_notMem absent]
      exact records
  | some i => exact records.bury ((sound.find_eq_some_iff k i).mp search)

section Put

variable {k : K} {i : Nat}

theorem Sound.vacant_put (sound : Sound hashing t) (inside : i < t.capacity) {s : Slot K V}
    {p : Nat} (vacant : (SwissTable.put hashing t i s).Vacant p) : t.Vacant p := by
  rw [Vacant, sound.ctrlAt_put inside] at vacant
  by_cases same : p = i
  · rw [if_pos same] at vacant
    exact absurd vacant (ctrlForHash_ne_empty _)
  · rwa [if_neg same] at vacant

theorem Sound.deleted_put (sound : Sound hashing t) (inside : i < t.capacity) {s : Slot K V}
    {j : Nat} (deleted : (SwissTable.put hashing t i s).Deleted j) : t.Deleted j ∧ j ≠ i := by
  obtain ⟨jInside, marked⟩ := deleted
  rw [sound.ctrlAt_put inside] at marked
  by_cases same : j = i
  · rw [if_pos same] at marked
    exact absurd marked (ctrlForHash_ne_deleted _)
  · rw [if_neg same] at marked
    exact ⟨⟨jInside, marked⟩, same⟩

/-- A deleted place that an absent key owns is the place that the key takes, or lies behind
it on a walk over deleted places. -/
theorem Sound.taken_before (sound : Sound hashing t) (taken : TakesFirst hashing t k i)
    {owner : Nat → K} (owns : Owns hashing t h owner) {j : Nat} (deleted : t.Deleted j)
    (same : hashing.key (owner j) = hashing.key k) :
    j = i ∨ t.Deleted i ∧ Reached t.capacity t.Vacant i j := by
  obtain ⟨s, small, there, free⟩ := owns.reached j deleted
  rw [home_congr t same] at there free
  obtain ⟨e, eSmall, atTaken, first⟩ := taken.first
  rcases Nat.lt_trichotomy e s with sooner | rfl | later
  · right
    have passed := free e sooner
    rw [atTaken] at passed
    have marked : t.ctrlAt i = kCtrlDeleted := by
      rcases sound.kind taken.inside with vacant | deleted | live
      · exact absurd vacant passed
      · exact deleted
      · rw [taken.dead] at live
        cases live
    refine ⟨⟨taken.inside, marked⟩, ?_⟩
    have rest := Reached.rest sooner.le small free
    rwa [atTaken, there] at rest
  · exact .inl (there.symm.trans atTaken)
  · have between := (first s later).2
    rw [there] at between
    exact absurd deleted.2 between

/-- The deleted places that are left still belong to absent keys: what the new key owned
goes to the owner of the place that it took. -/
theorem Owns.put (sound : Sound hashing t) (taken : TakesFirst hashing t k i)
    {owner : Nat → K} (owns : Owns hashing t h owner) (v : V) :
    ∃ owner', Owns hashing (SwissTable.put hashing t i ⟨k, v⟩) (h.see (hashing.key k))
      owner' := by
  have fewer {home j : Nat} (reached : Reached t.capacity t.Vacant home j) :
      Reached t.capacity (SwissTable.put hashing t i ⟨k, v⟩).Vacant home j :=
    reached.mono fun p _ => sound.vacant_put taken.inside
  have older {j : Nat} (deleted : (SwissTable.put hashing t i ⟨k, v⟩).Deleted j) :=
    sound.deleted_put taken.inside deleted
  have absent {owner' : K} (out : hashing.key owner' ∉ h.keys)
      (other : hashing.key owner' ≠ hashing.key k) :
      hashing.key owner' ∉ (h.see (hashing.key k)).keys := by
    intro member
    rcases Finset.mem_insert.mp member with same | old
    · exact other same
    · exact out old
  by_cases owned : ∃ j, t.Deleted j ∧ j ≠ i ∧ hashing.key (owner j) = hashing.key k
  · obtain ⟨j, deleted, apart, same⟩ := owned
    obtain ⟨iDeleted, behind⟩ := (sound.taken_before taken owns deleted same).resolve_left apart
    have unlike {l : Nat} (lDeleted : t.Deleted l) (other : l ≠ j) :
        hashing.key (owner l) ≠ hashing.key k :=
      fun alike => other (owns.apart l j lDeleted deleted (alike.trans same.symm))
    -- the place of the key is left to the owner of the place that was taken
    have belongs {l : Nat} (now : (SwissTable.put hashing t i ⟨k, v⟩).Deleted l) :
        Reached t.capacity (SwissTable.put hashing t i ⟨k, v⟩).Vacant
            (t.home hashing (Function.update owner j (owner i) l)) l ∧
          hashing.key (Function.update owner j (owner i) l) ∈ (h.see (hashing.key k)).seen ∧
            hashing.key (Function.update owner j (owner i) l) ∉
              (h.see (hashing.key k)).keys := by
      obtain ⟨before, -⟩ := older now
      by_cases here : l = j
      · subst here
        rw [Function.update_self]
        exact ⟨fewer ((owns.reached i iDeleted).trans behind),
          Finset.mem_insert_of_mem (owns.seen i iDeleted),
          absent (owns.absent i iDeleted) (unlike iDeleted apart.symm)⟩
      · rw [Function.update_of_ne here]
        exact ⟨fewer (owns.reached l before), Finset.mem_insert_of_mem (owns.seen l before),
          absent (owns.absent l before) (unlike before here)⟩
    refine ⟨Function.update owner j (owner i), ?_⟩
    constructor
    case reached => exact fun l now => (belongs now).1
    case seen => exact fun l now => (belongs now).2.1
    case absent => exact fun l now => (belongs now).2.2
    case apart =>
      intro l r lNow rNow alike
      obtain ⟨lBefore, lOther⟩ := older lNow
      obtain ⟨rBefore, rOther⟩ := older rNow
      by_cases lHere : l = j <;> by_cases rHere : r = j
      · rw [lHere, rHere]
      · rw [lHere, Function.update_self, Function.update_of_ne rHere] at alike
        exact absurd (owns.apart i r iDeleted rBefore alike).symm rOther
      · rw [rHere, Function.update_self, Function.update_of_ne lHere] at alike
        exact absurd (owns.apart l i lBefore iDeleted alike) lOther
      · rw [Function.update_of_ne lHere, Function.update_of_ne rHere] at alike
        exact owns.apart l r lBefore rBefore alike
  · have unlike {l : Nat} (deleted : t.Deleted l) (other : l ≠ i) :
        hashing.key (owner l) ≠ hashing.key k :=
      fun same => owned ⟨l, deleted, other, same⟩
    refine ⟨owner, ?_⟩
    constructor
    case reached => exact fun l now => fewer (owns.reached l (older now).1)
    case seen => exact fun l now => Finset.mem_insert_of_mem (owns.seen l (older now).1)
    case absent =>
      intro l now
      obtain ⟨before, other⟩ := older now
      exact absent (owns.absent l before) (unlike before other)
    case apart => exact fun l r lNow rNow => owns.apart l r (older lNow).1 (older rNow).1

/-- A new key is put where it first can be. -/
theorem Records.put (records : Records hashing t m h) (taken : TakesFirst hashing t k i)
    (v : V) : Records hashing (SwissTable.put hashing t i ⟨k, v⟩)
      (m.insert (hashing.key k) v) (h.see (hashing.key k)) := by
  have sound := records.represents.sound
  obtain ⟨owner, owns⟩ := records.owned
  refine ⟨records.represents.put (s := ⟨k, v⟩) taken.toTakes, records.capacity, ?_, ?_,
    owns.put sound taken v, ?_⟩
  · ext other
    rw [Finmap.mem_keys, Finmap.mem_insert, ← Finmap.mem_keys, ← records.keys]
    exact Finset.mem_insert
  · exact Finset.insert_subset_insert _ records.subset
  · intro other member
    rcases Finset.mem_insert.mp member with same | old
    · have after := sound.put_taken (s := ⟨k, v⟩) taken.toTakes
      refine after.home_occupied (k := other) (i := i) ⟨taken.inside, ?_, ?_⟩
      · rw [sound.ctrlAt_put taken.inside, if_pos rfl]
        exact isLive_ctrlForHash _
      · rw [sound.slotAt_put taken.inside, if_pos rfl]
        exact (hashing.key_eq_iff _ _).mp same.symm
    · exact fun vacant => records.homes other old (sound.vacant_put taken.inside vacant)

end Put

/-- An insertion adds to the history. -/
theorem Records.emplace (records : Records hashing t m h) (k : K) (v : V)
    {t' : SwissTable K V} {pos : Nat} {isNew : Bool}
    (done : t.emplace hashing k v = some (t', pos, isNew)) :
    Records hashing t' (m.insert (hashing.key k) v) (h.makeRoom.see (hashing.key k)) := by
  unfold SwissTable.emplace at done
  cases room : t.makeRoom hashing with
  | none =>
      rw [room] at done
      cases done
  | some roomy =>
      have before := records.makeRoom room
      rw [room] at done
      rcases before.represents.sound.findOrInsert_cases k with ⟨result, -⟩ |
        ⟨i, result, holds⟩ | ⟨i, result, taken, -⟩
      · simp [result] at done
      · simp only [Option.bind_eq_bind, Option.bind_some, result] at done
        cases done
        exact before.replace holds v
      · simp only [Option.bind_eq_bind, Option.bind_some, result] at done
        cases done
        exact before.put (before.represents.sound.takes_first taken result) v

theorem Records.reserve (records : Records hashing t m h) (n : Nat) {t' : SwissTable K V}
    (done : t.reserve hashing n = some t') : Records hashing t' m (h.reserve n) := by
  unfold SwissTable.reserve at done
  unfold History.reserve
  rw [records.capacity]
  by_cases larger : t.capacity < max 16 (bitCeil ((n * 8 + 6) % 2 ^ 64 / 7))
  · rw [if_pos larger] at done ⊢
    exact records.rehash (.inr (reserve_power n)) done
  · rw [if_neg larger] at done ⊢
    cases done
    exact records

/-- One operation adds to the history what it does. -/
theorem Records.step (records : Records hashing t m h) (op : TableOp K V)
    {t' : SwissTable K V} (done : t.step hashing op = some t') :
    Records hashing t' (hashing.apply m op) (h.apply hashing.key op) := by
  cases op with
  | emplace k v =>
      obtain ⟨⟨after, pos, isNew⟩, inserted, rfl⟩ := Option.map_eq_some_iff.mp done
      exact records.emplace k v inserted
  | insert k v =>
      obtain ⟨⟨after, isNew⟩, inserted, rfl⟩ := Option.map_eq_some_iff.mp done
      obtain ⟨⟨after, pos, isNew⟩, emplaced, same⟩ := Option.map_eq_some_iff.mp inserted
      cases same
      exact records.emplace k v emplaced
  | erase k =>
      cases done
      exact records.erase k
  | clear =>
      cases done
      exact records.clear
  | reserve n => exact records.reserve n done

end Recording

section Runs

variable {m : hashing.KeyMap V} {h : History hashing.Key}

theorem Records.roomy (records : Records hashing t m h) {op : TableOp K V}
    (admits : h.AdmitsOp hashing.key op) : Roomy hashing t op := by
  cases op with
  | emplace k v => exact records.roomFor admits
  | insert k v => exact records.roomFor admits
  | erase k => trivial
  | clear => trivial
  | reserve n => trivial

/-- A sequence whose insertions are sure of a place ends, and its history is recorded. -/
theorem Records.run (records : Records hashing t m h) (ops : List (TableOp K V))
    (admits : h.AdmitsAll hashing.key ops) : ∃ t' m', t.run hashing ops = some t' ∧
      Records hashing t' m' (ops.foldl (History.apply hashing.key) h) := by
  induction ops generalizing t m h with
  | nil => exact ⟨t, m, rfl, records⟩
  | cons op ops ih =>
      have ends := (records.represents.sound.step_isSome_iff op).mpr (records.roomy admits.1)
      obtain ⟨next, done⟩ := Option.isSome_iff_exists.mp ends
      obtain ⟨t', m', ran, after⟩ := ih (records.step op done) admits.2
      refine ⟨t', m', ?_, after⟩
      unfold SwissTable.run at ran ⊢
      rw [List.foldlM_cons, done]
      exact ran

/-- An insertion that is not sure of a place finds none when the homes of the seen keys are
all the places. -/
theorem Records.not_roomFor (records : Records hashing t m h) {k : K}
    (unsure : ¬h.Admits (hashing.key k))
    (everywhere : h.capacity ≤ h.seen.card → ∀ i < t.capacity, ∃ other,
      hashing.key other ∈ h.seen ∧ t.home hashing other = i) : ¬RoomFor hashing t k := by
  have sound := records.represents.sound
  have same : h.overloaded = t.overloaded := by
    rw [History.overloaded, overloaded, records.capacity, records.size]
  unfold History.Admits at unsure
  unfold RoomFor
  rw [same] at unsure
  by_cases loaded : t.overloaded = true
  · rw [if_pos loaded, records.capacity] at unsure
    rw [if_pos loaded]
    exact unsure
  · rw [if_neg loaded, not_or, Nat.not_lt] at unsure
    rw [if_neg loaded, ← sound.exists_vacant_iff, sound.contains_iff, ← records.mem_iff, not_or]
    refine ⟨unsure.1, ?_⟩
    rintro ⟨i, inside, vacant⟩
    obtain ⟨other, seen, rfl⟩ := everywhere unsure.2 i inside
    exact records.homes other seen vacant

end Runs

/-- The place of a key among the seen ones. -/
noncomputable def adverseHash (hashing : Hashing K) (seen : Finset hashing.Key) (k : K) :
    UInt64 := UInt64.ofNat (seen.toList.idxOf (hashing.key k))

omit [Inhabited K] in
theorem adverseHash_respects (hashing : Hashing K) (seen : Finset hashing.Key) (a b : K)
    (same : hashing.keyEq a b = true) :
    adverseHash hashing seen a = adverseHash hashing seen b := by
  rw [adverseHash, (hashing.key_eq_iff a b).mpr same]
  rfl

/-- With the places among the seen keys as hashes, every place is the home of a seen key. -/
theorem exists_home_of_adverse (sound : Sound hashing t) {seen : Finset hashing.Key}
    (adverse : hashing.hash = adverseHash hashing seen) {i : Nat} (inside : i < t.capacity)
    (many : t.capacity ≤ seen.card) : ∃ other, hashing.key other ∈ seen ∧
      t.home hashing other = i := by
  have listed : i < seen.toList.length := by
    rw [Finset.length_toList]
    omega
  obtain ⟨other, isOther⟩ := Quotient.exists_rep (seen.toList.get ⟨i, listed⟩)
  have key : hashing.key other = seen.toList[i] := isOther
  have index : seen.toList.idxOf (hashing.key other) = i := by
    rw [key]
    exact (Finset.nodup_toList seen).idxOf_getElem i listed
  refine ⟨other, ?_, ?_⟩
  · rw [key, ← Finset.mem_toList]
    exact List.getElem_mem listed
  · have small : i < 2 ^ 64 := by
      rcases sound.power with none | ⟨e, bound, power⟩
      · omega
      · have atMost : t.capacity < 2 ^ 64 := by
          rw [power]
          exact Nat.pow_lt_pow_right (by decide) bound
        omega
    unfold home
    rw [sound.mask (by omega), adverse, adverseHash, index, UInt64.toNat_ofNat_of_lt' small,
      Nat.mod_eq_of_lt inside]

/-- The same keys with another hash function. -/
abbrev withHash (hashing : Hashing K) (hash : K → UInt64)
    (respects : ∀ a b, hashing.keyEq a b = true → hash a = hash b) : Hashing K :=
  { hashing with hash, respects }

/-- No insertion of a sequence exhausts its probe loop, for any hash function of the keys,
exactly when each insertion that does not grow the table is one of a known key, or comes
before as many different keys as there are places have been in the table since its last
rehash or clear. -/
theorem run_isSome_iff (hashing : Hashing K) (ops : List (TableOp K V)) :
    (∀ hash respects, (run (withHash hashing hash respects)
      ({} : SwissTable K V) ops).isSome = true) ↔
        History.AdmitsAll hashing.key {} ops := by
  constructor
  · intro ends
    by_contra unsure
    obtain ⟨before, op, after, rfl, admitted, fails⟩ :=
      History.exists_first_not_admitted _ _ _ unsure
    let last := before.foldl (History.apply hashing.key) {}
    let adverse := withHash hashing (adverseHash hashing last.seen)
      (adverseHash_respects hashing last.seen)
    obtain ⟨t, m, ran, records⟩ := (records_empty adverse).run before admitted
    have stuck : ¬(t.step adverse op).isSome = true := by
      rw [records.represents.sound.step_isSome_iff]
      have full : last.capacity ≤ last.seen.card → ∀ i < t.capacity, ∃ other,
          adverse.key other ∈ last.seen ∧ t.home adverse other = i := by
        intro many i inside
        exact exists_home_of_adverse records.represents.sound rfl inside
          (records.capacity ▸ many)
      cases op with
      | emplace k v => exact records.not_roomFor fails full
      | insert k v => exact records.not_roomFor fails full
      | erase k => exact absurd trivial fails
      | clear => exact absurd trivial fails
      | reserve n => exact absurd trivial fails
    have finished := ends _ (adverseHash_respects hashing last.seen)
    unfold SwissTable.run at finished ran
    rw [List.foldlM_append, ran] at finished
    simp only [Option.bind_eq_bind, Option.bind_some, List.foldlM_cons] at finished
    rw [Option.not_isSome_iff_eq_none] at stuck
    rw [show step adverse t op = none from stuck] at finished
    cases finished
  · intro admits hash respects
    obtain ⟨t, -, ran, -⟩ := (records_empty (withHash hashing hash respects)).run ops admits
    rw [ran]
    rfl

/-- Insert and erase as many keys as there are places, and insert another one. -/
def churn : List (TableOp Nat Nat) :=
  ((List.range 16).flatMap fun k => [.insert k k, .erase k]) ++ [.insert 16 0]

/-- One live entry at a time fills a table with deleted places. -/
theorem run_exhausted : run lowBits {} churn = none := by
  decide

end SwissTable

end Aegis
