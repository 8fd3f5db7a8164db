import AegisCompiler.ByteRecords
import AegisCompiler.FirstOccurrences
import AegisCompiler.NodeKind
import AegisCompiler.SwissTableGrowth
import Mathlib.Algebra.Group.Nat.Defs
import Mathlib.Data.Finset.Card

/-!
# The symbol table

The table stores the bytes of every string once, and an id is the place of a stored string.
A hash table finds the id of a string.  Its keys are views of the stored strings, which are
in a deque and never move.

The stored strings are the first occurrences of the strings of all calls.  Ids have 32 bits
and one of them names nothing, so interning is a bijection for fewer than `2 ^ 32` different
strings and for no more.
-/

namespace Aegis

/-- The hash table compares strings byte by byte, and hashes them by any function. -/
def stringHashing (hash : List UInt8 → UInt64) : Hashing (List UInt8) where
  hash := hash
  keyEq a b := decide (a = b)
  equivalence := by simpa using eq_equivalence
  respects a b same := by rw [of_decide_eq_true same]

/-- The stored strings, and the map from strings to ids. -/
structure SymbolTable where
  entries : List (List UInt8) := []
  map : SwissTable (List UInt8) SymbolId := {}
  deriving Repr

namespace SymbolTable

open ByteRecords (putWord getWord length_putWord faithful_word)
open FirstOccurrences

section Definitions

variable (hash : List UInt8 → UInt64)

def find (t : SymbolTable) (s : List UInt8) : SymbolId :=
  (t.map.get (stringHashing hash) s).getD kInvalidSymbolId

/-- The string of an id, which is empty for an id that was never returned. -/
def atId (t : SymbolTable) (id : SymbolId) : List UInt8 := t.entries.getD id.toNat []

/-- The id of a string, which is stored when it is new.  There is no result when the
insertion into the hash table exhausts its probe loop. -/
def intern (t : SymbolTable) (s : List UInt8) : Option (SymbolTable × SymbolId) :=
  if t.find hash s ≠ kInvalidSymbolId then some (t, t.find hash s)
  else
    let newId : SymbolId := BitVec.ofNat 32 t.entries.length
    (t.map.insert (stringHashing hash) s newId).map fun (map, _) =>
      ({ entries := t.entries ++ [s], map := map }, newId)

/-- A new table has the empty string. -/
def create : Option SymbolTable :=
  (({} : SymbolTable).intern hash []).map Prod.fst

/-- A sequence of calls, and the ids that they return. -/
def internAll : List (List UInt8) → SymbolTable → Option (SymbolTable × List SymbolId)
  | [], t => some (t, [])
  | s :: calls, t => do
      let (t, id) ← t.intern hash s
      let (t, ids) ← internAll calls t
      return (t, id :: ids)

/-- What the ids of a sequence of calls on a new table are to be. -/
structure Interned (calls : List (List UInt8)) (t : SymbolTable) (ids : List SymbolId) :
    Prop where
  answered : ids.length = calls.length
  same_iff : ∀ (i j : Nat) (s u : List UInt8), calls[i]? = some s → calls[j]? = some u →
    (ids[i]? = ids[j]? ↔ s = u)
  resolves : ∀ (i : Nat) (s : List UInt8) (id : SymbolId), calls[i]? = some s → ids[i]? = some id →
    t.atId id = s ∧ t.find hash s = id
  find_iff : ∀ s, t.find hash s ≠ kInvalidSymbolId ↔ s ∈ [] :: calls
  dense : ∀ n, n < t.entries.length ↔ ∃ s ∈ [] :: calls, (t.find hash s).toNat = n
  empty : t.find hash [] = 0 ∧ t.atId 0 = []
  once : t.entries.length = ([] :: calls).toFinset.card
  unerased : t.map.tombstones = 0

/-- Interning is a bijection throughout a sequence of calls: no call exhausts a probe loop,
and the ids that were returned at any moment are right then and at the end. -/
def Bijection (calls : List (List UInt8)) : Prop :=
  ∀ earlier later, earlier ++ later = calls → ∃ before ids after more,
    (create hash).bind (internAll hash earlier) = some (before, ids) ∧
      internAll hash later before = some (after, more) ∧
      Interned hash earlier before ids ∧ Interned hash calls after (ids ++ more)

end Definitions

variable {hash : List UInt8 → UInt64} {t : SymbolTable}

section Ids

/-- The id of a place. -/
def idOf (entered : List (List UInt8)) (s : List UInt8) : SymbolId :=
  BitVec.ofNat 32 (position entered s)

variable {entered : List (List UInt8)} {s u : List UInt8}

theorem toNat_idOf (few : entered.length < 2 ^ 32) (present : s ∈ entered) :
    (idOf entered s).toNat = position entered s := by
  have small := position_lt present
  rw [idOf, BitVec.toNat_ofNat]
  exact Nat.mod_eq_of_lt (by omega)

theorem idOf_inj (few : entered.length < 2 ^ 32) (first : s ∈ entered) (second : u ∈ entered) :
    idOf entered s = idOf entered u ↔ s = u := by
  rw [← BitVec.toNat_inj, toNat_idOf few first, toNat_idOf few second, position_inj first]

theorem toNat_kInvalidSymbolId : kInvalidSymbolId.toNat = 2 ^ 32 - 1 :=
  BitVec.toNat_allOnes

/-- A string that is stored keeps its id. -/
theorem idOf_kept {later : List (List UInt8)} (kept : entered <+: later)
    (present : s ∈ entered) : idOf later s = idOf entered s := by
  rw [idOf, idOf, position_kept kept present]

/-- No place has the id that names nothing. -/
theorem idOf_ne_invalid (few : entered.length < 2 ^ 32) (present : s ∈ entered) :
    idOf entered s ≠ kInvalidSymbolId := by
  intro same
  have small := position_lt present
  have place := congrArg BitVec.toNat same
  rw [toNat_idOf few present, toNat_kInvalidSymbolId] at place
  omega

end Ids

/-- The table has stored a list of strings, and the map leads from them to their places. -/
structure Stores (hash : List UInt8 → UInt64) (t : SymbolTable) (entered : List (List UInt8)) :
    Prop where
  entries : t.entries = entered
  nodup : entered.Nodup
  map : ∃ m, SwissTable.Represents (stringHashing hash) t.map m ∧
    ∀ s, m.lookup ((stringHashing hash).key s) =
      if s ∈ entered then some (idOf entered s) else none
  unerased : t.map.Unerased
  size : t.map.size = entered.length

theorem stores_nothing (hash : List UInt8 → UInt64) : Stores hash {} [] where
  entries := rfl
  nodup := List.nodup_nil
  map := ⟨∅, SwissTable.represents_empty _, fun _ => rfl⟩
  unerased := SwissTable.unerased_empty
  size := rfl

variable {entered : List (List UInt8)}

theorem Stores.find_eq (stores : Stores hash t entered) (s : List UInt8) :
    t.find hash s = if s ∈ entered then idOf entered s else kInvalidSymbolId := by
  obtain ⟨m, represents, lookup⟩ := stores.map
  unfold find
  rw [represents.agrees.get, lookup]
  by_cases present : s ∈ entered
  · rw [if_pos present, if_pos present, Option.getD_some]
  · rw [if_neg present, if_neg present, Option.getD_none]

theorem Stores.find_ne_invalid_iff (stores : Stores hash t entered)
    (few : entered.length < 2 ^ 32) (s : List UInt8) :
    t.find hash s ≠ kInvalidSymbolId ↔ s ∈ entered := by
  rw [stores.find_eq]
  by_cases present : s ∈ entered
  · rw [if_pos present]
    exact ⟨fun _ => present, fun _ => idOf_ne_invalid few present⟩
  · rw [if_neg present]
    exact ⟨fun different => absurd rfl different, fun impossible => absurd impossible present⟩

theorem Stores.atId_idOf (stores : Stores hash t entered) (few : entered.length < 2 ^ 32)
    {s : List UInt8} (present : s ∈ entered) : t.atId (idOf entered s) = s := by
  unfold atId
  rw [stores.entries, toNat_idOf few present, List.getD_eq_getElem?_getD,
    getElem?_position present, Option.getD_some]

section Steps

/-- Entering a string changes no other place. -/
theorem lookup_enter {s u : List UInt8} (other : u ≠ s) :
    (if u ∈ enter entered s then some (idOf (enter entered s) u) else none) =
      if u ∈ entered then some (idOf entered u) else none := by
  by_cases present : u ∈ entered
  · rw [if_pos present, if_pos (mem_enter.mpr (.inl present)),
      idOf_kept (prefix_enter entered s) present]
  · rw [if_neg present, if_neg]
    intro entering
    rcases mem_enter.mp entering with there | same
    · exact present there
    · exact other same

/-- A call enters its string, and returns the id of its place. -/
theorem Stores.intern (stores : Stores hash t entered) (s : List UInt8)
    (few : (enter entered s).length < 2 ^ 32) :
    ∃ t', t.intern hash s = some (t', idOf (enter entered s) s) ∧
      Stores hash t' (enter entered s) := by
  have fewer : entered.length < 2 ^ 32 :=
    (prefix_enter entered s).length_le.trans_lt few
  have known := stores.find_ne_invalid_iff fewer s
  unfold SymbolTable.intern
  by_cases present : s ∈ entered
  · rw [if_pos (known.mpr present), enter_of_mem present, stores.find_eq, if_pos present]
    exact ⟨t, rfl, stores⟩
  · rw [if_neg (mt known.mp present)]
    obtain ⟨m, represents, lookup⟩ := stores.map
    have absent : (stringHashing hash).key s ∉ m := by
      rw [← Finmap.lookup_eq_none, lookup, if_neg present]
    have small : t.map.size + 1 < 2 ^ 60 := by
      rw [stores.size]
      omega
    have newId : BitVec.ofNat 32 t.entries.length = idOf (enter entered s) s := by
      rw [idOf, position_enter_of_notMem present, stores.entries]
    obtain ⟨map, inserted, after, unerased, size⟩ := represents.insert_unerased
      stores.unerased small (BitVec.ofNat 32 t.entries.length) absent
    refine ⟨{ entries := t.entries ++ [s], map := map }, ?_, ?_⟩
    · rw [← newId]
      simp only [inserted, Option.map_some]
    · constructor
      case entries => rw [stores.entries, enter_of_notMem present]
      case nodup => exact nodup_enter stores.nodup s
      case map =>
        refine ⟨_, after, ?_⟩
        intro u
        by_cases same : u = s
        · rw [same, Finmap.lookup_insert, if_pos (mem_enter.mpr (.inr rfl)), newId]
        · have differ : (stringHashing hash).key u ≠ (stringHashing hash).key s := by
            rw [Ne, Hashing.key_eq_iff]
            simpa [stringHashing] using same
          rw [Finmap.lookup_insert_of_ne _ differ, lookup, lookup_enter same]
      case unerased => exact unerased
      case size => rw [size, stores.size, enter_of_notMem present, List.length_append,
        List.length_singleton]

/-- A sequence of calls enters its strings, and returns the ids of their places. -/
theorem Stores.internAll (stores : Stores hash t entered) (calls : List (List UInt8))
    (few : (enterAll entered calls).length < 2 ^ 32) :
    ∃ t', internAll hash calls t = some (t', calls.map (idOf (enterAll entered calls))) ∧
      Stores hash t' (enterAll entered calls) := by
  induction calls generalizing t entered with
  | nil => exact ⟨t, rfl, stores⟩
  | cons s calls ih =>
      have kept : enter entered s <+: enterAll entered (s :: calls) :=
        prefix_enterAll (enter entered s) calls
      obtain ⟨next, first, middle⟩ := stores.intern s (kept.length_le.trans_lt few)
      obtain ⟨t', rest, after⟩ := ih middle few
      have same := idOf_kept kept (mem_enter.mpr (.inr rfl))
      refine ⟨t', ?_, after⟩
      simp only [SymbolTable.internAll, first, Option.bind_eq_bind, Option.bind_some, rest,
        List.map_cons, same]
      rfl

/-- A new table has stored the empty string. -/
theorem create_stores (hash : List UInt8 → UInt64) :
    ∃ t, create hash = some t ∧ Stores hash t (enterAll [] [[]]) := by
  obtain ⟨t, created, stores⟩ := (stores_nothing hash).intern [] (by decide)
  exact ⟨t, by rw [create, created]; rfl, stores⟩

end Steps

section Property

/-- The ids of the places are right. -/
theorem Stores.interned {calls : List (List UInt8)}
    (stores : Stores hash t (enterAll [] ([] :: calls)))
    (few : (enterAll [] ([] :: calls)).length < 2 ^ 32) :
    Interned hash calls t (calls.map (idOf (enterAll [] ([] :: calls)))) := by
  have listed : ∀ s, s ∈ enterAll [] ([] :: calls) ↔ s ∈ [] :: calls := by
    intro s
    rw [mem_enterAll]
    simp
  have called : ∀ (i : Nat) (s : List UInt8), calls[i]? = some s →
      s ∈ enterAll [] ([] :: calls) :=
    fun i s call => (listed s).mpr (List.mem_cons_of_mem _ (List.mem_of_getElem? call))
  have noBytes : [] ∈ enterAll [] ([] :: calls) := (listed []).mpr List.mem_cons_self
  have found : ∀ s ∈ enterAll [] ([] :: calls),
      t.find hash s = idOf (enterAll [] ([] :: calls)) s := by
    intro s present
    rw [stores.find_eq, if_pos present]
  have emptyFirst : idOf (enterAll [] ([] :: calls)) [] = 0 := by
    have kept : [[]] <+: enterAll [] ([] :: calls) := prefix_enterAll [[]] calls
    exact idOf_kept kept List.mem_cons_self
  constructor
  case answered => exact List.length_map _
  case same_iff =>
    intro i j s u first second
    rw [List.getElem?_map, List.getElem?_map, first, second, Option.map_some, Option.map_some,
      Option.some_inj]
    exact idOf_inj few (called i s first) (called j u second)
  case resolves =>
    intro i s id call answer
    rw [List.getElem?_map, call, Option.map_some, Option.some_inj] at answer
    have present := called i s call
    rw [← answer]
    exact ⟨stores.atId_idOf few present, found s present⟩
  case find_iff =>
    intro s
    rw [stores.find_ne_invalid_iff few, listed]
  case dense =>
    intro n
    rw [stores.entries]
    constructor
    · intro small
      obtain ⟨s, present, place⟩ := exists_position stores.nodup small
      refine ⟨s, (listed s).mp present, ?_⟩
      rw [found s present, toNat_idOf few present, place]
    · rintro ⟨s, call, rfl⟩
      have present := (listed s).mpr call
      rw [found s present, toNat_idOf few present]
      exact position_lt present
  case empty =>
    refine ⟨(found [] noBytes).trans emptyFirst, ?_⟩
    rw [← emptyFirst]
    exact stores.atId_idOf few noBytes
  case once => rw [stores.entries, length_enterAll_nil]
  case unerased => exact stores.unerased.undeleted

/-- Distinct strings are as many as ids at most, without the id that names nothing. -/
theorem Interned.distinct_lt {calls : List (List UInt8)} {ids : List SymbolId}
    (interned : Interned hash calls t ids) : ([] :: calls).toFinset.card < 2 ^ 32 := by
  have resolved : ∀ s ∈ [] :: calls, t.atId (t.find hash s) = s := by
    intro s listed
    rcases List.mem_cons.mp listed with rfl | called
    · rw [interned.empty.1, interned.empty.2]
    · obtain ⟨i, call⟩ := List.mem_iff_getElem?.mp called
      have small : i < ids.length := by
        rw [interned.answered]
        exact (List.getElem?_eq_some_iff.mp call).1
      have right := interned.resolves i s ids[i] call (List.getElem?_eq_getElem small)
      rw [right.2, right.1]
  have bounded : ∀ s ∈ ([] :: calls).toFinset,
      (t.find hash s).toNat ∈ Finset.range (2 ^ 32 - 1) := by
    intro s listed
    have valid := (interned.find_iff s).mpr (List.mem_toFinset.mp listed)
    have different : (t.find hash s).toNat ≠ kInvalidSymbolId.toNat :=
      fun same => valid (BitVec.eq_of_toNat_eq same)
    have small := (t.find hash s).isLt
    rw [toNat_kInvalidSymbolId] at different
    rw [Finset.mem_range]
    omega
  have injective : Set.InjOn (fun s => (t.find hash s).toNat) ([] :: calls).toFinset := by
    intro s first u second same
    have alike : t.find hash s = t.find hash u := BitVec.eq_of_toNat_eq same
    rw [← resolved s (List.mem_toFinset.mp first), alike,
      resolved u (List.mem_toFinset.mp second)]
  have atMost := Finset.card_le_card_of_injOn _ bounded injective
  rw [Finset.card_range] at atMost
  omega

theorem Bijection.distinct_lt {calls : List (List UInt8)} (bijection : Bijection hash calls) :
    ([] :: calls).toFinset.card < 2 ^ 32 := by
  obtain ⟨before, ids, after, more, -, -, -, interned⟩ :=
    bijection calls [] (List.append_nil calls)
  exact interned.distinct_lt

/-- The ids are right at every moment when there are few different strings. -/
theorem bijection_of_lt {calls : List (List UInt8)}
    (few : ([] :: calls).toFinset.card < 2 ^ 32) : Bijection hash calls := by
  rw [← length_enterAll_nil] at few
  rintro earlier later rfl
  have kept : enterAll [] ([] :: earlier) <+: enterAll [] ([] :: (earlier ++ later)) := by
    rw [← List.cons_append, enterAll_append]
    exact prefix_enterAll _ _
  have fewer := kept.length_le.trans_lt few
  obtain ⟨t, created, start⟩ := create_stores hash
  obtain ⟨before, sofar, middle⟩ := start.internAll earlier fewer
  obtain ⟨after, rest, done⟩ := middle.internAll later
    (by rw [← enterAll_append]; exact few)
  rw [← enterAll_append] at rest done
  refine ⟨before, _, after, _, ?_, rest, middle.interned fewer, ?_⟩
  · rw [created, Option.bind_some]
    exact sofar
  · have same : earlier.map (idOf (enterAll [] ([] :: earlier))) =
        earlier.map (idOf (enterAll [] ([] :: (earlier ++ later)))) := by
      apply List.map_congr_left
      intro s called
      refine (idOf_kept kept ?_).symm
      exact mem_enterAll.mpr (.inr (List.mem_cons_of_mem _ called))
    have all := done.interned few
    rw [List.map_append] at all
    rw [same]
    exact all

/-- Interning is a bijection, at every moment of a sequence of calls, exactly when the calls
and the empty string are fewer than `2 ^ 32` different strings. -/
theorem bijection_iff (hash : List UInt8 → UInt64) (calls : List (List UInt8)) :
    Bijection hash calls ↔ ([] :: calls).toFinset.card < 2 ^ 32 := by
  constructor
  · exact Bijection.distinct_lt
  · exact bijection_of_lt

/-- With one hash for all strings, a repeated, an empty and a prefix-sharing string. -/
example : ((create fun _ => 0).bind
    (internAll (fun _ => 0) [[97], [], [97, 98], [97]])).map Prod.snd = some [1, 0, 2, 1] := by
  decide

/-- The strings of four bytes. -/
def quads : List (List UInt8) :=
  (List.range (2 ^ 32)).map fun i => (putWord 4 (BitVec.ofNat 32 i)).map UInt8.ofBitVec

theorem nodup_quads : quads.Nodup := by
  have bytes : Function.Injective UInt8.ofBitVec := fun _ _ same => congrArg UInt8.toBitVec same
  have word (v : BitVec 32) : getWord 32 4 (putWord 4 v) 0 = v := by
    simpa using (faithful_word (w := 32) (k := 4) rfl).get_put [] v []
  refine List.Nodup.map_on (fun i small j small' same => ?_) List.nodup_range
  have spelled := List.map_injective_iff.mpr bytes same
  have equal : BitVec.ofNat 32 i = BitVec.ofNat 32 j := by rw [← word (.ofNat 32 i), spelled, word]
  have value := congrArg BitVec.toNat equal
  rwa [BitVec.toNat_ofNat, BitVec.toNat_ofNat, Nat.mod_eq_of_lt (List.mem_range.mp small),
    Nat.mod_eq_of_lt (List.mem_range.mp small')] at value

/-- There are as many strings of four bytes as there are ids, and one of these names nothing. -/
theorem bijection_fails :
    (∀ text ∈ quads, text.length = 4) ∧ ∀ hash, ¬Bijection hash quads := by
  constructor
  · intro text member
    obtain ⟨i, -, rfl⟩ := List.mem_map.mp member
    rw [List.length_map, length_putWord]
  intro hash bijection
  have few := bijection.distinct_lt
  have many : 2 ^ 32 ≤ ([] :: quads).toFinset.card :=
    calc 2 ^ 32 = quads.toFinset.card := by
          rw [List.toFinset_card_of_nodup nodup_quads, quads, List.length_map, List.length_range]
      _ ≤ ([] :: quads).toFinset.card := by
          rw [List.toFinset_cons]
          exact Finset.card_le_card (Finset.subset_insert _ _)
  exact absurd few (Nat.not_lt.mpr many)

end Property

end SymbolTable

end Aegis
