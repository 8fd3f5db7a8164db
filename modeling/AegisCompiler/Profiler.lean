import AegisCompiler.ByteRecords

/-!
# Profiler counters as bytes

The counters of a profile with their confidence data, written after their number as records
of 32 bytes.
-/

namespace Aegis

open ByteRecords

structure ProfileConfidence where
  sampleCount : BitVec 32 := 0
  stability : BitVec 32 := 0
  age : BitVec 32 := 0
  decay : BitVec 32 := 0
  variance : BitVec 32 := 0
  deoptCorrelation : BitVec 32 := 0
  deriving DecidableEq, Repr

/-- A counter slot. -/
structure Counter where
  hits : BitVec 64 := 0
  confidence : ProfileConfidence := {}
  deriving DecidableEq, Repr

structure Profiler where
  counters : List Counter := []
  deriving DecidableEq, Repr

namespace Profiler

def putU32 (v : BitVec 32) : List Byte := putWord 4 v
def putU64 (v : BitVec 64) : List Byte := putWord 8 v
def getU32 (bytes : List Byte) (off : Nat) : BitVec 32 := getWord 32 4 bytes off
def getU64 (bytes : List Byte) (off : Nat) : BitVec 64 := getWord 64 8 bytes off

def putCounter (c : Counter) : List Byte :=
  putU64 c.hits ++ putU32 c.confidence.sampleCount ++ putU32 c.confidence.stability ++
    putU32 c.confidence.age ++ putU32 c.confidence.decay ++ putU32 c.confidence.variance ++
    putU32 c.confidence.deoptCorrelation

def getCounter (bytes : List Byte) (off : Nat) : Counter where
  hits := getU64 bytes off
  confidence :=
    { sampleCount := getU32 bytes (off + 8)
      stability := getU32 bytes (off + 12)
      age := getU32 bytes (off + 16)
      decay := getU32 bytes (off + 20)
      variance := getU32 bytes (off + 24)
      deoptCorrelation := getU32 bytes (off + 28) }

def serialize (p : Profiler) : List Byte :=
  putU32 (BitVec.ofNat 32 p.counters.length) ++ p.counters.flatMap putCounter

/-- The old counters are cleared, and records are read until one does not fit. -/
def deserialize (p : Profiler) (bytes : List Byte) : Profiler :=
  if bytes.length < 4 then p
  else { counters := getRecords 32 getCounter bytes (getU32 bytes 0).toNat 4 }

theorem faithful_u32 : Faithful 4 putU32 getU32 := faithful_word (by decide)

theorem faithful_u64 : Faithful 8 putU64 getU64 := faithful_word (by decide)

/-- The fields of a counter in the order of the format. -/
abbrev CounterFields : Type :=
  (((((BitVec 64 × BitVec 32) × BitVec 32) × BitVec 32) × BitVec 32) × BitVec 32) × BitVec 32

def Counter.build (fields : CounterFields) : Counter :=
  let ((((((hits, sampleCount), stability), age), decay), variance), deoptCorrelation) := fields
  ⟨hits, ⟨sampleCount, stability, age, decay, variance, deoptCorrelation⟩⟩

def Counter.fields (c : Counter) : CounterFields :=
  ((((((c.hits, c.confidence.sampleCount), c.confidence.stability), c.confidence.age),
    c.confidence.decay), c.confidence.variance), c.confidence.deoptCorrelation)

theorem faithful_counter : Faithful 32 putCounter getCounter :=
  ((((((faithful_u64.pair faithful_u32).pair faithful_u32).pair faithful_u32).pair
    faithful_u32).pair faithful_u32).pair faithful_u32).map Counter.build Counter.fields
    (fun _ => rfl) (fun _ => rfl)

theorem length_serialize (p : Profiler) : p.serialize.length = 4 + 32 * p.counters.length := by
  rw [serialize, List.length_append, faithful_u32.length, faithful_counter.length_flatMap]

theorem deserialize_serialize (p q : Profiler) (few : p.counters.length < 2 ^ 32) :
    q.deserialize p.serialize = p := by
  have count : getU32 p.serialize 0 = BitVec.ofNat 32 p.counters.length :=
    faithful_u32.get_put [] _ (p.counters.flatMap putCounter)
  have number : (getU32 p.serialize 0).toNat = p.counters.length := by
    rw [count, BitVec.toNat_ofNat, Nat.mod_eq_of_lt few]
  have counters := faithful_counter.getRecords_put
    (putU32 (BitVec.ofNat 32 p.counters.length)) p.counters [] Nat.le.refl (Or.inl rfl)
  rw [List.append_nil, faithful_u32.length] at counters
  have long : ¬p.serialize.length < 4 := by
    rw [length_serialize]
    omega
  rw [deserialize, if_neg long, number]
  exact congrArg Profiler.mk counters

theorem serialize_deserialize (q : Profiler) {bytes : List Byte} {n : Nat} (few : n < 2 ^ 32)
    (length : bytes.length = 4 + 32 * n) (count : bytes.take 4 = putU32 (BitVec.ofNat 32 n)) :
    (q.deserialize bytes).serialize = bytes := by
  have number : (getU32 bytes 0).toNat = n := by
    have found := faithful_u32.get_put [] (BitVec.ofNat 32 n) (bytes.drop 4)
    rw [List.nil_append, ← count, List.take_append_drop] at found
    rw [show getU32 bytes 0 = BitVec.ofNat 32 n from found, BitVec.toNat_ofNat,
      Nat.mod_eq_of_lt few]
  obtain ⟨rest, same, most, stops⟩ :=
    faithful_counter.put_getRecords (by decide) bytes n 4
  have lengths := congrArg List.length same
  rw [List.length_drop, List.length_append, faithful_counter.length_flatMap, length] at lengths
  have all : (getRecords 32 getCounter bytes n 4).length = n := by
    by_contra other
    have short := stops (by omega)
    omega
  have nothing : rest = [] := List.length_eq_zero_iff.mp (by omega)
  rw [nothing, List.append_nil] at same
  calc
    (q.deserialize bytes).serialize =
        putU32 (BitVec.ofNat 32 (getRecords 32 getCounter bytes n 4).length) ++
          (getRecords 32 getCounter bytes n 4).flatMap putCounter := by
      rw [deserialize, if_neg (by omega), number, serialize]
    _ = bytes.take 4 ++ bytes.drop 4 := by rw [all, count, same]
    _ = bytes := List.take_append_drop 4 bytes

/-- Both round trips. -/
theorem serialize_round_trips (p q : Profiler) (bytes : List Byte) (n : Nat)
    (counters : p.counters.length < 2 ^ 32) (few : n < 2 ^ 32)
    (length : bytes.length = 4 + 32 * n) (count : bytes.take 4 = putU32 (BitVec.ofNat 32 n)) :
    q.deserialize p.serialize = p ∧ (q.deserialize bytes).serialize = bytes :=
  ⟨deserialize_serialize p q counters, serialize_deserialize q few length count⟩

/-- Three counters. -/
def sampled : Profiler where
  counters := [
    { hits := 7, confidence := { sampleCount := 1, stability := 2, age := 300 } },
    { hits := BitVec.allOnes 64, confidence := { decay := 5, variance := 6 } },
    { confidence := { deoptCorrelation := BitVec.allOnes 32 } }]

/-- The image of two counters, with different bytes. -/
def sampledImage : List Byte := [2, 0, 0, 0] ++ (List.range 64).map (BitVec.ofNat 8)

/-- Three counters are read over those of the image, and the image over the three. -/
theorem serialize_round_trips_sampled :
    (Profiler.deserialize {} sampledImage).deserialize sampled.serialize = sampled ∧
      (sampled.deserialize sampledImage).serialize = sampledImage := by
  have first := (serialize_round_trips sampled (Profiler.deserialize {} sampledImage) sampledImage 2
    (by decide) (by decide) (by decide) (by decide)).1
  have second := (serialize_round_trips sampled sampled sampledImage 2
    (by decide) (by decide) (by decide) (by decide)).2
  exact ⟨first, second⟩

end Profiler

end Aegis
