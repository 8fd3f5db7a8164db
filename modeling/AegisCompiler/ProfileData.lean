import AegisCompiler.Profiler

/-!
# Loading profiles

A profile file is a header of 32 bytes and the counters behind it.  The header is copied before
its magic bytes are compared, and the counters are cleared before the data is known to be
complete, so that a rejected file can leave its traces.
-/

namespace Aegis

open ByteRecords
open Profiler (getU32 getU64 getCounter putCounter)

/-- The bytes of "AEGISPGO". -/
def kProfileMagic : List Byte := [0x41, 0x45, 0x47, 0x49, 0x53, 0x50, 0x47, 0x4F]

structure ProfileHeader where
  magic : List Byte := kProfileMagic
  version : BitVec 32 := 1
  compilerRevision : BitVec 32 := 0
  createdAt : BitVec 64 := 0
  numCounters : BitVec 32 := 0
  deriving DecidableEq, Repr

/-- The size of a header; its last four bytes are padding. -/
def kProfileHeaderSize : Nat := 32

/-- The header at the start of the bytes, as it is copied. -/
def ProfileHeader.read (bytes : List Byte) : ProfileHeader where
  magic := bytes.take 8
  version := getU32 bytes 8
  compilerRevision := getU32 bytes 12
  createdAt := getU64 bytes 16
  numCounters := getU32 bytes 24

structure ProfileData where
  header : ProfileHeader := {}
  counters : List (BitVec 64) := []
  deriving DecidableEq, Repr

namespace ProfileData

/-- The detail of the telemetry event if the bytes are rejected, and the object afterwards. -/
def load (d : ProfileData) (bytes : List Byte) : Option String × ProfileData :=
  if bytes.length < kProfileHeaderSize then (some "header_too_small", d)
  else
    let header := ProfileHeader.read bytes
    if header.magic ≠ kProfileMagic then (some "magic_mismatch", { d with header })
    else
      let remaining := bytes.length - kProfileHeaderSize
      if remaining < header.numCounters.toNat * 8 then
        (some "counter_truncated", { header, counters := [] })
      else
        (none,
          { header
            counters := (List.range header.numCounters.toNat).map fun i =>
              getU64 bytes (kProfileHeaderSize + i * 8) })

/-- The header is there and announces no more counters than there are. -/
def Complete (bytes : List Byte) : Prop :=
  kProfileHeaderSize + (ProfileHeader.read bytes).numCounters.toNat * 8 ≤ bytes.length

/-- Rejected files change nothing, and files of other versions are rejected. -/
structure LoadsSafely (version revision : BitVec 32) (d : ProfileData) (bytes : List Byte) :
    Prop where
  unchanged : (d.load bytes).1 ≠ none → (d.load bytes).2 = d
  checked : (d.load bytes).1 = none →
    (ProfileHeader.read bytes).magic = kProfileMagic ∧ Complete bytes ∧
      (ProfileHeader.read bytes).version = version ∧
      (ProfileHeader.read bytes).compilerRevision = revision

/-- The bytes of an image end before the counters that it announces. -/
def Truncated (image : List Byte) : Prop :=
  image.length < 4 ∨ image.length < 4 + 32 * (getU32 image 0).toNat

/-- A rejected file has the header the object has already, and is no shorter than announced
unless there are no counters to lose; an accepted one is of this version. -/
def Harmless (version revision : BitVec 32) (d : ProfileData) (bytes : List Byte) : Prop :=
  kProfileHeaderSize ≤ bytes.length →
    ((ProfileHeader.read bytes).magic ≠ kProfileMagic → ProfileHeader.read bytes = d.header) ∧
    ((ProfileHeader.read bytes).magic = kProfileMagic → ¬Complete bytes →
      ProfileHeader.read bytes = d.header ∧ d.counters = []) ∧
    ((ProfileHeader.read bytes).magic = kProfileMagic → Complete bytes →
      (ProfileHeader.read bytes).version = version ∧
      (ProfileHeader.read bytes).compilerRevision = revision)

/-- The image holds just the counters of the profiler, and an incomplete one. -/
def HoldsCounters (p : Profiler) (image : List Byte) : Prop :=
  ∃ rest, rest.length < 32 ∧ image.drop 4 = p.counters.flatMap putCounter ++ rest

variable {d : ProfileData} {bytes image : List Byte} {p : Profiler}
  {version revision : BitVec 32}

theorem loadsSafely_iff : LoadsSafely version revision d bytes ↔
    Harmless version revision d bytes := by
  by_cases small : bytes.length < kProfileHeaderSize
  · have result : d.load bytes = (some "header_too_small", d) := if_pos small
    refine iff_of_true ⟨?_, ?_⟩ fun large => absurd small (Nat.not_lt_of_le large)
    · rw [result]
      exact fun _ => rfl
    · rw [result]
      exact nofun
  have large := Nat.le_of_not_lt small
  by_cases magic : (ProfileHeader.read bytes).magic = kProfileMagic
  swap
  · have result : d.load bytes =
        (some "magic_mismatch", { d with header := ProfileHeader.read bytes }) := by
      rw [load, if_neg small, if_pos magic]
    constructor
    · intro safe
      have unchanged := safe.unchanged (by rw [result]; exact nofun)
      rw [result] at unchanged
      refine fun _ => ⟨fun _ => congrArg header unchanged, ?_, ?_⟩
      · exact fun same => absurd same magic
      · exact fun same => absurd same magic
    · intro harmless
      refine ⟨fun _ => ?_, ?_⟩
      · rw [result, (harmless large).1 magic]
      · rw [result]
        exact nofun
  have remaining : bytes.length - kProfileHeaderSize <
      (ProfileHeader.read bytes).numCounters.toNat * 8 ↔ ¬Complete bytes := by
    unfold Complete
    omega
  by_cases complete : Complete bytes
  · have accepted : (d.load bytes).1 = none := by
      rw [load, if_neg small, if_neg (not_not.mpr magic),
        if_neg (mt remaining.mp (not_not.mpr complete))]
    constructor
    · intro safe
      refine fun _ => ⟨fun other => absurd magic other, fun _ short => absurd complete short, ?_⟩
      exact fun _ _ => (safe.checked accepted).2.2
    · intro harmless
      refine ⟨fun rejected => absurd accepted rejected, fun _ => ?_⟩
      exact ⟨magic, complete, (harmless large).2.2 magic complete⟩
  · have result : d.load bytes =
        (some "counter_truncated", { header := ProfileHeader.read bytes, counters := [] }) := by
      rw [load, if_neg small, if_neg (not_not.mpr magic), if_pos (remaining.mpr complete)]
    constructor
    · intro safe
      have unchanged := safe.unchanged (by rw [result]; exact nofun)
      rw [result] at unchanged
      refine fun _ => ⟨fun other => absurd magic other, fun _ _ => ?_, ?_⟩
      · exact ⟨congrArg header unchanged, (congrArg counters unchanged).symm⟩
      · exact fun _ whole => absurd whole complete
    · intro harmless
      obtain ⟨header, counters⟩ := (harmless large).2.1 magic complete
      refine ⟨fun _ => ?_, ?_⟩
      · rw [result, header, ← counters]
      · rw [result]
        exact nofun

/-- A truncated image replaces the counters by those that it has. -/
theorem deserialize_eq_self_iff (truncated : Truncated image) :
    p.deserialize image = p ↔ image.length < 4 ∨ HoldsCounters p image := by
  by_cases small : image.length < 4
  · exact iff_of_true (if_pos small) (Or.inl small)
  have short := truncated.resolve_left small
  rw [Profiler.deserialize, if_neg small, or_iff_right small]
  constructor
  · intro same
    have counters := congrArg Profiler.counters same
    obtain ⟨rest, parts, few, stops⟩ := Profiler.faithful_counter.put_getRecords (by decide)
      image (getU32 image 0).toNat 4
    have lengths := congrArg List.length parts
    rw [List.length_drop, List.length_append, Profiler.faithful_counter.length_flatMap] at lengths
    refine ⟨rest, stops ?_, counters ▸ parts⟩
    by_contra all
    omega
  · rintro ⟨rest, incomplete, parts⟩
    have lengths := congrArg List.length parts
    rw [List.length_drop, List.length_append, Profiler.faithful_counter.length_flatMap] at lengths
    have first : (image.take 4).length = 4 := by
      rw [List.length_take, Nat.min_eq_left (Nat.le_of_not_lt small)]
    have counters := Profiler.faithful_counter.getRecords_put (image.take 4) p.counters rest
      (n := (getU32 image 0).toNat) (by omega) (Or.inr incomplete)
    rw [List.append_assoc, ← parts, List.take_append_drop, first] at counters
    rw [counters]

/-- Files are loaded safely and truncated images leave the counters in place, exactly if the
files are harmless and such an image has only what the profiler has. -/
theorem safe_iff (version revision : BitVec 32) (d : ProfileData) (bytes : List Byte)
    (p : Profiler) (image : List Byte) :
    (LoadsSafely version revision d bytes ∧ (Truncated image → p.deserialize image = p)) ↔
      Harmless version revision d bytes ∧
        (Truncated image → image.length < 4 ∨ HoldsCounters p image) :=
  and_congr loadsSafely_iff (forall_congr' deserialize_eq_self_iff)

/-- A file of zeros is rejected and its header is kept. -/
theorem unsafe_zeros : ¬∀ version revision d bytes image, ∀ p : Profiler,
    LoadsSafely version revision d bytes ∧ (Truncated image → p.deserialize image = p) := by
  intro safe
  have unchanged := (safe 1 0 {} (List.replicate 32 0) [] {}).1.unchanged (by decide)
  exact absurd unchanged (by decide)

end ProfileData

end Aegis
