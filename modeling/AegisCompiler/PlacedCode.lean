import AegisCompiler.ImageRuns
import AegisCompiler.LinkedTargets

/-!
# The code of a linked function

What a linked image holds where an instruction is placed: its bytes, and in a
branch the displacement that leads to its target.
-/

namespace X86

/-- A decoded number has these bytes. -/
theorem toLittleEndian_of_littleEndian {n : Nat} {bytes rest : List Byte}
    {value : BitVec (8 * n)} (decoded : littleEndian n bytes = some (value, rest)) :
    bytes = toLittleEndian n value ++ rest := by
  induction n generalizing bytes rest with
  | zero =>
      cases decoded
      rfl
  | succ n ih =>
      cases bytes with
      | nil => cases decoded
      | cons byte bytes =>
          obtain ⟨⟨high, rest'⟩, later, same⟩ := Option.map_eq_some_iff.mp decoded
          cases same
          have first : (((high ++ byte).cast (by omega) : BitVec (8 * (n + 1))) >>>
              (8 * 0)).setWidth 8 = byte := by
            apply BitVec.eq_of_getLsbD_eq
            intro i below
            simp [BitVec.getLsbD_append, below]
          have others : (List.range n).map (fun i =>
              (((high ++ byte).cast (by omega) : BitVec (8 * (n + 1))) >>>
                (8 * (i + 1))).setWidth 8) = toLittleEndian n high := by
            apply List.map_congr_left
            intro i _
            apply BitVec.eq_of_getLsbD_eq
            intro k below
            have shifted : 8 * (i + 1) + k - 8 = 8 * i + k := by omega
            have large : ¬ 8 * (i + 1) + k < 8 := by omega
            simp [BitVec.getLsbD_append, large, shifted]
          rw [toLittleEndian, List.range_succ_eq_map, List.map_cons, first, List.map_map]
          change byte :: bytes = byte :: ((List.range n).map _ ++ rest)
          rw [ih later]
          exact congrArg (fun tail => byte :: (tail ++ rest)) others.symm

section Code

variable {image : Image} {pos : Nat} {code more : List Byte}

theorem Image.hasCode_of_getElem (nonempty : code ≠ [])
    (same : ∀ i < code.length, image.bytes[pos + i]? = code[i]?) :
    image.HasCode pos code := by
  have inside : pos ≤ image.bytes.length := by
    have first := same 0 (List.length_pos_iff.mpr nonempty)
    rw [List.getElem?_eq_getElem (List.length_pos_iff.mpr nonempty)] at first
    exact Nat.le_of_lt (List.getElem?_eq_some_iff.mp first).1
  have taken : (image.bytes.drop pos).take code.length = code := by
    apply List.ext_getElem?
    intro i
    rw [List.getElem?_take, List.getElem?_drop]
    split
    case isTrue below => exact same i below
    case isFalse beyond => rw [List.getElem?_eq_none (Nat.not_lt.mp beyond)]
  refine ⟨image.bytes.take pos, (image.bytes.drop pos).drop code.length, ?_, ?_⟩
  · calc
      image.bytes = image.bytes.take pos ++ image.bytes.drop pos :=
        (List.take_append_drop _ _).symm
      _ = image.bytes.take pos ++ ((image.bytes.drop pos).take code.length ++
          (image.bytes.drop pos).drop code.length) :=
        congrArg (image.bytes.take pos ++ ·) (List.take_append_drop _ _).symm
      _ = _ := by rw [taken]
  · rw [List.length_take, Nat.min_eq_left inside]

theorem Image.HasCode.append (first : image.HasCode pos code)
    (second : image.HasCode (pos + code.length) more) : image.HasCode pos (code ++ more) := by
  obtain ⟨front, back, bytes, rfl⟩ := first
  obtain ⟨front', back', bytes', length⟩ := second
  have same : front ++ code ++ back = front' ++ (more ++ back') := by
    rw [List.append_assoc, ← bytes, bytes']
  obtain ⟨rfl, rfl⟩ := List.append_inj same (by rw [List.length_append, length])
  exact ⟨front, back', by rw [bytes, List.append_assoc], rfl⟩

end Code

end X86

namespace Aegis

namespace ExecEncoder

open LiveIntervals (LabelAt JumpAt)
open WindowWrites
open X86 (Byte Reg Image)

section Encoders

variable {fn : MachineFunction} {ra : LinearScan.ScanState}

/-- A near function is encoded as it was emitted, up to the displacements of its jumps. -/
theorem jumps_patched (near : NearFunction fn ra) {code : List Byte} {calls : List (Nat × Int)}
    (encoded : encodeOne fn ra = .ok (code, calls)) :
    ∃ enc body, encoderAt fn ra fn.instrs.length = some enc ∧
      Describes fn ra fn.instrs.length enc body ∧
        AgreeOutside kRel32DispBytes ((fixups false 0 (prologueItems ++ body)).map Prod.fst) code
          enc.buf := by
  obtain ⟨enc, reached, -, resolved⟩ := encodeOne_encoder encoded
  obtain ⟨body, described⟩ := describes fn ra le_rfl reached
  refine ⟨enc, body, reached, described, ?_⟩
  rw [described.jumpFixups fun op known j label pos jump field => near.starts op
    (List.mem_append_left _ known) j label pos jump field] at resolved
  have patches : ∀ fixup ∈ fixups false 0 (prologueItems ++ body), ∀ out after,
      resolveJump enc out fixup = .ok after → ∃ rel, True ∧ after = patch out fixup.1 rel := by
    intro fixup member out after patched
    obtain ⟨i, -, op, known, jump, field⟩ := (described.jumps fixup).mp member
    obtain ⟨rel, -, rfl⟩ := resolveJump_patch patched
    exact ⟨rel, trivial, patchJump_eq (near.jumps op known i _ _ jump field) out rel⟩
  refine (patches_agree patches ?_ ?_ resolved).1
  · exact (fixups_ascending _ _ _).imp .inl
  · intro fixup member
    have within := (fixups_within member).2
    rwa [Nat.zero_add, ← described.emits.length] at within

end Encoders

/-- The function stands in a linked image. -/
structure Placed (img : Image) (fns : List ModuleFunction) (entries : List Nat)
    (mf : MachineFunction) (ra : LinearScan.ScanState) (entry : Nat) : Prop where
  near : Near fns
  linked : Linked fns img.bytes entries
  stands : StandsAt fns entries mf ra entry

section Placed

variable {img : Image} {fns : List ModuleFunction} {entries : List Nat}
variable {mf : MachineFunction} {ra : LinearScan.ScanState} {entry : Nat}
variable (placed : Placed img fns entries mf ra entry)

include placed

/-- Outside of displacements the image has the bytes that the encoder has written. -/
theorem Placed.last_encoder : ∃ last, encoderAt mf ra mf.instrs.length = some last ∧
    ∀ b < last.buf.length, (∀ op ∈ jumpOps ++ callOps, ∀ k target pos,
      JumpAt mf.instrs op target k → fieldOf mf ra op k = some pos →
        ¬ WindowWrites.Inside pos kRel32DispBytes b) → img.bytes[entry + b]? = last.buf[b]? := by
  obtain ⟨code, calls, encoded, same⟩ := placed.linked.bytes mf ra entry placed.stands
  obtain ⟨f, member, given, given'⟩ := placed.stands.mem
  obtain ⟨last, body, reached, described, agree⟩ :=
    jumps_patched (placed.near f member mf ra given given') encoded
  refine ⟨last, reached, fun b below outside => ?_⟩
  rw [same b (agree.length ▸ below) fun k callee pos branch field =>
    outside .call (by decide) k callee pos branch field]
  apply agree.same
  intro pos member
  obtain ⟨fixup, listed, rfl⟩ := List.mem_map.mp member
  obtain ⟨k, -, op, known, branch, field⟩ := (described.jumps fixup).mp listed
  exact outside op (List.mem_append_left _ known) k _ _ branch field

theorem Placed.exists_encoder {j : Nat} (inside : j ≤ mf.instrs.length) :
    ∃ enc, encoderAt mf ra j = some enc := by
  obtain ⟨last, reached, -⟩ := placed.last_encoder
  exact exists_encoderAt le_rfl reached inside

theorem Placed.first_encoder : encoderAt mf ra 0 = some { buf := prologue } := by
  obtain ⟨enc, reached⟩ := placed.exists_encoder (Nat.zero_le _)
  obtain ⟨pmoves, params, -⟩ := except_bind_ok.mp (toOption_eq_some.mp reached)
  exact toOption_eq_some.mpr (except_bind_ok.mpr ⟨pmoves, params, rfl⟩)

/-- The function begins with its prologue. -/
theorem Placed.hasCode_prologue : img.HasCode entry prologue := by
  obtain ⟨last, reached, same⟩ := placed.last_encoder
  obtain ⟨more, grown⟩ := encoderAt_grows (Nat.zero_le _) le_rfl placed.first_encoder reached
  refine Image.hasCode_of_getElem (by decide) fun b below => ?_
  have within : b < last.buf.length := by
    rw [grown, List.length_append]
    exact Nat.lt_add_right _ below
  rw [same b within, grown, List.getElem?_append_left below]
  intro op known k target pos branch field within
  have inside : k < mf.instrs.length := by
    obtain ⟨mi, found, -⟩ := branch
    exact (List.getElem?_eq_some_iff.mp found).1
  obtain ⟨enc, before⟩ := placed.exists_encoder (Nat.le_of_lt inside)
  obtain ⟨after, behind⟩ := placed.exists_encoder inside
  have own := fieldOf_within known branch before behind field
  have order : prologue.length ≤ enc.buf.length :=
    encoderAt_length_le (Nat.zero_le k) (Nat.le_of_lt inside) placed.first_encoder before
  obtain ⟨low, -⟩ := within
  omega

/-- The bytes of an instruction, besides its displacement. -/
theorem Placed.byte {j : Nat} (inside : j < mf.instrs.length) {enc after : Encoder}
    (first : encoderAt mf ra j = some enc) (next : encoderAt mf ra (j + 1) = some after)
    {b : Nat} (low : enc.buf.length ≤ b) (high : b < after.buf.length)
    (outside : ∀ op ∈ jumpOps ++ callOps, ∀ target pos, JumpAt mf.instrs op target j →
      fieldOf mf ra op j = some pos → ¬ WindowWrites.Inside pos kRel32DispBytes b) :
    img.bytes[entry + b]? = after.buf[b]? := by
  obtain ⟨last, reached, same⟩ := placed.last_encoder
  obtain ⟨more, grown⟩ := encoderAt_grows inside le_rfl next reached
  have below : b < last.buf.length := by
    rw [grown, List.length_append]
    omega
  rw [same b below, grown, List.getElem?_append_left high]
  intro op known k target pos branch field within
  have insideK : k < mf.instrs.length := by
    obtain ⟨mi, found, -⟩ := branch
    exact (List.getElem?_eq_some_iff.mp found).1
  obtain ⟨encK, atK⟩ := placed.exists_encoder (Nat.le_of_lt insideK)
  obtain ⟨afterK, behindK⟩ := placed.exists_encoder insideK
  have own := fieldOf_within known branch atK behindK field
  obtain ⟨from_, upTo⟩ := within
  rcases Nat.lt_trichotomy k j with earlier | rfl | later
  · have order := encoderAt_length_le earlier (Nat.le_of_lt inside) behindK first
    omega
  · exact outside op known target pos branch field ⟨from_, upTo⟩
  · have order := encoderAt_length_le later (Nat.le_of_lt insideK) next atK
    omega

/-- An instruction without a displacement stands in the image as it was encoded. -/
theorem Placed.hasCode_plain {j : Nat} (inside : j < mf.instrs.length) {enc after : Encoder}
    (first : encoderAt mf ra j = some enc) (next : encoderAt mf ra (j + 1) = some after)
    (plain : mf.instrs[j].op ∉ jumpOps ++ callOps) {code : List Byte}
    (grown : after.buf = enc.buf ++ code) (nonempty : code ≠ []) :
    img.HasCode (entry + enc.buf.length) code := by
  refine Image.hasCode_of_getElem nonempty fun i below => ?_
  have same := placed.byte inside first next (b := enc.buf.length + i)
    (Nat.le_add_right _ _) (by rw [grown, List.length_append]; omega) (by
      rintro op known target pos ⟨mi, found, rfl, -⟩
      cases (List.getElem?_eq_getElem inside).symm.trans found
      exact absurd known plain)
  rw [Nat.add_assoc, same, grown, List.getElem?_append_right (Nat.le_add_right _ _),
    Nat.add_sub_cancel_left]

/-- A branch stands in the image with a displacement that leads to its target. -/
theorem Placed.hasCode_branch {j : Nat} {op : MachineOp} {target : Int}
    (branch : JumpAt mf.instrs op target j) {enc after : Encoder}
    (first : encoderAt mf ra j = some enc) (next : encoderAt mf ra (j + 1) = some after)
    (lead tail : List Byte) (nonempty : lead ≠ [])
    (grown : after.buf = enc.buf ++ (lead ++ (blankRel32 ++ tail)))
    (length : tailLength op = tail.length) {pos goal : Nat}
    (field : fieldOf mf ra op j = some pos) (leads : LeadsTo img.bytes (entry + pos) goal) :
    ∃ rel : BitVec 32,
      img.HasCode (entry + enc.buf.length) (lead ++ (X86.toLittleEndian 4 rel ++ tail)) ∧
        ((entry + enc.buf.length + lead.length + kRel32DispBytes : Nat) : Int) + rel.toInt =
          goal := by
  obtain ⟨mi, found, rfl, given⟩ := branch
  obtain ⟨inside, rfl⟩ := List.getElem?_eq_some_iff.mp found
  have size : after.buf.length =
      enc.buf.length + lead.length + kRel32DispBytes + tail.length := by
    rw [grown]
    simp [blankRel32, Nat.add_assoc]
  have place : pos = enc.buf.length + lead.length := by
    rw [fieldOf, placeOf, next, Option.map_some, Option.map_some, Option.some.injEq] at field
    omega
  have same (b : Nat) (low : enc.buf.length ≤ b) (high : b < after.buf.length)
      (apart : b < pos ∨ pos + kRel32DispBytes ≤ b) :
      img.bytes[entry + b]? = after.buf[b]? := by
    refine placed.byte inside first next low high ?_
    rintro op _ other pos' ⟨mi, found', rfl, -⟩ field' ⟨from_, upTo⟩
    cases found.symm.trans found'
    cases field.symm.trans field'
    omega
  obtain ⟨rel, decoded, reaches⟩ := leads
  refine ⟨rel, ?_, ?_⟩
  · have front : img.HasCode (entry + enc.buf.length) lead := by
      refine Image.hasCode_of_getElem nonempty fun i below => ?_
      rw [Nat.add_assoc, same (enc.buf.length + i) (Nat.le_add_right _ _) (by omega)
        (.inl (by omega)), grown, List.getElem?_append_right (Nat.le_add_right _ _),
        Nat.add_sub_cancel_left, List.getElem?_append_left below]
    have middle : img.HasCode (entry + enc.buf.length + lead.length)
        (X86.toLittleEndian 4 rel) := by
      obtain ⟨⟨value, rest⟩, read, rfl⟩ := Option.map_eq_some_iff.mp decoded
      have bytes := X86.toLittleEndian_of_littleEndian read
      have start : entry + pos = entry + enc.buf.length + lead.length := by omega
      rw [start] at bytes
      have four : (X86.toLittleEndian 4 value).length = 4 := toLittleEndian_length 4 value
      refine Image.hasCode_of_getElem (fun none => ?_) fun i below => ?_
      · rw [none] at four
        cases four
      · rw [four] at below
        have window := congrArg (·[i]?) bytes
        simp only [List.getElem?_take, List.getElem?_drop] at window
        have short : i < kRel32DispBytes := below
        rw [if_pos short, List.getElem?_append_left (four.symm ▸ below)] at window
        exact window
    refine front.append ?_
    cases empty : tail with
    | nil => rwa [List.append_nil]
    | cons byte more =>
        rw [← empty]
        refine middle.append (Image.hasCode_of_getElem (by simp [empty]) fun i below => ?_)
        have four : (X86.toLittleEndian 4 rel).length = kRel32DispBytes :=
          toLittleEndian_length 4 rel
        have position : entry + enc.buf.length + lead.length +
            (X86.toLittleEndian 4 rel).length + i =
              entry + (enc.buf.length + (lead.length + (kRel32DispBytes + i))) := by
          omega
        have blank : blankRel32.length = kRel32DispBytes := List.length_replicate
        rw [position, same _ (by omega) (by omega) (.inr (by omega)), grown,
          List.getElem?_append_right (by omega), Nat.add_sub_cancel_left,
          List.getElem?_append_right (by omega), Nat.add_sub_cancel_left,
          List.getElem?_append_right (by omega), blank, Nat.add_sub_cancel_left]
  · rw [place] at reaches
    rw [← reaches]
    congr 2
    omega

end Placed

end ExecEncoder

end Aegis
