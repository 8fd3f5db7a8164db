import AegisCompiler.EncodedFunctions
import AegisCompiler.LiveIntervals
import AegisCompiler.WindowWrites

/-!
# The places of branches

Where the encoder puts each instruction of a function, and which displacements and
labels it notes on the way.  The displacements do not overlap, so patching one leaves
the others alone.
-/

namespace Aegis

namespace ExecEncoder

open LiveIntervals (LabelAt JumpAt)
open WindowWrites
open X86 (Byte Reg)

/-- The encoder in front of an instruction. -/
def encoderAt (fn : MachineFunction) (ra : LinearScan.ScanState) (j : Nat) :
    Option Encoder :=
  (do
    let pmoves ← paramMoves ra fn.instrs
    (fn.instrs.zipIdx.take j).foldlM (encodeInstr ra pmoves) { buf := prologue }).toOption

/-- The offset of an instruction in its function. -/
def placeOf (fn : MachineFunction) (ra : LinearScan.ScanState) (j : Nat) : Option Nat :=
  (encoderAt fn ra j).map (·.buf.length)

/-- The offset of the displacement of a branch in its function. -/
def fieldOf (fn : MachineFunction) (ra : LinearScan.ScanState) (op : MachineOp) (j : Nat) :
    Option Nat :=
  (placeOf fn ra (j + 1)).map (· - tailLength op - kRel32DispBytes)

section Function

variable {fn : MachineFunction} {ra : LinearScan.ScanState}

theorem toOption_eq_some {ε α : Type} {result : Except ε α} {value : α} :
    result.toOption = some value ↔ result = .ok value := by
  cases result <;> simp [Except.toOption]

theorem zipIdx_take_succ {α : Type} {xs : List α} {j : Nat} (inside : j < xs.length) :
    xs.zipIdx.take (j + 1) = xs.zipIdx.take j ++ [(xs[j], j)] := by
  rw [List.take_add_one, List.getElem?_zipIdx, List.getElem?_eq_getElem inside, Nat.zero_add]
  rfl

/-- The instruction that takes the encoder from one place to the next. -/
theorem encoderAt_encodes {j : Nat} {after : Encoder}
    (reached : encoderAt fn ra (j + 1) = some after) (inside : j < fn.instrs.length) :
    ∃ pmoves enc, paramMoves ra fn.instrs = .ok pmoves ∧ encoderAt fn ra j = some enc ∧
      encodeInstr ra pmoves enc (fn.instrs[j], j) = .ok after := by
  obtain ⟨pmoves, params, ran⟩ := except_bind_ok.mp (toOption_eq_some.mp reached)
  rw [zipIdx_take_succ inside, List.foldlM_append] at ran
  obtain ⟨enc, before, last⟩ := except_bind_ok.mp ran
  rw [List.foldlM_cons] at last
  obtain ⟨next, encoded, done⟩ := except_bind_ok.mp last
  cases done
  exact ⟨pmoves, enc, params, toOption_eq_some.mpr (except_bind_ok.mpr ⟨pmoves, params, before⟩),
    encoded⟩

/-- A branch of one of the kinds in front of an instruction, with its displacement. -/
def BranchBefore (fn : MachineFunction) (ra : LinearScan.ScanState) (ops : List MachineOp)
    (j : Nat) (fixup : Nat × Int) : Prop :=
  ∃ i < j, ∃ op ∈ ops, JumpAt fn.instrs op fixup.2 i ∧ fieldOf fn ra op i = some fixup.1

theorem mem_fixupsOf_iff {ops : List MachineOp} {j : Nat} {after : Encoder}
    (reached : encoderAt fn ra (j + 1) = some after) (inside : j < fn.instrs.length)
    (fixup : Nat × Int) :
    fixup ∈ fixupsOf ops fn.instrs[j] after.buf.length ↔
      ∃ op ∈ ops, JumpAt fn.instrs op fixup.2 j ∧ fieldOf fn ra op j = some fixup.1 := by
  have field (op : MachineOp) : fieldOf fn ra op j =
      some (after.buf.length - tailLength op - kRel32DispBytes) := by
    rw [fieldOf, placeOf, reached]
    rfl
  have here := List.getElem?_eq_getElem inside
  unfold fixupsOf
  constructor
  · intro member
    split at member
    case isFalse => cases member
    case isTrue known =>
      obtain ⟨target, given, rfl⟩ := List.mem_map.mp member
      exact ⟨_, known, ⟨_, here, rfl, Option.mem_toList.mp given⟩, field _⟩
  · rintro ⟨op, known, ⟨mi, found, rfl, given⟩, place⟩
    obtain rfl := Option.some.inj (here.symm.trans found)
    rw [if_pos known, given, Option.toList_some, List.map_singleton, List.mem_singleton]
    rw [field] at place
    exact Prod.ext (Option.some.inj place).symm rfl

/-- A list of displacements that is complete stays complete. -/
theorem branchBefore_step {ops : List MachineOp} {j : Nat} {after : Encoder}
    (reached : encoderAt fn ra (j + 1) = some after) (inside : j < fn.instrs.length)
    {old : List (Nat × Int)} (complete : ∀ fixup, fixup ∈ old ↔ BranchBefore fn ra ops j fixup)
    (fixup : Nat × Int) :
    fixup ∈ old ++ fixupsOf ops fn.instrs[j] after.buf.length ↔
      BranchBefore fn ra ops (j + 1) fixup := by
  rw [List.mem_append, complete, mem_fixupsOf_iff reached inside]
  constructor
  · rintro (⟨i, before, branch⟩ | branch)
    · exact ⟨i, before.trans (Nat.lt_succ_self j), branch⟩
    · exact ⟨j, Nat.lt_succ_self j, branch⟩
  · rintro ⟨i, before, branch⟩
    rcases Nat.lt_succ_iff_lt_or_eq.mp before with before | rfl
    · exact .inl ⟨i, before, branch⟩
    · exact .inr branch

/-- What the encoder has emitted in front of an instruction: a body behind the prologue, with
the displacements of the branches and the labels at their places. -/
structure Describes (fn : MachineFunction) (ra : LinearScan.ScanState) (j : Nat)
    (enc : Encoder) (body : List Item) : Prop where
  shaped : Body body
  emits : Emits enc (prologueItems ++ body)
  jumps : ∀ fixup, fixup ∈ fixups false 0 (prologueItems ++ body) ↔
    BranchBefore fn ra jumpOps j fixup
  calls : ∀ fixup, fixup ∈ fixups true 0 (prologueItems ++ body) ↔
    BranchBefore fn ra callOps j fixup
  labels : ∀ id pos, (id, pos) ∈ labels 0 (prologueItems ++ body) →
    ∃ i, LabelAt fn.instrs id i ∧ placeOf fn ra i = some pos

theorem describes (fn : MachineFunction) (ra : LinearScan.ScanState) {j : Nat}
    (inside : j ≤ fn.instrs.length) {enc : Encoder} (reached : encoderAt fn ra j = some enc) :
    ∃ body, Describes fn ra j enc body := by
  induction j generalizing enc with
  | zero =>
      obtain ⟨pmoves, params, ran⟩ := except_bind_ok.mp (toOption_eq_some.mp reached)
      cases ran
      have none (ops : List MachineOp) (fixup : Nat × Int) :
          fixup ∈ ([] : List (Nat × Int)) ↔ BranchBefore fn ra ops 0 fixup :=
        ⟨nofun, fun ⟨_, impossible, _⟩ => absurd impossible (Nat.not_lt_zero _)⟩
      exact ⟨[], .nil, emits_prologue, none _, none _, nofun⟩
  | succ j ih =>
      obtain ⟨pmoves, before, params, found, encoded⟩ := encoderAt_encodes reached inside
      obtain ⟨body, described⟩ := ih (Nat.le_of_succ_le inside) found
      obtain ⟨more, its, emits⟩ :=
        encodeInstr_emits (paramMoves_rsp params) encoded described.emits
      have next : 0 + sizeOf (prologueItems ++ body) + sizeOf more = enc.buf.length := by
        rw [emits.length, sizeOf_append _ more, Nat.zero_add]
      have jumps := its.jumps
      have calls := its.calls
      have labels := its.labels
      rw [← Nat.zero_add (sizeOf (prologueItems ++ body))] at jumps calls labels
      rw [next] at jumps calls
      rw [List.append_assoc] at emits
      refine ⟨body ++ more, described.shaped.append its.body, emits, ?_, ?_, ?_⟩
      · rw [← List.append_assoc, fixups_append, jumps]
        exact branchBefore_step reached inside described.jumps
      · rw [← List.append_assoc, fixups_append, calls]
        exact branchBefore_step reached inside described.calls
      · intro id pos member
        rw [← List.append_assoc, labels_append] at member
        rcases List.mem_append.mp member with new | old
        · obtain ⟨op, imm, rfl⟩ := labels id pos new
          refine ⟨j, ⟨_, List.getElem?_eq_getElem inside, op, imm⟩, ?_⟩
          rw [placeOf, found, Option.map_some, described.emits.length, Nat.zero_add]
        · exact described.labels id pos old

/-- What one instruction adds to the encoder. -/
structure Advances (mi : MachineInstr) (enc after : Encoder) : Prop where
  grows : ∃ code, after.buf = enc.buf ++ code
  room : mi.op ∈ jumpOps ++ callOps → mi.imm ≠ none →
    enc.buf.length + tailLength mi.op + kRel32DispBytes ≤ after.buf.length

theorem encoderAt_succ {j : Nat} {after : Encoder}
    (reached : encoderAt fn ra (j + 1) = some after) (inside : j < fn.instrs.length) :
    ∃ enc, encoderAt fn ra j = some enc ∧ Advances fn.instrs[j] enc after := by
  obtain ⟨pmoves, enc, params, found, encoded⟩ := encoderAt_encodes reached inside
  obtain ⟨body, described⟩ := describes fn ra (Nat.le_of_lt inside) found
  obtain ⟨more, its, emits⟩ := encodeInstr_emits (paramMoves_rsp params) encoded described.emits
  refine ⟨enc, found, ?_, fun known given => ?_⟩
  · refine ⟨fill (fun _ => 0) (0 + sizeOf (prologueItems ++ body)) more, ?_⟩
    rw [emits.buf, fill_append, ← described.emits.buf]
  · obtain ⟨target, given⟩ := Option.ne_none_iff_exists'.mp given
    have room {calls : Bool} {ops : List MachineOp} (among : fn.instrs[j].op ∈ ops)
        (own : fixups calls (sizeOf (prologueItems ++ body)) more =
          fixupsOf ops fn.instrs[j] (sizeOf (prologueItems ++ body) + sizeOf more)) :
        sizeOf (prologueItems ++ body) + tailLength fn.instrs[j].op + kRel32DispBytes ≤
          sizeOf (prologueItems ++ body ++ more) := by
      rw [fixupsOf, if_pos among, given, Option.toList_some, List.map_singleton] at own
      have within := fixups_within (own ▸ List.mem_singleton_self _)
      rw [sizeOf_append _ more]
      omega
    rw [emits.length, described.emits.length]
    exact (List.mem_append.mp known).elim (fun jump => room jump its.jumps)
      fun call => room call its.calls

/-- A function that was encoded has a place for each instruction. -/
theorem exists_encoderAt {n : Nat} (inside : n ≤ fn.instrs.length)
    {enc : Encoder} (reached : encoderAt fn ra n = some enc) {j : Nat} (before : j ≤ n) :
    ∃ earlier, encoderAt fn ra j = some earlier := by
  induction n generalizing enc with
  | zero => exact ⟨enc, Nat.le_zero.mp before ▸ reached⟩
  | succ n ih =>
      rcases Nat.lt_succ_iff_lt_or_eq.mp (Nat.lt_succ_of_le before) with earlier | rfl
      · obtain ⟨mid, found, -⟩ := encoderAt_succ reached inside
        exact ih (Nat.le_of_succ_le inside) found (Nat.le_of_lt_succ earlier)
      · exact ⟨enc, reached⟩

theorem exists_fieldOf {enc : Encoder} (reached : encoderAt fn ra fn.instrs.length = some enc)
    {op : MachineOp} {label : Int} {j : Nat} (jump : JumpAt fn.instrs op label j) :
    j < fn.instrs.length ∧ ∃ pos, fieldOf fn ra op j = some pos := by
  obtain ⟨mi, found, -⟩ := jump
  have inside := (List.getElem?_eq_some_iff.mp found).1
  obtain ⟨after, here⟩ := exists_encoderAt le_rfl reached inside
  refine ⟨inside, after.buf.length - tailLength op - kRel32DispBytes, ?_⟩
  rw [fieldOf, placeOf, here]
  rfl

theorem encoderAt_grows {i j : Nat} (before : i ≤ j) (inside : j ≤ fn.instrs.length)
    {enc after : Encoder} (first : encoderAt fn ra i = some enc)
    (last : encoderAt fn ra j = some after) : ∃ more, after.buf = enc.buf ++ more := by
  induction before generalizing after with
  | refl =>
      cases first.symm.trans last
      exact ⟨[], (List.append_nil _).symm⟩
  | @step j _ ih =>
      obtain ⟨mid, reached, advances⟩ := encoderAt_succ last inside
      obtain ⟨code, grown⟩ := advances.grows
      obtain ⟨more, same⟩ := ih (Nat.le_of_succ_le inside) reached
      exact ⟨more ++ code, by rw [grown, same, List.append_assoc]⟩

theorem encoderAt_length_le {i j : Nat} (before : i ≤ j) (inside : j ≤ fn.instrs.length)
    {enc after : Encoder} (first : encoderAt fn ra i = some enc)
    (last : encoderAt fn ra j = some after) : enc.buf.length ≤ after.buf.length := by
  obtain ⟨more, grown⟩ := encoderAt_grows before inside first last
  rw [grown, List.length_append]
  exact Nat.le_add_right _ _

/-- The displacement of a branch lies in its own bytes. -/
theorem fieldOf_within {op : MachineOp} (known : op ∈ jumpOps ++ callOps) {k : Nat}
    {target : Int} (branch : JumpAt fn.instrs op target k) {enc after : Encoder}
    (first : encoderAt fn ra k = some enc) (last : encoderAt fn ra (k + 1) = some after)
    {pos : Nat} (field : fieldOf fn ra op k = some pos) :
    enc.buf.length ≤ pos ∧ pos + kRel32DispBytes ≤ after.buf.length := by
  obtain ⟨mi, found, rfl, given⟩ := branch
  obtain ⟨inside, rfl⟩ := List.getElem?_eq_some_iff.mp found
  obtain ⟨enc', reached, advances⟩ := encoderAt_succ last inside
  cases first.symm.trans reached
  have room := advances.room known (Option.ne_none_iff_exists'.mpr ⟨target, given⟩)
  rw [fieldOf, placeOf, last, Option.map_some, Option.map_some, Option.some.injEq] at field
  omega

theorem encodeOne_encoder {code : List Byte} {calls : List (Nat × Int)}
    (encoded : encodeOne fn ra = .ok (code, calls)) :
    ∃ enc, encoderAt fn ra fn.instrs.length = some enc ∧ calls = enc.callFixups ∧
      enc.jumpFixups.foldlM (resolveJump enc) enc.buf = .ok code := by
  obtain ⟨pmoves, params, encoded⟩ := except_bind_ok.mp encoded
  obtain ⟨enc, ran, encoded⟩ := except_bind_ok.mp encoded
  split at encoded
  case isTrue => cases encoded
  case isFalse =>
    obtain ⟨patched, resolved, same⟩ := except_bind_ok.mp encoded
    cases same
    refine ⟨enc, toOption_eq_some.mpr (except_bind_ok.mpr ⟨pmoves, params, ?_⟩), rfl, resolved⟩
    rwa [List.take_of_length_le (by rw [List.length_zipIdx])]

/-- The displacements of the jumps end, and those of the calls start, less than four gigabytes
behind the start of the function. -/
structure NearFunction (fn : MachineFunction) (ra : LinearScan.ScanState) : Prop where
  jumps : ∀ op ∈ jumpOps, ∀ j label pos, JumpAt fn.instrs op label j →
    fieldOf fn ra op j = some pos → pos + kRel32DispBytes ≤ 2 ^ 32
  calls : ∀ j callee pos, JumpAt fn.instrs .call callee j →
    fieldOf fn ra .call j = some pos → pos < 2 ^ 32

/-- All functions of a module are near. -/
def Near (fns : List ModuleFunction) : Prop :=
  ∀ f ∈ fns, ∀ mf ra, f.mf = some mf → f.ra = some ra → NearFunction mf ra

/-- Functions shorter than four gigabytes have no far displacements. -/
theorem near_of_short {fns : List ModuleFunction}
    (short : ∀ f ∈ fns, ∀ mf ra, f.mf = some mf → f.ra = some ra →
      ∃ size < 2 ^ 32, placeOf mf ra mf.instrs.length = some size) : Near fns := by
  intro f member mf ra given given'
  have ends (op : MachineOp) (known : op ∈ jumpOps ++ callOps) (j : Nat) (target : Int)
      (pos : Nat) (branch : JumpAt mf.instrs op target j) (field : fieldOf mf ra op j = some pos) :
      pos + kRel32DispBytes ≤ 2 ^ 32 := by
    obtain ⟨size, small, stands⟩ := short f member mf ra given given'
    obtain ⟨last, reached, length⟩ := Option.map_eq_some_iff.mp stands
    obtain ⟨inside, -⟩ := exists_fieldOf reached branch
    obtain ⟨enc, before⟩ := exists_encoderAt le_rfl reached (Nat.le_of_lt inside)
    obtain ⟨after, behind⟩ := exists_encoderAt le_rfl reached inside
    have own := fieldOf_within known branch before behind field
    have order := encoderAt_length_le inside le_rfl behind reached
    omega
  constructor
  · intro op known
    exact ends op (List.mem_append_left _ known)
  · intro j callee pos call field
    have low := ends .call (by decide) j callee pos call field
    simp only [kRel32DispBytes] at low
    omega

theorem map_narrow {fixups : List (Nat × Int)} (near : ∀ fixup ∈ fixups, fixup.1 < 2 ^ 32) :
    fixups.map narrow = fixups := by
  have same : ∀ fixup ∈ fixups, narrow fixup = id fixup := fun fixup member =>
    Prod.ext (Nat.mod_eq_of_lt (near fixup member)) rfl
  rw [List.map_congr_left same, List.map_id]

/-- Calls that start below four gigabytes are stored as they are. -/
theorem Describes.callFixups {j : Nat} {enc : Encoder} {body : List Item}
    (described : Describes fn ra j enc body)
    (near : ∀ j callee pos, JumpAt fn.instrs .call callee j →
      fieldOf fn ra .call j = some pos → pos < 2 ^ 32) :
    enc.callFixups = fixups true 0 (prologueItems ++ body) := by
  rw [described.emits.calls]
  apply map_narrow
  intro fixup member
  obtain ⟨i, -, op, known, call, field⟩ := (described.calls fixup).mp member
  rw [List.mem_singleton.mp known] at call field
  exact near i _ _ call field

/-- Jumps that start below four gigabytes are stored as they are. -/
theorem Describes.jumpFixups {j : Nat} {enc : Encoder} {body : List Item}
    (described : Describes fn ra j enc body)
    (near : ∀ op ∈ jumpOps, ∀ j label pos, JumpAt fn.instrs op label j →
      fieldOf fn ra op j = some pos → pos < 2 ^ 32) :
    enc.jumpFixups = fixups false 0 (prologueItems ++ body) := by
  rw [described.emits.jumps]
  apply map_narrow
  intro fixup member
  obtain ⟨i, -, op, known, jump, field⟩ := (described.jumps fixup).mp member
  exact near op known i _ _ jump field

/-- A near function encodes to its items, with the jumps filled in. -/
theorem encodeOne_items (near : NearFunction fn ra) {out : List Byte}
    {calls : List (Nat × Int)} (encoded : encodeOne fn ra = .ok (out, calls)) :
    ∃ enc body filling, encoderAt fn ra fn.instrs.length = some enc ∧
      Describes fn ra fn.instrs.length enc body ∧
        out = fill filling 0 (prologueItems ++ body) ∧
          Resolved filling 0 (prologueItems ++ body) ∧
            calls = fixups true 0 (prologueItems ++ body) := by
  obtain ⟨enc, reached, rfl, resolved⟩ := encodeOne_encoder encoded
  obtain ⟨body, described⟩ := describes fn ra le_rfl reached
  have low : ∀ fixup ∈ fixups false 0 (prologueItems ++ body),
      fixup.1 + kRel32DispBytes ≤ 2 ^ 32 := by
    intro fixup member
    obtain ⟨i, -, op, known, jump, field⟩ := (described.jumps fixup).mp member
    exact near.jumps op known i _ _ jump field
  rw [described.jumpFixups fun op known j label pos jump field => Nat.lt_of_lt_of_le
    (Nat.lt_add_of_pos_right (by decide)) (near.jumps op known j label pos jump field),
    described.emits.buf] at resolved
  have patches : ∀ fixup ∈ fixups false 0 (prologueItems ++ body), ∀ out after,
      resolveJump enc out fixup = .ok after →
        ∃ rel, (∃ target, enc.labelPos.lookup fixup.2 = some target ∧
          rel32 fixup.1 target = some rel) ∧ after = patch out (fixup.1 - 0) rel := by
    intro fixup member out after patched
    obtain ⟨rel, fits, rfl⟩ := resolveJump_patch patched
    exact ⟨rel, fits, patchJump_eq (low fixup member) out rel⟩
  obtain ⟨filled, rfl, fitted, -⟩ := patches_fill patches (fixups_ascending _ _ _)
    (fun _ member => member) resolved
  rw [described.emits.labels] at fitted
  exact ⟨enc, body, filled, reached, described, rfl, fitted, described.callFixups near.calls⟩

end Function

/-- The displacement in the four bytes from a position on. -/
def fieldAt (out : List Byte) (pos : Nat) : Option (BitVec 32) :=
  (X86.littleEndian kRel32DispBytes ((out.drop pos).take kRel32DispBytes)).map Prod.fst

theorem patch_eq_write {out : List Byte} {pos : Nat} (inside : pos + 4 ≤ out.length)
    (rel : BitVec 32) : patch out pos rel = write out pos (X86.toLittleEndian 4 rel) := by
  have front : (out.take pos).length = pos := by
    rw [List.length_take]
    omega
  have whole : out = out.take pos ++ (out.drop pos).take 4 ++ out.drop (pos + 4) := by
    rw [List.append_assoc, ← List.drop_drop, List.take_append_drop, List.take_append_drop]
  have four : ((out.drop pos).take 4).length = 4 := by
    rw [List.length_take, List.length_drop]
    omega
  have patched := patch_bytes (out.take pos) _ (out.drop (pos + 4)) four rel
  rw [← whole, front] at patched
  rw [patched, write, toLittleEndian_length]

theorem fieldAt_patch {out : List Byte} {pos : Nat} (inside : pos + 4 ≤ out.length)
    (rel : BitVec 32) : fieldAt (patch out pos rel) pos = some rel := by
  have length := toLittleEndian_length 4 rel
  change (X86.littleEndian 4 (((patch out pos rel).drop pos).take 4)).map Prod.fst = _
  rw [patch_eq_write inside, drop_write (by rw [length]; exact inside),
    List.take_append_of_le_length (by rw [length]), List.take_of_length_le (by rw [length]),
    ← List.append_nil (X86.toLittleEndian 4 rel), X86.littleEndian_toLittleEndian 4 rel]
  rfl

theorem agreeOutside_patch {out : List Byte} {pos : Nat} (inside : pos + 4 ≤ out.length)
    (rel : BitVec 32) : AgreeOutside kRel32DispBytes [pos] (patch out pos rel) out := by
  have agree := @agreeOutside_write _ out (X86.toLittleEndian 4 rel) pos
    (by rw [toLittleEndian_length]; exact inside)
  rwa [toLittleEndian_length, ← patch_eq_write inside] at agree

theorem fieldAt_congr {places : List Nat} {out other : List Byte} {pos : Nat}
    (agree : AgreeOutside kRel32DispBytes places out other)
    (apart : ∀ p ∈ places, Apart kRel32DispBytes pos p) :
    fieldAt out pos = fieldAt other pos := by
  rw [fieldAt, fieldAt, agree.take_drop apart]

/-- Patching displacements that do not overlap: each is filled in, and nothing else
changes. -/
theorem patches_agree {step : List Byte → Nat × Int → Except EncodeError (List Byte)}
    {Fits : Nat × Int → BitVec 32 → Prop} {todo : List (Nat × Int)}
    (patches : ∀ fixup ∈ todo, ∀ out after, step out fixup = .ok after →
      ∃ rel, Fits fixup rel ∧ after = patch out fixup.1 rel)
    (apart : todo.Pairwise fun a b => Apart kRel32DispBytes a.1 b.1)
    {out after : List Byte} (inside : ∀ fixup ∈ todo, fixup.1 + kRel32DispBytes ≤ out.length)
    (patched : todo.foldlM step out = .ok after) :
    AgreeOutside kRel32DispBytes (todo.map Prod.fst) after out ∧
      ∀ fixup ∈ todo, ∃ rel, Fits fixup rel ∧ fieldAt after fixup.1 = some rel := by
  induction todo generalizing out with
  | nil =>
      cases patched
      exact ⟨.refl _ _, nofun⟩
  | cons fixup todo ih =>
      rw [List.foldlM_cons] at patched
      obtain ⟨mid, first, rest⟩ := except_bind_ok.mp patched
      obtain ⟨rel, fits, rfl⟩ := patches fixup List.mem_cons_self _ _ first
      rw [List.pairwise_cons] at apart
      have here := inside fixup List.mem_cons_self
      have changed := agreeOutside_patch here rel
      obtain ⟨agree, fields⟩ := ih
        (fun other member => patches other (List.mem_cons_of_mem _ member)) apart.2
        (fun other member => by
          rw [changed.length]
          exact inside other (List.mem_cons_of_mem _ member)) rest
      refine ⟨?_, fun other member => ?_⟩
      · have both := agree.trans changed
        refine ⟨both.length, fun i outside => both.same i fun pos member => outside pos ?_⟩
        rw [List.map_cons]
        rcases List.mem_append.mp member with later | first
        · exact List.mem_cons_of_mem _ later
        · rw [List.mem_singleton.mp first]
          exact List.mem_cons_self
      · rcases List.mem_cons.mp member with rfl | later
        · refine ⟨rel, fits, ?_⟩
          rw [fieldAt_congr agree, fieldAt_patch here]
          intro p member
          obtain ⟨later, among, rfl⟩ := List.mem_map.mp member
          exact apart.1 later among
        · exact fields other later

/-- Every displacement of a successful pass was patched. -/
theorem step_of_foldlM {α σ ε : Type} {step : σ → α → Except ε σ} {todo : List α} {s last : σ}
    (ran : todo.foldlM step s = .ok last) : ∀ x ∈ todo, ∃ s s', step s x = .ok s' := by
  induction todo generalizing s with
  | nil => nofun
  | cons x todo ih =>
      rw [List.foldlM_cons] at ran
      obtain ⟨mid, first, rest⟩ := except_bind_ok.mp ran
      intro y member
      rcases List.mem_cons.mp member with rfl | later
      · exact ⟨s, mid, first⟩
      · exact ih rest y later

end ExecEncoder

end Aegis
