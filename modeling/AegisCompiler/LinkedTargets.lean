import AegisCompiler.BranchPlaces
import AegisCompiler.LinkedModules

/-!
# The targets of jumps and calls

The source keeps the positions of displacements in 32 bits.  Below four gigabytes of
code for a function, every jump leads to its label and every call to its callee.  A
displacement behind that is looked for at the wrong place, and one that reaches over the
border keeps only its first bytes.
-/

namespace Aegis

namespace ExecEncoder

open LiveIntervals (LabelAt JumpAt DistinctLabels)
open WindowWrites
open X86 (Byte Reg)

/-- The displacement at a position leads from the address behind it to a target. -/
def LeadsTo (image : List Byte) (pos target : Nat) : Prop :=
  ∃ rel : BitVec 32, fieldAt image pos = some rel ∧
    ((pos + kRel32DispBytes : Nat) : Int) + rel.toInt = target

theorem rel32_eq_some_iff {pos target : Nat} {rel : BitVec 32} :
    rel32 pos target = some rel ↔
      ((pos + kRel32DispBytes : Nat) : Int) + rel.toInt = target := by
  have low := BitVec.le_toInt rel
  have high := BitVec.toInt_lt (x := rel)
  simp only [rel32]
  constructor
  · intro fits
    split at fits
    case isTrue => cases fits
    case isFalse bounds =>
      obtain rfl := Option.some.inj fits
      rw [BitVec.toInt_ofInt, Int.bmod_eq_of_le (by omega) (by omega)]
      omega
  · intro leads
    rw [if_neg (by omega)]
    have same : (target : Int) - (pos + kRel32DispBytes : Int) = rel.toInt := by omega
    rw [same, BitVec.ofInt_toInt]

/-- A displacement is too short for a target that the truncated position reaches. -/
theorem not_leadsTo_of_narrow {pos offset target : Nat} {rel : BitVec 32}
    (far : 2 ^ 32 ≤ pos) (fits : rel32 (offset + pos % 2 ^ 32) target = some rel)
    {image : List Byte} : ¬ LeadsTo image (offset + pos) target := by
  rintro ⟨other, -, leads⟩
  rw [rel32_eq_some_iff] at fits
  have high := BitVec.toInt_lt (x := rel)
  have low := BitVec.le_toInt other
  omega

section Bytes

variable {place : Nat → Nat} {out : List Byte} {rel : BitVec 32} {b : Nat}

/-- The bytes of a displacement that is written from a number of places on. -/
theorem getElem?_patchAt_of_ne (apart : ∀ i < kRel32DispBytes, place i ≠ b) :
    (patchAt place out rel)[b]? = out[b]? := by
  unfold patchAt
  generalize kRel32DispBytes = n at apart ⊢
  induction n with
  | zero => rfl
  | succ n ih =>
      rw [List.range_succ, List.foldl_concat, List.getElem?_set_ne (apart n n.lt_succ_self)]
      exact ih fun i below => apart i (below.trans n.lt_succ_self)

theorem getElem?_patchAt_of_eq {i : Nat} (below : i < kRel32DispBytes) (here : place i = b)
    (others : ∀ j < kRel32DispBytes, place j = b → j = i) :
    (patchAt place out rel)[b]? = out[b]?.map fun _ => (rel >>> (8 * i)).setWidth 8 := by
  have kept (n : Nat) : ((List.range n).foldl
      (fun out i => out.set (place i) ((rel >>> (8 * i)).setWidth 8)) out).length =
        out.length := by
    induction n with
    | zero => rfl
    | succ n ih => rw [List.range_succ, List.foldl_concat, List.length_set, ih]
  unfold patchAt
  generalize kRel32DispBytes = n at below others ⊢
  induction n with
  | zero => cases below
  | succ n ih =>
      rw [List.range_succ, List.foldl_concat]
      rcases Nat.lt_succ_iff_lt_or_eq.mp below with before | rfl
      · have apart : place n ≠ b := fun same => by
          rw [others n n.lt_succ_self same] at before
          exact Nat.lt_irrefl _ before
        rw [List.getElem?_set_ne apart]
        exact ih before fun j low => others j (low.trans n.lt_succ_self)
      · rw [here, List.getElem?_set, if_pos rfl, kept]
        split
        case isTrue inside => rw [List.getElem?_eq_getElem inside, Option.map_some]
        case isFalse outside =>
          rw [List.getElem?_eq_none (Nat.not_lt.mp outside), Option.map_none]

end Bytes

/-- What is written of a displacement at a position: its bytes in front of four gigabytes. -/
def stored (pos : Nat) (rel : BitVec 32) : BitVec 32 :=
  (rel.setWidth (8 * min kRel32DispBytes (2 ^ 32 - pos))).setWidth 32

theorem stored_byte (pos : Nat) (rel : BitVec 32) {i : Nat} (below : i < kRel32DispBytes) :
    (stored pos rel >>> (8 * i)).setWidth 8 =
      if pos + i < 2 ^ 32 then (rel >>> (8 * i)).setWidth 8 else 0#8 := by
  apply BitVec.eq_of_getLsbD_eq
  intro k low
  simp only [kRel32DispBytes] at below
  have inside : 8 * i + k < 32 := by omega
  have kept : 8 * i + k < 8 * min kRel32DispBytes (2 ^ 32 - pos) ↔ pos + i < 2 ^ 32 := by
    simp only [kRel32DispBytes]
    omega
  rw [apply_ite (fun byte : Byte => byte.getLsbD k)]
  simp only [stored, BitVec.getLsbD_setWidth, BitVec.getLsbD_ushiftRight, low, inside, kept,
    decide_true, Bool.true_and, BitVec.getLsbD_zero]
  by_cases pos + i < 2 ^ 32 <;> simp [*]

/-- A jump keeps its displacement: it ends below four gigabytes, or it leads forwards so near
that the bytes that are not written are zeros. -/
def Kept (pos place : Nat) : Prop :=
  pos + kRel32DispBytes ≤ 2 ^ 32 ∨
    pos + kRel32DispBytes ≤ place ∧ place < pos + kRel32DispBytes + 256 ^ (2 ^ 32 - pos)

theorem stored_eq_self_iff {pos place : Nat} {rel : BitVec 32}
    (fits : rel32 pos place = some rel) (start : pos < 2 ^ 32) :
    stored pos rel = rel ↔ Kept pos place := by
  have reaches := rel32_eq_some_iff.mp fits
  have value : (stored pos rel).toNat =
      rel.toNat % 2 ^ (8 * min kRel32DispBytes (2 ^ 32 - pos)) := by
    rw [stored, BitVec.toNat_setWidth, BitVec.toNat_setWidth]
    apply Nat.mod_eq_of_lt
    apply Nat.lt_of_lt_of_le (Nat.mod_lt _ (Nat.two_pow_pos _))
    apply Nat.pow_le_pow_right (by decide)
    simp only [kRel32DispBytes]
    omega
  have small := rel.isLt
  have integer := BitVec.toInt_eq_toNat_cond rel
  rw [← BitVec.toNat_inj, value, Kept]
  simp only [kRel32DispBytes] at reaches ⊢
  by_cases ends : pos + 4 ≤ 2 ^ 32
  · rw [Nat.min_eq_left (by omega), Nat.mod_eq_of_lt small]
    exact iff_of_true rfl (.inl ends)
  · obtain some | some | some : 2 ^ 32 - pos = 1 ∨ 2 ^ 32 - pos = 2 ∨ 2 ^ 32 - pos = 3 := by
      omega
    all_goals
      have bytes : min 4 (2 ^ 32 - pos) = 2 ^ 32 - pos := by omega
      rw [bytes, some]
      norm_num only at *
      split at integer <;> omega

/-- An item's displacement is filled in with these bytes. -/
theorem fieldAt_fill {calls : Bool} {q : Nat} {target : Int} {items : List Item}
    (member : (q, target) ∈ fixups calls 0 items) (filling : Filling) :
    fieldAt (fill filling 0 items) q = some (filling q) := by
  have inside := (fixups_within member).2
  rw [Nat.zero_add] at inside
  have patched := patch_fill member filling (filling q)
  rw [Function.update_eq_self, Nat.sub_zero] at patched
  rw [← patched]
  apply fieldAt_patch
  rw [fill_length]
  exact inside

theorem fill_blank {calls : Bool} {q : Nat} {target : Int} {items : List Item}
    (member : (q, target) ∈ fixups calls 0 items) {filling : Filling} (blank : filling q = 0)
    {i : Nat} (below : i < kRel32DispBytes) :
    (fill filling 0 items)[q + i]? = (fill filling 0 items)[q + i]?.map fun _ => 0#8 := by
  have patched := patch_fill member filling 0
  rw [← blank, Function.update_eq_self, Nat.sub_zero, blank] at patched
  have byte := @getElem?_patchAt_of_eq (fun i => q + i) (fill filling 0 items) 0 _ i below rfl
    fun j _ same => Nat.add_left_cancel same
  have zeros : ((0#32 >>> (8 * i)).setWidth 8 : Byte) = 0#8 := by simp
  calc
    (fill filling 0 items)[q + i]? = (patch (fill filling 0 items) q 0)[q + i]? := by rw [patched]
    _ = (fill filling 0 items)[q + i]?.map fun _ => 0#8 := by rw [← zeros]; exact byte

/-- Code that is the items' behind its first bytes. -/
abbrev AgreesBehind (code : List Byte) (filling : Filling) (items : List Item) : Prop :=
  AgreeOutside kRel32DispBytes [0] code (fill filling 0 items)

/-- Patching a jump that starts below four gigabytes writes what is stored of its displacement;
what goes over the border lands in front. -/
theorem AgreesBehind.patchJump {q : Nat} {target : Int} {items : List Item}
    (member : (q, target) ∈ fixups false 0 items) (start : q < 2 ^ 32)
    (behind : kRel32DispBytes ≤ q) {filling : Filling} (blank : filling q = 0)
    {out : List Byte} (agrees : AgreesBehind out filling items) (rel : BitVec 32) :
    AgreesBehind (patchJump out q rel) (Function.update filling q (stored q rel)) items := by
  have filled := patch_fill member filling (stored q rel)
  rw [Nat.sub_zero] at filled
  have kept (place : Nat → Nat) (out : List Byte) (rel : BitVec 32) :
      (patchAt place out rel).length = out.length := by
    simp [patchAt, List.range_succ, kRel32DispBytes]
  constructor
  · rw [← filled]
    exact (kept _ _ _).trans (agrees.length.trans (kept _ _ _).symm)
  intro b outside
  have same := agrees.same b outside
  have after : kRel32DispBytes ≤ b := by
    have here := outside 0 (List.mem_singleton_self 0)
    simp only [WindowWrites.Inside] at here
    omega
  rw [← filled]
  simp only [kRel32DispBytes] at after behind
  by_cases inField : q ≤ b ∧ b < q + 4
  · obtain ⟨i, below, rfl⟩ : ∃ i < kRel32DispBytes, b = q + i :=
      ⟨b - q, by simp only [kRel32DispBytes]; omega, by omega⟩
    have byte := @getElem?_patchAt_of_eq (fun i => q + i) (fill filling 0 items) (stored q rel) _ i
      below rfl fun j _ same => Nat.add_left_cancel same
    rw [stored_byte q rel below] at byte
    rw [show ExecEncoder.patch _ q _ = patchAt (fun i => q + i) _ _ from rfl, byte]
    by_cases front : q + i < 2 ^ 32
    · have here : (fun i => (q + i) % 2 ^ 32) i = q + i := Nat.mod_eq_of_lt front
      rw [if_pos front, ← same]
      apply getElem?_patchAt_of_eq below here
      intro j low wrapped
      simp only [kRel32DispBytes] at low
      omega
    · rw [if_neg front, ← fill_blank member blank below, ← same]
      apply getElem?_patchAt_of_ne
      intro j low wrapped
      simp only [kRel32DispBytes] at low
      omega
  · have field : (patchAt (fun i => q + i) (fill filling 0 items) (stored q rel))[b]? =
        (fill filling 0 items)[b]? := by
      apply getElem?_patchAt_of_ne
      intro j low here
      simp only [kRel32DispBytes] at low
      omega
    rw [show ExecEncoder.patch _ q _ = patchAt (fun i => q + i) _ _ from rfl, field, ← same]
    apply getElem?_patchAt_of_ne
    intro j low wrapped
    simp only [kRel32DispBytes] at low
    omega

/-- Resolving jumps that start below four gigabytes stores their displacements. -/
theorem jumps_stored {enc : Encoder} {items : List Item} {todo : List (Nat × Int)}
    (ascending : todo.Pairwise fun a b => a.1 + kRel32DispBytes ≤ b.1)
    (members : ∀ fixup ∈ todo, fixup ∈ fixups false 0 items)
    (starts : ∀ fixup ∈ todo, fixup.1 < 2 ^ 32)
    (behind : ∀ fixup ∈ todo, kRel32DispBytes ≤ fixup.1) {filling : Filling}
    (blank : ∀ fixup ∈ todo, filling fixup.1 = 0) {out code : List Byte}
    (agrees : AgreesBehind out filling items)
    (resolved : todo.foldlM (resolveJump enc) out = .ok code) :
    ∃ filled, AgreesBehind code filled items ∧
      (∀ fixup ∈ todo, ∃ target rel, enc.labelPos.lookup fixup.2 = some target ∧
        rel32 fixup.1 target = some rel ∧ filled fixup.1 = stored fixup.1 rel) ∧
          ∀ q, (∀ fixup ∈ todo, fixup.1 ≠ q) → filled q = filling q := by
  induction todo generalizing out filling with
  | nil =>
      cases resolved
      exact ⟨filling, agrees, nofun, fun _ _ => rfl⟩
  | cons fixup todo ih =>
      rw [List.foldlM_cons] at resolved
      obtain ⟨mid, first, rest⟩ := except_bind_ok.mp resolved
      obtain ⟨rel, ⟨target, found, fits⟩, rfl⟩ := resolveJump_patch first
      rw [List.pairwise_cons] at ascending
      have apart : ∀ later ∈ todo, later.1 ≠ fixup.1 := by
        intro later member
        have further := ascending.1 later member
        simp only [kRel32DispBytes] at further
        omega
      have written := AgreesBehind.patchJump (members fixup List.mem_cons_self)
        (starts fixup List.mem_cons_self) (behind fixup List.mem_cons_self)
        (blank fixup List.mem_cons_self) agrees rel
      obtain ⟨filled, agrees, fields, others⟩ := ih ascending.2
        (fun later member => members later (List.mem_cons_of_mem _ member))
        (fun later member => starts later (List.mem_cons_of_mem _ member))
        (fun later member => behind later (List.mem_cons_of_mem _ member))
        (fun later member => by
          rw [Function.update_of_ne (apart later member)]
          exact blank later (List.mem_cons_of_mem _ member)) written rest
      refine ⟨filled, agrees, fun other member => ?_, fun q untouched => ?_⟩
      · rcases List.mem_cons.mp member with rfl | later
        · refine ⟨target, rel, found, fits, ?_⟩
          rw [others other.1 apart, Function.update_self]
        · exact fields other later
      · rw [others q fun later member => untouched later (List.mem_cons_of_mem _ member),
          Function.update_of_ne (untouched fixup List.mem_cons_self).symm]

/-- The code of a function and its calls. -/
abbrev Part := List Byte × List (Nat × Int)

def sizeOfParts (parts : List Part) : Nat := (parts.map Prod.fst).flatten.length

def emittedFrom : Nat → List Part → List Emitted
  | _, [] => []
  | pos, part :: parts => ⟨pos, part.2⟩ :: emittedFrom (pos + part.1.length) parts

/-- The calls of functions in a row, with their positions in the image. -/
def callsFrom : Nat → List Part → List (Nat × Int)
  | _, [] => []
  | pos, part :: parts =>
      (part.2.map fun call => (pos + call.1, call.2)) ++
        callsFrom (pos + part.1.length) parts

theorem emittedFrom_calls (pos : Nat) (parts : List Part) :
    (emittedFrom pos parts).flatMap (fun e =>
      e.calls.map fun call => (e.offset + call.1, call.2)) = callsFrom pos parts := by
  induction parts generalizing pos with
  | nil => rfl
  | cons part parts ih => rw [emittedFrom, List.flatMap_cons, ih, callsFrom]

theorem sizeOfParts_cons (part : Part) (parts : List Part) :
    sizeOfParts (part :: parts) = part.1.length + sizeOfParts parts := by
  simp [sizeOfParts]

theorem callsFrom_append (pos : Nat) (front back : List Part) :
    callsFrom pos (front ++ back) =
      callsFrom pos front ++ callsFrom (pos + sizeOfParts front) back := by
  induction front generalizing pos with
  | nil => rfl
  | cons part front ih =>
      rw [List.cons_append, callsFrom, callsFrom, ih, sizeOfParts_cons, List.append_assoc,
        Nat.add_assoc]

theorem emittedFrom_append (pos : Nat) (front back : List Part) :
    emittedFrom pos (front ++ back) =
      emittedFrom pos front ++ emittedFrom (pos + sizeOfParts front) back := by
  induction front generalizing pos with
  | nil => rfl
  | cons part front ih =>
      rw [List.cons_append, emittedFrom, emittedFrom, ih, sizeOfParts_cons, List.cons_append,
        Nat.add_assoc]

theorem length_emittedFrom (pos : Nat) (parts : List Part) :
    (emittedFrom pos parts).length = parts.length := by
  induction parts generalizing pos with
  | nil => rfl
  | cons part parts ih => rw [emittedFrom, List.length_cons, ih, List.length_cons]

/-- The calls lie in the code and do not overlap. -/
structure SpreadPart (part : Part) : Prop where
  inside : ∀ call ∈ part.2, call.1 + kRel32DispBytes ≤ part.1.length
  apart : part.2.Pairwise fun a b => Apart kRel32DispBytes a.1 b.1

theorem callsFrom_inside {pos : Nat} {parts : List Part}
    (spread : ∀ part ∈ parts, SpreadPart part) :
    ∀ call ∈ callsFrom pos parts,
      pos ≤ call.1 ∧ call.1 + kRel32DispBytes ≤ pos + sizeOfParts parts := by
  induction parts generalizing pos with
  | nil => nofun
  | cons part parts ih =>
      intro call member
      rw [sizeOfParts_cons]
      rcases List.mem_append.mp member with here | later
      · obtain ⟨own, among, rfl⟩ := List.mem_map.mp here
        have inside := (spread part List.mem_cons_self).inside own among
        simp only
        omega
      · have within := ih (fun other among => spread other (List.mem_cons_of_mem _ among))
          call later
        omega

theorem callsFrom_apart {pos : Nat} {parts : List Part}
    (spread : ∀ part ∈ parts, SpreadPart part) :
    (callsFrom pos parts).Pairwise fun a b => Apart kRel32DispBytes a.1 b.1 := by
  induction parts generalizing pos with
  | nil => exact .nil
  | cons part parts ih =>
      have others : ∀ other ∈ parts, SpreadPart other := fun other among =>
        spread other (List.mem_cons_of_mem _ among)
      have own := spread part List.mem_cons_self
      rw [callsFrom, List.pairwise_append]
      refine ⟨List.pairwise_map.mpr (own.apart.imp fun apart => ?_), ih others, ?_⟩
      · simp only [Apart] at apart ⊢
        omega
      · intro first here second later
        obtain ⟨call, among, rfl⟩ := List.mem_map.mp here
        have inside := own.inside call among
        have behind := callsFrom_inside others second later
        simp only [Apart]
        omega

/-- The function is encoded to these bytes and calls. -/
def EncodesTo (f : ModuleFunction) (part : Part) : Prop :=
  ∃ mf ra, f.mf = some mf ∧ f.ra = some ra ∧ encodeOne mf ra = .ok part

theorem emitFunctions_parts {fns : List ModuleFunction} {state after : List Byte × List Emitted}
    (ran : fns.foldlM emitFunction state = .ok after) :
    ∃ parts, List.Forall₂ EncodesTo fns parts ∧
      after = (state.1 ++ (parts.map Prod.fst).flatten,
        state.2 ++ emittedFrom state.1.length parts) := by
  induction fns generalizing state with
  | nil =>
      cases ran
      exact ⟨[], .nil, by simp [emittedFrom]⟩
  | cons f fns ih =>
      rw [List.foldlM_cons] at ran
      obtain ⟨mid, first, rest⟩ := except_bind_ok.mp ran
      unfold emitFunction at first
      split at first
      case h_2 => cases first
      case h_1 mf ra given given' =>
        obtain ⟨part, encoded, same⟩ := except_bind_ok.mp first
        cases same
        obtain ⟨parts, encode, rfl⟩ := ih rest
        refine ⟨part :: parts, .cons ⟨mf, ra, given, given', encoded⟩ encode, ?_⟩
        simp [emittedFrom]

/-- The offset of the first function with a symbol. -/
theorem entryOf_eq {fns : List ModuleFunction} {emitted : List Emitted}
    (same : fns.length = emitted.length) (callee : Int) :
    entryOf fns emitted callee =
      (fns.findIdx? fun f => decide ((f.symbol.toNat : Int) = callee)).bind
        fun n => (emitted.map (·.offset))[n]? := by
  unfold entryOf
  induction fns generalizing emitted with
  | nil => rfl
  | cons f fns ih =>
      cases emitted with
      | nil => cases same
      | cons e emitted =>
          rw [List.zip_cons_cons, List.find?_cons, List.findIdx?_cons]
          by_cases here : (f.symbol.toNat : Int) = callee
          · simp [here]
          · have later := ih (Nat.succ.inj same)
            simp only [here, decide_false]
            rw [later]
            simp [Option.bind_map]

theorem module_parts {fns : List ModuleFunction} {image : List Byte} {entries : List Nat}
    (encoded : encodeModule fns = .ok (image, entries)) :
    ∃ parts, List.Forall₂ EncodesTo fns parts ∧
      entries = (emittedFrom 0 parts).map (·.offset) ∧
        (callsFrom 0 parts).foldlM (resolveCall fns (emittedFrom 0 parts) 0)
          (parts.map Prod.fst).flatten = .ok image := by
  unfold encodeModule at encoded
  split at encoded
  case isTrue => cases encoded
  case isFalse =>
    obtain ⟨⟨out, emitted⟩, laid, encoded⟩ := except_bind_ok.mp encoded
    obtain ⟨patched, resolved, same⟩ := except_bind_ok.mp encoded
    cases same
    obtain ⟨parts, encode, same⟩ := emitFunctions_parts laid
    obtain ⟨rfl, rfl⟩ := Prod.mk.inj same
    simp only [List.nil_append, List.length_nil] at resolved ⊢
    rw [foldlM_resolveCall, emittedFrom_calls] at resolved
    exact ⟨parts, encode, rfl, resolved⟩

theorem resolveCall_entry {fns : List ModuleFunction} {emitted : List Emitted}
    {out after : List Byte} {call : Nat × Int}
    (resolved : resolveCall fns emitted 0 out call = .ok after) :
    ∃ rel, (∃ target, entryOf fns emitted call.2 = some target ∧
      rel32 call.1 target = some rel) ∧ after = patch out call.1 rel := by
  unfold resolveCall at resolved
  split at resolved
  case h_1 => cases resolved
  case h_2 target found =>
    split at resolved
    case h_1 => cases resolved
    case h_2 rel fits =>
      cases resolved
      rw [Nat.zero_add] at fits ⊢
      exact ⟨rel, ⟨target, found, fits⟩, rfl⟩

/-- A function of the module, with its entry. -/
def StandsAt (fns : List ModuleFunction) (entries : List Nat) (mf : MachineFunction)
    (ra : LinearScan.ScanState) (entry : Nat) : Prop :=
  ∃ (i : Nat) (f : ModuleFunction), fns[i]? = some f ∧ f.mf = some mf ∧ f.ra = some ra ∧
    entries[i]? = some entry

theorem standsAt_split {fns : List ModuleFunction} {parts : List Part}
    (encode : List.Forall₂ EncodesTo fns parts) {mf : MachineFunction}
    {ra : LinearScan.ScanState} {entry : Nat}
    (stands : StandsAt fns ((emittedFrom 0 parts).map (·.offset)) mf ra entry) :
    ∃ front part back, parts = front ++ part :: back ∧ entry = sizeOfParts front ∧
      encodeOne mf ra = .ok part := by
  obtain ⟨i, f, found, given, given', place⟩ := stands
  obtain ⟨inside, rfl⟩ := List.getElem?_eq_some_iff.mp found
  have within : i < parts.length := encode.length_eq ▸ inside
  have split : parts = parts.take i ++ parts[i] :: parts.drop (i + 1) := by
    rw [← List.drop_eq_getElem_cons within, List.take_append_drop]
  have front : (parts.take i).length = i := by
    rw [List.length_take]
    omega
  obtain ⟨mf', ra', same, same', encoded⟩ := encode.get inside within
  obtain rfl := Option.some.inj (given.symm.trans same)
  obtain rfl := Option.some.inj (given'.symm.trans same')
  refine ⟨_, _, _, split, ?_, encoded⟩
  rw [split, emittedFrom_append, List.getElem?_map, List.getElem?_append_right (by
    rw [length_emittedFrom, front]), length_emittedFrom, front, Nat.sub_self] at place
  simpa [emittedFrom] using place.symm

theorem exists_standsAt {fns : List ModuleFunction} {entries : List Nat}
    (length : fns.length = entries.length) {f : ModuleFunction} (member : f ∈ fns)
    {mf : MachineFunction} {ra : LinearScan.ScanState} (given : f.mf = some mf)
    (given' : f.ra = some ra) : ∃ entry, StandsAt fns entries mf ra entry := by
  obtain ⟨i, inside, rfl⟩ := List.getElem_of_mem member
  have within : i < entries.length := length ▸ inside
  exact ⟨entries[i], i, fns[i], List.getElem?_eq_getElem inside, given, given',
    List.getElem?_eq_getElem within⟩

/-- Every branch leads to its target, and the rest of a function is as it was encoded. -/
structure Linked (fns : List ModuleFunction) (image : List Byte) (entries : List Nat) :
    Prop where
  jumps : ∀ mf ra entry, StandsAt fns entries mf ra entry →
    ∀ op ∈ jumpOps, ∀ j label, JumpAt mf.instrs op label j →
      ∃ pos k place, fieldOf mf ra op j = some pos ∧ LabelAt mf.instrs label k ∧
        placeOf mf ra k = some place ∧ LeadsTo image (entry + pos) (entry + place)
  calls : ∀ mf ra entry, StandsAt fns entries mf ra entry →
    ∀ j callee, JumpAt mf.instrs .call callee j →
      ∃ pos n target, fieldOf mf ra .call j = some pos ∧
        fns.findIdx? (fun f => decide ((f.symbol.toNat : Int) = callee)) = some n ∧
          entries[n]? = some target ∧ LeadsTo image (entry + pos) target
  bytes : ∀ mf ra entry, StandsAt fns entries mf ra entry →
    ∃ code calls, encodeOne mf ra = .ok (code, calls) ∧
      ∀ b < code.length, (∀ j callee pos, JumpAt mf.instrs .call callee j →
        fieldOf mf ra .call j = some pos → ¬ WindowWrites.Inside pos kRel32DispBytes b) →
          image[entry + b]? = code[b]?

/-- The displacements of a function start less than four gigabytes behind its start. -/
def Starts (mf : MachineFunction) (ra : LinearScan.ScanState) : Prop :=
  ∀ op ∈ jumpOps ++ callOps, ∀ j target pos, JumpAt mf.instrs op target j →
    fieldOf mf ra op j = some pos → pos < 2 ^ 32

/-- All displacements of a module start early enough, and the jumps keep theirs. -/
structure Linkable (fns : List ModuleFunction) : Prop where
  starts : ∀ f ∈ fns, ∀ mf ra, f.mf = some mf → f.ra = some ra → Starts mf ra
  kept : ∀ f ∈ fns, ∀ mf ra, f.mf = some mf → f.ra = some ra →
    ∀ op ∈ jumpOps, ∀ j label pos k place, JumpAt mf.instrs op label j →
      fieldOf mf ra op j = some pos → LabelAt mf.instrs label k →
        placeOf mf ra k = some place → Kept pos place

theorem NearFunction.starts {mf : MachineFunction} {ra : LinearScan.ScanState}
    (near : NearFunction mf ra) : Starts mf ra := by
  intro op known j target pos branch field
  rcases List.mem_append.mp known with jump | call
  · have ends := near.jumps op jump j target pos branch field
    simp only [kRel32DispBytes] at ends
    omega
  · rw [List.mem_singleton.mp call] at branch field
    exact near.calls j target pos branch field

theorem Near.linkable {fns : List ModuleFunction} (near : Near fns) : Linkable fns where
  starts := fun f member mf ra given given' => (near f member mf ra given given').starts
  kept := fun f member mf ra given given' op known j label pos _ _ jump field _ _ =>
    .inl ((near f member mf ra given given').jumps op known j label pos jump field)

section Branches

variable {fn : MachineFunction} {ra : LinearScan.ScanState} {enc : Encoder}

/-- The position that a label was found at is where it stands. -/
theorem lookup_place {body : List Item} (described : Describes fn ra fn.instrs.length enc body)
    {label : Int} {place : Nat} (found : enc.labelPos.lookup label = some place) :
    ∃ k, LabelAt fn.instrs label k ∧ placeOf fn ra k = some place := by
  obtain ⟨front, back, split, -⟩ := List.lookup_eq_some_iff.mp found
  apply described.labels label place
  rw [← described.emits.labels, split]
  exact List.mem_append_right _ List.mem_cons_self

/-- A jump that starts too late misses its label. -/
theorem jump_starts (labels : DistinctLabels fn.instrs)
    (reached : encoderAt fn ra fn.instrs.length = some enc) {code : List Byte}
    (resolved : enc.jumpFixups.foldlM (resolveJump enc) enc.buf = .ok code)
    {op : MachineOp} (known : op ∈ jumpOps) {label : Int} {j pos k place entry : Nat}
    (jump : JumpAt fn.instrs op label j) (field : fieldOf fn ra op j = some pos)
    (label_ : LabelAt fn.instrs label k) (stands : placeOf fn ra k = some place)
    {image : List Byte} (leads : LeadsTo image (entry + pos) (entry + place)) :
    pos < 2 ^ 32 := by
  by_contra far
  obtain ⟨body, described⟩ := describes fn ra le_rfl reached
  have member : (pos, label) ∈ fixups false 0 (prologueItems ++ body) :=
    (described.jumps _).mpr ⟨j, (exists_fieldOf reached jump).1, op, known, jump, field⟩
  rw [described.emits.jumps] at resolved
  obtain ⟨out, after, ran⟩ := step_of_foldlM resolved _ (List.mem_map_of_mem member)
  obtain ⟨rel, ⟨target, found, fits⟩, -⟩ := resolveJump_patch ran
  obtain ⟨k', label', stands'⟩ := lookup_place described found
  obtain rfl := labels label k k' label_ label'
  obtain rfl := Option.some.inj (stands.symm.trans stands')
  rw [narrow, ← rel32_shift _ _ entry] at fits
  exact not_leadsTo_of_narrow (Nat.not_lt.mp far) fits leads

end Branches

/-- In code that is part of an image, a displacement is where it was. -/
theorem fieldAt_embed (front code back : List Byte) {pos : Nat}
    (inside : pos + kRel32DispBytes ≤ code.length) :
    fieldAt (front ++ (code ++ back)) (front.length + pos) = fieldAt code pos := by
  rw [fieldAt, fieldAt, List.drop_append, List.drop_append_of_le_length (by omega),
    List.drop_of_length_le (by omega), List.nil_append, Nat.add_sub_cancel_left,
    List.take_append_of_le_length (by rw [List.length_drop]; omega)]

theorem LeadsTo.shift {code image : List Byte} {pos target offset : Nat}
    (leads : LeadsTo code pos target)
    (same : fieldAt image (offset + pos) = fieldAt code pos) :
    LeadsTo image (offset + pos) (offset + target) := by
  obtain ⟨rel, field, reaches⟩ := leads
  refine ⟨rel, same.trans field, ?_⟩
  push_cast at reaches ⊢
  omega

section Linking

variable {front back : List Part} {part : Part}

/-- A call of the image lies in front of a function, behind it, or is its own. -/
theorem callsFrom_cases (spread : ∀ p ∈ front ++ part :: back, SpreadPart p)
    {call : Nat × Int} (member : call ∈ callsFrom 0 (front ++ part :: back)) :
    call.1 + kRel32DispBytes ≤ sizeOfParts front ∨
      sizeOfParts front + part.1.length ≤ call.1 ∨
        ∃ own ∈ part.2, call = (sizeOfParts front + own.1, own.2) := by
  rw [callsFrom_append, callsFrom, Nat.zero_add] at member
  rcases List.mem_append.mp member with before | here
  · have inside := callsFrom_inside (fun p among => spread p (List.mem_append_left _ among))
      call before
    exact .inl (by omega)
  · rcases List.mem_append.mp here with mapped | behind
    · obtain ⟨own, among, rfl⟩ := List.mem_map.mp mapped
      exact .inr (.inr ⟨own, among, rfl⟩)
    · have inside := callsFrom_inside (fun p among => spread p
        (List.mem_append_right _ (List.mem_cons_of_mem _ among))) call behind
      exact .inr (.inl inside.1)

theorem flatten_split : ((front ++ part :: back).map Prod.fst).flatten =
    (front.map Prod.fst).flatten ++ (part.1 ++ (back.map Prod.fst).flatten) := by
  simp

variable {image : List Byte}
  (spread : ∀ p ∈ front ++ part :: back, SpreadPart p)
  (agree : AgreeOutside kRel32DispBytes ((callsFrom 0 (front ++ part :: back)).map Prod.fst)
    image ((front ++ part :: back).map Prod.fst).flatten)

include spread agree

/-- A displacement that is no call stays as it was encoded. -/
theorem field_in_image {pos : Nat} (inside : pos + kRel32DispBytes ≤ part.1.length)
    (apart : ∀ call ∈ part.2, Apart kRel32DispBytes pos call.1) :
    fieldAt image (sizeOfParts front + pos) = fieldAt part.1 pos := by
  rw [fieldAt_congr agree, flatten_split]
  · exact fieldAt_embed _ _ _ inside
  · intro p member
    obtain ⟨call, among, rfl⟩ := List.mem_map.mp member
    rcases callsFrom_cases spread among with before | behind | ⟨own, here, rfl⟩
    · exact .inr (by omega)
    · exact .inl (by omega)
    · have away := apart own here
      simp only [Apart] at away ⊢
      omega

/-- A byte outside the displacements of calls stays as it was encoded. -/
theorem byte_in_image {b : Nat} (inside : b < part.1.length)
    (outside : ∀ call ∈ part.2, ¬ WindowWrites.Inside call.1 kRel32DispBytes b) :
    image[sizeOfParts front + b]? = part.1[b]? := by
  rw [agree.same, flatten_split]
  · change ((front.map Prod.fst).flatten ++ _)[(front.map Prod.fst).flatten.length + b]? = _
    rw [List.getElem?_append_right (Nat.le_add_right _ _), Nat.add_sub_cancel_left,
      List.getElem?_append_left inside]
  · intro p member
    obtain ⟨call, among, rfl⟩ := List.mem_map.mp member
    rcases callsFrom_cases spread among with before | behind | ⟨own, here, rfl⟩
    · rintro ⟨-, high⟩
      omega
    · rintro ⟨low, -⟩
      omega
    · have away := outside own here
      simp only [WindowWrites.Inside] at away ⊢
      omega

end Linking

/-- What a function whose displacements start early enough was encoded to. -/
structure LinkedPart (mf : MachineFunction) (ra : LinearScan.ScanState) (part : Part)
    (enc : Encoder) (body : List Item) : Prop where
  reached : encoderAt mf ra mf.instrs.length = some enc
  described : Describes mf ra mf.instrs.length enc body
  calls : part.2 = fixups true 0 (prologueItems ++ body)
  length : part.1.length = sizeOf (prologueItems ++ body)
  stores : ∀ fixup ∈ fixups false 0 (prologueItems ++ body), ∃ target rel,
    enc.labelPos.lookup fixup.2 = some target ∧ rel32 fixup.1 target = some rel ∧
      fieldAt part.1 fixup.1 = some (stored fixup.1 rel)

/-- The displacements of a function stand behind its prologue. -/
theorem fixups_behind {calls : Bool} {body : List Item} {fixup : Nat × Int}
    (member : fixup ∈ fixups calls 0 (prologueItems ++ body)) : 10 < fixup.1 := by
  have plain : fixups calls 0 prologueItems = [] := by cases calls <;> rfl
  have size : sizeOf prologueItems = 10 := by decide
  rw [fixups_append, plain, List.nil_append, size] at member
  exact (fixups_within member).1

theorem exists_linkedPart {mf : MachineFunction} {ra : LinearScan.ScanState}
    (starts : Starts mf ra) {part : Part} (done : encodeOne mf ra = .ok part) :
    ∃ enc body, LinkedPart mf ra part enc body := by
  obtain ⟨code, calls⟩ := part
  obtain ⟨enc, reached, rfl, resolved⟩ := encodeOne_encoder done
  obtain ⟨body, described⟩ := describes mf ra le_rfl reached
  have early : ∀ fixup ∈ fixups false 0 (prologueItems ++ body), fixup.1 < 2 ^ 32 := by
    intro fixup member
    obtain ⟨j, -, op, known, jump, field⟩ := (described.jumps fixup).mp member
    exact starts op (List.mem_append_left _ known) j _ _ jump field
  have behind : ∀ fixup ∈ fixups false 0 (prologueItems ++ body), kRel32DispBytes ≤ fixup.1 := by
    intro fixup member
    have past := fixups_behind member
    simp only [kRel32DispBytes]
    omega
  rw [described.jumpFixups fun op known j label pos => starts op (List.mem_append_left _ known)
    j label pos] at resolved
  have whole : AgreesBehind enc.buf (fun _ => 0) (prologueItems ++ body) := by
    rw [AgreesBehind, ← described.emits.buf]
    exact ⟨rfl, fun _ _ => rfl⟩
  obtain ⟨filled, agrees, fields, -⟩ := jumps_stored (fixups_ascending _ _ _)
    (fun _ member => member) early behind (fun _ _ => rfl) whole resolved
  refine ⟨enc, body, reached, described, ?_, ?_, fun fixup member => ?_⟩
  · exact described.callFixups fun j callee pos => starts .call (by decide) j callee pos
  · rw [agrees.length, fill_length]
  · obtain ⟨target, rel, found, fits, value⟩ := fields fixup member
    refine ⟨target, rel, found, fits, ?_⟩
    rw [fieldAt_congr agrees, fieldAt_fill member, value]
    intro place front
    rw [List.mem_singleton.mp front]
    exact .inr (by rw [Nat.zero_add]; exact behind fixup member)

theorem LinkedPart.spread {mf : MachineFunction} {ra : LinearScan.ScanState} {part : Part}
    {enc : Encoder} {body : List Item} (linked : LinkedPart mf ra part enc body) :
    SpreadPart part := by
  constructor
  · intro call among
    rw [linked.calls] at among
    rw [linked.length]
    have within := (fixups_within among).2
    rwa [Nat.zero_add] at within
  · rw [linked.calls]
    exact (fixups_ascending _ _ _).imp .inl

/-- A call of the function, with its displacement. -/
theorem LinkedPart.call {mf : MachineFunction} {ra : LinearScan.ScanState} {part : Part}
    {enc : Encoder} {body : List Item} (linked : LinkedPart mf ra part enc body) {j : Nat}
    {callee : Int} (call : JumpAt mf.instrs .call callee j) {pos : Nat}
    (field : fieldOf mf ra .call j = some pos) : (pos, callee) ∈ part.2 := by
  rw [linked.calls]
  exact (linked.described.calls _).mpr
    ⟨j, (exists_fieldOf linked.reached call).1, .call, List.mem_singleton_self _, call, field⟩

/-- A jump of the function, with its displacement. -/
theorem LinkedPart.jump {mf : MachineFunction} {ra : LinearScan.ScanState} {part : Part}
    {enc : Encoder} {body : List Item} (linked : LinkedPart mf ra part enc body)
    {op : MachineOp} (known : op ∈ jumpOps) {j : Nat} {label : Int}
    (jump : JumpAt mf.instrs op label j) {pos : Nat} (field : fieldOf mf ra op j = some pos) :
    (pos, label) ∈ fixups false 0 (prologueItems ++ body) :=
  (linked.described.jumps _).mpr
    ⟨j, (exists_fieldOf linked.reached jump).1, op, known, jump, field⟩

section Module

variable {fns : List ModuleFunction} {image : List Byte} {entries : List Nat}

theorem StandsAt.mem {mf : MachineFunction} {ra : LinearScan.ScanState} {entry : Nat}
    (stands : StandsAt fns entries mf ra entry) :
    ∃ f ∈ fns, f.mf = some mf ∧ f.ra = some ra := by
  obtain ⟨i, f, found, given, given', -⟩ := stands
  exact ⟨f, List.mem_of_getElem? found, given, given'⟩

/-- The image is its functions in a row, up to the displacements of the calls. -/
structure Assembled (fns : List ModuleFunction) (image : List Byte) (parts : List Part) :
    Prop where
  encode : List.Forall₂ EncodesTo fns parts
  spread : ∀ part ∈ parts, SpreadPart part
  agree : AgreeOutside kRel32DispBytes ((callsFrom 0 parts).map Prod.fst) image
    (parts.map Prod.fst).flatten
  fields : ∀ call ∈ callsFrom 0 parts, ∃ rel,
    (∃ target, entryOf fns (emittedFrom 0 parts) call.2 = some target ∧
      rel32 call.1 target = some rel) ∧ fieldAt image call.1 = some rel

theorem exists_assembled
    (starts : ∀ f ∈ fns, ∀ mf ra, f.mf = some mf → f.ra = some ra → Starts mf ra)
    (encoded : encodeModule fns = .ok (image, entries)) :
    ∃ parts, Assembled fns image parts ∧ entries = (emittedFrom 0 parts).map (·.offset) := by
  obtain ⟨parts, encode, rfl, resolved⟩ := module_parts encoded
  have spread : ∀ part ∈ parts, SpreadPart part := by
    intro part member
    obtain ⟨i, inside, rfl⟩ := List.getElem_of_mem member
    have within : i < fns.length := encode.length_eq ▸ inside
    obtain ⟨mf, ra, given, given', done⟩ := encode.get within inside
    obtain ⟨enc, body, linked⟩ :=
      exists_linkedPart (starts _ (List.getElem_mem within) mf ra given given') done
    exact linked.spread
  obtain ⟨agree, fields⟩ := patches_agree (fun call _ out after ran => resolveCall_entry ran)
    (callsFrom_apart spread) (fun call member => by
      have inside := (callsFrom_inside spread call member).2
      rwa [Nat.zero_add] at inside) resolved
  exact ⟨parts, ⟨encode, spread, agree, fields⟩, rfl⟩

/-- What a jump of an assembled image holds. -/
theorem jump_in_image {front back : List Part} {part : Part}
    (assembled : Assembled fns image (front ++ part :: back)) {mf : MachineFunction}
    {ra : LinearScan.ScanState} {enc : Encoder} {body : List Item}
    (linked : LinkedPart mf ra part enc body) {pos : Nat} {label : Int}
    (noted : (pos, label) ∈ fixups false 0 (prologueItems ++ body)) :
    fieldAt image (sizeOfParts front + pos) = fieldAt part.1 pos := by
  apply field_in_image assembled.spread assembled.agree
  · rw [linked.length]
    have within := (fixups_within noted).2
    rwa [Nat.zero_add] at within
  · intro call among
    rw [linked.calls] at among
    exact fixups_apart noted among

/-- A module whose displacements are stored is linked. -/
theorem linked_of_linkable (linkable : Linkable fns)
    (encoded : encodeModule fns = .ok (image, entries)) : Linked fns image entries := by
  obtain ⟨parts, assembled, rfl⟩ := exists_assembled linkable.starts encoded
  have lengths : fns.length = (emittedFrom 0 parts).length := by
    rw [length_emittedFrom, assembled.encode.length_eq]
  constructor
  · intro mf ra entry stands op known j label jump
    obtain ⟨f, member, given, given'⟩ := stands.mem
    obtain ⟨front, part, back, rfl, rfl, done⟩ := standsAt_split assembled.encode stands
    obtain ⟨enc, body, linked⟩ :=
      exists_linkedPart (linkable.starts f member mf ra given given') done
    obtain ⟨inside, pos, field⟩ := exists_fieldOf linked.reached jump
    have noted := linked.jump known jump field
    obtain ⟨place, rel, found, fits, value⟩ := linked.stores _ noted
    obtain ⟨k, label_, stands_⟩ := lookup_place linked.described found
    have start := linkable.starts f member mf ra given given' op (List.mem_append_left _ known)
      j label pos jump field
    have kept := linkable.kept f member mf ra given given' op known j label pos k place jump
      field label_ stands_
    rw [(stored_eq_self_iff fits start).mpr kept] at value
    have leads : LeadsTo part.1 pos place := ⟨rel, value, rel32_eq_some_iff.mp fits⟩
    exact ⟨pos, k, place, field, label_, stands_,
      leads.shift (jump_in_image assembled linked noted)⟩
  · intro mf ra entry stands j callee call
    obtain ⟨f, member, given, given'⟩ := stands.mem
    obtain ⟨front, part, back, rfl, rfl, done⟩ := standsAt_split assembled.encode stands
    obtain ⟨enc, body, linked⟩ :=
      exists_linkedPart (linkable.starts f member mf ra given given') done
    obtain ⟨inside, pos, field⟩ := exists_fieldOf linked.reached call
    have among : (sizeOfParts front + pos, callee) ∈ callsFrom 0 (front ++ part :: back) := by
      rw [callsFrom_append, callsFrom, Nat.zero_add]
      exact List.mem_append_right _ (List.mem_append_left _
        (List.mem_map.mpr ⟨_, linked.call call field, rfl⟩))
    obtain ⟨rel, ⟨target, found, fits⟩, filled⟩ := assembled.fields _ among
    rw [entryOf_eq lengths] at found
    obtain ⟨n, first, here⟩ := Option.bind_eq_some_iff.mp found
    exact ⟨pos, n, target, field, first, here, rel, filled, rel32_eq_some_iff.mp fits⟩
  · intro mf ra entry stands
    obtain ⟨f, member, given, given'⟩ := stands.mem
    obtain ⟨front, part, back, rfl, rfl, done⟩ := standsAt_split assembled.encode stands
    obtain ⟨enc, body, linked⟩ :=
      exists_linkedPart (linkable.starts f member mf ra given given') done
    refine ⟨part.1, part.2, done, fun b inside outside => ?_⟩
    refine byte_in_image assembled.spread assembled.agree inside fun call among => ?_
    rw [linked.calls] at among
    obtain ⟨j, -, op, known, isCall, field⟩ := (linked.described.calls call).mp among
    rw [List.mem_singleton.mp known] at isCall field
    exact outside j _ _ isCall field

/-- In a linked module all displacements start early enough. -/
theorem starts_of_linked (labels : ∀ f ∈ fns, ∀ mf, f.mf = some mf → DistinctLabels mf.instrs)
    (encoded : encodeModule fns = .ok (image, entries)) (linked : Linked fns image entries) :
    ∀ f ∈ fns, ∀ mf ra, f.mf = some mf → f.ra = some ra → Starts mf ra := by
  obtain ⟨parts, encode, rfl, resolved⟩ := module_parts encoded
  have lengths : fns.length = (emittedFrom 0 parts).length := by
    rw [length_emittedFrom, encode.length_eq]
  intro f member mf ra given given' op known j target pos jump field
  have length : fns.length = ((emittedFrom 0 parts).map (·.offset)).length := by
    rw [List.length_map, lengths]
  obtain ⟨entry, stands⟩ := exists_standsAt length member given given'
  obtain ⟨front, ⟨code, calls⟩, back, rfl, rfl, done⟩ := standsAt_split encode stands
  obtain ⟨enc, reached, rfl, patched⟩ := encodeOne_encoder done
  rcases List.mem_append.mp known with isJump | isCall
  · obtain ⟨pos', k, place, field', label_, stands_, leads⟩ :=
      linked.jumps mf ra _ stands op isJump j target jump
    obtain rfl := Option.some.inj (field.symm.trans field')
    exact jump_starts (labels f member mf given) reached patched isJump jump field label_ stands_
      leads
  · rw [List.mem_singleton.mp isCall] at jump field
    obtain ⟨pos', n, callee, field', first, here, leads⟩ :=
      linked.calls mf ra _ stands j target jump
    obtain rfl := Option.some.inj (field.symm.trans field')
    by_contra far
    obtain ⟨body, described⟩ := describes mf ra le_rfl reached
    have noted : (pos, target) ∈ fixups true 0 (prologueItems ++ body) :=
      (described.calls _).mpr
        ⟨j, (exists_fieldOf reached jump).1, .call, List.mem_singleton_self _, jump, field⟩
    have among : (sizeOfParts front + pos % 2 ^ 32, target) ∈
        callsFrom 0 (front ++ (code, enc.callFixups) :: back) := by
      rw [callsFrom_append, callsFrom, Nat.zero_add, described.emits.calls]
      refine List.mem_append_right _ (List.mem_append_left _ (List.mem_map.mpr ?_))
      exact ⟨_, List.mem_map_of_mem noted, rfl⟩
    obtain ⟨out, after, ran⟩ := step_of_foldlM resolved _ among
    obtain ⟨rel, ⟨callee', found, fits⟩, -⟩ := resolveCall_entry ran
    rw [entryOf_eq lengths, first, Option.bind_some, here] at found
    obtain rfl := Option.some.inj found
    exact not_leadsTo_of_narrow (Nat.not_lt.mp far) fits leads

/-- In a linked module the jumps keep their displacements. -/
theorem linkable_of_linked
    (labels : ∀ f ∈ fns, ∀ mf, f.mf = some mf → DistinctLabels mf.instrs)
    (encoded : encodeModule fns = .ok (image, entries)) (linked : Linked fns image entries) :
    Linkable fns := by
  have starts := starts_of_linked labels encoded linked
  refine ⟨starts, ?_⟩
  obtain ⟨parts, assembled, rfl⟩ := exists_assembled starts encoded
  intro f member mf ra given given' op known j label pos k place jump field label_ stands_
  have length : fns.length = ((emittedFrom 0 parts).map (·.offset)).length := by
    rw [List.length_map, length_emittedFrom, assembled.encode.length_eq]
  obtain ⟨entry, stands⟩ := exists_standsAt length member given given'
  obtain ⟨front, part, back, rfl, rfl, done⟩ := standsAt_split assembled.encode stands
  obtain ⟨enc, body, linkedPart⟩ := exists_linkedPart (starts f member mf ra given given') done
  have noted := linkedPart.jump known jump field
  obtain ⟨target, rel, found, fits, value⟩ := linkedPart.stores _ noted
  obtain ⟨k', label', stands'⟩ := lookup_place linkedPart.described found
  obtain rfl := labels f member mf given label k k' label_ label'
  obtain rfl := Option.some.inj (stands_.symm.trans stands')
  obtain ⟨pos', k', place', field', label', stands', other, read, leads⟩ :=
    linked.jumps mf ra _ stands op known j label jump
  obtain rfl := Option.some.inj (field.symm.trans field')
  obtain rfl := labels f member mf given label k k' label_ label'
  obtain rfl := Option.some.inj (stands_.symm.trans stands')
  rw [jump_in_image assembled linkedPart noted, value] at read
  have same := Option.some.inj read
  apply (stored_eq_self_iff fits (starts f member mf ra given given' op
    (List.mem_append_left _ known) j label pos jump field)).mp
  rw [same]
  apply BitVec.eq_of_toInt_eq
  have reaches := rel32_eq_some_iff.mp fits
  omega

/-- The branches of a linked module lead to their targets exactly when every displacement
starts less than four gigabytes behind the start of its function, and every jump keeps its
displacement. -/
theorem encodeModule_linked_iff
    (labels : ∀ f ∈ fns, ∀ mf, f.mf = some mf → DistinctLabels mf.instrs)
    (encoded : encodeModule fns = .ok (image, entries)) :
    Linked fns image entries ↔ Linkable fns :=
  ⟨linkable_of_linked labels encoded, fun linkable => linked_of_linkable linkable encoded⟩

end Module

def idle : MachineInstr := { op := .mov, result := some 0, uses := [some 0] }

def callsItself : MachineInstr := { op := .call, result := some 0, imm := some 0 }

def returns : MachineInstr := { op := .ret, uses := [some 0] }

/-- A function that moves a register to itself many times and then calls itself. -/
def farCall (n : Nat) : MachineFunction where
  name := "f"
  instrs := List.replicate n idle ++ [callsItself, returns]

def farModule (n : Nat) : List ModuleFunction := [⟨0, some (farCall n), some {}⟩]

/-- The encoder behind the moves. -/
def idled (n : Nat) : Encoder :=
  { buf := prologue ++ (List.replicate n (movRR kRegRcx kRegRcx)).flatten }

theorem encode_idles (pmoves : List Move) {entries : List (MachineInstr × Nat)}
    (all : ∀ entry ∈ entries, entry.1 = idle) (enc : Encoder) :
    entries.foldlM (encodeInstr {} pmoves) enc =
      .ok (enc.put (List.replicate entries.length (movRR kRegRcx kRegRcx)).flatten) := by
  induction entries generalizing enc with
  | nil =>
      have same : enc.put [] = enc := by simp [Encoder.put]
      rw [List.length_nil, List.replicate_zero, List.flatten_nil, same]
      rfl
  | cons entry entries ih =>
      obtain ⟨mi, idx⟩ := entry
      obtain rfl : mi = idle := all _ List.mem_cons_self
      have first : encodeInstr {} pmoves enc (idle, idx) =
          .ok (enc.put (movRR kRegRcx kRegRcx)) := rfl
      rw [List.foldlM_cons, first]
      change entries.foldlM _ _ = _
      rw [ih fun entry member => all entry (List.mem_cons_of_mem _ member),
        ← Encoder.put_append]
      rfl

theorem farCall_zipIdx (n : Nat) : (farCall n).instrs.zipIdx =
    (List.replicate n idle).zipIdx ++ [(callsItself, n), (returns, n + 1)] := by
  rw [farCall, List.zipIdx_append, List.length_replicate, Nat.zero_add]
  rfl

theorem farCall_idles (n : Nat) (pmoves : List Move) :
    (List.replicate n idle).zipIdx.foldlM (encodeInstr {} pmoves) { buf := prologue } =
      .ok (idled n) := by
  rw [encode_idles, List.length_zipIdx, List.length_replicate]
  · rfl
  · intro entry member
    have same := List.mem_map_of_mem (f := Prod.fst) member
    rw [List.zipIdx_map_fst] at same
    exact List.eq_of_mem_replicate same

theorem farCall_params (n : Nat) : paramMoves {} (farCall n).instrs = .ok [] := by
  have none : (farCall n).instrs.filter (fun mi => decide (mi.op = .param)) = [] := by
    rw [farCall, List.filter_append, List.filter_replicate]
    rfl
  rw [paramMoves, none]
  rfl

theorem idled_length (n : Nat) : (idled n).buf.length = 10 + 3 * n := by
  have moves : (List.replicate n (movRR kRegRcx kRegRcx)).flatten.length = 3 * n := by
    induction n with
    | zero => rfl
    | succ n ih =>
        rw [List.replicate_succ, List.flatten_cons, List.length_append, ih, Nat.mul_succ,
          Nat.add_comm]
        rfl
  rw [idled, List.length_append, moves]
  rfl

/-- The encoder behind the call. -/
def called (n : Nat) : Encoder :=
  { buf := (idled n).buf ++ ([kOpCallRel32] ++ blankRel32 ++ movRR kRegRcx kRegRax)
    callFixups := [((11 + 3 * n) % 2 ^ 32, 0)] }

theorem encode_callsItself (n : Nat) (pmoves : List Move) :
    encodeInstr {} pmoves (idled n) (callsItself, n) = .ok (called n) := by
  have place : ((idled n).buf ++ [kOpCallRel32]).length = 11 + 3 * n := by
    rw [List.length_append, idled_length, List.length_singleton]
    omega
  change Except.ok (((((idled n).put ([] ++ [kOpCallRel32])).addCall 0).put blankRel32).put
    (movRR kRegRcx kRegRax)) = _
  simp only [Encoder.put, Encoder.addCall, List.nil_append, place, called, List.append_assoc]
  rfl

theorem farCall_encoderAt (n : Nat) : encoderAt (farCall n) {} (n + 1) = some (called n) := by
  refine toOption_eq_some.mpr (except_bind_ok.mpr ⟨[], farCall_params n, ?_⟩)
  rw [farCall_zipIdx, List.take_append, List.length_zipIdx, List.length_replicate,
    List.take_of_length_le (by rw [List.length_zipIdx, List.length_replicate]; omega),
    Nat.add_sub_cancel_left, List.foldlM_append, farCall_idles]
  change (encodeInstr {} [] (idled n) (callsItself, n) >>= fun enc => pure enc) = _
  rw [encode_callsItself]
  rfl

theorem farCall_encoded (n : Nat) :
    encodeOne (farCall n) {} = .ok
      ((called n).buf ++ (movRR kRegRax kRegRcx ++ epilogue ++ [kOpRet]),
        [((11 + 3 * n) % 2 ^ 32, 0)]) := by
  have ran : (farCall n).instrs.zipIdx.foldlM (encodeInstr {} []) { buf := prologue } = .ok
      { (called n).put (movRR kRegRax kRegRcx ++ epilogue ++ [kOpRet]) with
        sawRet := true } := by
    rw [farCall_zipIdx, List.foldlM_append, farCall_idles]
    change (encodeInstr {} [] (idled n) (callsItself, n) >>= fun enc =>
      encodeInstr {} [] enc (returns, n + 1) >>= fun enc => pure enc) = _
    rw [encode_callsItself]
    rfl
  exact except_bind_ok.mpr ⟨[], farCall_params n, except_bind_ok.mpr ⟨_, ran, rfl⟩⟩

theorem farModule_encoded {n : Nat} (low : (11 + 3 * n) % 2 ^ 32 < 2 ^ 31 - 4) :
    ∃ image, encodeModule (farModule n) = .ok (image, [0]) := by
  let place := (11 + 3 * n) % 2 ^ 32
  let code := (called n).buf ++ (movRR kRegRax kRegRcx ++ epilogue ++ [kOpRet])
  obtain ⟨rel, fits⟩ : ∃ rel, rel32 (0 + place) 0 = some rel := by
    refine ⟨BitVec.ofInt 32 (0 - ((0 + place : Nat) + kRel32DispBytes)), ?_⟩
    simp only [rel32, kRel32DispBytes]
    refine if_neg ?_
    omega
  have emitted : (farModule n).foldlM emitFunction ([], []) =
      .ok (code, [⟨0, [(place, 0)]⟩]) := by
    have done : emitFunction ([], []) ⟨0, some (farCall n), some {}⟩ =
        .ok (code, [⟨0, [(place, 0)]⟩]) :=
      except_bind_ok.mpr ⟨_, farCall_encoded n, rfl⟩
    exact except_bind_ok.mpr ⟨_, done, rfl⟩
  have resolved : resolveCall (farModule n) [⟨0, [(place, 0)]⟩] 0 code (place, 0) =
      .ok (patch code (0 + place) rel) := by
    have first : entryOf (farModule n) [⟨0, [(place, 0)]⟩] 0 = some 0 := rfl
    simp only [resolveCall, first, fits]
  refine ⟨patch code (0 + place) rel, ?_⟩
  rw [encodeModule, if_neg (show farModule n ≠ [] from List.cons_ne_nil _ _)]
  refine except_bind_ok.mpr ⟨_, emitted, except_bind_ok.mpr ⟨_, ?_, rfl⟩⟩
  exact except_bind_ok.mpr ⟨_, except_bind_ok.mpr ⟨_, resolved, rfl⟩, rfl⟩

theorem farModule_labels (n : Nat) : ∀ f ∈ farModule n, ∀ mf, f.mf = some mf →
    DistinctLabels mf.instrs := by
  intro f member mf given label p q atP _
  obtain rfl := List.mem_singleton.mp member
  obtain rfl := Option.some.inj given
  obtain ⟨mi, found, op, -⟩ := atP
  have known := List.mem_of_getElem? found
  rcases List.mem_append.mp known with idles | others
  · rw [List.eq_of_mem_replicate idles] at op
    cases op
  · rcases List.mem_pair.mp others with rfl | rfl
    · cases op
    · cases op

theorem farCall_fieldOf (n : Nat) (op : MachineOp) :
    fieldOf (farCall n) {} op n = some (18 + 3 * n - tailLength op - kRel32DispBytes) := by
  have length : (called n).buf.length = 18 + 3 * n := by
    rw [called, List.length_append, idled_length]
    change 10 + 3 * n + 8 = _
    omega
  rw [fieldOf, placeOf, farCall_encoderAt, Option.map_some, Option.map_some, length]

theorem farCall_starts {n : Nat} (starts : Starts (farCall n) {}) : 11 + 3 * n < 2 ^ 32 := by
  have here : JumpAt (farCall n).instrs .call 0 n := by
    refine ⟨callsItself, ?_, rfl, rfl⟩
    rw [farCall, List.getElem?_append_right (by rw [List.length_replicate]),
      List.length_replicate, Nat.sub_self]
    rfl
  have field : fieldOf (farCall n) {} .call n = some (11 + 3 * n) := by
    rw [farCall_fieldOf]
    congr 1
    change 18 + 3 * n - 3 - 4 = _
    omega
  exact starts .call (by decide) n 0 _ here field

/-- A call that stands four gigabytes behind the start of its function is not patched. -/
theorem farModule_misses :
    ∃ image, encodeModule (farModule 1431655762) = .ok (image, [0]) ∧
      ¬ Linked (farModule 1431655762) image [0] := by
  obtain ⟨image, encoded⟩ := @farModule_encoded 1431655762 (by decide)
  refine ⟨image, encoded, fun linked => ?_⟩
  have starts := starts_of_linked (farModule_labels _) encoded linked _
    (List.mem_singleton_self _) _ _ rfl rfl
  exact absurd (farCall_starts starts) (by decide)

/-- Without the moves the call leads to the entry. -/
theorem encodeModule_linked_iff_short :
    ∃ image, encodeModule (farModule 0) = .ok (image, [0]) ∧
      Linked (farModule 0) image [0] := by
  obtain ⟨image, encoded⟩ := @farModule_encoded 0 (by decide)
  refine ⟨image, encoded, (encodeModule_linked_iff (farModule_labels 0) encoded).mpr ?_⟩
  have only (op : MachineOp) (known : op ∈ jumpOps ++ callOps) (j : Nat) (target : Int)
      (branch : JumpAt (farCall 0).instrs op target j) : op = .call ∧ j = 0 := by
    obtain ⟨mi, found, same, -⟩ := branch
    rcases j with _ | _ | j
    · obtain rfl := Option.some.inj found
      exact ⟨same.symm, rfl⟩
    · obtain rfl := Option.some.inj found
      rw [← same] at known
      exact absurd known (by decide)
    · cases found
  constructor
  · intro f member mf ra given given' op known j target pos branch field
    obtain rfl := List.mem_singleton.mp member
    obtain rfl := Option.some.inj given
    obtain rfl := Option.some.inj given'
    obtain ⟨rfl, rfl⟩ := only op known j target branch
    have bound := Option.some.inj ((farCall_fieldOf 0 .call).symm.trans field)
    omega
  · intro f member mf ra given given' op known j label pos k place jump
    obtain rfl := List.mem_singleton.mp member
    obtain rfl := Option.some.inj given
    obtain ⟨rfl, -⟩ := only op (List.mem_append_left _ known) j label jump
    exact absurd known (by decide)

end ExecEncoder

end Aegis
