import Mathlib.Algebra.Group.Nat.Defs
import Mathlib.Data.List.Basic
import Mathlib.Data.List.Flatten
import Mathlib.Data.List.TakeDrop

/-!
# Records of little-endian fields

Values written as a fixed number of bytes and read at an offset.  Reading inverts writing, and
writing what was read gives the bytes back.  Both laws hold for little-endian words, for one
field after another, and for any number of records in a row.
-/

namespace ByteRecords

abbrev Byte := BitVec 8

/-- The bytes of a word, the lowest first. -/
def putWord {w : Nat} (k : Nat) (v : BitVec w) : List Byte :=
  (List.range k).map fun i => ((v >>> (i * 8)) &&& 0xff#w).setWidth 8

/-- The word whose bytes stand at an offset, the lowest first. -/
def getWord (w k : Nat) (bytes : List Byte) (off : Nat) : BitVec w :=
  (List.range k).foldl
    (fun v i => v ||| (bytes.getD (off + i) 0).setWidth w <<< (i * 8)) 0#w

theorem length_putWord {w : Nat} (k : Nat) (v : BitVec w) : (putWord k v).length = k := by
  rw [putWord, List.length_map, List.length_range]

/-- Eight bits of each byte, in the order of the bytes. -/
theorem getLsbD_getWord {w k : Nat} (fits : k * 8 ≤ w) (bytes : List Byte) (off j : Nat) :
    (getWord w k bytes off).getLsbD j =
      (decide (j < k * 8) && (bytes.getD (off + j / 8) 0).getLsbD (j % 8)) := by
  unfold getWord
  induction k with
  | zero => simp
  | succ k ih =>
      rw [List.range_succ, List.foldl_concat, BitVec.getLsbD_or, ih (by omega),
        BitVec.getLsbD_shiftLeft, BitVec.getLsbD_setWidth]
      rcases Nat.lt_trichotomy (j / 8) k with before | rfl | behind
      · rw [decide_eq_true (show j < k * 8 by omega),
          decide_eq_true (show j < (k + 1) * 8 by omega)]
        simp
      · have offset : j - j / 8 * 8 = j % 8 := by omega
        rw [offset, decide_eq_false (show ¬j < j / 8 * 8 by omega),
          decide_eq_true (show j < (j / 8 + 1) * 8 by omega),
          decide_eq_true (show j < w by omega), decide_eq_true (show j % 8 < w by omega)]
        simp
      · have outside : 8 ≤ j - k * 8 := by omega
        rw [decide_eq_false (show ¬j < k * 8 by omega),
          decide_eq_false (show ¬j < (k + 1) * 8 by omega), BitVec.getLsbD_of_ge _ _ outside]
        simp

theorem getLsbD_putWord {w k i : Nat} (v : BitVec w) (inside : i < k) {j : Nat} (low : j < 8)
    (wide : 8 ≤ w) : ((putWord k v).getD i 0).getLsbD j = v.getLsbD (i * 8 + j) := by
  have mask : (0xff#w).getLsbD j = true := by
    rw [BitVec.getLsbD_ofNat, decide_eq_true (show j < w by omega), Bool.true_and]
    exact (Nat.testBit_two_pow_sub_one 8 j).trans (decide_eq_true low)
  rw [List.getD_eq_getElem?_getD, putWord, List.getElem?_map,
    List.getElem?_range inside, Option.map_some, Option.getD_some, BitVec.getLsbD_setWidth,
    BitVec.getLsbD_and, BitVec.getLsbD_ushiftRight, mask, decide_eq_true low]
  simp

/-- Values written as a number of bytes, and what is read back. -/
structure Faithful {α : Type*} (size : Nat) (put : α → List Byte)
    (get : List Byte → Nat → α) : Prop where
  length : ∀ v, (put v).length = size
  get_put : ∀ front v back, get (front ++ put v ++ back) front.length = v
  put_get : ∀ bytes off, off + size ≤ bytes.length →
    put (get bytes off) = (bytes.drop off).take size

theorem faithful_word {w k : Nat} (whole : k * 8 = w) :
    Faithful k (putWord k) (getWord w k) := by
  refine ⟨length_putWord k, fun front v back => ?_, fun bytes off inside => ?_⟩
  · apply BitVec.eq_of_getLsbD_eq
    intro j low
    have place : j / 8 < k := by omega
    have found : (front ++ putWord k v ++ back).getD (front.length + j / 8) 0 =
        (putWord k v).getD (j / 8) 0 := by
      rw [List.getD_eq_getElem?_getD, List.getD_eq_getElem?_getD, List.append_assoc,
        List.getElem?_append_right (Nat.le_add_right _ _), Nat.add_sub_cancel_left,
        List.getElem?_append_left (by rw [length_putWord]; exact place)]
    rw [getLsbD_getWord (Nat.le_of_eq whole), found,
      getLsbD_putWord v place (Nat.mod_lt j (by decide)) (by omega),
      decide_eq_true (show j < k * 8 by omega), Bool.true_and]
    congr 1
    omega
  · apply List.ext_getElem?
    intro i
    rw [List.getElem?_take]
    split
    case isTrue low =>
      have inBytes : off + i < bytes.length := by omega
      have inWord : i < (putWord k (getWord w k bytes off)).length := by
        rw [length_putWord]
        exact low
      rw [List.getElem?_drop, List.getElem?_eq_getElem inBytes, List.getElem?_eq_getElem inWord]
      congr 1
      apply BitVec.eq_of_getLsbD_eq
      intro j small
      have byte : (putWord k (getWord w k bytes off))[i] =
          (putWord k (getWord w k bytes off)).getD i 0 := by
        rw [List.getD_eq_getElem?_getD, List.getElem?_eq_getElem inWord, Option.getD_some]
      have source : bytes.getD (off + i) 0 = bytes[off + i] := by
        rw [List.getD_eq_getElem?_getD, List.getElem?_eq_getElem inBytes, Option.getD_some]
      have place : (i * 8 + j) / 8 = i := by omega
      have offset : (i * 8 + j) % 8 = j := by omega
      rw [byte, getLsbD_putWord _ low small (by omega), getLsbD_getWord (Nat.le_of_eq whole),
        place, offset, source, decide_eq_true (by omega), Bool.true_and]
    case isFalse high =>
      rw [List.getElem?_eq_none]
      rw [length_putWord]
      exact Nat.le_of_not_lt high

section Composition

variable {α β γ : Type*} {size size' : Nat} {put : α → List Byte} {get : List Byte → Nat → α}
  {put' : β → List Byte} {get' : List Byte → Nat → β}

/-- One field after another. -/
theorem Faithful.pair (first : Faithful size put get) (second : Faithful size' put' get') :
    Faithful (size + size') (fun v : α × β => put v.1 ++ put' v.2)
      (fun bytes off => (get bytes off, get' bytes (off + size))) := by
  refine ⟨fun v => ?_, fun front v back => ?_, fun bytes off inside => ?_⟩
  · rw [List.length_append, first.length, second.length]
  · have here := first.get_put front v.1 (put' v.2 ++ back)
    have there := second.get_put (front ++ put v.1) v.2 back
    rw [List.length_append, first.length] at there
    simp only [List.append_assoc] at here there ⊢
    rw [here, there]
  · rw [first.put_get bytes off (by omega), second.put_get bytes (off + size) (by omega),
      List.take_add, List.drop_drop]

/-- The fields of a structure. -/
theorem Faithful.map (fields : Faithful size put get) (build : α → γ) (parts : γ → α)
    (parts_build : ∀ v, parts (build v) = v) (build_parts : ∀ s, build (parts s) = s) :
    Faithful size (fun s => put (parts s)) (fun bytes off => build (get bytes off)) where
  length s := fields.length (parts s)
  get_put front s back := by rw [fields.get_put, build_parts]
  put_get bytes off inside := by rw [parts_build, fields.put_get bytes off inside]

/-- The records that are whole, up to a number of them. -/
def getRecords (size : Nat) (get : List Byte → Nat → α) (bytes : List Byte) :
    Nat → Nat → List α
  | 0, _ => []
  | n + 1, off =>
      if bytes.length < off + size then []
      else get bytes off :: getRecords size get bytes n (off + size)

theorem Faithful.length_flatMap (record : Faithful size put get) (vs : List α) :
    (vs.flatMap put).length = size * vs.length := by
  induction vs with
  | nil => rfl
  | cons v vs ih =>
      rw [List.flatMap_cons, List.length_append, record.length, ih, List.length_cons,
        Nat.mul_succ, Nat.add_comm]

/-- All records are read, and none from the bytes behind them. -/
theorem Faithful.getRecords_put (record : Faithful size put get) (front : List Byte)
    (vs : List α) (back : List Byte) {n : Nat} (enough : vs.length ≤ n)
    (last : vs.length = n ∨ back.length < size) :
    getRecords size get (front ++ vs.flatMap put ++ back) n front.length = vs := by
  induction vs generalizing front n with
  | nil =>
      cases n with
      | zero => rfl
      | succ n =>
          have short : back.length < size := last.resolve_left (by simp)
          rw [getRecords, if_pos]
          simp only [List.flatMap_nil, List.append_nil, List.length_append]
          omega
  | cons v vs ih =>
      obtain ⟨n, rfl⟩ := Nat.exists_eq_add_of_lt (Nat.lt_of_lt_of_le vs.length.succ_pos enough)
      rw [Nat.zero_add] at enough last ⊢
      have here := record.get_put front v (vs.flatMap put ++ back)
      have rest := ih (front ++ put v) (Nat.le_of_succ_le_succ enough)
        (last.imp_left Nat.succ.inj)
      rw [List.length_append, record.length] at rest
      rw [getRecords, if_neg]
      · simp only [List.flatMap_cons, List.append_assoc] at here rest ⊢
        rw [here, rest]
      · simp only [List.flatMap_cons, List.length_append, record.length]
        omega

/-- What was read are the bytes, except for an incomplete record at the end. -/
theorem Faithful.put_getRecords (record : Faithful size put get) (positive : 0 < size)
    (bytes : List Byte) (n off : Nat) :
    ∃ rest, bytes.drop off = (getRecords size get bytes n off).flatMap put ++ rest ∧
      (getRecords size get bytes n off).length ≤ n ∧
      ((getRecords size get bytes n off).length < n → rest.length < size) := by
  induction n generalizing off with
  | zero => exact ⟨bytes.drop off, rfl, Nat.le_refl 0, nofun⟩
  | succ n ih =>
      rw [getRecords]
      split
      case isTrue short =>
        refine ⟨bytes.drop off, rfl, Nat.zero_le _, fun _ => ?_⟩
        rw [List.length_drop]
        omega
      case isFalse inside =>
        obtain ⟨rest, same, few, stops⟩ := ih (off + size)
        refine ⟨rest, ?_, Nat.succ_le_succ few, fun less => stops (Nat.lt_of_succ_lt_succ less)⟩
        rw [List.flatMap_cons, record.put_get bytes off (by omega), List.append_assoc, ← same,
          ← List.drop_drop, List.take_append_drop]

end Composition

end ByteRecords
