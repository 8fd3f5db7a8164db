import AegisCompiler.BitVector

/-!
# Bits beyond the size

The words for a size hold its numbers and up to 63 bits more.  As long as these are unset,
counting whole words counts the numbers that read as set.  The operations keep them unset,
except for resizing below a set bit and for bulk operations with longer operands.
-/

namespace Aegis.BitVector

open PackedBits

variable {v o v' : BitVector} {i j size : BitVec 32}

theorem wordCount_toNat (size : BitVec 32) :
    wordCount size = (size.toNat + 63) % 2 ^ 32 / 64 := by
  rw [wordCount, BitVec.toNat_udiv, BitVec.toNat_add]
  rfl

theorem wordCount_eq (countable : Countable size) :
    wordCount size = (size.toNat + 63) / 64 := by
  unfold Countable at countable
  rw [wordCount_toNat]
  omega

/-- The sum of a large size and 63 wraps around. -/
theorem wordCount_eq_zero (large : ¬Countable size) : wordCount size = 0 := by
  unfold Countable at large
  have bound := size.isLt
  rw [wordCount_toNat]
  omega

theorem wordCount_lt (size : BitVec 32) : 64 * wordCount size < 2 ^ 32 := by
  rw [wordCount_toNat]
  omega

theorem size_le (countable : Countable size) : size.toNat ≤ 64 * wordCount size := by
  rw [wordCount_eq countable]
  omega

theorem toNat_index (i : BitVec 32) : (i >>> 6).toNat = i.toNat / 64 := by
  rw [BitVec.toNat_ushiftRight, Nat.shiftRight_eq_div_pow]

theorem toNat_offset (i : BitVec 32) : (i &&& 63#32).toNat = i.toNat % 64 := by
  rw [BitVec.toNat_and, BitVec.toNat_ofNat]
  exact Nat.and_two_pow_sub_one_eq_mod i.toNat 6

theorem getLsbD_mask (i : BitVec 32) {k : Nat} (inside : k < 64) :
    (mask i).getLsbD k = decide (k = i.toNat % 64) := by
  rw [mask, toNat_offset, ← BitVec.twoPow_eq, BitVec.getLsbD_twoPow]
  have bound := Nat.mod_lt i.toNat (show 0 < 64 by decide)
  by_cases same : k = i.toNat % 64
  · subst same
    simp [bound]
  · rw [decide_eq_false same, decide_eq_false (Ne.symm same), Bool.and_false]

theorem test_eq (v : BitVector) (i : BitVec 32) :
    v.test i = if i.toNat < v.size.toNat ∧ i.toNat / 64 < v.words.length then
      some (bit v.words i.toNat) else Option.none := by
  rw [test, toNat_index, toNat_offset]
  by_cases inside : i.toNat < v.size.toNat
  · rw [if_pos (BitVec.lt_def.mpr inside)]
    by_cases covered : i.toNat / 64 < v.words.length
    · rw [if_pos ⟨inside, covered⟩, bit, List.getElem?_eq_getElem covered, Option.map_some,
        Option.getD_some]
      congr 1
      rw [BitVec.and_one_eq_setWidth_ofBool_getLsbD, BitVec.getLsbD_ushiftRight]
      cases v.words[i.toNat / 64].getLsbD (i.toNat % 64) <;> simp
    · rw [if_neg fun both => covered both.2, List.getElem?_eq_none (Nat.le_of_not_lt covered),
        Option.map_none]
  · rw [if_neg (mt BitVec.lt_def.mp inside), if_neg fun both => inside both.1]

theorem reads_iff (v : BitVector) (k : Nat) :
    v.Reads k ↔ k < v.size.toNat ∧ bit v.words k = true := by
  unfold Reads
  constructor
  · rintro ⟨bound, test⟩
    have number : (BitVec.ofNat 32 k).toNat = k := by
      rw [BitVec.toNat_ofNat, Nat.mod_eq_of_lt bound]
    rw [test_eq, number] at test
    split at test
    case isTrue both => exact ⟨both.1, Option.some.inj test⟩
    case isFalse => cases test
  · rintro ⟨inside, set⟩
    have bound : k < 2 ^ 32 := inside.trans v.size.isLt
    have number : (BitVec.ofNat 32 k).toNat = k := by
      rw [BitVec.toNat_ofNat, Nat.mod_eq_of_lt bound]
    have covered : k / 64 < v.words.length := by
      have := lt_of_bit set
      omega
    refine ⟨bound, ?_⟩
    rw [test_eq, number, if_pos ⟨inside, covered⟩, set]

/-- No bit stands beyond the size. -/
def Tidy (v : BitVector) : Prop := ∀ k, bit v.words k = true → k < v.size.toNat

theorem Tidy.reads_iff (tidy : v.Tidy) (k : Nat) : v.Reads k ↔ bit v.words k = true := by
  rw [BitVector.reads_iff]
  exact ⟨And.right, fun set => ⟨tidy k set, set⟩⟩

/-- The members are found among all bits of the words. -/
theorem members_eq (v : BitVector) (countable : Countable v.size) :
    v.members = ((List.range (64 * v.words.length)).filter (bit v.words)).filter
      fun k => decide (k < v.size.toNat) := by
  classical
  have long := size_le countable
  rw [← v.covered] at long
  obtain ⟨more, length⟩ := Nat.exists_eq_add_of_le long
  have beyond : ((List.range more).map (v.size.toNat + ·)).filter
      (fun k => decide (v.Reads k)) = [] := by
    rw [List.filter_eq_nil_iff]
    intro k member
    obtain ⟨l, _, rfl⟩ := List.mem_map.mp member
    rw [decide_eq_true_eq, reads_iff]
    rintro ⟨inside, _⟩
    omega
  calc
    v.members = (List.range v.size.toNat ++ (List.range more).map (v.size.toNat + ·)).filter
        fun k => decide (v.Reads k) := by
      rw [List.filter_append, beyond, List.append_nil]
      rfl
    _ = (List.range (64 * v.words.length)).filter fun k => decide (v.Reads k) := by
      rw [← List.range_add, ← length]
    _ = _ := by
      rw [List.filter_filter]
      apply List.filter_congr
      intro k _
      rw [Bool.eq_iff_iff, decide_eq_true_eq, reads_iff, Bool.and_eq_true, decide_eq_true_eq]

theorem Tidy.members_eq (tidy : v.Tidy) (countable : Countable v.size) :
    v.members = (List.range (64 * v.words.length)).filter (bit v.words) := by
  rw [BitVector.members_eq v countable, List.filter_eq_self]
  intro k member
  rw [decide_eq_true_eq]
  exact tidy k (List.mem_filter.mp member).2

theorem foldl_count (words : List (BitVec 64)) (c : BitVec 32) :
    (words.foldl (fun c word => c + word.cpop.setWidth 32) c).toNat =
      (c.toNat + count words) % 2 ^ 32 := by
  induction words generalizing c with
  | nil => exact (Nat.mod_eq_of_lt c.isLt).symm
  | cons word words ih =>
      rw [List.foldl_cons, ih, BitVec.toNat_add, BitVec.toNat_setWidth, count]
      omega

theorem Tidy.popcount_eq (tidy : v.Tidy) (countable : Countable v.size) :
    v.popcount.toNat = v.members.length := by
  have bound : ((List.range (64 * v.words.length)).filter (bit v.words)).length < 2 ^ 32 := by
    refine (List.length_filter_le _ _).trans_lt ?_
    rw [List.length_range, v.covered]
    exact wordCount_lt v.size
  rw [popcount, foldl_count, count_eq (by decide), tidy.members_eq countable]
  exact (congrArg (· % 2 ^ 32) (Nat.zero_add _)).trans (Nat.mod_eq_of_lt bound)

theorem Tidy.any_iff (tidy : v.Tidy) : v.any = true ↔ ∃ k, v.Reads k := by
  simp only [tidy.reads_iff, exists_bit_iff, any, List.any_eq_true, decide_eq_true_eq]

/-- The callback is called with the members in order, whatever stands beyond the size. -/
theorem forEachSet_eq (v : BitVector) (countable : Countable v.size) :
    v.forEachSet.map BitVec.toNat = v.members := by
  have lengthBound : 64 * v.words.length < 2 ^ 32 := by
    rw [v.covered]
    exact wordCount_lt v.size
  rw [members_eq v countable, ← flatMap_setBits (by decide), forEachSet, List.map_flatMap,
    List.filter_flatMap]
  apply List.flatMap_congr
  rintro ⟨word, k⟩ member
  have place : k < v.words.length := by
    have := (List.mem_zipIdx_iff_getElem?.mp member)
    exact (List.getElem?_eq_some_iff.mp this).1
  have number (off : Nat) (inside : off ∈ setBits word) :
      ((BitVec.ofNat 32 k <<< 6) + BitVec.ofNat 32 off).toNat = 64 * k + off := by
    have below : off < 64 := by
      rw [setBits_eq] at inside
      exact List.mem_range.mp (List.mem_filter.mp inside).1
    rw [BitVec.toNat_add, BitVec.toNat_shiftLeft, BitVec.toNat_ofNat, BitVec.toNat_ofNat,
      Nat.shiftLeft_eq]
    omega
  rw [List.filter_map, List.filter_map, List.map_map]
  have same : (setBits word).filter ((fun idx => decide (idx < v.size)) ∘
      fun off => (BitVec.ofNat 32 k <<< 6) + BitVec.ofNat 32 off) =
      (setBits word).filter ((fun n => decide (n < v.size.toNat)) ∘ (64 * k + ·)) := by
    apply List.filter_congr
    intro off inside
    simp only [Function.comp_apply, BitVec.lt_def, number off inside]
  rw [same]
  apply List.map_congr_left
  intro off inside
  exact number off (List.mem_filter.mp inside).1

/-- The observations agree exactly if no bit stands beyond a size without wrap-around. -/
theorem agrees_iff (v : BitVector) : v.Agrees ↔ Countable v.size ∧ v.Tidy := by
  constructor
  · intro agrees
    refine ⟨?_, agrees.within⟩
    by_contra large
    have positive : 0#32 < v.size := by
      unfold Countable at large
      rw [BitVec.lt_def, BitVec.toNat_ofNat]
      omega
    obtain ⟨value, test⟩ := agrees.defined 0#32 positive
    have missing : v.words.length = 0 := v.covered.trans (wordCount_eq_zero large)
    rw [test_eq, if_neg fun both => by omega] at test
    cases test
  · rintro ⟨countable, tidy⟩
    refine ⟨tidy, ?_, tidy.popcount_eq countable, tidy.any_iff, ?_, forEachSet_eq v countable⟩
    · intro i inside
      have long := size_le countable
      rw [← v.covered] at long
      rw [BitVec.lt_def] at inside
      exact ⟨_, (test_eq v i).trans (if_pos ⟨inside, by omega⟩)⟩
    · rw [none, Bool.not_eq_true', ← tidy.any_iff, Bool.not_eq_true]

theorem bit_zero (n k : Nat) : bit (List.replicate n 0#64) k = false := by
  rw [bit, List.getElem?_replicate]
  split <;> simp

theorem bit_bulk {f : BitVec 64 → BitVec 64 → BitVec 64} {g : Bool → Bool → Bool}
    (bitwise : ∀ x y k, k < 64 → (f x y).getLsbD k = g (x.getLsbD k) (y.getLsbD k))
    (v o : BitVector) (k : Nat) :
    bit (bulk f v o).words k = if k < 64 * v.words.length ∧ k < 64 * o.words.length then
      g (bit v.words k) (bit o.words k) else bit v.words k :=
  bit_overCommon bitwise (by decide) v.words o.words k

/-- Operands with bits in other places only leave the bit as it is. -/
theorem bit_bulk_of_zero {f : BitVec 64 → BitVec 64 → BitVec 64} {g : Bool → Bool → Bool}
    (bitwise : ∀ x y k, k < 64 → (f x y).getLsbD k = g (x.getLsbD k) (y.getLsbD k))
    (neutral : ∀ b, g b false = b) (v o : BitVector) (k : Nat) :
    bit (bulk f v o).words k = if k < 64 * v.words.length then
      g (bit v.words k) (bit o.words k) else bit v.words k := by
  rw [bit_bulk bitwise]
  by_cases inside : k < 64 * v.words.length
  · rw [if_pos inside]
    by_cases common : k < 64 * o.words.length
    · rw [if_pos ⟨inside, common⟩]
    · have unset : bit o.words k = false := by
        rw [← Bool.not_eq_true]
        exact mt lt_of_bit common
      rw [if_neg fun both => common both.2, unset, neutral]
  · rw [if_neg inside, if_neg fun both => inside both.1]

/-- The word of a number is among the words, so that one bit of it is changed. -/
theorem modifyWord_eq (countable : Countable v.size) (inside : i < v.size)
    {f : BitVec 64 → BitVec 64} {b : Bool → Bool → Bool}
    (bitwise : ∀ x k, k < 64 → (f x).getLsbD k = b (x.getLsbD k) (decide (k = i.toNat % 64)))
    (neutral : ∀ value, b value false = value) :
    ∃ v', v.modifyWord (i >>> 6).toNat f = some v' ∧ v'.size = v.size ∧
      ∀ k, bit v'.words k = b (bit v.words k) (decide (k = i.toNat)) := by
  have long := size_le countable
  rw [← v.covered] at long
  rw [BitVec.lt_def] at inside
  have covered : i.toNat / 64 < v.words.length := by omega
  rw [modifyWord, toNat_index, if_pos covered]
  refine ⟨_, rfl, rfl, fun k => ?_⟩
  rw [bit_modify covered]
  split
  case isTrue same =>
    have offset := Nat.mod_lt k (show 0 < 64 by decide)
    rw [bitwise _ _ offset, bit, same, List.getElem?_eq_getElem covered, Option.getD_some]
    congr 2
    rw [eq_iff_iff]
    omega
  case isFalse other =>
    rw [decide_eq_false (by rintro rfl; exact other rfl), neutral]

/-- Steps that only unset bits are in order. -/
theorem Tidy.fewer (tidy : v.Tidy) (countable : Countable v.size) {op : Operation}
    (sizes : v'.size = v.size)
    (fewer : ∀ k, bit v'.words k = true → bit v.words k = true) :
    (Countable v'.size ∧ v'.Tidy) ∧ Frame v op v' := by
  refine ⟨⟨sizes ▸ countable, fun k set => ?_⟩, fun k reads => Or.inl ?_⟩
  · rw [sizes]
    exact tidy k (fewer k set)
  · exact (tidy.reads_iff k).mpr (fewer k ((BitVector.reads_iff v' k).mp reads).2)

/-- Bulk operations that can set bits depend on where the operand has them. -/
theorem Tidy.mixed (tidy : v.Tidy) (countable : Countable v.size) {op : Operation}
    (sets : ∀ k, op.Sets k ↔ o.Reads k) (sizes : v'.size = v.size) {g : Bool → Bool → Bool}
    (neutral : ∀ b, g b false = b) (taken : g false true = true)
    (bits : ∀ k, bit v'.words k = if k < 64 * v.words.length then
      g (bit v.words k) (bit o.words k) else bit v.words k) :
    (Countable v'.size ∧ v'.Tidy) ∧ Frame v op v' ↔ Operand v o := by
  constructor
  · rintro ⟨⟨_, tidy'⟩, frame⟩ k inside set
    cases own : bit v.words k with
    | true => exact ⟨tidy k own, Or.inr rfl⟩
    | false =>
        have new : bit v'.words k = true := by
          rw [bits, if_pos (v.covered ▸ inside), own, set, taken]
        refine ⟨sizes ▸ tidy' k new, Or.inl ?_⟩
        rcases frame k ((tidy'.reads_iff k).mpr new) with before | put
        · exact absurd (own.symm.trans ((tidy.reads_iff k).mp before)) Bool.false_ne_true
        · exact ((BitVector.reads_iff o k).mp ((sets k).mp put)).1
  · intro operand
    have origin (k : Nat) (set : bit v'.words k = true) :
        bit v.words k = true ∨ k < v.size.toNat ∧ o.Reads k := by
      cases own : bit v.words k with
      | true => exact Or.inl rfl
      | false =>
          rw [bits, own] at set
          split at set
          case isTrue inside =>
            cases other : bit o.words k with
            | true =>
                obtain ⟨within, read | set⟩ := operand k (v.covered ▸ inside) other
                · exact Or.inr ⟨within, (BitVector.reads_iff o k).mpr ⟨read, other⟩⟩
                · exact absurd (own.symm.trans set) Bool.false_ne_true
            | false =>
                rw [other, neutral] at set
                exact absurd set Bool.false_ne_true
          case isFalse => exact absurd set Bool.false_ne_true
    refine ⟨⟨sizes ▸ countable, fun k set => ?_⟩, fun k reads => ?_⟩
    · rw [sizes]
      exact (origin k set).elim (tidy k) And.left
    · rcases origin k ((BitVector.reads_iff v' k).mp reads).2 with before | new
      · exact Or.inl ((tidy.reads_iff k).mpr before)
      · exact Or.inr ((sets k).mpr new.2)

/-- What one step does to a tidy vector, and when it leaves it tidy. -/
theorem step_spec (countable : Countable v.size) (tidy : v.Tidy) {op : Operation}
    (legal : v.Legal op) :
    ∃ v', v.apply op = some v' ∧
      ((Countable v'.size ∧ v'.Tidy) ∧ Frame v op v' ↔ v.Fits op) := by
  cases op with
  | resize size =>
      refine ⟨v.resize size, rfl, ?_⟩
      have bits (k : Nat) : bit (v.resize size).words k =
          (decide (k < 64 * wordCount size) && bit v.words k) :=
        bit_takeD (by decide) _ _ k
      constructor
      · rintro ⟨⟨countable', tidy'⟩, _⟩
        refine ⟨countable', fun k beyond inside => ?_⟩
        rw [← Bool.not_eq_true]
        intro set
        have still := tidy' k (by rw [bits, set, decide_eq_true inside, Bool.and_true])
        exact absurd still (Nat.not_lt_of_le beyond)
      · rintro ⟨countable', unset⟩
        have tidy' : (v.resize size).Tidy := by
          intro k set
          rw [bits, Bool.and_eq_true, decide_eq_true_eq] at set
          by_contra beyond
          rw [unset k (Nat.le_of_not_lt beyond) set.1] at set
          exact Bool.false_ne_true set.2
        refine ⟨⟨countable', tidy'⟩, fun k reads => Or.inl ?_⟩
        rw [tidy'.reads_iff, bits, Bool.and_eq_true] at reads
        exact (tidy.reads_iff k).mpr reads.2
  | clearBits =>
      refine ⟨v.clearBits, rfl, iff_of_true (tidy.fewer countable rfl fun k set => ?_) trivial⟩
      exact absurd ((bit_zero _ k).symm.trans set) Bool.false_ne_true
  | set i =>
      obtain ⟨v', equal, sizes, bits⟩ := @modifyWord_eq v i countable legal
        (· ||| mask i) (· || ·)
        (fun x k inside => by rw [BitVec.getLsbD_or, getLsbD_mask i inside]) Bool.or_false
      refine ⟨v', (if_pos legal).trans equal, iff_of_true ⟨⟨sizes ▸ countable, ?_⟩, ?_⟩ trivial⟩
      · intro k set
        rw [bits, Bool.or_eq_true, decide_eq_true_eq] at set
        rw [sizes]
        rcases set with before | rfl
        · exact tidy k before
        · exact BitVec.lt_def.mp legal
      · intro k reads
        rw [reads_iff, bits, Bool.or_eq_true, decide_eq_true_eq] at reads
        exact reads.2.imp_left (tidy.reads_iff k).mpr
  | clear i =>
      obtain ⟨v', equal, sizes, bits⟩ := @modifyWord_eq v i countable legal
        (· &&& ~~~mask i) (fun value own => value && !own)
        (fun x k inside => by
          rw [BitVec.getLsbD_and, BitVec.getLsbD_not, getLsbD_mask i inside,
            decide_eq_true inside, Bool.true_and])
        Bool.and_true
      refine ⟨v', (if_pos legal).trans equal,
        iff_of_true (tidy.fewer countable sizes fun k set => ?_) trivial⟩
      rw [bits, Bool.and_eq_true] at set
      exact set.1
  | orAssign o =>
      exact ⟨v.orAssign o, rfl, tidy.mixed countable (fun _ => Iff.rfl) rfl Bool.or_false rfl
        (bit_bulk_of_zero (fun x y k _ => BitVec.getLsbD_or) Bool.or_false v o)⟩
  | andAssign o =>
      refine ⟨v.andAssign o, rfl,
        iff_of_true (tidy.fewer countable rfl fun k set => ?_) trivial⟩
      rw [andAssign, bit_bulk fun x y k _ => BitVec.getLsbD_and] at set
      split at set
      case isTrue => exact (Bool.and_eq_true_iff.mp set).1
      case isFalse => exact set
  | xorAssign o =>
      exact ⟨v.xorAssign o, rfl, tidy.mixed countable (fun _ => Iff.rfl) rfl Bool.xor_false rfl
        (bit_bulk_of_zero (fun x y k _ => BitVec.getLsbD_xor) Bool.xor_false v o)⟩
  | subtract o =>
      refine ⟨v.subtract o, rfl,
        iff_of_true (tidy.fewer countable rfl fun k set => ?_) trivial⟩
      have bitwise (x y : BitVec 64) (k : Nat) (inside : k < 64) :
          (x &&& ~~~y).getLsbD k = (x.getLsbD k && !y.getLsbD k) := by
        rw [BitVec.getLsbD_and, BitVec.getLsbD_not, decide_eq_true inside, Bool.true_and]
      rw [subtract, @bit_bulk _ (fun b c => b && !c) bitwise] at set
      split at set
      case isTrue => exact (Bool.and_eq_true_iff.mp set).1
      case isFalse => exact set

theorem Sound.agrees {ops : List Operation} (sound : v.Sound ops) : v.Agrees := by
  cases ops with
  | nil => exact sound
  | cons op ops => exact sound.1

theorem sound_iff (countable : Countable v.size) (tidy : v.Tidy) (ops : List Operation) :
    v.Sound ops ↔ v.AllFit ops := by
  induction ops generalizing v with
  | nil => exact iff_of_true ((agrees_iff v).mpr ⟨countable, tidy⟩) trivial
  | cons op ops ih =>
      have agrees := (agrees_iff v).mpr ⟨countable, tidy⟩
      constructor
      · rintro ⟨_, step⟩ legal
        obtain ⟨v', equal, fits⟩ := step_spec countable tidy legal
        obtain ⟨after, result, frame, rest⟩ := step legal
        obtain rfl := Option.some.inj (equal.symm.trans result)
        obtain ⟨countable', tidy'⟩ := (agrees_iff v').mp rest.agrees
        refine ⟨fits.mp ⟨⟨countable', tidy'⟩, frame⟩, fun after member => ?_⟩
        obtain rfl := Option.some.inj (equal.symm.trans member)
        exact (ih countable' tidy').mp rest
      · intro all
        refine ⟨agrees, fun legal => ?_⟩
        obtain ⟨v', equal, fits⟩ := step_spec countable tidy legal
        obtain ⟨⟨countable', tidy'⟩, frame⟩ := fits.mpr (all legal).1
        exact ⟨v', equal, frame, (ih countable' tidy').mpr ((all legal).2 v' equal)⟩

theorem tidy_ofSize (size : BitVec 32) : (ofSize size).Tidy :=
  fun k set => absurd ((bit_zero _ k).symm.trans set) Bool.false_ne_true

/-- In a run the observations agree in all states, and numbers come into range unset, exactly
if its sizes are countable, no resizing leaves a set bit beyond the size, and no operand of
`|=` and `^=` has bits there or bits of its own beyond its size that are new. -/
theorem sound_ofSize_iff (size : BitVec 32) (ops : List Operation) :
    (ofSize size).Sound ops ↔ Countable size ∧ (ofSize size).AllFit ops := by
  constructor
  · intro sound
    have countable := ((agrees_iff _).mp sound.agrees).1
    exact ⟨countable, (sound_iff countable (tidy_ofSize size) ops).mp sound⟩
  · rintro ⟨countable, all⟩
    exact (sound_iff countable (tidy_ofSize size) ops).mpr all

/-- The last number is set and the vector is shrunk: the bit is still counted. -/
theorem unsound_shrink : ¬∀ size ops, (ofSize size).Sound ops := by
  intro sound
  have countable : Countable 64#32 := by unfold Countable; decide
  have all := (sound_iff countable (tidy_ofSize 64#32) [.set 63#32, .resize 10#32]).mp (sound _ _)
  have inside : (ofSize 64#32).Legal (.set 63#32) := by unfold Legal; decide
  have fits := ((all inside).2 _ rfl trivial).1.2 63 (by decide) (by decide)
  exact absurd fits (by decide)

end Aegis.BitVector
