import Mathlib.Data.List.Range
import Mathlib.Data.List.TakeDrop
import Mathlib.Algebra.Group.Nat.Defs

/-!
# Bits packed into words

A list of words of one width read as one sequence of bits: which bits are set, how many,
and the same bits found word by word from the lowest on.
-/

namespace PackedBits

variable {w : Nat}

section Word

variable {x : BitVec w} {i : Nat}

/-- The lowest bit as a remainder. -/
theorem toNat_mod_ctz (nonzero : x ≠ 0#w) :
    x.toNat % 2 ^ (x.ctz.toNat + 1) = 2 ^ x.ctz.toNat := by
  apply Nat.eq_of_testBit_eq
  intro j
  rw [Nat.testBit_mod_two_pow, Nat.testBit_two_pow]
  rcases Nat.lt_trichotomy j x.ctz.toNat with below | rfl | above
  · have unset : x.toNat.testBit j = false := BitVec.getLsbD_false_of_lt_ctz below
    rw [unset, Bool.and_false, decide_eq_false (by omega)]
  · have here : x.toNat.testBit x.ctz.toNat = true := BitVec.getLsbD_true_ctz_of_ne_zero nonzero
    rw [here, Bool.and_true, decide_eq_true (by omega), decide_eq_true rfl]
  · rw [decide_eq_false (by omega), decide_eq_false (by omega), Bool.false_and]

/-- Subtracting one changes no bit above the lowest, and the lowest one is lost. -/
theorem getLsbD_clear_lowest (nonzero : x ≠ 0#w) :
    (x &&& (x - 1#w)).getLsbD i = (x.getLsbD i && decide (i ≠ x.ctz.toNat)) := by
  let t := x.ctz.toNat
  let high := x.toNat / 2 ^ (t + 1)
  have less : 2 ^ t < 2 ^ (t + 1) := Nat.pow_lt_pow_right (by decide) (Nat.lt_succ_self t)
  have positive : 0 < 2 ^ t := Nat.two_pow_pos t
  have parts : x.toNat = 2 ^ (t + 1) * high + 2 ^ t := by
    rw [← toNat_mod_ctz nonzero, Nat.div_add_mod]
  have one : 1#w ≤ x := by
    rw [BitVec.le_def, BitVec.toNat_ofNat]
    exact (Nat.mod_le 1 _).trans (by omega)
  have width : 0 < w := by
    rcases Nat.eq_zero_or_pos w with rfl | some
    · exact absurd (BitVec.eq_of_toNat_eq (by omega)) nonzero
    · exact some
  have before : (x - 1#w).toNat = 2 ^ (t + 1) * high + (2 ^ t - 1) := by
    have single : 1 % 2 ^ w = 1 := Nat.mod_eq_of_lt (Nat.one_lt_two_pow width.ne')
    rw [BitVec.toNat_sub_of_le one, BitVec.toNat_ofNat, single, parts]
    omega
  change (x &&& (x - 1#w)).toNat.testBit i = (x.toNat.testBit i && decide (i ≠ t))
  rw [BitVec.toNat_and, Nat.testBit_and, before, parts, Nat.testBit_two_pow_mul_add _ less,
    Nat.testBit_two_pow_mul_add _ (by omega)]
  split
  case isTrue low =>
    rw [Nat.testBit_two_pow, Nat.testBit_two_pow_sub_one]
    by_cases same : t = i
    · rw [decide_eq_true same, decide_eq_false (by omega), decide_eq_false (by omega)]
    · rw [decide_eq_false same, Bool.false_and, Bool.false_and]
  case isFalse high =>
    rw [Bool.and_self, decide_eq_true (show i ≠ t by omega), Bool.and_true]

theorem clear_lowest_lt (nonzero : x ≠ 0#w) : (x &&& (x - 1#w)).toNat < x.toNat := by
  have below : (x &&& (x - 1#w)).toNat ≤ x.toNat := by
    rw [BitVec.toNat_and]
    exact Nat.and_le_left
  refine Nat.lt_of_le_of_ne below fun same => ?_
  have cleared := @getLsbD_clear_lowest w x x.ctz.toNat nonzero
  rw [BitVec.eq_of_toNat_eq same, BitVec.getLsbD_true_ctz_of_ne_zero nonzero] at cleared
  simp at cleared

/-- The set bits of a word: the lowest is taken and cleared until none is left. -/
def setBits (x : BitVec w) : List Nat :=
  if x = 0#w then [] else x.ctz.toNat :: setBits (x &&& (x - 1#w))
termination_by x.toNat
decreasing_by exact clear_lowest_lt ‹_›

/-- The first number with a property stands in front of the others. -/
theorem filter_range_eq_cons {p q : Nat → Bool} {t n : Nat} (inside : t < n) (here : p t = true)
    (before : ∀ i < t, p i = false) (rest : ∀ i, q i = (p i && decide (i ≠ t))) :
    (List.range n).filter p = t :: (List.range n).filter q := by
  obtain ⟨k, rfl⟩ := Nat.exists_eq_add_of_lt inside
  have parts : List.range (t + k + 1) = List.range t ++ t :: List.range' (t + 1) k := by
    rw [List.range_eq_range', List.range_eq_range', Nat.add_assoc, ← List.range'_append_1,
      Nat.zero_add, List.range'_succ]
  have early (r : Nat → Bool) (unset : ∀ i < t, r i = false) : (List.range t).filter r = [] := by
    rw [List.filter_eq_nil_iff]
    intro i member
    rw [unset i (List.mem_range.mp member)]
    exact Bool.false_ne_true
  have late : (List.range' (t + 1) k).filter p = (List.range' (t + 1) k).filter q := by
    apply List.filter_congr
    intro i member
    have above := (List.mem_range'_1.mp member).1
    rw [rest, decide_eq_true (by omega), Bool.and_true]
  have own : q t = false := by rw [rest, decide_eq_false (by omega), Bool.and_false]
  rw [parts, List.filter_append, List.filter_append, early p before,
    early q fun i less => by rw [rest, before i less, Bool.false_and],
    List.filter_cons_of_pos here, List.filter_cons_of_neg (by rw [own]; exact Bool.false_ne_true),
    late, List.nil_append, List.nil_append]

theorem setBits_eq (x : BitVec w) : setBits x = (List.range w).filter x.getLsbD := by
  induction x using setBits.induct with
  | case1 =>
      rw [setBits, if_pos rfl, eq_comm, List.filter_eq_nil_iff]
      intro i _
      simp
  | case2 x nonzero ih =>
      have inside : x.ctz.toNat < w := by
        have set := BitVec.getLsbD_true_ctz_of_ne_zero nonzero
        exact BitVec.lt_of_getLsbD set
      rw [setBits, if_neg nonzero, ih]
      exact (filter_range_eq_cons inside (BitVec.getLsbD_true_ctz_of_ne_zero nonzero)
        (fun i below => BitVec.getLsbD_false_of_lt_ctz below)
        (fun i => getLsbD_clear_lowest nonzero)).symm

theorem cpop_eq (x : BitVec w) : x.cpop.toNat = ((List.range w).filter x.getLsbD).length := by
  have partial_count (k : Nat) :
      x.cpopNatRec k 0 = ((List.range k).filter x.getLsbD).length := by
    induction k with
    | zero => rfl
    | succ k ih =>
        rw [BitVec.cpopNatRec_succ, BitVec.cpopNatRec_add, ih, List.range_succ, List.filter_append,
          List.length_append, List.filter_singleton]
        cases x.getLsbD k <;> rfl
  rw [BitVec.toNat_cpop, partial_count]

end Word

def bit (words : List (BitVec w)) (i : Nat) : Bool :=
  (words[i / w]?.getD 0#w).getLsbD (i % w)

variable {x : BitVec w} {words others : List (BitVec w)} {i : Nat}

theorem lt_of_bit (set : bit words i = true) : i < w * words.length := by
  unfold bit at set
  have width : 0 < w := (Nat.zero_le _).trans_lt (BitVec.lt_of_getLsbD set)
  by_contra outside
  have behind : words.length ≤ i / w := by
    rw [Nat.le_div_iff_mul_le width, Nat.mul_comm]
    exact Nat.le_of_not_lt outside
  rw [List.getElem?_eq_none behind, Option.getD_none, BitVec.getLsbD_zero] at set
  exact Bool.false_ne_true set

theorem bit_cons_of_lt (inside : i < w) : bit (x :: words) i = x.getLsbD i := by
  rw [bit, Nat.div_eq_of_lt inside, Nat.mod_eq_of_lt inside]
  rfl

theorem bit_cons_add (width : 0 < w) : bit (x :: words) (w + i) = bit words i := by
  rw [bit, bit, Nat.add_div_left i width, Nat.add_mod_left, List.getElem?_cons_succ]

theorem filter_bit_cons (width : 0 < w) :
    (List.range (w * (x :: words).length)).filter (bit (x :: words)) =
      (List.range w).filter x.getLsbD ++
        ((List.range (w * words.length)).filter (bit words)).map (w + ·) := by
  have first : (List.range w).filter (bit (x :: words)) = (List.range w).filter x.getLsbD := by
    apply List.filter_congr
    intro i member
    exact bit_cons_of_lt (List.mem_range.mp member)
  have others : bit (x :: words) ∘ (w + ·) = bit words := by
    funext i
    exact bit_cons_add width
  rw [List.length_cons, Nat.mul_succ, Nat.add_comm, List.range_add, List.filter_append, first,
    List.filter_map, others]

/-- The number of set bits, word by word. -/
def count : List (BitVec w) → Nat
  | [] => 0
  | x :: words => x.cpop.toNat + count words

theorem count_eq (width : 0 < w) (words : List (BitVec w)) :
    count words = ((List.range (w * words.length)).filter (bit words)).length := by
  induction words with
  | nil => rfl
  | cons x words ih =>
      rw [filter_bit_cons width, count, ih, cpop_eq, List.length_append, List.length_map]

/-- The bits found word by word. -/
theorem flatMap_setBits (width : 0 < w) (words : List (BitVec w)) :
    words.zipIdx.flatMap (fun entry => (setBits entry.1).map (w * entry.2 + ·)) =
      (List.range (w * words.length)).filter (bit words) := by
  induction words with
  | nil => rfl
  | cons x words ih =>
      rw [filter_bit_cons width, ← ih, List.zipIdx_cons, List.flatMap_cons, Nat.mul_zero,
        setBits_eq, List.map_flatMap, List.zipIdx_succ, List.flatMap_map]
      congr 1
      · simp
      · congr 1
        funext entry
        rw [List.map_map]
        congr 1
        funext j
        simp only [Function.comp_apply]
        rw [Nat.mul_succ]
        omega

theorem exists_bit_iff : (∃ i, bit words i = true) ↔ ∃ x ∈ words, x ≠ 0#w := by
  constructor
  · rintro ⟨i, set⟩
    unfold bit at set
    cases found : words[i / w]? with
    | none =>
        rw [found, Option.getD_none, BitVec.getLsbD_zero] at set
        exact absurd set Bool.false_ne_true
    | some x =>
        refine ⟨x, List.mem_of_getElem? found, ?_⟩
        rintro rfl
        rw [found, Option.getD_some, BitVec.getLsbD_zero] at set
        exact absurd set Bool.false_ne_true
  · rintro ⟨x, member, nonzero⟩
    obtain ⟨k, found⟩ := List.getElem?_of_mem member
    have set := BitVec.getLsbD_true_ctz_of_ne_zero nonzero
    have inside := BitVec.lt_of_getLsbD set
    refine ⟨w * k + x.ctz.toNat, ?_⟩
    rw [bit, Nat.mul_add_div (by omega), Nat.div_eq_of_lt inside, Nat.add_zero, Nat.mul_add_mod,
      Nat.mod_eq_of_lt inside, found]
    exact set

theorem bit_modify {f : BitVec w → BitVec w} {k : Nat} (inside : k < words.length) :
    bit (words.modify k f) i =
      if i / w = k then (f words[k]).getLsbD (i % w) else bit words i := by
  rw [bit, List.getElem?_modify]
  split
  case isTrue same =>
    rw [if_pos same.symm, ← same]
    rw [List.getElem?_eq_getElem (same ▸ inside)]
    rfl
  case isFalse other =>
    rw [if_neg (Ne.symm other), bit]
    cases words[i / w]? <;> rfl

/-- Words are dropped at the end, or words of unset bits are added there. -/
theorem bit_takeD (width : 0 < w) (k : Nat) (words : List (BitVec w)) (i : Nat) :
    bit (words.takeD k 0#w) i = (decide (i < w * k) && bit words i) := by
  induction k generalizing words i with
  | zero =>
      rw [List.takeD_zero, Nat.mul_zero, decide_eq_false (Nat.not_lt_zero i), Bool.false_and]
      simp [bit]
  | succ k ih =>
      have first : bit words i = bit (words.headD 0#w :: words.tail) i := by
        cases words with
        | nil =>
            unfold bit
            cases i / w <;> simp
        | cons x words => rfl
      rw [first, List.takeD]
      rcases Nat.lt_or_ge i w with inside | behind
      · have before : i < w * (k + 1) :=
          inside.trans_le (Nat.le_mul_of_pos_right w k.succ_pos)
        rw [bit_cons_of_lt inside, bit_cons_of_lt inside, decide_eq_true before, Bool.true_and]
      · obtain ⟨j, rfl⟩ := Nat.exists_eq_add_of_le behind
        rw [bit_cons_add width, bit_cons_add width, ih]
        congr 2
        rw [Nat.mul_succ, Nat.add_comm, Nat.add_lt_add_iff_right]

/-- The words both lists have are combined. -/
def overCommon (f : BitVec w → BitVec w → BitVec w) :
    List (BitVec w) → List (BitVec w) → List (BitVec w)
  | [], _ => []
  | x :: words, [] => x :: words
  | x :: words, y :: others => f x y :: overCommon f words others

theorem length_overCommon (f : BitVec w → BitVec w → BitVec w)
    (words others : List (BitVec w)) : (overCommon f words others).length = words.length := by
  induction words, others using overCommon.induct with
  | case1 => rfl
  | case2 => rfl
  | case3 x words y others ih => rw [overCommon, List.length_cons, List.length_cons, ih]

/-- An operation bit by bit changes the common bits. -/
theorem bit_overCommon {f : BitVec w → BitVec w → BitVec w} {g : Bool → Bool → Bool}
    (bitwise : ∀ x y j, j < w → (f x y).getLsbD j = g (x.getLsbD j) (y.getLsbD j))
    (width : 0 < w) (words others : List (BitVec w)) (i : Nat) :
    bit (overCommon f words others) i =
      if i < w * words.length ∧ i < w * others.length then g (bit words i) (bit others i)
      else bit words i := by
  induction words, others using overCommon.induct generalizing i with
  | case1 others => rw [overCommon, if_neg (by simp)]
  | case2 x words => rw [overCommon, if_neg (by simp)]
  | case3 x words y others ih =>
      rw [overCommon]
      rcases Nat.lt_or_ge i w with inside | behind
      · have common (k : Nat) : i < w * (k + 1) :=
          inside.trans_le (Nat.le_mul_of_pos_right w k.succ_pos)
        rw [bit_cons_of_lt inside, bit_cons_of_lt inside, bit_cons_of_lt inside,
          if_pos ⟨common _, common _⟩, bitwise x y i inside]
      · obtain ⟨j, rfl⟩ := Nat.exists_eq_add_of_le behind
        have shift (k : Nat) : w + j < w * (k + 1) ↔ j < w * k := by
          rw [Nat.mul_succ, Nat.add_comm, Nat.add_lt_add_iff_right]
        simp only [bit_cons_add width, List.length_cons, shift]
        exact ih j

end PackedBits
