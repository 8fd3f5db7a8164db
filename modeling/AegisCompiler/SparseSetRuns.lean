import AegisCompiler.SparseSet

/-!
# Sparse sets are finite sets

Every operation keeps the invariant and does to the members what it should, also when the
epoch counter overflows.
-/

namespace Aegis

namespace SparseSet

section Operations

variable {s : SparseSet} {v : BitVec 32}

theorem resize_wellFormed (universeSize : BitVec 32) : (resize universeSize).WellFormed where
  fits := by
    rw [resize, List.length_replicate]
    exact universeSize.isLt
  started := by
    change (1 : BitVec 32) ≠ 0
    decide
  past := by
    intro e member
    rw [List.eq_of_mem_replicate member]
    exact Nat.zero_le _
  nodup := List.nodup_nil
  placed := nofun
  current := by
    intro v e found epoch
    rw [List.eq_of_mem_replicate (List.mem_of_getElem? found)] at epoch
    exact absurd epoch (by decide : (0 : BitVec 32) ≠ 1)

theorem members_resize (universeSize : BitVec 32) : (resize universeSize).members = ∅ := rfl

/-- Clearing keeps the invariant: no entry is from the epoch that begins. -/
theorem WellFormed.clear (wf : s.WellFormed) : s.clear.WellFormed := by
  unfold SparseSet.clear
  split
  case isTrue =>
    constructor
    · exact (List.length_map _).trans_lt wf.fits
    · change (1 : BitVec 32) ≠ 0
      decide
    · intro e member
      obtain ⟨_, -, rfl⟩ := List.mem_map.mp member
      exact Nat.zero_le _
    · exact List.nodup_nil
    · nofun
    · intro v e found epoch
      obtain ⟨_, -, rfl⟩ := List.mem_map.mp (List.mem_of_getElem? found)
      exact absurd epoch (by decide : (0 : BitVec 32) ≠ 1)
  case isFalse running =>
    have later : s.epoch < s.epoch + 1 := by bv_omega
    constructor
    · exact wf.fits
    · exact running
    · intro e member
      exact BitVec.le_trans (wf.past e member) (BitVec.le_of_lt later)
    · exact List.nodup_nil
    · nofun
    · intro v e found epoch
      have old := wf.past e (List.mem_of_getElem? found)
      rw [epoch] at old
      exact absurd later (BitVec.not_lt.mpr old)

theorem members_clear : s.clear.members = ∅ := by
  unfold SparseSet.clear
  split <;> rfl

theorem length_clear : s.clear.sparse.length = s.sparse.length := by
  unfold SparseSet.clear
  split
  case isTrue => exact List.length_map _
  case isFalse => rfl

/-- A new number is put at the end of the dense array. -/
theorem WellFormed.push (wf : s.WellFormed) (inside : v.toNat < s.sparse.length)
    (new : v ∉ s.dense) :
    WellFormed { s with
      sparse := s.sparse.set v.toNat ⟨BitVec.ofNat 32 s.dense.length, s.epoch⟩
      dense := s.dense ++ [v] } := by
  have nodup : (s.dense ++ [v]).Nodup := by
    rw [List.nodup_append_comm]
    exact List.nodup_cons.mpr ⟨new, wf.nodup⟩
  constructor
  · exact (List.length_set).trans_lt wf.fits
  · exact wf.started
  · intro e member
    rcases List.mem_or_eq_of_mem_set member with old | rfl
    · exact wf.past e old
    · exact BitVec.le_refl _
  · exact nodup
  · intro i w found
    rw [List.getElem?_append] at found
    split at found
    case isTrue before =>
      have other : v.toNat ≠ w.toNat := by
        rintro same
        exact new (BitVec.eq_of_toNat_eq same ▸ List.mem_of_getElem? found)
      rw [List.getElem?_set_ne other]
      exact wf.placed i w found
    case isFalse behind =>
      have within := (List.getElem?_eq_some_iff.mp found).1
      rw [List.length_singleton] at within
      obtain rfl : i = s.dense.length := by omega
      rw [Nat.sub_self] at found
      obtain rfl := Option.some.inj found
      exact List.getElem?_set_self inside
  · intro w e found epoch idx
    by_cases same : v = w
    · subst same
      rw [List.getElem?_set_self inside] at found
      obtain rfl := Option.some.inj found
      change (s.dense ++ [v])[(BitVec.ofNat 32 s.dense.length).toNat]? = some v
      rw [BitVec.toNat_ofNat, Nat.mod_eq_of_lt wf.length_lt, List.getElem?_concat_length]
    · rw [List.getElem?_set_ne fun equal => same (BitVec.eq_of_toNat_eq equal)] at found
      have old := wf.current w e found epoch idx
      exact (List.getElem?_append_left (List.getElem?_eq_some_iff.mp old).1).trans old

/-- Inserting keeps the invariant, adds the number, and says whether it is new. -/
theorem WellFormed.insert (wf : s.WellFormed) (inside : v.toNat < s.sparse.length) :
    ∃ s', s.insert v = some (s', decide (v ∉ s.members)) ∧ s'.WellFormed ∧
      s'.members = Insert.insert v s.members ∧ s'.sparse.length = s.sparse.length := by
  have test := wf.contains_eq v
  unfold contains at test
  unfold SparseSet.insert
  rw [List.getElem?_eq_getElem inside] at test ⊢
  simp only [Option.bind_eq_bind, Option.bind_some] at test ⊢
  split
  case isTrue here =>
    rw [decide_eq_true here] at test
    have member : v ∈ s.members := of_decide_eq_true test.symm
    refine ⟨s, ?_, wf, (Finset.insert_eq_of_mem member).symm, rfl⟩
    rw [decide_eq_false (not_not.mpr member)]
    rfl
  case isFalse absent =>
    rw [decide_eq_false absent] at test
    have new : v ∉ s.members := of_decide_eq_false test.symm
    refine ⟨_, ?_, wf.push inside (mem_members.not.mp new), ?_, List.length_set⟩
    · rw [decide_eq_true new]
      rfl
    · rw [members, members, List.toFinset_append, List.toFinset_cons, List.toFinset_nil,
        insert_empty_eq, Finset.union_comm]
      rfl

/-- The entries after the last member has taken the place of another one. -/
theorem erased_entry {sparse : List SparseEntry} {last : BitVec 32} {filled cleared : SparseEntry}
    {w : BitVec 32} (other : w ≠ v) :
    ((sparse.set last.toNat filled).set v.toNat cleared)[w.toNat]? =
      (sparse.set last.toNat filled)[w.toNat]? :=
  List.getElem?_set_ne fun same => other (BitVec.eq_of_toNat_eq same).symm

theorem WellFormed.swap (wf : s.WellFormed) {front : List (BitVec 32)} {last : BitVec 32}
    (split : s.dense = front ++ [last]) {i : Nat} (found : s.dense[i]? = some v) :
    WellFormed { s with
      dense := front.set i last
      sparse := (s.sparse.set last.toNat ⟨BitVec.ofNat 32 i, s.epoch⟩).set v.toNat
        ⟨kSentinel, 0⟩ } := by
  have inside := wf.inside (List.mem_of_getElem? found)
  have lastFound : s.dense[front.length]? = some last := by
    rw [split, List.getElem?_concat_length]
  have lastInside := wf.inside (List.mem_of_getElem? lastFound)
  have place := (List.getElem?_eq_some_iff.mp found).1
  have length : s.dense.length = front.length + 1 := by
    rw [split, List.length_append, List.length_singleton]
  have perm : (front.set i last).Perm (s.dense.erase v) := by
    rw [split] at found ⊢
    exact SwapRemoval.set_perm_erase (split ▸ wf.nodup) found
  have unique {j k : Nat} {w : BitVec 32} (here : s.dense[j]? = some w)
      (there : s.dense[k]? = some w) : j = k :=
    (List.getElem?_inj (List.getElem?_eq_some_iff.mp here).1 wf.nodup).mp (here.trans there.symm)
  constructor
  · rw [List.length_set, List.length_set]
    exact wf.fits
  · exact wf.started
  · intro e member
    rcases List.mem_or_eq_of_mem_set member with old | rfl
    · rcases List.mem_or_eq_of_mem_set old with old | rfl
      · exact wf.past e old
      · exact BitVec.le_refl _
    · exact Nat.zero_le _
  · exact perm.nodup_iff.mpr (wf.nodup.erase v)
  · intro j w stands
    have other : w ≠ v := by
      have among := perm.mem_iff.mp (List.mem_of_getElem? stands)
      exact (wf.nodup.mem_erase_iff.mp among).1
    rw [erased_entry other]
    have before := (List.getElem?_eq_some_iff.mp stands).1
    rw [List.length_set] at before
    by_cases same : j = i
    · subst same
      rw [List.getElem?_set_self before] at stands
      obtain rfl := Option.some.inj stands
      exact List.getElem?_set_self lastInside
    · rw [List.getElem?_set_ne (Ne.symm same)] at stands
      have old : s.dense[j]? = some w := by
        rw [split, List.getElem?_append_left before]
        exact stands
      have notLast : last ≠ w := by
        rintro rfl
        exact Nat.ne_of_lt before (unique old lastFound)
      rw [List.getElem?_set_ne fun equal => notLast (BitVec.eq_of_toNat_eq equal)]
      exact wf.placed j w old
  · intro w e entry epoch idx
    have other : w ≠ v := by
      rintro rfl
      rw [List.getElem?_set_self (by rw [List.length_set]; exact inside)] at entry
      obtain rfl := Option.some.inj entry
      exact wf.started epoch.symm
    rw [erased_entry other] at entry
    by_cases same : last = w
    · subst same
      rw [List.getElem?_set_self lastInside] at entry
      obtain rfl := Option.some.inj entry
      have before : i ≠ front.length := by
        rintro rfl
        exact other (Option.some.inj (lastFound.symm.trans found))
      have small := wf.length_lt
      change (front.set i last)[(BitVec.ofNat 32 i).toNat]? = some last
      rw [BitVec.toNat_ofNat, Nat.mod_eq_of_lt (by omega)]
      exact List.getElem?_set_self (by omega)
    · rw [List.getElem?_set_ne fun equal => same (BitVec.eq_of_toNat_eq equal)] at entry
      have old := wf.current w e entry epoch idx
      have notLast : e.idx.toNat ≠ front.length := by
        intro equal
        rw [equal] at old
        exact same (Option.some.inj (lastFound.symm.trans old))
      have notHere : i ≠ e.idx.toNat := by
        rintro equal
        rw [← equal] at old
        exact other (Option.some.inj (old.symm.trans found))
      have before := (List.getElem?_eq_some_iff.mp old).1
      rw [split, List.getElem?_append_left (by omega)] at old
      exact (List.getElem?_set_ne notHere).trans old

/-- Erasing keeps the invariant, removes the number, and says whether it was there. -/
theorem WellFormed.erase (wf : s.WellFormed) (v : BitVec 32) :
    ∃ s', s.erase v = some (s', decide (v ∈ s.members)) ∧ s'.WellFormed ∧
      s'.members = s.members.erase v ∧ s'.sparse.length = s.sparse.length := by
  unfold SparseSet.erase
  rw [wf.contains_eq]
  split
  case isTrue absent =>
    refine ⟨s, by rw [absent], wf, ?_, rfl⟩
    exact (Finset.erase_eq_of_notMem (of_decide_eq_false absent)).symm
  case isFalse here =>
    have member : v ∈ s.dense := mem_members.mp (of_decide_eq_true (Bool.of_not_eq_false here))
    obtain ⟨i, found⟩ := List.mem_iff_getElem?.mp member
    obtain ⟨front, last, split⟩ := List.eq_nil_or_concat' s.dense |>.resolve_left
      (List.ne_nil_of_mem member)
    have lastFound : s.dense[front.length]? = some last := by
      rw [split, List.getElem?_concat_length]
    have place := (List.getElem?_eq_some_iff.mp found).1
    have low : (BitVec.ofNat 32 i).toNat = i := by
      have small := wf.length_lt
      rw [BitVec.toNat_ofNat, Nat.mod_eq_of_lt (by omega)]
    have length : s.dense.length = front.length + 1 := by
      rw [split, List.length_append, List.length_singleton]
    have moved : (s.dense.set i last).dropLast = front.set i last := by
      rw [split, SwapRemoval.dropLast_set (by omega)]
    refine ⟨_, ?_, wf.swap split found, ?_, ?_⟩
    · have end_ : s.dense.getLast? = some last := by rw [split, List.getLast?_concat]
      rw [wf.placed i v found, end_]
      simp only [Option.bind_eq_bind, Option.bind_some, low, moved, guard, if_pos place,
        wf.placed _ last lastFound]
      rw [decide_eq_true (mem_members.mpr member)]
      rfl
    · ext w
      rw [Finset.mem_erase, mem_members, mem_members, ← wf.nodup.mem_erase_iff]
      refine (List.Perm.mem_iff ?_)
      rw [split] at found ⊢
      exact SwapRemoval.set_perm_erase (split ▸ wf.nodup) found
    · rw [List.length_set, List.length_set]

end Operations

inductive SetOp where
  | insert (v : BitVec 32)
  | erase (v : BitVec 32)
  | contains (v : BitVec 32)
  | clear
  | resize (universeSize : BitVec 32)
  deriving DecidableEq, Repr

/-- One operation, with its answer if it has one. -/
def step (s : SparseSet) : SetOp → Option (SparseSet × Option Bool)
  | .insert v => (s.insert v).map fun result => (result.1, some result.2)
  | .erase v => (s.erase v).map fun result => (result.1, some result.2)
  | .contains v => some (s, some (s.contains v))
  | .clear => some (s.clear, none)
  | .resize universeSize => some (resize universeSize, none)

/-- The answers of a sequence of operations, and the set at its end. -/
def run : SparseSet → List SetOp → Option (SparseSet × List (Option Bool))
  | s, [] => some (s, [])
  | s, op :: ops => do
      let (s, answer) ← s.step op
      let (s, answers) ← run s ops
      return (s, answer :: answers)

/-- A finite set of numbers below a bound. -/
structure NumberSet where
  bound : Nat
  members : Finset (BitVec 32)

namespace NumberSet

/-- Inserting and erasing answer whether the set changes. -/
def step (set : NumberSet) : SetOp → NumberSet × Option Bool
  | .insert v => ({ set with members := Insert.insert v set.members },
      some (decide (Insert.insert v set.members ≠ set.members)))
  | .erase v => ({ set with members := set.members.erase v },
      some (decide (set.members.erase v ≠ set.members)))
  | .contains v => (set, some (decide (v ∈ set.members)))
  | .clear => ({ set with members := ∅ }, none)
  | .resize universeSize => (⟨universeSize.toNat, ∅⟩, none)

def run : NumberSet → List SetOp → NumberSet × List (Option Bool)
  | set, [] => (set, [])
  | set, op :: ops =>
      let next := set.step op
      let last := run next.1 ops
      (last.1, next.2 :: last.2)

/-- The operation is on an element of the universe. -/
def Accepts (set : NumberSet) : SetOp → Prop
  | .insert v | .erase v | .contains v => v.toNat < set.bound
  | .clear | .resize _ => True

instance (set : NumberSet) : (op : SetOp) → Decidable (set.Accepts op)
  | .insert v | .erase v | .contains v => inferInstanceAs (Decidable (v.toNat < set.bound))
  | .clear | .resize _ => .isTrue trivial

def AcceptsRun : NumberSet → List SetOp → Prop
  | _, [] => True
  | set, op :: ops => set.Accepts op ∧ AcceptsRun (set.step op).1 ops

end NumberSet

/-- The set is represented: the invariant holds of its members. -/
structure Represents (s : SparseSet) (set : NumberSet) : Prop where
  wellFormed : s.WellFormed
  bound_eq : s.sparse.length = set.bound
  members_eq : s.members = set.members

/-- What can be observed of a set. -/
structure Shows (s : SparseSet) (set : NumberSet) : Prop where
  contains : ∀ v, s.contains v = decide (v ∈ set.members)
  size : s.size.toNat = set.members.card
  nodup : s.dense.Nodup
  lists : ∀ v, v ∈ s.dense ↔ v ∈ set.members

section Runs

variable {s : SparseSet} {set : NumberSet}

theorem Represents.shows (represents : s.Represents set) : s.Shows set := by
  have wf := represents.wellFormed
  constructor
  · intro v
    rw [wf.contains_eq, represents.members_eq]
  · rw [wf.size_eq, represents.members_eq]
  · exact wf.nodup
  · intro v
    rw [← mem_members, represents.members_eq]

/-- An accepted operation does to a represented set what it does to the set. -/
theorem Represents.step (represents : s.Represents set) {op : SetOp} (accepts : set.Accepts op) :
    ∃ s', s.step op = some (s', (set.step op).2) ∧ s'.Represents (set.step op).1 := by
  obtain ⟨wf, same, equal⟩ := represents
  cases op with
  | insert v =>
      have inside : v.toNat < s.sparse.length := by
        rw [same]
        exact accepts
      obtain ⟨s', inserted, wf', more, length⟩ := wf.insert inside
      have answer : decide (v ∉ s.members) =
          decide (Insert.insert v set.members ≠ set.members) := by
        rw [equal]
        exact decide_eq_decide.mpr Finset.insert_eq_self.not.symm
      refine ⟨s', ?_, wf', length.trans same, more.trans (by rw [equal]; rfl)⟩
      rw [SparseSet.step, inserted, answer]
      rfl
  | erase v =>
      obtain ⟨s', erased, wf', less, length⟩ := wf.erase v
      have answer : decide (v ∈ s.members) =
          decide (set.members.erase v ≠ set.members) := by
        rw [equal]
        exact decide_eq_decide.mpr Finset.erase_ne_self.symm
      refine ⟨s', ?_, wf', length.trans same, less.trans (by rw [equal]; rfl)⟩
      rw [SparseSet.step, erased, answer]
      rfl
  | contains v =>
      refine ⟨s, ?_, wf, same, equal⟩
      rw [SparseSet.step, wf.contains_eq, equal]
      rfl
  | clear =>
      exact ⟨s.clear, rfl, wf.clear, length_clear.trans same, members_clear⟩
  | resize universeSize =>
      exact ⟨_, rfl, resize_wellFormed universeSize, List.length_replicate,
        members_resize universeSize⟩

theorem Represents.run (represents : s.Represents set) {ops : List SetOp}
    (accepts : set.AcceptsRun ops) :
    ∃ s', s.run ops = some (s', (set.run ops).2) ∧ s'.Represents (set.run ops).1 := by
  induction ops generalizing s set with
  | nil => exact ⟨s, rfl, represents⟩
  | cons op ops ih =>
      obtain ⟨next, stepped, represents'⟩ := represents.step accepts.1
      obtain ⟨s', ran, last⟩ := ih represents' accepts.2
      refine ⟨s', ?_, last⟩
      rw [SparseSet.run, stepped]
      simp only [Option.bind_eq_bind, Option.bind_some, ran]
      rfl

end Runs

/-- A sparse set is a finite set: after any operations on elements of the universe it shows
the same members, and the answers on the way were those of the set. -/
theorem run_set (universeSize : BitVec 32) (ops : List SetOp)
    (accepts : NumberSet.AcceptsRun ⟨universeSize.toNat, ∅⟩ ops) :
    ∃ s, (resize universeSize).run ops = some (s, (NumberSet.run ⟨universeSize.toNat, ∅⟩ ops).2) ∧
      s.Shows (NumberSet.run ⟨universeSize.toNat, ∅⟩ ops).1 := by
  have start : (resize universeSize).Represents ⟨universeSize.toNat, ∅⟩ :=
    ⟨resize_wellFormed universeSize, List.length_replicate, members_resize universeSize⟩
  obtain ⟨s, ran, represents⟩ := start.run accepts
  exact ⟨s, ran, represents.shows⟩

/-- A number that is inserted, cleared away and inserted again. -/
theorem run_set_reinserted :
    ∃ s, (resize 4).run [.insert 1, .insert 3, .erase 1, .clear, .contains 3, .insert 3] =
        some (s, [some true, some true, some true, none, some false, some true]) ∧
      s.Shows ⟨4, {3}⟩ :=
  run_set 4 [.insert 1, .insert 3, .erase 1, .clear, .contains 3, .insert 3]
    ⟨by decide, by decide, by decide, trivial, by decide, by decide, trivial⟩

end SparseSet

end Aegis
