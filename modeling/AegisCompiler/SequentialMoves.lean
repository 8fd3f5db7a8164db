import Mathlib.Logic.Function.Basic
import Mathlib.Data.List.Induction
import Mathlib.Logic.Nontrivial.Basic

/-!
# Sequential moves and simultaneous assignment

A list of moves is executed one after another.  It has the effect of one
simultaneous assignment exactly when equal destinations have equal sources and
no move reads a destination that an earlier move has changed.
-/

namespace SequentialMoves

variable {R V : Type*} [DecidableEq R]

/-- A move from its second to its first component. -/
abbrev Move (R : Type*) := R × R

/-- Execute the moves one after another. -/
def run : List (Move R) → (R → V) → R → V
  | [], regs => regs
  | move :: moves, regs =>
      run moves (Function.update regs move.1 (regs move.2))

/-- Every destination receives the old value of its source. -/
def Simultaneous (V : Type*) (moves : List (Move R)) : Prop :=
  ∀ regs : R → V, ∀ move ∈ moves, run moves regs move.1 = regs move.2

/-- Moves to one destination read one source. -/
def Consistent (moves : List (Move R)) : Prop :=
  ∀ first ∈ moves, ∀ second ∈ moves,
    first.1 = second.1 → first.2 = second.2

/-- No move reads what an earlier one has changed. -/
def ReadsOld (moves : List (Move R)) : Prop :=
  moves.Pairwise fun early late => late.2 = early.1 → early.2 = early.1

theorem run_append (first second : List (Move R)) (regs : R → V) :
    run (first ++ second) regs = run second (run first regs) := by
  induction first generalizing regs with
  | nil => rfl
  | cons move moves ih => exact ih _

/-- Registers that are no destination keep their value. -/
theorem run_other {moves : List (Move R)} {r : R}
    (untouched : ∀ move ∈ moves, move.1 ≠ r) (regs : R → V) :
    run moves regs r = regs r := by
  induction moves generalizing regs with
  | nil => rfl
  | cons move moves ih =>
      rw [run, ih fun other member => untouched other (by simp [member]),
        Function.update_of_ne (untouched move (by simp)).symm]

omit [DecidableEq R] in
theorem Consistent.of_append {first second : List (Move R)}
    (consistent : Consistent (first ++ second)) : Consistent first :=
  fun left leftMember right rightMember =>
    consistent left (by simp [leftMember]) right (by simp [rightMember])

/-- Consistent moves that read old values act simultaneously. -/
theorem run_destination {moves : List (Move R)}
    (consistent : Consistent moves) (readsOld : ReadsOld moves)
    (regs : R → V) : ∀ move ∈ moves, run moves regs move.1 = regs move.2 := by
  induction moves using List.reverseRecOn with
  | nil => simp
  | append_singleton moves last ih =>
      have before := ih consistent.of_append
        (List.pairwise_append.mp readsOld).1
      have cross := (List.pairwise_append.mp readsOld).2.2
      -- The last move still finds the old value in its source.
      have source : run moves regs last.2 = regs last.2 := by
        by_cases written : ∃ move ∈ moves, move.1 = last.2
        · obtain ⟨move, member, same⟩ := written
          have unchanged := cross move member last (by simp) same.symm
          rw [← same, before move member, unchanged]
        · push Not at written
          exact run_other written regs
      intro move member
      rw [run_append, run, run]
      by_cases same : move.1 = last.1
      · rw [same, Function.update_self, source,
          consistent move member last (by simp) same]
      · have earlier : move ∈ moves := by
          rcases List.mem_append.mp member with earlier | here
          · exact earlier
          · rw [List.mem_singleton] at here
            exact absurd (by rw [here]) same
        rw [Function.update_of_ne same, before move earlier]

/-- Some move changes a register that a later one reads. -/
theorem exists_first_change {moves : List (Move R)}
    (notOld : ¬ ReadsOld moves) :
    ∃ before change after, moves = before ++ change :: after ∧
      change.2 ≠ change.1 ∧ (∃ reader ∈ after, reader.2 = change.1) ∧
      ReadsOld (before ++ [change]) ∧
      ∀ early ∈ before, ∀ late ∈ after,
        late.2 = early.1 → early.2 = early.1 := by
  induction moves with
  | nil => exact absurd List.Pairwise.nil notOld
  | cons move moves ih =>
      by_cases here : ∀ late ∈ moves, late.2 = move.1 → move.2 = move.1
      · have rest : ¬ ReadsOld moves := fun readsOld =>
          notOld (List.pairwise_cons.mpr ⟨here, readsOld⟩)
        obtain ⟨before, change, after, rfl, changes, reader, readsOld,
          others⟩ := ih rest
        refine ⟨move :: before, change, after, rfl, changes, reader,
          List.pairwise_cons.mpr ⟨fun late member => ?_, readsOld⟩, ?_⟩
        · refine here late ?_
          rcases List.mem_append.mp member with early | last
          · simp [early]
          · simp [List.mem_singleton.mp last]
        · intro early member late later
          rcases List.mem_cons.mp member with rfl | member
          · exact here late (by simp [later])
          · exact others early member late later
      · push Not at here
        obtain ⟨reader, member, reads, changes⟩ := here
        exact ⟨[], move, moves, rfl, changes, ⟨reader, member, reads⟩,
          List.pairwise_singleton _ _, by simp⟩

/-- If no move reads a register of the set that may hold the mark, then a
register holds the mark at the end only if it did before and is no
destination. -/
theorem run_unmarked {moves : List (Move R)} {marked : Set R} {mark : V}
    (unread : ∀ move ∈ moves, move.2 ∉ marked) {regs : R → V}
    (holds : ∀ r, regs r = mark → r ∈ marked) {r : R}
    (final : run moves regs r = mark) : ∀ move ∈ moves, move.1 ≠ r := by
  induction moves generalizing regs with
  | nil => simp
  | cons move moves ih =>
      have unmarked : regs move.2 ≠ mark :=
        fun same => unread move (by simp) (holds _ same)
      have rest := ih (fun other member => unread other (by simp [member]))
        (fun other same => by
          by_cases target : other = move.1
          · rw [target, Function.update_self] at same
            exact absurd same unmarked
          · rw [Function.update_of_ne target] at same
            exact holds other same) final
      rintro other member rfl
      rcases List.mem_cons.mp member with rfl | later
      · rw [run, run_other rest, Function.update_self] at final
        exact unmarked final
      · exact rest other later rfl

/-- Moves act as one simultaneous assignment exactly when they are consistent
and read old values only. -/
theorem simultaneous_iff [Nontrivial V] {moves : List (Move R)} :
    Simultaneous V moves ↔ Consistent moves ∧ ReadsOld moves := by
  classical
  obtain ⟨mark, blank, apart⟩ := exists_pair_ne V
  constructor
  · intro simultaneous
    have consistent : Consistent moves := by
      intro first firstMember second secondMember same
      by_contra different
      have left := simultaneous (fun r => if r = first.2 then mark else blank)
        first firstMember
      have right := simultaneous (fun r => if r = first.2 then mark else blank)
        second secondMember
      rw [← same, left] at right
      simp only [if_true, Ne.symm different, if_false] at right
      exact apart right
    refine ⟨consistent, ?_⟩
    by_contra notOld
    obtain ⟨before, change, after, rfl, changes, ⟨reader, member, reads⟩,
      readsOld, others⟩ := exists_first_change notOld
    have beforeOld : ReadsOld before := (List.pairwise_append.mp readsOld).1
    have beforeChange := (List.pairwise_append.mp readsOld).2.2
    let regs : R → V := fun r => if r = change.1 then mark else blank
    let copies : Set R :=
      { r | ∃ early ∈ before, early.1 = r ∧ early.2 = change.1 ∧
        early.1 ≠ change.1 }
    -- After the change only copies made before it hold the mark.
    have copied (r : R) (holds : run before regs r = mark) :
        r = change.1 ∨ r ∈ copies := by
      by_cases written : ∃ early ∈ before, early.1 = r
      · obtain ⟨early, earlyMember, target⟩ := written
        rw [← target, run_destination consistent.of_append beforeOld regs
          early earlyMember] at holds
        have source : early.2 = change.1 := by
          by_contra other
          simp only [regs, other, if_false] at holds
          exact apart holds.symm
        by_cases self : early.1 = change.1
        · exact Or.inl (target ▸ self)
        · exact Or.inr ⟨early, earlyMember, target, source, self⟩
      · push Not at written
        rw [run_other written] at holds
        by_contra outside
        simp only [regs, (not_or.mp outside).1, if_false] at holds
        exact apart holds.symm
    have uncopied : change.2 ∉ copies := by
      rintro ⟨early, earlyMember, target, source, self⟩
      have same := beforeChange early earlyMember change (by simp) target.symm
      exact self (same.symm.trans source)
    have cleared : run before regs change.2 ≠ mark := fun holds =>
      (copied _ holds).elim changes uncopied
    have unread : ∀ late ∈ after, late.2 ∉ copies := by
      rintro late lateMember ⟨early, earlyMember, target, source, self⟩
      have same := others early earlyMember late lateMember target.symm
      exact self (same.symm.trans source)
    have holds (r : R)
        (same : Function.update (run before regs) change.1
          (run before regs change.2) r = mark) : r ∈ copies := by
      by_cases target : r = change.1
      · rw [target, Function.update_self] at same
        exact absurd same cleared
      · rw [Function.update_of_ne target] at same
        exact (copied r same).resolve_left target
    have final := simultaneous regs reader (by simp [member])
    have marked : regs reader.2 = mark := by simp [regs, reads]
    rw [marked, run_append, run] at final
    exact run_unmarked unread holds final reader member rfl
  · rintro ⟨consistent, readsOld⟩ regs
    exact run_destination consistent readsOld regs

end SequentialMoves
