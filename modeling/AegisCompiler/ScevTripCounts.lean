import AegisCompiler.LoopUnrollingExact
import AegisCompiler.ScevRecurrences

/-!
# Trip counts

The trip count of a recurrence is the distance from its start to a constant that
its phi is compared with.  The step of the recurrence and the order of the
comparison do not take part in it, and neither does the place of the comparison.
-/

namespace Aegis

namespace Scev

open CallWalk
open ControlWalk (isPhiOf)
open InductionVariables (advancesItself fit_of_wellMade phiSlot_loop)
open Lowerer (lowerFresh lowered_ok)

/-- A loop whose node leads to a branch that goes on to the body when its
condition holds and leaves the loop otherwise. -/
structure TestedLoop (g : Graph) (loop test body after : NodeId) : Prop where
  isLoop : (g.node loop).kind = .loop
  only : consumers g loop = [test]
  isIf : (g.node test).kind = .ifNode
  stays : projs g test 0 = [body]
  leaves : projs g test 1 = [after]

/-- A comparison of the phi with a constant that gives a trip count. -/
structure Compares (g : Graph) (phi cmp : NodeId) (limit : Word) : Prop where
  kind : (g.node cmp).kind = .cmpLt ∨ (g.node cmp).kind = .cmpUlt
  operands : ∃ limitId, (g.node cmp).dataIns = [some phi, some limitId] ∧
    (g.node limitId).kind = .constant ∧ (g.node limitId).payload = limit

section Definitions

variable (g : Graph) (callees : Callees) (args : List Word)

/-- The walk gets to the test of the loop after going around so many times. -/
def GetsTo (loop : NodeId) (count : Nat) : Prop :=
  ∃ held calls, Counted g loop callees args (.walking loop [] held calls) (some count)

/-- Each time that the loop is entered the body runs so often: the test goes on to
the body before, and leaves the loop then. -/
def BodyRuns (loop body after : NodeId) (trip : Nat) : Prop :=
  ∀ count held calls, count ≤ trip →
    Counted g loop callees args (.walking loop [] held calls) (some count) →
      Step g callees args (.walking loop [] held calls)
        (arrive g (if count < trip then body else after) held calls)

end Definitions

/-- The comparison of two values; it is unsigned for one of the kinds. -/
def lessThan (kind : NodeKind) (a b : Word) : Bool :=
  if kind = .cmpUlt then a.ult b else a.slt b

/-- The difference can be represented. -/
def NoOverflow (a b : Word) : Prop :=
  -2 ^ 63 ≤ a.toInt - b.toInt ∧ a.toInt - b.toInt < 2 ^ 63

instance (a b : Word) : Decidable (NoOverflow a b) := inferInstanceAs (Decidable (_ ∧ _))

/-- A difference overflows exactly if its sign is not that of the comparison. -/
theorem noOverflow_iff (limit start : Word) :
    NoOverflow limit start ↔ (BitVec.slt 0 (limit - start) ↔ start.slt limit) := by
  have upper := limit.toInt_lt
  have lower := limit.le_toInt
  have upper' := start.toInt_lt
  have lower' := start.le_toInt
  have zero : BitVec.toInt (0 : Word) = 0 := rfl
  rw [BitVec.slt_iff_toInt_lt, BitVec.slt_iff_toInt_lt, BitVec.toInt_sub, NoOverflow,
    zero, Int.bmod_eq_emod]
  split <;> omega

theorem compares_of_tripOf {g : Graph} {phi cmp : NodeId} {start trip : Word}
    (found : tripOf g phi start cmp = some trip) :
    ∃ limit, Compares g phi cmp limit ∧ trip = limit - start ∧ BitVec.slt 0 trip := by
  unfold tripOf at found
  split_ifs at found with outside other
  split at found
  case h_2 => cases found
  case h_1 lhs rhs operands =>
    split_ifs at found with apart
    obtain ⟨limitId, inside, found⟩ := Option.bind_eq_some_iff.mp found
    rw [ite_eq_iff] at found
    rcases found with ⟨-, no⟩ | ⟨notConstant, found⟩
    · cases no
    rw [Option.ite_none_right_eq_some, Option.some.injEq] at found
    obtain ⟨positive, rfl⟩ := found
    have same := ((g.inRange_some).mp inside).1
    refine ⟨_, ⟨?_, limitId, ?_, not_not.mp notConstant, rfl⟩, rfl, positive⟩
    · by_contra neither
      exact other (not_or.mp neither)
    · rw [operands, not_not.mp apart, same]

/-- Counting by ones stays below a signed limit for as many steps as the limit is
away. -/
theorem lessThan_unit {start limit : Word} (below : start.slt limit)
    (fits : NoOverflow limit start) {count : Nat} (most : count ≤ (limit - start).toNat) :
    (start + BitVec.ofNat 64 count).slt limit ↔ count < (limit - start).toNat := by
  rw [BitVec.slt_iff_toInt_lt] at below
  have upper := limit.toInt_lt
  have lower := start.le_toInt
  have distance : ((limit - start).toNat : Int) = limit.toInt - start.toInt := by
    have same : (limit - start).toInt = _ := BitVec.toInt_sub
    rw [BitVec.toInt_eq_toNat_bmod, Int.bmod_eq_emod, Int.bmod_eq_emod] at same
    have small := (limit - start).isLt
    obtain ⟨-, fits⟩ := fits
    split at same <;> split at same <;> omega
  have value : (start + BitVec.ofNat 64 count).toInt = start.toInt + count := by
    have ofCount : (BitVec.ofNat 64 count).toInt = (count : Int).bmod (2 ^ 64) :=
      BitVec.toInt_ofNat' ..
    rw [BitVec.toInt_add, ofCount, Int.add_bmod_bmod, Int.bmod_eq_emod]
    split <;> omega
  rw [BitVec.slt_iff_toInt_lt, value]
  omega

section Exact

variable {g : Graph} {callees : Callees} {args : List Word}
variable {loop test body after phi cmp : NodeId} {limit : Word}
variable (effects : ∀ id, (g.node id).effect = effectClassOf (g.node id).kind)

include effects in
theorem Compares.hasValue (compares : Compares g phi cmp limit)
    (isPhi : (g.node phi).kind = .phi) {held : Held} {v : Word} (holds : held phi = some v) :
    HasValue g args held cmp (ofTruth (lessThan (g.node cmp).kind v limit)) := by
  obtain ⟨limitId, operands, constant, payload⟩ := compares.operands
  have isPure : (g.node cmp).dataIns = (g.node cmp).inputs := by
    rw [Node.dataIns, Node.isPure, effects cmp]
    rcases compares.kind with kind | kind <;> rw [kind] <;> rfl
  have isBinop : (g.node cmp).kind.isBinop = true := by
    rcases compares.kind with kind | kind <;> rw [kind] <;> rfl
  rw [isPure] at operands
  rw [hasValue_binop isBinop operands]
  refine ⟨v, limit, (hasValue_phi isPhi).mpr holds, ?_, ?_⟩
  · rw [hasValue_constant constant, payload]
  · rcases compares.kind with kind | kind <;> rw [kind] <;> rfl

theorem TestedLoop.apart (shape : TestedLoop g loop test body after) : body ≠ after := by
  have inBody : body ∈ projs g test 0 := by
    rw [shape.stays]
    exact List.mem_singleton_self body
  have inAfter : after ∈ projs g test 1 := by
    rw [shape.leaves]
    exact List.mem_singleton_self after
  intro same
  rw [same] at inBody
  have index := (mem_projs.mp inBody).2.2.2.2
  rw [(mem_projs.mp inAfter).2.2.2.2] at index
  revert index
  decide

include effects in
/-- The test goes on to the body exactly if the comparison holds. -/
theorem TestedLoop.step (shape : TestedLoop g loop test body after)
    (compares : Compares g phi cmp limit) (isPhi : (g.node phi).kind = .phi)
    (tests : (g.node test).inputs.getD 1 none = some cmp) {held : Held} {v : Word}
    (holds : held phi = some v) (calls : List Call) :
    Step g callees args (.walking loop [] held calls)
      (arrive g (if lessThan (g.node cmp).kind v limit then body else after) held calls) := by
  have value : RefValue g args held ((g.node test).inputs.getD 1 none)
      (ofTruth (lessThan (g.node cmp).kind v limit)) := by
    rw [tests, refValue_some]
    exact compares.hasValue effects isPhi holds
  apply Step.branch shape.only shape.isIf value
  cases lessThan (g.node cmp).kind v limit
  · exact shape.leaves
  · exact shape.stays

include effects in
/-- The body runs as often as counted exactly if the comparison holds at all but
the last of the entries that the walk gets to. -/
theorem TestedLoop.bodyRuns_iff (shape : TestedLoop g loop test body after)
    (compares : Compares g phi cmp limit) (isPhi : isPhiOf g loop phi = true)
    (tests : (g.node test).inputs.getD 1 none = some cmp) {expr : SCEVExpr}
    (holds : RecurrenceHolds g callees args loop phi expr) (trip : Nat) :
    BodyRuns g callees args loop body after trip ↔
      ∀ count, count ≤ trip → GetsTo g callees args loop count →
        (lessThan (g.node cmp).kind (expr.valueAt count) limit ↔ count < trip) := by
  have here {count : Nat} {held : Held} {calls : List Call}
      (counted : Counted g loop callees args (.walking loop [] held calls) (some count)) :
      Step g callees args (.walking loop [] held calls) (arrive g
        (if lessThan (g.node cmp).kind (expr.valueAt count) limit then body else after)
        held calls) :=
    shape.step effects compares (isPhi_kind isPhi) tests
      (counted.holds shape.isLoop isPhi holds) calls
  constructor
  · rintro runs count most ⟨held, calls, counted⟩
    have same := (here counted).unique (runs count held calls most counted)
    injection same with same
    by_cases before : count < trip
    · rw [if_pos before] at same
      by_contra differs
      simp only [before, iff_true] at differs
      rw [if_neg differs] at same
      exact shape.apart same.symm
    · rw [if_neg before] at same
      by_contra differs
      simp only [before, iff_false, not_not] at differs
      rw [if_pos differs] at same
      exact shape.apart same
  · intro all count held calls most counted
    have agrees := all count most ⟨held, calls, counted⟩
    have step := here counted
    simp only [agrees] at step
    exact step

end Exact

/-- When a loop is tested by the comparison that gave the trip count of a phi which
advances itself, the body runs as often as counted and the count has not
overflowed exactly if the comparison holds at the entries before the last one that
is counted and only there, and its limit is above the start as a signed value.  A
signed comparison with such a limit and a step of one is enough. -/
theorem tripCount_exact_iff {g : Graph}
    (effects : ∀ id, (g.node id).effect = effectClassOf (g.node id).kind)
    {loop test body after phi cmp : NodeId} {limit : Word}
    (shape : TestedLoop g loop test body after) (isPhi : isPhiOf g loop phi = true)
    {expr : SCEVExpr} (recorded : scevOf (run g) phi = expr) (recurrent : expr.kind = .addRec)
    (positive : BitVec.slt 0 expr.tripCount) (compares : Compares g phi cmp limit)
    (counts : expr.tripCount = limit - expr.start)
    (tests : (g.node test).inputs.getD 1 none = some cmp) (callees : Callees)
    (args : List Word) (other : OtherIsPhi g callees args loop phi) :
    (BodyRuns g callees args loop body after expr.tripCount.toNat ∧
        NoOverflow limit expr.start ↔
      (∀ count, count ≤ expr.tripCount.toNat → GetsTo g callees args loop count →
        (lessThan (g.node cmp).kind (expr.valueAt count) limit ↔
          count < expr.tripCount.toNat)) ∧ expr.start.slt limit) ∧
      ((g.node cmp).kind = .cmpLt → expr.step = 1 → expr.start.slt limit →
        BodyRuns g callees args loop body after expr.tripCount.toNat ∧
          NoOverflow limit expr.start) := by
  subst recorded
  obtain ⟨back, recurs⟩ := recurs_of_scevOf (isPhi_kind isPhi) recurrent
  have holds := (recurs.holds_iff effects shape.isLoop isPhi).mpr other
  have runs := shape.bodyRuns_iff effects compares isPhi tests holds
    (scevOf (run g) phi).tripCount.toNat
  have fits := noOverflow_iff limit (scevOf (run g) phi).start
  rw [← counts, iff_true_left positive] at fits
  refine ⟨and_congr runs fits, fun signed unit below => ?_⟩
  refine ⟨runs.mpr fun count most _ => ?_, fits.mpr below⟩
  rw [counts] at most ⊢
  have one : BitVec.ofNat 64 count * (1 : Word) = BitVec.ofNat 64 count := BitVec.mul_one _
  rw [lessThan, signed, if_neg (by decide), SCEVExpr.valueAt, unit, one]
  exact lessThan_unit below (fits.mpr below) most

/-- A loop over three iterations that counts them in the variable 1, which it
compares with two. -/
def comparingLoop : Ast :=
  .fnDecl 0 [] none (.block [
    .letStmt 1 none (some (.intLit 0)) true,
    .forStmt 2 (.rangeExpr (.intLit 0) (.intLit 3)) (.block [
      .ifStmt (.binaryExpr .lt (.ident 1) (.intLit 2)) (.block []) none,
      .assignExpr .eq (.ident 1) (.binaryExpr .plus (.ident 1) (.intLit 1))]),
    .returnStmt (some (.ident 1))]) false

def comparing : Graph := Lowerer.loweredGraph .asListed comparingLoop

/-- The loop of the graph leaves when the induction variable 7 reaches three. -/
theorem comparing_wiring :
    lowerFresh .asListed comparingLoop = .ok comparing ∧
      TestedLoop comparing 6 10 11 12 ∧ Compares comparing 7 9 3 ∧
      isPhiOf comparing 6 7 = true ∧ isPhiOf comparing 6 8 = true :=
  ⟨lowered_ok (by decide +kernel),
    ⟨by decide +kernel, by decide +kernel, by decide +kernel, by decide +kernel,
      by decide +kernel⟩,
    ⟨by decide +kernel, 5, by decide +kernel, by decide +kernel, by decide +kernel⟩,
    by decide +kernel, by decide +kernel⟩

theorem comparing_effects (id : NodeId) :
    (comparing.node id).effect = effectClassOf (comparing.node id).kind :=
  (fit_of_wellMade (Lowerer.lowerFresh_wellMade comparing_wiring.1)).1.effects id

/-- The comparison in the body gives the variable a trip count of two, but the body
is entered for the third time. -/
theorem comparing_tripCount :
    lowerFresh .asListed comparingLoop = .ok comparing ∧
      TestedLoop comparing 6 10 11 12 ∧ isPhiOf comparing 6 8 = true ∧
      scevOf (run comparing) 8 = { kind := .addRec, start := 0, step := 1, tripCount := 2 } ∧
      ¬ BodyRuns comparing (fun _ => 0) [] 6 11 12 2 := by
  obtain ⟨lowered, shape, compares, -, isPhi⟩ := comparing_wiring
  refine ⟨lowered, shape, isPhi, by decide +kernel, fun runs => ?_⟩
  have ran : entryAt comparing (fun _ => 0) [] 40 6 7 9 = some (some 2, some 2) := by
    decide +kernel
  obtain ⟨held, calls, counted, holds⟩ := counted_of_entryAt ran
  have noCalls : callsAt comparing 6 = [] := by decide +kernel
  rw [arrive, noCalls] at counted
  have claimed := runs 2 held calls le_rfl counted
  have taken : Step comparing (fun _ => 0) [] _ _ := shape.step comparing_effects
    compares (by decide +kernel) (by decide +kernel) holds calls
  have same := taken.unique claimed
  injection same with same
  revert same
  decide +kernel

theorem tripCount_exact_iff_comparing :
    scevOf (run comparing) 7 = { kind := .addRec, start := 0, step := 1, tripCount := 3 } ∧
      BodyRuns comparing (fun _ => 0) [] 6 11 12 3 ∧ NoOverflow 3 0 := by
  obtain ⟨-, shape, compares, isPhi, -⟩ := comparing_wiring
  have recorded : scevOf (run comparing) 7 =
      { kind := .addRec, start := 0, step := 1, tripCount := 3 } := by decide +kernel
  obtain ⟨back, recurs⟩ := recurs_of_scevOf (isPhi_kind isPhi) (by rw [recorded])
  have beside : besideStep comparing 7 = some 7 :=
    besideStep_of_advancesItself recurs (by decide +kernel)
  have other : OtherIsPhi comparing (fun _ => 0) [] 6 7 := by
    intro count ctrl held calls v _ _ _ holds
    rw [beside, refValue_some, hasValue_phi (isPhi_kind isPhi)]
    exact holds
  refine ⟨recorded, ?_⟩
  exact (tripCount_exact_iff comparing_effects shape isPhi recorded rfl
    (by decide) compares (by decide) (by decide +kernel) (fun _ => 0) [] other).2
      (by decide +kernel) rfl (by decide)

end Scev

end Aegis
