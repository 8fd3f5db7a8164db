import AegisCompiler.ControlMerges
import AegisCompiler.InductionVariablesExact
import AegisCompiler.LoopEntries

/-!
# Recurrences that hold

A classified phi is set to its start when the loop is entered from outside, and
on the back edge to the sum of the step and the other operand of the addition.
The classification does not look at that operand, so the phi runs through the
recurrence exactly if the operand has the value of the phi each time.
-/

namespace Aegis

namespace Scev

open CallWalk
open ControlWalk (isPhiOf)
open InductionVariables (advancesItself fit_of_wellMade)
open Lowerer (lowerFresh lowered_ok)

/-- The value of a recurrence after so many steps. -/
def SCEVExpr.valueAt (expr : SCEVExpr) (count : Nat) : Word :=
  expr.start + BitVec.ofNat 64 count * expr.step

/-- The operand of the addition on the back edge of a phi that is not taken for
the step. -/
def besideStep (g : Graph) (phi : NodeId) : NodeRef :=
  ((g.node phi).inputs.getD 2 none).bind fun back =>
    match (g.node back).dataIns with
    | [lhs, rhs] => if rhs ≠ some phi then lhs else rhs
    | _ => none

section Definitions

variable (g : Graph) (callees : Callees) (args : List Word) (loop phi : NodeId)

/-- The phi has the value of the recurrence at every entry of the loop, the first
one being the entry from outside. -/
def RecurrenceHolds (expr : SCEVExpr) : Prop :=
  ∀ count held calls,
    Counted g loop callees args (arrive g loop held calls) (some count) →
      held phi = some (expr.valueAt count)

/-- Whenever the walk goes around the loop, the operand beside the step has the
value of the phi. -/
def OtherIsPhi : Prop :=
  ∀ count ctrl held calls v,
    Counted g loop callees args (.walking ctrl [] held calls) (some count) →
      consumers g ctrl = [loop] → phiSlot (g.node loop) ctrl = 2 →
        held phi = some v → RefValue g args held (besideStep g phi) v

end Definitions

theorem SCEVExpr.valueAt_zero (expr : SCEVExpr) : expr.valueAt 0 = expr.start := by
  simp [valueAt]

theorem SCEVExpr.valueAt_succ (expr : SCEVExpr) (count : Nat) :
    expr.valueAt (count + 1) = expr.valueAt count + expr.step := by
  rw [valueAt, valueAt, BitVec.ofNat_add, BitVec.add_mul, BitVec.one_mul, BitVec.add_assoc]

section Recurrence

variable {g : Graph} {callees : Callees} {args : List Word} {loop phi : NodeId}
variable (effects : ∀ id, (g.node id).effect = effectClassOf (g.node id).kind)

include effects in
theorem Recurs.operands {back : NodeId} {expr : SCEVExpr} (recurs : Recurs g phi back expr) :
    ∃ stepId, (g.node stepId).kind = .constant ∧ (g.node stepId).payload = expr.step ∧
      ((g.node back).inputs = [besideStep g phi, some stepId] ∨
        (g.node back).inputs = [some stepId, besideStep g phi]) := by
  obtain ⟨region, start, inputs, -, -⟩ := recurs.entry
  obtain ⟨lhs, rhs, stepId, operands, step, constant, payload⟩ := recurs.step
  have isPure : (g.node back).dataIns = (g.node back).inputs := by
    rw [Node.dataIns, Node.isPure, effects back, recurs.isAdd]
    rfl
  have beside : besideStep g phi = if rhs ≠ some phi then lhs else rhs := by
    rw [besideStep, inputs]
    change (match (g.node back).dataIns with
      | [lhs, rhs] => if rhs ≠ some phi then lhs else rhs
      | _ => none) = _
    rw [operands]
  refine ⟨stepId, constant, payload, ?_⟩
  rw [← isPure, operands, beside]
  unfold stepOperand at step
  split_ifs at step with onRight onLeft
  · rw [step, if_pos (by rwa [← step])]
    exact Or.inl rfl
  · rw [step, if_neg onRight]
    exact Or.inr rfl

include effects in
/-- The addition on the back edge adds the step to its other operand. -/
theorem Recurs.hasValue_back {back : NodeId} {expr : SCEVExpr}
    (recurs : Recurs g phi back expr) (held : Held) (v : Word) :
    HasValue g args held back v ↔
      ∃ a, RefValue g args held (besideStep g phi) a ∧ v = a + expr.step := by
  obtain ⟨stepId, constant, payload, inputs⟩ := recurs.operands effects
  have isBinop : (g.node back).kind.isBinop = true := by
    rw [recurs.isAdd]
    rfl
  have stepValue (w : Word) : HasValue g args held stepId w ↔ w = expr.step := by
    rw [hasValue_constant constant, payload]
  cases beside : besideStep g phi with
  | none =>
      rw [beside] at inputs
      constructor
      · intro value
        rw [hasValue_iff] at value
        obtain ⟨fuel, value⟩ := value
        rcases inputs with inputs | inputs <;>
          simp [valueStep, recurs.isAdd, ControlWalk.operate, inputs] at value
      · rintro ⟨a, other, -⟩
        exact absurd other not_refValue_none
  | some other =>
      rw [beside] at inputs
      simp only [refValue_some]
      rcases inputs with inputs | inputs
      · rw [hasValue_binop isBinop inputs, recurs.isAdd]
        constructor
        · rintro ⟨a, b, left, right, sum⟩
          rw [(stepValue b).mp right] at sum
          exact ⟨a, left, (Option.some.inj sum).symm⟩
        · rintro ⟨a, left, rfl⟩
          exact ⟨a, _, left, (stepValue _).mpr rfl, rfl⟩
      · rw [hasValue_binop isBinop inputs, recurs.isAdd]
        constructor
        · rintro ⟨b, a, left, right, sum⟩
          rw [(stepValue b).mp left] at sum
          refine ⟨a, right, ?_⟩
          rw [BitVec.add_comm a]
          exact (Option.some.inj sum).symm
        · rintro ⟨a, right, rfl⟩
          refine ⟨_, a, (stepValue _).mpr rfl, right, ?_⟩
          rw [BitVec.add_comm a]
          rfl

/-- A phi takes its start when the loop is entered from outside. -/
theorem Recurs.entered_first {back : NodeId} {expr : SCEVExpr}
    (recurs : Recurs g phi back expr) (isPhi : isPhiOf g loop phi = true)
    {held held' : Held} (entered : Entered g args loop 1 held held') :
    held' phi = some expr.start := by
  obtain ⟨region, start, inputs, constant, payload⟩ := recurs.entry
  have here := entered phi
  rw [EnteredAt, if_pos isPhi, inputs] at here
  apply (here expr.start).mpr
  change RefValue g args held (some start) expr.start
  rw [refValue_some, hasValue_constant constant, payload]

include effects in
/-- On the back edge it takes the sum of the step and the other operand. -/
theorem Recurs.entered_again {back : NodeId} {expr : SCEVExpr}
    (recurs : Recurs g phi back expr) (isPhi : isPhiOf g loop phi = true)
    {held held' : Held} (entered : Entered g args loop 2 held held') (v : Word) :
    held' phi = some (v + expr.step) ↔ RefValue g args held (besideStep g phi) v := by
  obtain ⟨region, start, inputs, -, -⟩ := recurs.entry
  have here := entered phi
  rw [EnteredAt, if_pos isPhi, inputs] at here
  rw [here]
  change RefValue g args held (some back) _ ↔ _
  rw [refValue_some, recurs.hasValue_back effects]
  constructor
  · rintro ⟨a, other, sum⟩
    rwa [(BitVec.add_left_inj expr.step).mp sum]
  · exact fun other => ⟨v, other, rfl⟩

theorem isPhi_kind (isPhi : isPhiOf g loop phi = true) : (g.node phi).kind = .phi := by
  simp only [isPhiOf, Bool.and_eq_true, decide_eq_true_eq] at isPhi
  exact isPhi.1

variable (isLoop : (g.node loop).kind = .loop) (isPhi : isPhiOf g loop phi = true)

include isLoop in
/-- The count after an entry of the loop, with the slot that was taken. -/
theorem countAfter_enter {ctrl : NodeId} (only : consumers g ctrl = [loop])
    (held : Held) (calls : List Call) (count : Option Nat) :
    (phiSlot (g.node loop) ctrl = 1 ∧
        countAfter g loop (.walking ctrl [] held calls) count = some 0) ∨
      (phiSlot (g.node loop) ctrl = 2 ∧
        countAfter g loop (.walking ctrl [] held calls) count = count.map (· + 1)) := by
  rw [countAfter, if_pos only]
  rcases InductionVariables.phiSlot_loop isLoop ctrl with slot | slot
  · exact Or.inl ⟨slot, if_pos slot⟩
  · exact Or.inr ⟨slot, if_neg (by rw [slot]; decide)⟩

include effects isLoop isPhi in
/-- When the other operand is the phi each time, the phi runs through the
recurrence between the entries too. -/
theorem Recurs.counted_holds {back : NodeId} {expr : SCEVExpr}
    (recurs : Recurs g phi back expr) (other : OtherIsPhi g callees args loop phi)
    {s : WalkState} {count : Nat} (counted : Counted g loop callees args s (some count)) :
    Holds phi (expr.valueAt count) s := by
  generalize state : some count = c at counted
  induction counted generalizing count with
  | start only => cases state
  | @next s t before counted step ih =>
      rcases step_phi isLoop isPhi counted.visits.onControl step before with
        ⟨same, kept⟩ | ⟨ctrl, held, held', calls, rfl, rfl, only, entered⟩
      · rw [same] at state
        exact kept _ (ih state)
      · change held' phi = _
        rcases countAfter_enter isLoop only held calls before with
          ⟨slot, after⟩ | ⟨slot, after⟩
        · rw [after, Option.some.injEq] at state
          rw [slot] at entered
          rw [state, expr.valueAt_zero]
          exact recurs.entered_first isPhi entered
        · rw [after] at state
          obtain ⟨earlier, rfl, rfl⟩ := Option.map_eq_some_iff.mp state.symm
          rw [slot] at entered
          have holds : held phi = some (expr.valueAt earlier) := ih rfl
          rw [expr.valueAt_succ, recurs.entered_again effects isPhi entered]
          exact other earlier ctrl held calls _ counted only slot holds

include effects isLoop isPhi in
theorem Recurs.holds_iff {back : NodeId} {expr : SCEVExpr} (recurs : Recurs g phi back expr) :
    RecurrenceHolds g callees args loop phi expr ↔ OtherIsPhi g callees args loop phi := by
  constructor
  · intro holds count ctrl held calls v counted only slot known
    have here : held phi = some (expr.valueAt count) :=
      counted.holds isLoop isPhi holds
    rw [here, Option.some.injEq] at known
    subst known
    obtain ⟨held', entered⟩ := exists_entered g args loop 2 held
    have step : Step g callees args (.walking ctrl [] held calls)
        (arrive g loop held' calls) := .enter only (Or.inr isLoop) (by rwa [slot])
    have next := counted.next step
    rw [countAfter, if_pos only, if_neg (by rw [slot]; decide)] at next
    have after := holds (count + 1) held' calls next
    rwa [expr.valueAt_succ, recurs.entered_again effects isPhi entered] at after
  · intro other count held calls counted
    exact recurs.counted_holds effects isLoop isPhi other counted

end Recurrence

/-- An addition that reads the phi adds the step to it. -/
theorem besideStep_of_advancesItself {g : Graph} {phi back : NodeId} {expr : SCEVExpr}
    (recurs : Recurs g phi back expr)
    (itself : advancesItself g phi = true) : besideStep g phi = some phi := by
  obtain ⟨region, start, inputs, -, -⟩ := recurs.entry
  obtain ⟨lhs, rhs, stepId, operands, step, constant, -⟩ := recurs.step
  rw [advancesItself, inputs] at itself
  change (g.node back).dataIns.contains (some phi) = true at itself
  rw [besideStep, inputs]
  change (match (g.node back).dataIns with
    | [lhs, rhs] => if rhs ≠ some phi then lhs else rhs
    | _ => none) = _
  rw [operands] at itself ⊢
  simp only [List.contains_cons, List.contains_nil, Bool.or_false, Bool.or_eq_true,
    beq_iff_eq] at itself
  by_cases onRight : rhs = some phi
  · simp [onRight]
  · rcases itself with onLeft | same
    · simp [onLeft]
    · exact absurd same.symm onRight

/-- On a lowered graph a classified phi of a loop runs through its recurrence
exactly if the addition on its back edge adds the step to the value of the phi
each time, for instance because it reads the phi. -/
theorem recurrenceHolds_iff {order : TableOrder} {fn : Ast} {g : Graph}
    (lowered : lowerFresh order fn = .ok g) {loop phi : NodeId}
    (isLoop : (g.node loop).kind = .loop) (isPhi : isPhiOf g loop phi = true)
    (recorded : (scevOf (run g) phi).kind = .addRec) (callees : Callees) (args : List Word) :
    (RecurrenceHolds g callees args loop phi (scevOf (run g) phi) ↔
      OtherIsPhi g callees args loop phi) ∧
      (advancesItself g phi = true →
        RecurrenceHolds g callees args loop phi (scevOf (run g) phi)) := by
  have effects := (fit_of_wellMade (Lowerer.lowerFresh_wellMade lowered)).1.effects
  obtain ⟨back, recurs⟩ := recurs_of_scevOf (isPhi_kind isPhi) recorded
  have same : RecurrenceHolds g callees args loop phi (scevOf (run g) phi) ↔
      OtherIsPhi g callees args loop phi := recurs.holds_iff effects isLoop isPhi
  refine ⟨same, fun itself => same.mpr ?_⟩
  intro count ctrl held calls v _ _ _ holds
  rw [besideStep_of_advancesItself recurs itself, refValue_some,
    hasValue_phi (isPhi_kind isPhi)]
  exact holds

open InductionVariables (sumOfTriples classified misclassified)

/-- The accumulator 3, assigned from the other accumulator plus one, is taken for
a recurrence of step one, and is three at the entry where that says two. -/
theorem misclassified_recurrence :
    lowerFresh .asListed (sumOfTriples (.ident 2)) = .ok misclassified ∧
      (misclassified.node 8).kind = .loop ∧ isPhiOf misclassified 8 11 = true ∧
      scevOf (run misclassified) 11 = { kind := .addRec, start := 0, step := 1 } ∧
      ¬ RecurrenceHolds misclassified (fun _ => 0) [] 8 11 (scevOf (run misclassified) 11) := by
  have recorded : scevOf (run misclassified) 11 =
      { kind := .addRec, start := 0, step := 1 } := by decide +kernel
  refine ⟨lowered_ok (by decide +kernel), by decide +kernel, by decide +kernel,
    recorded, fun holds => ?_⟩
  have ran : entryAt misclassified (fun _ => 0) [] 40 8 11 5 = some (some 2, some 3) := by
    decide +kernel
  obtain ⟨held, calls, counted, known⟩ := counted_of_entryAt ran
  have claimed := holds 2 held calls counted
  rw [known, recorded] at claimed
  revert claimed
  decide

theorem recurrenceHolds_iff_classified :
    scevOf (run classified) 11 = { kind := .addRec, start := 0, step := 1 } ∧
      RecurrenceHolds classified (fun _ => 0) [] 8 11 (scevOf (run classified) 11) ∧
      entryAt classified (fun _ => 0) [] 40 8 11 7 = some (some 3, some 3) := by
  have lowered : lowerFresh .asListed (sumOfTriples (.ident 3)) = .ok classified :=
    lowered_ok (by decide +kernel)
  have recorded : (scevOf (run classified) 11).kind = .addRec := by decide +kernel
  have itself : advancesItself classified 11 = true := by decide +kernel
  have isLoop : (classified.node 8).kind = .loop := by decide +kernel
  refine ⟨by decide +kernel, ?_, by decide +kernel⟩
  exact (recurrenceHolds_iff lowered isLoop (by decide +kernel) recorded (fun _ => 0) []).2
    itself

end Scev

end Aegis
