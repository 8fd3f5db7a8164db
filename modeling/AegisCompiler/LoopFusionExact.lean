import AegisCompiler.CallWalkRuns
import AegisCompiler.DeletedLoops
import AegisCompiler.LoopFusion
import AegisCompiler.LoweringFrame

/-!
# When loop fusion keeps the result

The second loop of a pair may have more phis than the one that the pass looks
at.  The result stays the same when nothing observes any of them.
-/

namespace Aegis

namespace LoopFusion

open CallWalk
open Lowerer (lowerFresh)
open Scev (SCEVMap)

/-- Every loop that the pass deletes has the property in the graph that it is
deleted from. -/
def EachDeletion (holds : Graph → LoopPieces → Prop) (map : SCEVMap) :
    List (NodeId × NodeId) → Progress → Prop
  | [], _ => True
  | pair :: pairs, progress =>
      (∀ pieces phiA,
        decision map progress.graph pair.1 pair.2 = .delete pieces phiA →
          holds progress.graph pieces) ∧
      EachDeletion holds map pairs (visit map progress pair)

/-- Check a property of every loop that the pass deletes. -/
def checkDeletions (check : Graph → LoopPieces → Bool) (map : SCEVMap) :
    List (NodeId × NodeId) → Progress → Bool
  | [], _ => true
  | pair :: pairs, progress =>
      (match decision map progress.graph pair.1 pair.2 with
        | .delete pieces _ => check progress.graph pieces
        | .skip _ => true) &&
      checkDeletions check map pairs (visit map progress pair)

theorem EachDeletion.of_check {holds : Graph → LoopPieces → Prop}
    {check : Graph → LoopPieces → Bool}
    (sound : ∀ g pieces, check g pieces = true → holds g pieces) {map : SCEVMap}
    {pairs : List (NodeId × NodeId)} {progress : Progress}
    (checked : checkDeletions check map pairs progress = true) :
    EachDeletion holds map pairs progress := by
  induction pairs generalizing progress with
  | nil => trivial
  | cons pair pairs ih =>
      unfold checkDeletions at checked
      rw [Bool.and_eq_true] at checked
      constructor
      · intro pieces phiA decided
        have here := checked.1
        rw [decided] at here
        exact sound _ _ here
      · exact ih checked.2

theorem decideSecond_delete {g : Graph} {b phiA phiA' phiB : NodeId}
    {pieces : LoopPieces}
    (decided : decideSecond g b phiA phiB = .delete pieces phiA') :
    phiA' = phiA ∧ pieces.loop = b ∧ pieces.phi = phiB ∧
      (g.node pieces.back).kind = .add ∧
        (∀ cmp ∈ pieces.cmp, (g.node cmp).kind.isExitCmp = true) ∧
          pieces.exit = g.loopExit b := by
  unfold decideSecond at decided
  simp only at decided
  split at decided
  case isTrue => cases decided
  case isFalse =>
    split at decided
    case h_1 => cases decided
    case h_2 back found =>
      split at decided
      case isTrue => cases decided
      case isFalse =>
        cases decided
        refine ⟨rfl, rfl, rfl, ?_, fun cmp last => ?_, rfl⟩
        · have member := List.mem_of_getLast? found
          exact of_decide_eq_true (List.mem_filter.mp member).2
        · have member := List.mem_of_getLast? last
          exact (List.mem_filter.mp member).2

theorem decision_delete {map : SCEVMap} {g : Graph} {a b phiA : NodeId}
    {pieces : LoopPieces} (decided : decision map g a b = .delete pieces phiA) :
    pieces.loop = b ∧ Fits g pieces ∧ (g.node phiA).kind = .phi := by
  unfold decision at decided
  split at decided
  case h_2 => cases decided
  case h_1 phiA' phiB foundA foundB =>
    split at decided
    case isFalse => cases decided
    case isTrue =>
      obtain ⟨rfl, isLoop, isPhi, back, cmp, -⟩ := decideSecond_delete decided
      have matchedA := List.find?_some foundA
      have matchedB := List.find?_some foundB
      simp only [Bool.and_eq_true, decide_eq_true_eq] at matchedA matchedB
      exact ⟨isLoop, .of_kinds (isPhi ▸ matchedB.2) back cmp, matchedA.2⟩

theorem visit_listed {map : SCEVMap} {progress : Progress}
    (listed : progress.graph.Listed) (pair : NodeId × NodeId) :
    (visit map progress pair).graph.Listed := by
  unfold visit
  split
  case h_1 => exact listed
  case h_2 => exact listed.deleteLoop _ _

/-- Deleting a detached loop keeps the result. -/
theorem deleteLoop_returns {g : Graph} (listed : g.Listed) {pieces : LoopPieces}
    (fits : Fits g pieces) (detached : Detached g pieces) {phiA : NodeId}
    (isPhi : (g.node phiA).kind = .phi) {callees : Callees} {args : List Word}
    {value : Word} {calls : List Call}
    (returns : CallWalk.Returns g callees args value calls) :
    CallWalk.Returns (g.deleteLoop pieces phiA) callees args value calls := by
  obtain ⟨exit, body, after, entry, found, idle, header, unobserved⟩ := detached
  have first : (g.node pieces.loop).inputs.getD 1 none = some entry := by
    rw [idle.inputs]
    rfl
  have notStart : phiA ≠ kStartNodeId := by
    rintro rfl
    have start := idle.start
    rw [isPhi] at start
    cases start
  have deletes := deleteLoop_deletes listed found first (fits.entry_ne idle)
    idle.after_proj.1 fits header (isPhi ▸ isData_phi) notStart
  exact (deletes.carries idle unobserved callees args).returns returns

section Run

variable {map : SCEVMap} {callees : Callees} {args : List Word} {value : Word}
variable {calls : List Call}

theorem visit_returns {progress : Progress} {pair : NodeId × NodeId}
    (listed : progress.graph.Listed)
    (detached : ∀ pieces phiA,
      decision map progress.graph pair.1 pair.2 = .delete pieces phiA →
        Detached progress.graph pieces)
    (returns : CallWalk.Returns progress.graph callees args value calls) :
    CallWalk.Returns (visit map progress pair).graph callees args value calls := by
  unfold visit
  split
  case h_1 => exact returns
  case h_2 pieces phiA decided =>
    obtain ⟨-, fits, isPhi⟩ := decision_delete decided
    exact deleteLoop_returns listed fits (detached pieces phiA decided) isPhi returns

theorem visits_returns {pairs : List (NodeId × NodeId)} {progress : Progress}
    (listed : progress.graph.Listed) (each : EachDeletion Detached map pairs progress)
    (returns : CallWalk.Returns progress.graph callees args value calls) :
    CallWalk.Returns (pairs.foldl (visit map) progress).graph callees args value
      calls := by
  induction pairs generalizing progress with
  | nil => exact returns
  | cons pair pairs ih =>
      obtain ⟨here, rest⟩ := each
      exact ih (visit_listed listed pair) rest (visit_returns listed here returns)

end Run

/-- When the pass deletes only detached loops of a lowered function, the
function returns the same after the same calls. -/
theorem returns_fused {order : TableOrder} {fn : Ast} {g : Graph}
    (lowered : lowerFresh order fn = .ok g)
    (each : EachDeletion Detached (Scev.run g) (pairs (liveLoops g)) { graph := g })
    {callees : Callees} {args : List Word} {value : Word} {calls : List Call}
    (returns : CallWalk.Returns g callees args value calls) :
    CallWalk.Returns (run g).graph callees args value calls :=
  visits_returns (Lowerer.lowerFresh_listed lowered) each returns

/-- A function with two loops over three iterations, where the second one has
this body, which returns the variable 1. -/
def twoLoops (body : Ast) : Ast :=
  .fnDecl 0 [] none (.block [
    .letStmt 1 none (some (.intLit 7)) true,
    .forStmt 2 (.rangeExpr (.intLit 0) (.intLit 3)) (.block []),
    .forStmt 3 (.rangeExpr (.intLit 0) (.intLit 3)) (.block [body]),
    .returnStmt (some (.ident 1))]) false

/-- The second loop adds two to the variable in each iteration. -/
def summing : Graph := Lowerer.loweredGraph .asListed
  (twoLoops (.assignExpr .eq (.ident 1) (.binaryExpr .plus (.ident 1) (.intLit 2))))

/-- The second loop computes something that is not used. -/
def idling : Graph := Lowerer.loweredGraph .asListed
  (twoLoops (.letStmt 4 none (some (.binaryExpr .plus (.ident 1) (.intLit 2))) true))

/-- The pass deletes a loop whose accumulator is returned, so that the function
returns no value any more. -/
theorem summing_fused :
    lowerFresh .asListed (twoLoops
      (.assignExpr .eq (.ident 1) (.binaryExpr .plus (.ident 1) (.intLit 2)))) =
        .ok summing ∧
      (run summing).fused = 1 ∧
      CallWalk.Returns summing (fun _ => 0) [] 13 [] ∧
      ∀ value calls, ¬ CallWalk.Returns (run summing).graph (fun _ => 0) [] value calls
      := by
  have ran : returnsAt summing (fun _ => 0) [] 40 40 = some (13, []) := by
    decide +kernel
  have stuck : stuckAt (run summing).graph (fun _ => 0) [] 40 8 = true := by
    decide +kernel
  exact ⟨Lowerer.lowered_ok (by decide +kernel), by decide +kernel,
    returns_of_returnsAt ran, not_returns_of_stuckAt stuck⟩

theorem returns_fused_idling :
    lowerFresh .asListed (twoLoops
      (.letStmt 4 none (some (.binaryExpr .plus (.ident 1) (.intLit 2))) true)) =
        .ok idling ∧
      EachDeletion Detached (Scev.run idling) (pairs (liveLoops idling))
        { graph := idling } ∧
      (run idling).fused = 1 ∧
      CallWalk.Returns (run idling).graph (fun _ => 0) [] 7 [] := by
  have lowered : lowerFresh .asListed (twoLoops
      (.letStmt 4 none (some (.binaryExpr .plus (.ident 1) (.intLit 2))) true)) =
        .ok idling := Lowerer.lowered_ok (by decide +kernel)
  have checked : checkDeletions (checkDetached ⟨20, some 21, some 22⟩ 11 [18, 19, 26, 27])
      (Scev.run idling) (pairs (liveLoops idling)) { graph := idling } = true := by
    decide +kernel
  have ran : returnsAt idling (fun _ => 0) [] 40 40 = some (7, []) := by
    decide +kernel
  have fused : (run idling).fused = 1 := by decide +kernel
  -- Nothing may evaluate the graph from here on.
  generalize idling = g at lowered checked ran fused ⊢
  have each := EachDeletion.of_check detached_of_check checked
  exact ⟨lowered, each, fused, returns_fused lowered each (returns_of_returnsAt ran)⟩

end LoopFusion

end Aegis
