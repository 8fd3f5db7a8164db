import AegisCompiler.CallWalkRuns
import AegisCompiler.DeletedLoops
import AegisCompiler.LoopUnrolling
import AegisCompiler.LoweringFrame

/-!
# When loop unrolling keeps the result

A deleted loop may have more phis than the one that the pass looks at.  The
result stays the same when nothing observes any of them.
-/

namespace Aegis

namespace LoopUnrolling

open CallWalk
open Lowerer (lowerFresh)
open Scev (SCEVMap)

/-- Every loop that the pass deletes has the property in the graph that it is
deleted from. -/
def EachDeletion (holds : Graph → LoopPieces → Prop) (map : SCEVMap) :
    List NodeId → Progress → Prop
  | [], _ => True
  | loop :: loops, progress =>
      (match decision map progress.graph progress.estimatedGrowth loop with
        | .delete _ pieces _ => holds progress.graph pieces
        | _ => True) ∧
      match visit map progress loop with
      | .ok next => EachDeletion holds map loops next
      | .error _ => True

/-- Check a property of every loop that the pass deletes. -/
def checkDeletions (check : Graph → LoopPieces → Bool) (map : SCEVMap) :
    List NodeId → Progress → Bool
  | [], _ => true
  | loop :: loops, progress =>
      (match decision map progress.graph progress.estimatedGrowth loop with
        | .delete _ pieces _ => check progress.graph pieces
        | _ => true) &&
      match visit map progress loop with
      | .ok next => checkDeletions check map loops next
      | .error _ => true

theorem EachDeletion.of_check {holds : Graph → LoopPieces → Prop}
    {check : Graph → LoopPieces → Bool}
    (sound : ∀ g pieces, check g pieces = true → holds g pieces) {map : SCEVMap}
    {loops : List NodeId} {progress : Progress}
    (checked : checkDeletions check map loops progress = true) :
    EachDeletion holds map loops progress := by
  induction loops generalizing progress with
  | nil => trivial
  | cons loop loops ih =>
      unfold checkDeletions at checked
      rw [Bool.and_eq_true] at checked
      unfold EachDeletion
      constructor
      · have here := checked.1
        split at here
        · exact sound _ _ here
        · trivial
      · have rest := checked.2
        split at rest
        · exact ih rest
        · trivial

theorem decideBody_delete {g : Graph} {loop phi : NodeId} {start start' : Word}
    {growth growth' : BitVec 32} {bodyNodes : List NodeId} {pieces : LoopPieces}
    (decided : decideBody g loop phi start growth bodyNodes =
      .delete growth' pieces start') :
    pieces.loop = loop ∧ pieces.phi = phi ∧ (g.node pieces.back).kind = .add ∧
      (∀ cmp ∈ pieces.cmp, (g.node cmp).kind.isExitCmp = true) ∧
        pieces.exit = g.loopExit loop := by
  unfold decideBody at decided
  split at decided
  case isTrue => cases decided
  case isFalse =>
    split at decided
    case h_1 => cases decided
    case h_2 back found =>
      simp only at decided
      split at decided
      case isTrue => cases decided
      case isFalse external =>
        split at decided
        case isTrue => cases decided
        case isFalse =>
          cases decided
          refine ⟨rfl, rfl, ?_, fun cmp last => ?_, rfl⟩
          · have matched := List.find?_some found
            simp only [Bool.and_eq_true, decide_eq_true_eq] at matched
            exact matched.2
          · have member := List.mem_of_getLast? last
            by_contra other
            exact external (List.any_eq_true.mpr ⟨cmp, member, by simpa using other⟩)

theorem decision_delete {map : SCEVMap} {g : Graph} {growth growth' : BitVec 32}
    {loop : NodeId} {start : Word} {pieces : LoopPieces}
    (decided : decision map g growth loop = .delete growth' pieces start) :
    pieces.loop = loop ∧ Fits g pieces := by
  unfold decision at decided
  split_ifs at decided
  split at decided
  case h_1 => cases decided
  case h_2 phi found =>
    simp only at decided
    split_ifs at decided
    obtain ⟨isLoop, isPhi, back, cmp, -⟩ := decideBody_delete decided
    have matched := List.find?_some found
    simp only [Bool.and_eq_true, decide_eq_true_eq] at matched
    exact ⟨isLoop, .of_kinds (isPhi ▸ matched.1.2) back cmp⟩

theorem unroll_listed {g : Graph} (listed : g.Listed) (pieces : LoopPieces)
    (start : Word) : (unroll g pieces start).Listed :=
  (listed.pushNode _).deleteLoop pieces _

/-- The graph with the constant that replaces the phi. -/
theorem unroll_deletes {g : Graph} (listed : g.Listed) {pieces : LoopPieces}
    (fits : Fits g pieces) (start : Word) {exit body after entry : NodeId}
    (found : pieces.exit = some ⟨exit, some body, some after⟩)
    (idle : IdleLoop g pieces.loop exit body after entry)
    (header : (g.node pieces.phi).ctrlIn = some pieces.loop) :
    DeletesLoop g (unroll g pieces start) pieces.loop exit body after entry
      pieces.phi g.size := by
  let grown := (g.makeConstant start (g.node pieces.phi).typeId).2
  have node (id : NodeId) : grown.node id = if id = g.size then
      { kind := .constant, typeId := (g.node pieces.phi).typeId, payload := start }
      else g.node id := g.pushNode_node _ id
  have same (id : NodeId) (old : id < g.size) : grown.node id = g.node id := by
    rw [node, if_neg (Nat.ne_of_lt old)]
  have phiOld := Graph.inside_of_kind fits.isPhi (by simp)
  have loopOld := Graph.inside_of_kind idle.isLoop (by simp)
  have afterOld := Graph.inside_of_kind idle.after_proj.1 (by simp)
  have data (id : NodeId) (isData : IsData (g.node id).kind) :
      IsData (grown.node id).kind := by
    rw [node]
    split
    · simp [IsData, NodeKind.isCall]
    · exact isData
  have fitsGrown : Fits grown pieces :=
    ⟨by rw [same _ phiOld]; exact fits.isPhi, data _ fits.back,
      fun cmp member => data cmp (fits.cmp cmp member)⟩
  have longer : g.size ≤ grown.size := by
    simp [grown, Graph.makeConstant, Graph.makeNode]
  have listedGrown : grown.Listed := listed.pushNode _
  have first : (grown.node pieces.loop).inputs.getD 1 none = some entry := by
    rw [same _ loopOld, idle.inputs]
    rfl
  have isProj : (grown.node after).kind = .proj := by
    rw [same _ afterOld]
    exact idle.after_proj.1
  have headerGrown : (grown.node pieces.phi).ctrlIn = some pieces.loop := by
    rw [same _ phiOld]
    exact header
  have newData : IsData (grown.node g.size).kind := by
    rw [node, if_pos rfl]
    simp [IsData, NodeKind.isCall]
  have notStart : g.size ≠ kStartNodeId :=
    Nat.ne_of_gt (Nat.lt_of_le_of_lt (Nat.zero_le _) loopOld)
  have deletes := deleteLoop_deletes listedGrown found first (fits.entry_ne idle)
    isProj fitsGrown headerGrown newData notStart
  refine deletes.of_append longer same (fun id beyond => ?_) phiOld
  rw [node]
  split
  · simp [IsData, NodeKind.isCall]
  · rw [g.node_of_size_le beyond]
    simp [IsData, NodeKind.isCall, default]

/-- Deleting a detached loop keeps the result. -/
theorem unroll_returns {g : Graph} (listed : g.Listed) {pieces : LoopPieces}
    (fits : Fits g pieces) (detached : Detached g pieces) (start : Word)
    {callees : Callees} {args : List Word} {value : Word} {calls : List Call}
    (returns : CallWalk.Returns g callees args value calls) :
    CallWalk.Returns (unroll g pieces start) callees args value calls := by
  obtain ⟨exit, body, after, entry, found, idle, header, unobserved⟩ := detached
  have deletes := unroll_deletes listed fits start found idle header
  exact (deletes.carries idle unobserved callees args).returns returns

section Run

variable {map : SCEVMap} {callees : Callees} {args : List Word} {value : Word}
variable {calls : List Call}

/-- The graph of the progress lists all uses and still returns the result. -/
def Sound (callees : Callees) (args : List Word) (value : Word)
    (calls : List Call) (progress : Progress) : Prop :=
  progress.graph.Listed ∧
    CallWalk.Returns progress.graph callees args value calls

theorem visit_sound {progress : Progress} {loop : NodeId}
    (sound : Sound callees args value calls progress)
    (detached : ∀ growth pieces start,
      decision map progress.graph progress.estimatedGrowth loop =
        .delete growth pieces start → Detached progress.graph pieces) :
    (∀ next, visit map progress loop = .ok next →
      Sound callees args value calls next) ∧
      ∀ last, visit map progress loop = .error last →
        Sound callees args value calls last := by
  unfold visit
  cases decided : decision map progress.graph progress.estimatedGrowth loop with
  | skip growth reason =>
      constructor
      · rintro next same
        cases same
        exact sound
      · rintro last same
        cases same
  | stop =>
      constructor
      · rintro next same
        cases same
      · rintro last same
        cases same
        exact sound
  | delete growth pieces start =>
      constructor
      · rintro next same
        cases same
        exact ⟨unroll_listed sound.1 pieces start, unroll_returns sound.1
          (decision_delete decided).2 (detached growth pieces start decided) start
          sound.2⟩
      · rintro last same
        cases same

theorem visits_sound {loops : List NodeId} {progress : Progress}
    (sound : Sound callees args value calls progress)
    (each : EachDeletion Detached map loops progress) :
    (∀ next, loops.foldlM (visit map) progress = .ok next →
      Sound callees args value calls next) ∧
      ∀ last, loops.foldlM (visit map) progress = .error last →
        Sound callees args value calls last := by
  induction loops generalizing progress with
  | nil =>
      constructor
      · rintro next same
        cases same
        exact sound
      · rintro last same
        cases same
  | cons loop loops ih =>
      obtain ⟨here, rest⟩ := each
      obtain ⟨goesOn, stops⟩ := visit_sound sound fun growth pieces start decided => by
        rwa [decided] at here
      rw [List.foldlM_cons]
      cases visited : visit map progress loop with
      | ok next =>
          rw [visited] at rest
          exact ih (goesOn next visited) rest
      | error last =>
          constructor
          · rintro next same
            cases same
          · rintro other same
            cases same
            exact stops last visited

end Run

/-- When the pass deletes only detached loops of a lowered function, the
function returns the same after the same calls. -/
theorem returns_unrolled {order : TableOrder} {fn : Ast} {g : Graph}
    (lowered : lowerFresh order fn = .ok g)
    (each : EachDeletion Detached (Scev.run g) (List.range g.size) { graph := g })
    {callees : Callees} {args : List Word} {value : Word} {calls : List Call}
    (returns : CallWalk.Returns g callees args value calls) :
    CallWalk.Returns (run g).graph callees args value calls := by
  have sound : Sound callees args value calls { graph := g } :=
    ⟨Lowerer.lowerFresh_listed lowered, returns⟩
  obtain ⟨finished, stopped⟩ := visits_sound sound each
  unfold run
  split
  case h_1 progress ran => exact (finished progress ran).2
  case h_2 progress ran => exact (stopped progress ran).2

/-- A function with a loop over three iterations with this body, which returns
the variable 1. -/
def countingLoop (body : Ast) : Ast :=
  .fnDecl 0 [] none (.block [
    .letStmt 1 none (some (.intLit 7)) true,
    .forStmt 2 (.rangeExpr (.intLit 0) (.intLit 3)) (.block [body]),
    .returnStmt (some (.ident 1))]) false

/-- The loop adds two to the variable in each iteration. -/
def summing : Graph := Lowerer.loweredGraph .asListed
  (countingLoop (.assignExpr .eq (.ident 1) (.binaryExpr .plus (.ident 1) (.intLit 2))))

/-- The loop computes something that is not used. -/
def idling : Graph := Lowerer.loweredGraph .asListed
  (countingLoop (.letStmt 3 none (some (.binaryExpr .plus (.ident 1) (.intLit 2))) true))

/-- The pass deletes a loop whose accumulator is returned, so that the function
returns no value any more. -/
theorem summing_unrolled :
    lowerFresh .asListed (countingLoop
      (.assignExpr .eq (.ident 1) (.binaryExpr .plus (.ident 1) (.intLit 2)))) =
        .ok summing ∧
      (run summing).unrolled = 1 ∧
      CallWalk.Returns summing (fun _ => 0) [] 13 [] ∧
      ∀ value calls, ¬ CallWalk.Returns (run summing).graph (fun _ => 0) [] value calls
      := by
  have ran : returnsAt summing (fun _ => 0) [] 40 40 = some (13, []) := by
    decide +kernel
  have stuck : stuckAt (run summing).graph (fun _ => 0) [] 40 0 = true := by
    decide +kernel
  exact ⟨Lowerer.lowered_ok (by decide +kernel), by decide +kernel,
    returns_of_returnsAt ran, not_returns_of_stuckAt stuck⟩

theorem returns_unrolled_idling :
    lowerFresh .asListed (countingLoop
      (.letStmt 3 none (some (.binaryExpr .plus (.ident 1) (.intLit 2))) true)) =
        .ok idling ∧
      EachDeletion Detached (Scev.run idling) (List.range idling.size)
        { graph := idling } ∧
      (run idling).unrolled = 1 ∧
      CallWalk.Returns (run idling).graph (fun _ => 0) [] 7 [] := by
  have lowered : lowerFresh .asListed (countingLoop
      (.letStmt 3 none (some (.binaryExpr .plus (.ident 1) (.intLit 2))) true)) =
        .ok idling := Lowerer.lowered_ok (by decide +kernel)
  have checked : checkDeletions (checkDetached ⟨9, some 10, some 11⟩ 1 [7, 8, 15, 16])
      (Scev.run idling) (List.range idling.size) { graph := idling } = true := by
    decide +kernel
  have ran : returnsAt idling (fun _ => 0) [] 40 40 = some (7, []) := by
    decide +kernel
  have unrolled : (run idling).unrolled = 1 := by decide +kernel
  -- Nothing may evaluate the graph from here on.
  generalize idling = g at lowered checked ran unrolled ⊢
  have each := EachDeletion.of_check detached_of_check checked
  exact ⟨lowered, each, unrolled, returns_unrolled lowered each (returns_of_returnsAt ran)⟩

end LoopUnrolling

end Aegis
