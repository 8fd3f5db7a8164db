import AegisCompiler.SeaOfNodesGraph

/-!
# Scalar evolution

The analysis recognizes the phis of loop headers that start at a constant and
are advanced by adding a constant.
-/

namespace Aegis

namespace Scev

/-- How a value evolves over the iterations of a loop. -/
inductive SCEVKind where
  | constant | addRec | add | mul | unknown
  deriving DecidableEq, Repr

/-- A recurrence; the trip count is -1 when it is not known. -/
structure SCEVExpr where
  kind : SCEVKind := .unknown
  start : Word := 0
  step : Word := 0
  tripCount : Word := -1
  deriving DecidableEq, Repr

/-- The expression of each node; a later entry replaces an earlier one and
stands in front of it. -/
abbrev SCEVMap := List (NodeId × SCEVExpr)

section Analysis

variable (g : Graph)

/-- The number of iterations after which a comparison of the phi with a
constant ends the loop, if it is positive. -/
def tripOf (phi : NodeId) (start : Word) (cmp : NodeId) : Option Word :=
  if ¬ cmp < g.size then none
  else if (g.node cmp).kind ≠ .cmpLt ∧ (g.node cmp).kind ≠ .cmpUlt then none
  else match (g.node cmp).dataIns with
    | [cmpLhs, cmpRhs] =>
        if cmpLhs ≠ some phi then none
        else (g.inRange cmpRhs).bind fun nConst =>
          if (g.node nConst).kind ≠ .constant then none
          else
            let trip := (g.node nConst).payload - start
            if BitVec.slt 0 trip then some trip else none
    | _ => none

/-- The trip count from the first comparison that gives one. -/
def tripCount (phi : NodeId) (start : Word) : Word :=
  ((g.usersSnapshot phi).findSome? (tripOf g phi start)).getD (-1)

/-- The operand of the back-edge addition that is taken for the step: the last
one that is not the phi. -/
def stepOperand (phi : NodeId) (lhs rhs : NodeRef) : NodeRef :=
  if rhs ≠ some phi then rhs
  else if lhs ≠ some phi then lhs
  else none

/-- The recurrence of a phi, with the addition on its back edge. -/
def recurrence (phi : NodeId) : Option (NodeId × SCEVExpr) :=
  if ¬ phi < g.size then none
  else if (g.node phi).kind ≠ .phi then none
  else match (g.node phi).inputs with
    | [_, some start, some back] =>
        if (g.node start).kind ≠ .constant then none
        else if (g.node back).kind ≠ .add then none
        else match (g.node back).dataIns with
          | [lhs, rhs] =>
              (g.inRange (stepOperand phi lhs rhs)).bind fun step =>
                if (g.node step).kind ≠ .constant then none
                else some (back, {
                  kind := .addRec
                  start := (g.node start).payload
                  step := (g.node step).payload
                  tripCount := tripCount g phi (g.node start).payload })
          | _ => none
    | _ => none

/-- Record the recurrence of a phi for the phi and for the addition. -/
def record (map : SCEVMap) (user : NodeId) : SCEVMap :=
  match recurrence g user with
  | some (back, expr) => (back, expr) :: (user, expr) :: map
  | none => map

def visitLoop (map : SCEVMap) (loop : NodeId) : SCEVMap :=
  if (g.node loop).isDead then map
  else if (g.node loop).kind ≠ .loop then map
  else (g.usersSnapshot loop).foldl (record g) map

/-- Analyse all live loops of the graph. -/
def run : SCEVMap := (List.range g.size).foldl (visitLoop g) []

end Analysis

/-- The expression of a node, unknown when the node was not analysed. -/
def scevOf (map : SCEVMap) (id : NodeId) : SCEVExpr :=
  ((List.find? (fun entry => entry.1 = id) map).map Prod.snd).getD {}

section Spec

variable {g : Graph}

/-- What the analysis has found out about a phi. -/
structure Recurs (g : Graph) (phi back : NodeId) (expr : SCEVExpr) : Prop where
  kind : expr.kind = .addRec
  isPhi : (g.node phi).kind = .phi
  entry : ∃ region start, (g.node phi).inputs = [region, some start, some back] ∧
    (g.node start).kind = .constant ∧ (g.node start).payload = expr.start
  isAdd : (g.node back).kind = .add
  step : ∃ lhs rhs stepId, (g.node back).dataIns = [lhs, rhs] ∧
    stepOperand phi lhs rhs = some stepId ∧ (g.node stepId).kind = .constant ∧
      (g.node stepId).payload = expr.step

theorem recurrence_recurs {phi back : NodeId} {expr : SCEVExpr}
    (found : recurrence g phi = some (back, expr)) : Recurs g phi back expr := by
  unfold recurrence at found
  split_ifs at found with outside other
  split at found
  case h_1 region start back' inputs =>
    split_ifs at found with notConstant notAdd
    split at found
    case h_1 lhs rhs operands =>
      obtain ⟨stepId, inside, found⟩ := Option.bind_eq_some_iff.mp found
      split_ifs at found with notStep
      cases found
      exact ⟨rfl, not_not.mp other,
        ⟨region, start, inputs, not_not.mp notConstant, rfl⟩, not_not.mp notAdd,
        ⟨lhs, rhs, stepId, operands, ((g.inRange_some).mp inside).1,
          not_not.mp notStep, rfl⟩⟩
    case h_2 => cases found
  case h_2 => cases found

/-- Every entry belongs to a recurrence, under its phi or its addition. -/
def Justified (g : Graph) (map : SCEVMap) : Prop :=
  ∀ entry ∈ map, ∃ phi back, Recurs g phi back entry.2 ∧
    (entry.1 = phi ∨ entry.1 = back)

theorem record_justified {map : SCEVMap} (justified : Justified g map)
    (user : NodeId) : Justified g (record g map user) := by
  unfold record
  split
  case h_1 back expr found =>
    have recurs := recurrence_recurs found
    intro entry member
    rcases List.mem_cons.mp member with rfl | member
    · exact ⟨user, back, recurs, Or.inr rfl⟩
    · rcases List.mem_cons.mp member with rfl | member
      · exact ⟨user, back, recurs, Or.inl rfl⟩
      · exact justified entry member
  case h_2 => exact justified

theorem visitLoop_justified {map : SCEVMap} (justified : Justified g map)
    (loop : NodeId) : Justified g (visitLoop g map loop) := by
  unfold visitLoop
  split_ifs
  · exact justified
  · exact justified
  · exact List.foldlRecOn _ (record g) justified fun _ before user _ =>
      record_justified before user

theorem run_justified (g : Graph) : Justified g (run g) :=
  List.foldlRecOn _ (visitLoop g) nofun fun _ before loop _ =>
    visitLoop_justified before loop

/-- A phi that is classified as a recurrence is one. -/
theorem recurs_of_scevOf {phi : NodeId} (isPhi : (g.node phi).kind = .phi)
    (recurrent : (scevOf (run g) phi).kind = .addRec) :
    ∃ back, Recurs g phi back (scevOf (run g) phi) := by
  unfold scevOf at recurrent ⊢
  cases found : List.find? (fun entry => entry.1 = phi) (run g) with
  | none =>
      rw [found] at recurrent
      cases recurrent
  | some entry =>
      have key := List.find?_some found
      simp only [decide_eq_true_eq] at key
      obtain ⟨phi', back, recurs, same | same⟩ :=
        run_justified g entry (List.mem_of_find?_eq_some found)
      · rw [key] at same
        subst same
        exact ⟨back, recurs⟩
      · have isAdd := recurs.isAdd
        rw [← same, key, isPhi] at isAdd
        cases isAdd

end Spec

end Scev

end Aegis
