import AegisCompiler.SeaOfNodesGraph

/-!
# The graph verifier

Four checks, in the order of the source.  Each walks the graph and gives the
reason of the first failure that it finds.
-/

namespace Aegis

namespace Graph

/-- The reason why an input slot of a live node is wrong. -/
def inputFailure (g : Graph) (id : NodeId) : NodeRef → Option String
  | none => none
  | some input =>
      if g.size ≤ input then
        some ("dangling input NodeId on node " ++ toString id)
      else if (g.node input).isDead then
        some ("input " ++ toString input ++ " of node " ++ toString id ++
          " is marked dead but still referenced")
      else none

/-- Check 1: the inputs of live nodes exist and are live. -/
def checkInputs (g : Graph) : Option String :=
  (List.range g.size).findSome? fun id =>
    if (g.node id).isDead then none
    else (g.node id).inputs.findSome? (g.inputFailure id)

/-- Check 2: live nodes that are not pure have an effect input. -/
def checkEffects (g : Graph) : Option String :=
  (List.range g.size).findSome? fun id =>
    let n := g.node id
    if n.isDead || n.isPure then none
    else if n.effIn = kInvalidNodeId ∧ n.kind ≠ .start then
      some ("non-Pure node " ++ toString id ++ " has no effect-in edge")
    else none

/-- Check 3: speculative guards have a frame state. -/
def checkFrameStates (g : Graph) : Option String :=
  (List.range g.size).findSome? fun id =>
    let flags := (g.node id).flags
    if flags.has .isPgoSpeculated && flags.has .isGuarded &&
        !flags.has .hasFrameState then
      some ("PGO-speculated guard " ++ toString id ++
        " is missing FrameState (Rule A.5)")
    else none

/-- The reason why an entry of the output list of a node is wrong. -/
def useFailure (g : Graph) (id user : NodeId) : Option String :=
  if g.size ≤ user then
    some ("output list of " ++ toString id ++
      " references non-existent node " ++ toString user)
  else if (g.node user).isDead then none
  else if (g.node user).inputs.contains (some id) then none
  else
    some ("use-def mismatch: node " ++ toString user ++ " listed as output of " ++
      toString id ++ " but does not have it as input")

/-- Check 4: the users of a node have it as an input. -/
def checkUses (g : Graph) : Option String :=
  (List.range g.outputs.length).findSome? fun id =>
    (g.usersSnapshot id).findSome? (g.useFailure id)

/-- The reason why the graph is rejected, if it is. -/
def verify (g : Graph) : Option String :=
  g.checkInputs <|> g.checkEffects <|> g.checkFrameStates <|> g.checkUses

theorem verify_eq_none {g : Graph} :
    g.verify = none ↔ g.checkInputs = none ∧ g.checkEffects = none ∧
      g.checkFrameStates = none ∧ g.checkUses = none := by
  simp [verify]

theorem checkInputs_eq_none {g : Graph} :
    g.checkInputs = none ↔ ∀ id < g.size, (g.node id).isDead = false →
      ∀ input, some input ∈ (g.node id).inputs →
        input < g.size ∧ (g.node input).isDead = false := by
  have slot (id : NodeId) (ref : NodeRef) : g.inputFailure id ref = none ↔
      ∀ input, ref = some input → input < g.size ∧ (g.node input).isDead = false := by
    cases ref with
    | none => simp [inputFailure]
    | some input =>
        simp only [inputFailure, Option.some.injEq, forall_eq']
        rw [← Nat.not_le]
        by_cases outside : g.size ≤ input <;>
          cases (g.node input).isDead <;> simp [outside]
  simp only [checkInputs, List.findSome?_eq_none_iff, List.mem_range]
  refine forall_congr' fun id => forall_congr' fun _ => ?_
  cases (g.node id).isDead with
  | true => simp
  | false =>
      simp only [Bool.false_eq_true, if_false, List.findSome?_eq_none_iff, slot,
        forall_const]
      constructor
      · intro all input member
        exact all _ member input rfl
      · rintro all ref member input rfl
        exact all input member

theorem checkEffects_eq_none {g : Graph} :
    g.checkEffects = none ↔ ∀ id < g.size, (g.node id).isDead = false →
      (g.node id).isPure = false → (g.node id).kind ≠ .start →
        (g.node id).effIn ≠ none := by
  simp only [checkEffects, List.findSome?_eq_none_iff, List.mem_range]
  refine forall_congr' fun id => forall_congr' fun _ => ?_
  cases (g.node id).isDead <;> cases (g.node id).isPure <;> simp
  tauto

theorem checkUses_eq_none {g : Graph} :
    g.checkUses = none ↔ ∀ id, ∀ user ∈ g.usersSnapshot id,
      user < g.size ∧
        ((g.node user).isDead = false → some id ∈ (g.node user).inputs) := by
  have entry (id user : NodeId) : g.useFailure id user = none ↔ user < g.size ∧
      ((g.node user).isDead = false → some id ∈ (g.node user).inputs) := by
    unfold useFailure
    rw [← Nat.not_le]
    by_cases outside : g.size ≤ user <;>
      cases (g.node user).isDead <;> simp [outside]
  simp only [checkUses, List.findSome?_eq_none_iff, List.mem_range, entry]
  constructor
  · intro all id user member
    refine all id ?_ user member
    by_contra outside
    rw [usersSnapshot, List.getD_eq_getElem?_getD,
      List.getElem?_eq_none (Nat.le_of_not_lt outside)] at member
    cases member
  · intro all id _
    exact all id

end Graph

end Aegis
