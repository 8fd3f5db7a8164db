import AegisCompiler.EscapeAnalysis
import AegisCompiler.GraphOperations

/-!
# Paths of a pointer

A pointer is carried along the user edges, up to the nodes that consume or move it.  An
allocation becomes a stack slot exactly when no such path leads out of the function.
-/

namespace Aegis

namespace EscapeAnalysis

/-- The kinds at which a path of a pointer ends. -/
def endsPath (kind : NodeKind) : Bool :=
  match kind with
  | .load | .atomicLoad | .store | .atomicStore | .atomicRmw
  | .callPure | .callAltered | .callCrowded | .returnNode => true
  | _ => false

/-- A way to tell that a node uses another one. -/
abbrev UserEdge : Type := Graph → NodeId → NodeId → Prop

/-- The user is listed. -/
def ListedUser : UserEdge := fun g cur user => user ∈ g.usersSnapshot cur

/-- The user has the node as an input. -/
def ReadingUser : UserEdge := fun g cur user => some cur ∈ (g.node user).inputs

/-- The nodes on the paths of live user edges from an allocation. -/
inductive Carries (edge : UserEdge) (g : Graph) (allocId : NodeId) : NodeId → Prop where
  | alloc : Carries edge g allocId allocId
  | user {cur user : NodeId} (carries : Carries edge g allocId cur) (uses : edge g cur user)
      (live : g.Live user) (goesOn : endsPath (g.node user).kind = false) :
      Carries edge g allocId user

/-- A node returns the value, passes it to a callee, stores it, or updates memory
atomically.  A return has the three inputs that every return is made with.  The pass does not
look at the value of a longer one, which the instruction selector would still return. -/
inductive MovesOut (cur : NodeId) (n : Node) : Prop where
  | returns {ctrl eff : NodeRef} (kind : n.kind = .returnNode)
      (inputs : n.inputs = [ctrl, eff, some cur])
  | passes (kind : n.kind = .callPure ∨ n.kind = .callAltered ∨ n.kind = .callCrowded)
      (argument : some cur ∈ n.dataIns)
  | stores (kind : n.kind = .store ∨ n.kind = .atomicStore)
      (value : n.dataIns.getD 1 none = some cur)
  | updates (kind : n.kind = .atomicRmw)

/-- A path leads out of the function. -/
def EscapePath (edge : UserEdge) (g : Graph) (allocId : NodeId) : Prop :=
  ∃ cur user, Carries edge g allocId cur ∧ edge g cur user ∧ g.Live user ∧
    MovesOut cur (g.node user)

variable {g : Graph}

theorem returns_iff {inputs : List NodeRef} {cur : NodeId} :
    inputs.length = kReturnInputs ∧ inputs.getD kReturnValIndex none = some cur ↔
      ∃ ctrl eff, inputs = [ctrl, eff, some cur] := by
  constructor
  · rintro ⟨length, value⟩
    obtain ⟨ctrl, eff, val, rfl⟩ := List.length_eq_three.mp length
    cases value
    exact ⟨ctrl, eff, rfl⟩
  · rintro ⟨ctrl, eff, rfl⟩
    exact ⟨rfl, rfl⟩

theorem stores_iff {operands : List NodeRef} {cur : NodeId} :
    2 ≤ operands.length ∧ operands.getD 1 none = some cur ↔
      operands.getD 1 none = some cur := by
  constructor
  · exact And.right
  · intro value
    refine ⟨?_, value⟩
    by_contra short
    rw [List.getD_eq_getElem?_getD, List.getElem?_eq_none (by omega)] at value
    cases value

/-- Only live users matter. -/
theorem live_of_useOf {cur user : NodeId} (uses : useOf g cur user ≠ .stops) :
    g.Live user := by
  by_contra gone
  apply uses
  unfold useOf
  by_cases outside : g.size ≤ user
  · exact if_pos outside
  · rw [if_neg outside]
    apply if_pos
    by_contra alive
    exact gone ⟨Nat.lt_of_not_le outside, Bool.eq_false_of_not_eq_true alive⟩

theorem useOf_follows_iff {cur user : NodeId} : useOf g cur user = .follows ↔
    g.Live user ∧ endsPath (g.node user).kind = false := by
  constructor
  · intro follows
    have uses : useOf g cur user ≠ .stops := by simp [follows]
    have live := live_of_useOf uses
    refine ⟨live, ?_⟩
    rw [useOf, if_neg (Nat.not_le_of_lt live.1), if_neg (by simp [live.2])] at follows
    unfold endsPath
    split at follows
    case h_10 => split <;> first | rfl | contradiction
    all_goals (try split at follows) <;> cases follows
  · rintro ⟨live, goesOn⟩
    rw [useOf, if_neg (Nat.not_le_of_lt live.1), if_neg (by simp [live.2])]
    cases kind : (g.node user).kind <;> rw [kind] at goesOn <;>
      first | rfl | cases goesOn

theorem useOf_escapes_iff {cur user : NodeId} :
    useOf g cur user = .escapes ↔ g.Live user ∧ MovesOut cur (g.node user) := by
  constructor
  · intro escapes
    have uses : useOf g cur user ≠ .stops := by simp [escapes]
    have live := live_of_useOf uses
    refine ⟨live, ?_⟩
    rw [useOf, if_neg (Nat.not_le_of_lt live.1), if_neg (by simp [live.2])] at escapes
    split at escapes
    case h_1 kind =>
      rw [ite_eq_left_iff] at escapes
      obtain ⟨ctrl, eff, inputs⟩ := returns_iff.mp (by by_contra no; cases escapes no)
      exact .returns kind inputs
    case h_2 kind =>
      rw [ite_eq_left_iff] at escapes
      exact .passes (.inl kind) (List.contains_iff_mem.mp (by by_contra no; cases escapes no))
    case h_3 kind =>
      rw [ite_eq_left_iff] at escapes
      exact .passes (.inr (.inl kind))
        (List.contains_iff_mem.mp (by by_contra no; cases escapes no))
    case h_4 kind =>
      rw [ite_eq_left_iff] at escapes
      exact .passes (.inr (.inr kind))
        (List.contains_iff_mem.mp (by by_contra no; cases escapes no))
    case h_5 kind =>
      rw [ite_eq_left_iff] at escapes
      exact .stores (.inl kind) (stores_iff.mp (by by_contra no; cases escapes no))
    case h_6 kind =>
      rw [ite_eq_left_iff] at escapes
      exact .stores (.inr kind) (stores_iff.mp (by by_contra no; cases escapes no))
    case h_7 kind => exact .updates kind
    all_goals cases escapes
  · rintro ⟨live, moves⟩
    rw [useOf, if_neg (Nat.not_le_of_lt live.1), if_neg (by simp [live.2])]
    cases moves with
    | returns kind inputs =>
        rw [kind]
        exact if_pos (returns_iff.mpr ⟨_, _, inputs⟩)
    | passes kind argument =>
        rcases kind with kind | kind | kind <;> rw [kind] <;>
          exact if_pos (List.contains_iff_mem.mpr argument)
    | stores kind value =>
        rcases kind with kind | kind <;> rw [kind] <;> exact if_pos (stores_iff.mpr value)
    | updates kind => rw [kind]

theorem flows_iff {allocId id : NodeId} :
    Flows g allocId id ↔ Carries ListedUser g allocId id := by
  constructor
  · intro flows
    induction flows with
    | start => exact .alloc
    | user _ listed follows ih =>
        obtain ⟨live, goesOn⟩ := useOf_follows_iff.mp follows
        exact .user ih listed live goesOn
  · intro carries
    induction carries with
    | alloc => exact .start
    | user _ listed live goesOn ih =>
        exact .user ih listed (useOf_follows_iff.mpr ⟨live, goesOn⟩)

theorem escapes_iff_path {allocId : NodeId} :
    Escapes g allocId ↔ EscapePath ListedUser g allocId := by
  constructor
  · rintro ⟨cur, user, flows, listed, escapes⟩
    obtain ⟨live, moves⟩ := useOf_escapes_iff.mp escapes
    exact ⟨cur, user, flows_iff.mp flows, listed, live, moves⟩
  · rintro ⟨cur, user, carries, listed, live, moves⟩
    exact ⟨cur, user, flows_iff.mpr carries, listed, useOf_escapes_iff.mpr ⟨live, moves⟩⟩

/-- In a graph with complete user lists, the paths over inputs are listed. -/
theorem EscapePath.listed (listed : g.Listed) {allocId : NodeId}
    (path : EscapePath ReadingUser g allocId) : EscapePath ListedUser g allocId := by
  have carried {id : NodeId} (carries : Carries ReadingUser g allocId id) :
      Carries ListedUser g allocId id := by
    induction carries with
    | alloc => exact .alloc
    | user _ uses live goesOn ih => exact .user ih (listed.mem_users uses) live goesOn
  obtain ⟨cur, user, carries, uses, live, moves⟩ := path
  exact ⟨cur, user, carried carries, listed.mem_users uses, live, moves⟩

theorem kind_promoted {id : NodeId} (alloc : LiveAlloc g id) :
    ((run g).1.node id).kind = .stackAlloc ↔ escapes g id = false := by
  rw [run_node, promoted]
  split
  case isTrue both => exact ⟨fun _ => both.2, fun _ => rfl⟩
  case isFalse other =>
    constructor
    · intro kind
      rw [alloc.2.2] at kind
      cases kind
    · intro kept
      exact absurd ⟨alloc, kept⟩ other

theorem liveAlloc_of_promoted {id : NodeId} (alloc : (g.node id).kind = .alloc)
    (kind : ((run g).1.node id).kind = .stackAlloc) : LiveAlloc g id ∧ escapes g id = false := by
  rw [run_node, promoted] at kind
  split at kind
  case isTrue both => exact both
  case isFalse =>
    rw [alloc] at kind
    cases kind

/-- The live allocations that are promoted are those from which no path of listed live users
leads out. -/
theorem kind_run_iff {id : NodeId} (alloc : LiveAlloc g id) :
    ((run g).1.node id).kind = .stackAlloc ↔ ¬EscapePath ListedUser g id := by
  rw [kind_promoted alloc, ← Bool.not_eq_true, escapes_iff alloc.1, escapes_iff_path]

/-- From a promoted allocation no path of live users leads out, neither before nor after the
pass; where the lists are complete, no path over inputs does either. -/
theorem promoted_no_path {id : NodeId} (alloc : (g.node id).kind = .alloc)
    (kind : ((run g).1.node id).kind = .stackAlloc) :
    ¬EscapePath ListedUser g id ∧ ¬EscapePath ListedUser (run g).1 id ∧
      (g.Listed → ¬EscapePath ReadingUser g id) := by
  obtain ⟨live, kept⟩ := liveAlloc_of_promoted alloc kind
  have flow := (run_promoted g).sameFlow
  have before : ¬EscapePath ListedUser g id := (kind_run_iff live).mp kind
  refine ⟨before, ?_, fun complete path => before (path.listed complete)⟩
  have inside : id < (run g).1.size := by
    rw [flow.size]
    exact live.1
  rw [← escapes_iff_path, ← escapes_iff inside, flow.escapes, kept]
  exact Bool.false_ne_true

/-- An allocation with a store to it and a load. -/
def localCell : Graph :=
  let g := Graph.fresh
  let (ctrl, g) := g.makeProj (some kStartNodeId) 0
  let (effect, g) := g.makeProj (some kStartNodeId) 1
  let (alloc, g) := g.makeAlloc (some ctrl) (some effect) kInvalidTypeId
  let (value, g) := g.makeConstant 7 kInvalidTypeId
  let (store, g) := g.makeStore (some ctrl) (some alloc) (some alloc) (some value)
  (g.makeLoad (some ctrl) (some store) (some alloc) kInvalidTypeId).2

theorem promoted_no_path_localCell :
    ¬EscapePath ListedUser localCell 3 ∧ ¬EscapePath ListedUser (run localCell).1 3 ∧
      (localCell.Listed → ¬EscapePath ReadingUser localCell 3) :=
  promoted_no_path (by decide) (by decide)

end EscapeAnalysis

end Aegis
