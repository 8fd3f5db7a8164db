import AegisCompiler.Edce

/-!
# Escape analysis

The pointer of an allocation is followed from user to user.  An allocation whose pointer
reaches no return, call argument, stored value or atomic update becomes a pure stack slot.
-/

namespace Aegis

namespace EscapeAnalysis

/-- What a user does with a pointer: it lets the pointer escape, it consumes it, or the
pointer lives on in the user. -/
inductive PointerUse where
  | escapes
  | stops
  | follows
  deriving DecidableEq, Repr

/-- What one entry of an output list does with a pointer. -/
def useOf (g : Graph) (cur user : NodeId) : PointerUse :=
  let u := g.node user
  if g.size ≤ user then .stops
  else if u.isDead then .stops
  else match u.kind with
    | .returnNode =>
        if u.inputs.length = kReturnInputs ∧ u.inputs.getD kReturnValIndex none = some cur then
          .escapes
        else .stops
    | .callPure | .callAltered | .callCrowded =>
        if u.dataIns.contains (some cur) then .escapes else .stops
    | .store | .atomicStore =>
        if 2 ≤ u.dataIns.length ∧ u.dataIns.getD 1 none = some cur then .escapes else .stops
    | .atomicRmw => .escapes
    | .load | .atomicLoad => .stops
    | _ => .follows

/-- The worklist, and what has been visited. -/
abbrev Walk : Type := List NodeId × (NodeId → Bool)

/-- Look at the users of a pointer; there is no result when it escapes. -/
def walkUsers (g : Graph) (cur : NodeId) : List NodeId → Walk → Option Walk
  | [], walk => some walk
  | user :: users, walk =>
      match useOf g cur user with
      | .escapes => none
      | .stops => walkUsers g cur users walk
      | .follows =>
          if walk.2 user then walkUsers g cur users walk
          else walkUsers g cur users (user :: walk.1, Function.update walk.2 user true)

/-- Follow the pointers on the worklist.  The last pushed one is at the head. -/
def escapesFrom (g : Graph) : Nat → List NodeId → (NodeId → Bool) → Bool
  | 0, _, _ => false
  | _ + 1, [], _ => false
  | fuel + 1, cur :: work, visited =>
      match walkUsers g cur (g.usersSnapshot cur) (work, visited) with
      | none => true
      | some walk => escapesFrom g fuel walk.1 walk.2

/-- Whether the pointer of an allocation escapes.  A node is pushed once at most. -/
def escapes (g : Graph) (allocId : NodeId) : Bool :=
  escapesFrom g (g.size + 1) [allocId] fun id => id = allocId

/-- The rewrite of an allocation to a stack slot. -/
def promote (n : Node) : Node :=
  { n with kind := .stackAlloc, effect := .pure }.setFlag .isStackPromoted

def promoteNode (progress : Graph × Nat) (id : NodeId) : Graph × Nat :=
  let n := progress.1.node id
  if n.isDead then progress
  else if n.kind ≠ .alloc then progress
  else if escapes progress.1 id then progress
  else (progress.1.modifyNode id promote, progress.2 + 1)

/-- The pass: the new graph, and the number of promoted allocations. -/
def run (g : Graph) : Graph × Nat := (List.range g.size).foldl promoteNode (g, 0)

variable {g : Graph}

/-- The nodes in which the pointer of an allocation lives on. -/
inductive Flows (g : Graph) (allocId : NodeId) : NodeId → Prop where
  | start : Flows g allocId allocId
  | user {cur user : NodeId} (flows : Flows g allocId cur)
      (listed : user ∈ g.usersSnapshot cur) (follows : useOf g cur user = .follows) :
      Flows g allocId user

/-- The pointer flows to a user that lets it escape. -/
def Escapes (g : Graph) (allocId : NodeId) : Prop :=
  ∃ cur user, Flows g allocId cur ∧ user ∈ g.usersSnapshot cur ∧ useOf g cur user = .escapes

theorem inside_of_follows {cur user : NodeId} (follows : useOf g cur user = .follows) :
    user < g.size := by
  by_contra outside
  rw [useOf, if_pos (Nat.le_of_not_lt outside)] at follows
  cases follows

/-- What looking at some users of a pointer does to the worklist and the visited nodes. -/
structure Looked (g : Graph) (cur : NodeId) (users : List NodeId) (before after : Walk) :
    Prop where
  quiet : ∀ user ∈ users, useOf g cur user ≠ .escapes
  mono : ∀ id, before.2 id = true → after.2 id = true
  kept : ∀ id ∈ before.1, id ∈ after.1
  pending : ∀ id ∈ after.1, id ∈ before.1 ∨ after.2 id = true
  fresh : ∀ id, after.2 id = true → before.2 id = true ∨
    id ∈ after.1 ∧ id ∈ users ∧ useOf g cur id = .follows
  reached : ∀ user ∈ users, useOf g cur user = .follows → after.2 user = true
  count : Edce.unmarked g after.2 + after.1.length =
    Edce.unmarked g before.2 + before.1.length

theorem looked_nil (cur : NodeId) (walk : Walk) : Looked g cur [] walk walk :=
  ⟨fun _ none => absurd none List.not_mem_nil, fun _ known => known, fun _ member => member,
    fun _ member => .inl member, fun _ known => .inl known,
    fun _ none => absurd none List.not_mem_nil, rfl⟩

/-- A user that pushes nothing, in front of the others. -/
theorem Looked.skip {cur user : NodeId} {users : List NodeId} {before after : Walk}
    (rest : Looked g cur users before after) (quiet : useOf g cur user ≠ .escapes)
    (known : useOf g cur user = .follows → before.2 user = true) :
    Looked g cur (user :: users) before after := by
  refine ⟨?_, rest.mono, rest.kept, rest.pending, ?_, ?_, rest.count⟩
  · intro other listed
    rcases List.mem_cons.mp listed with rfl | later
    · exact quiet
    · exact rest.quiet other later
  · intro id visited
    exact (rest.fresh id visited).imp_right fun ⟨work, listed, follows⟩ =>
      ⟨work, List.mem_cons_of_mem _ listed, follows⟩
  · intro other listed follows
    rcases List.mem_cons.mp listed with rfl | later
    · exact rest.mono _ (known follows)
    · exact rest.reached other later follows

/-- A user that is pushed, in front of the others. -/
theorem Looked.push {cur user : NodeId} {users : List NodeId} {before after : Walk}
    (rest : Looked g cur users (user :: before.1, Function.update before.2 user true) after)
    (follows : useOf g cur user = .follows) (unknown : before.2 user = false) :
    Looked g cur (user :: users) before after := by
  have here : after.2 user = true := rest.mono user (Function.update_self ..)
  refine ⟨?_, ?_, ?_, ?_, ?_, ?_, ?_⟩
  · intro other listed
    rcases List.mem_cons.mp listed with rfl | later
    · rw [follows]
      exact PointerUse.noConfusion
    · exact rest.quiet other later
  · intro id known
    by_cases same : id = user
    · rw [same]
      exact here
    · exact rest.mono id (by simpa [same] using known)
  · intro id member
    exact rest.kept id (List.mem_cons_of_mem _ member)
  · intro id member
    rcases rest.pending id member with old | known
    · rcases List.mem_cons.mp old with rfl | older
      · exact .inr here
      · exact .inl older
    · exact .inr known
  · intro id known
    rcases rest.fresh id known with old | ⟨work, listed, flows⟩
    · by_cases same : id = user
      · subst same
        exact .inr ⟨rest.kept id List.mem_cons_self, List.mem_cons_self, follows⟩
      · exact .inl (by simpa [same] using old)
    · exact .inr ⟨work, List.mem_cons_of_mem _ listed, flows⟩
  · intro other listed flows
    rcases List.mem_cons.mp listed with rfl | later
    · exact here
    · exact rest.reached other later flows
  · have fewer := Edce.unmarked_update (inside_of_follows follows) unknown
    have count := rest.count
    simp only [List.length_cons] at count
    omega

/-- Either some user lets the pointer escape, or all users have been looked at. -/
theorem walkUsers_cases (cur : NodeId) (users : List NodeId) : ∀ walk : Walk,
    (walkUsers g cur users walk = none ∧ ∃ user ∈ users, useOf g cur user = .escapes) ∨
      ∃ after, walkUsers g cur users walk = some after ∧ Looked g cur users walk after := by
  induction users with
  | nil =>
      intro walk
      exact .inr ⟨walk, rfl, looked_nil cur walk⟩
  | cons user users ih =>
      intro walk
      have later {p : NodeId → Prop} (some : ∃ user ∈ users, p user) :
          ∃ other ∈ user :: users, p other := by
        obtain ⟨other, listed, holds⟩ := some
        exact ⟨other, List.mem_cons_of_mem _ listed, holds⟩
      rw [walkUsers]
      cases use : useOf g cur user with
      | escapes => exact .inl ⟨rfl, user, List.mem_cons_self, use⟩
      | stops =>
          rcases ih walk with ⟨result, some⟩ | ⟨after, result, looked⟩
          · exact .inl ⟨result, later some⟩
          · refine .inr ⟨after, result, looked.skip ?_ ?_⟩ <;> simp [use]
      | follows =>
          cases known : walk.2 user with
          | true =>
              rcases ih walk with ⟨result, some⟩ | ⟨after, result, looked⟩
              · exact .inl ⟨by simpa using result, later some⟩
              · exact .inr ⟨after, by simpa using result,
                  looked.skip (by simp [use]) fun _ => known⟩
          | false =>
              rcases ih (user :: walk.1, Function.update walk.2 user true) with
                ⟨result, some⟩ | ⟨after, result, looked⟩
              · exact .inl ⟨by simpa using result, later some⟩
              · exact .inr ⟨after, by simpa using result, looked.push use known⟩

/-- The pointer lives in every visited node, and no user of a visited node off the worklist
lets it escape or has been overlooked. -/
structure Following (g : Graph) (allocId : NodeId) (work : List NodeId)
    (visited : NodeId → Bool) : Prop where
  sound : ∀ id, visited id = true → Flows g allocId id
  pending : ∀ id ∈ work, visited id = true
  closed : ∀ id, visited id = true → id ∉ work → ∀ user ∈ g.usersSnapshot id,
    useOf g id user ≠ .escapes ∧ (useOf g id user = .follows → visited user = true)

theorem Following.step {allocId cur : NodeId} {work : List NodeId} {visited : NodeId → Bool}
    (following : Following g allocId (cur :: work) visited) {after : Walk}
    (looked : Looked g cur (g.usersSnapshot cur) (work, visited) after) :
    Following g allocId after.1 after.2 := by
  have here : visited cur = true := following.pending cur List.mem_cons_self
  constructor
  · intro id known
    rcases looked.fresh id known with old | ⟨-, listed, follows⟩
    · exact following.sound id old
    · exact .user (following.sound cur here) listed follows
  · intro id member
    rcases looked.pending id member with old | known
    · exact looked.mono id (following.pending id (List.mem_cons_of_mem _ old))
    · exact known
  · intro id known off user listed
    by_cases same : id = cur
    · subst same
      exact ⟨looked.quiet user listed, looked.reached user listed⟩
    · have old : visited id = true :=
        (looked.fresh id known).resolve_right fun fresh => off fresh.1
      have outside : id ∉ cur :: work := by
        rw [List.mem_cons, not_or]
        exact ⟨same, fun member => off (looked.kept id member)⟩
      obtain ⟨quiet, follows⟩ := following.closed id old outside user listed
      exact ⟨quiet, fun flows => looked.mono user (follows flows)⟩

/-- With an empty worklist, everything has been followed and nothing escapes. -/
theorem Following.not_escapes {allocId : NodeId} {visited : NodeId → Bool}
    (following : Following g allocId [] visited) (start : visited allocId = true) :
    ¬Escapes g allocId := by
  have all {id : NodeId} (flows : Flows g allocId id) : visited id = true := by
    induction flows with
    | start => exact start
    | user flows listed follows ih =>
        exact (following.closed _ ih List.not_mem_nil _ listed).2 follows
  rintro ⟨cur, user, flows, listed, escapes⟩
  exact (following.closed cur (all flows) List.not_mem_nil user listed).1 escapes

/-- The run of the worklist, with a unit of fuel for every node that can be popped. -/
theorem Following.run {allocId : NodeId} {fuel : Nat} {work : List NodeId}
    {visited : NodeId → Bool} (following : Following g allocId work visited)
    (start : visited allocId = true)
    (enough : Edce.unmarked g visited + work.length < fuel) :
    escapesFrom g fuel work visited = true ↔ Escapes g allocId := by
  induction fuel generalizing work visited with
  | zero => omega
  | succ fuel ih =>
      cases work with
      | nil =>
          have none := following.not_escapes start
          simp [escapesFrom, none]
      | cons cur work =>
          rw [escapesFrom]
          rcases walkUsers_cases (g := g) cur (g.usersSnapshot cur) (work, visited) with
            ⟨result, user, listed, escapes⟩ | ⟨after, result, looked⟩
          · have flows := following.sound cur (following.pending cur List.mem_cons_self)
            rw [result]
            exact ⟨fun _ => ⟨cur, user, flows, listed, escapes⟩, fun _ => rfl⟩
          · have count := looked.count
            simp only [List.length_cons] at enough
            simp only at count
            rw [result]
            exact ih (following.step looked) (looked.mono _ start) (by omega)

/-- The analysis finds exactly the pointers that flow to an escape. -/
theorem escapes_iff {allocId : NodeId} (inside : allocId < g.size) :
    escapes g allocId = true ↔ Escapes g allocId := by
  have single := Edce.unmarked_roots (g := g) [allocId] (List.nodup_singleton _)
    fun id member => (List.mem_singleton.mp member) ▸ inside
  have same : (fun id => [allocId].contains id) = fun id => decide (id = allocId) := by
    funext id
    simp
  rw [same, List.length_singleton] at single
  refine Following.run ⟨?_, ?_, ?_⟩ (decide_eq_true rfl) (Nat.lt_succ_of_le single)
  · intro id known
    cases of_decide_eq_true known
    exact .start
  · intro id member
    exact decide_eq_true (List.mem_singleton.mp member)
  · intro id known off
    exact absurd (List.mem_singleton.mpr (of_decide_eq_true known)) off

/-- The live allocations. -/
def LiveAlloc (g : Graph) (id : NodeId) : Prop :=
  id < g.size ∧ (g.node id).isDead = false ∧ (g.node id).kind = .alloc

instance (g : Graph) (id : NodeId) : Decidable (LiveAlloc g id) :=
  inferInstanceAs (Decidable (_ ∧ _ ∧ _))

/-- Two graphs in which pointers flow alike. -/
structure SameFlow (g h : Graph) : Prop where
  size : h.size = g.size
  outputs : h.outputs = g.outputs
  node : ∀ id, h.node id = g.node id ∨
    (g.node id).kind = .alloc ∧ h.node id = promote (g.node id)

theorem promote_isDead (n : Node) : (promote n).isDead = n.isDead := by
  rw [promote, Node.isDead_setFlag]
  exact Bool.or_false _

theorem SameFlow.useOf {h : Graph} (same : SameFlow g h) (cur user : NodeId) :
    useOf h cur user = useOf g cur user := by
  unfold EscapeAnalysis.useOf
  rw [same.size]
  rcases same.node user with kept | ⟨alloc, promoted⟩
  · rw [kept]
  · simp only [promoted, promote_isDead, alloc]
    rfl

theorem SameFlow.walkUsers {h : Graph} (same : SameFlow g h) (cur : NodeId)
    (users : List NodeId) (walk : Walk) :
    walkUsers h cur users walk = walkUsers g cur users walk := by
  induction users generalizing walk with
  | nil => rfl
  | cons user users ih => simp only [EscapeAnalysis.walkUsers, same.useOf, ih]

theorem SameFlow.escapes {h : Graph} (same : SameFlow g h) (id : NodeId) :
    escapes h id = escapes g id := by
  have steps (fuel : Nat) (work : List NodeId) (visited : NodeId → Bool) :
      escapesFrom h fuel work visited = escapesFrom g fuel work visited := by
    induction fuel generalizing work visited with
    | zero => rfl
    | succ fuel ih =>
        cases work with
        | nil => rfl
        | cons cur work =>
            simp only [escapesFrom, Graph.usersSnapshot, same.outputs, same.walkUsers, ih]
  unfold EscapeAnalysis.escapes
  rw [same.size]
  exact steps _ _ _

/-- A node after the pass. -/
def promoted (g : Graph) (id : NodeId) : Node :=
  if LiveAlloc g id ∧ escapes g id = false then promote (g.node id) else g.node id

/-- The nodes below a bound have been looked at. -/
structure Promoted (g : Graph) (bound : Nat) (h : Graph) : Prop where
  size : h.size = g.size
  outputs : h.outputs = g.outputs
  below : ∀ id < bound, h.node id = promoted g id
  above : ∀ id, bound ≤ id → h.node id = g.node id

theorem Promoted.sameFlow {bound : Nat} {h : Graph} (done : Promoted g bound h) :
    SameFlow g h := by
  refine ⟨done.size, done.outputs, fun id => ?_⟩
  by_cases below : id < bound
  · rw [done.below id below, promoted]
    split
    case isTrue found => exact .inr ⟨found.1.2.2, rfl⟩
    case isFalse => exact .inl rfl
  · exact .inl (done.above id (Nat.le_of_not_lt below))

theorem Promoted.step {bound count : Nat} {h : Graph} (done : Promoted g bound h)
    (inside : bound < g.size) :
    Promoted g (bound + 1) (promoteNode (h, count) bound).1 := by
  have here := done.above bound (Nat.le_refl bound)
  have keep (stays : promoted g bound = g.node bound) : Promoted g (bound + 1) h := by
    refine ⟨done.size, done.outputs, fun id below => ?_, fun id above =>
      done.above id (Nat.le_of_succ_le above)⟩
    by_cases same : id = bound
    · rw [same, here, stays]
    · exact done.below id (by omega)
  unfold promoteNode
  simp only [here]
  split
  case isTrue dead =>
    apply keep
    rw [promoted, if_neg]
    rintro ⟨⟨-, live, -⟩, -⟩
    rw [dead] at live
    cases live
  case isFalse live =>
    split
    case isTrue other =>
      apply keep
      rw [promoted, if_neg]
      rintro ⟨⟨-, -, alloc⟩, -⟩
      exact other alloc
    case isFalse alloc =>
      rw [done.sameFlow.escapes]
      split
      case isTrue escaping =>
        apply keep
        rw [promoted, if_neg]
        rintro ⟨-, kept⟩
        rw [escaping] at kept
        cases kept
      case isFalse kept =>
        have found : LiveAlloc g bound ∧ escapes g bound = false :=
          ⟨⟨inside, Bool.eq_false_iff.mpr live, not_not.mp alloc⟩, Bool.eq_false_iff.mpr kept⟩
        refine ⟨?_, done.outputs, fun id below => ?_, fun id above => ?_⟩
        · exact (Graph.modifyNode_size _ _ _).trans done.size
        · rw [Graph.modifyNode_node, done.size]
          by_cases same : id = bound
          · rw [if_pos ⟨same, inside⟩, same, here, promoted, if_pos found]
          · rw [if_neg fun both => same both.1]
            exact done.below id (by omega)
        · rw [Graph.modifyNode_node, if_neg fun both => Nat.ne_of_gt above both.1]
          exact done.above id (Nat.le_of_succ_le above)

/-- The pass promotes exactly the live allocations whose pointers do not escape. -/
theorem run_promoted (g : Graph) : Promoted g g.size (run g).1 := by
  have each (bound : Nat) (within : bound ≤ g.size) :
      Promoted g bound ((List.range bound).foldl promoteNode (g, 0)).1 := by
    induction bound with
    | zero =>
        exact ⟨rfl, rfl, fun id below => absurd below (Nat.not_lt_zero id), fun _ _ => rfl⟩
    | succ bound ih =>
        rw [List.range_succ, List.foldl_append]
        exact (ih (Nat.le_of_succ_le within)).step within
  exact each g.size (Nat.le_refl _)

theorem run_node (g : Graph) (id : NodeId) : (run g).1.node id = promoted g id := by
  by_cases inside : id < g.size
  · exact (run_promoted g).below id inside
  · rw [(run_promoted g).above id (Nat.le_of_not_lt inside), promoted, if_neg]
    rintro ⟨⟨within, -⟩, -⟩
    exact inside within

end EscapeAnalysis

end Aegis
