import AegisCompiler.GraphLinks

/-!
# Graphs with complete user lists

When every use of a node is listed, replacing the node in its listed users
replaces it everywhere.
-/

namespace Aegis

namespace Graph

/-- Every input slot of a node is listed as a use. -/
def Listed (g : Graph) : Prop :=
  ∀ user input, (g.node user).inputs.count (some input) ≤
    (g.usersSnapshot input).count user

theorem Listed.mem_users {g : Graph} (listed : g.Listed) {user input : NodeId}
    (reads : some input ∈ (g.node user).inputs) :
    user ∈ g.usersSnapshot input := by
  apply List.count_pos_iff.mp
  exact Nat.lt_of_lt_of_le (List.count_pos_iff.mpr reads) (listed user input)

theorem listed_fresh : Graph.fresh.Listed := by
  intro user input
  have none : (Graph.fresh.node user).inputs = [] := by
    cases user <;> rfl
  simp [none]

theorem Listed.pushNode {g : Graph} (listed : g.Listed) (n : Node) :
    (g.pushNode n).2.Listed := by
  intro user input
  rw [pushNode_node, pushNode_users_count]
  split
  case isTrue => exact Nat.le_add_left _ _
  case isFalse => exact listed user input

theorem Listed.setFlag {g : Graph} (listed : g.Listed) (id : NodeId)
    (bit : NodeFlagBit) : (g.setFlag id bit).Listed := by
  intro user input
  rw [setFlag_node]
  split <;> exact listed user input

theorem Listed.markDead {g : Graph} (listed : g.Listed) (id : NodeId) :
    (g.markDead id).Listed :=
  listed.setFlag id .isDead

theorem Listed.setInput {g : Graph} (listed : g.Listed) (id : NodeId) (slot : Nat)
    (new : NodeRef) : (g.setInput id slot new).Listed := by
  intro user input
  have before := listed user input
  have node := g.setInput_node id slot new user
  simp only [Graph.setInput] at node ⊢
  split at node
  case isTrue same =>
    rw [if_pos same]
    exact before
  case isFalse differs =>
    rw [if_neg differs]
    rw [node]
    change _ ≤ ((relink id _ new _).usersSnapshot input).count user
    rw [relink_count, modifyNode_users]
    by_cases here : user = id
    · subst here
      simp only [if_true, true_and]
      by_cases inside : slot < (g.node user).inputs.length
      · rw [List.count_set inside, List.getD_eq_getElem?_getD,
          List.getElem?_eq_getElem inside, Option.getD_some]
        simp only [beq_iff_eq]
        omega
      · have outside := Nat.le_of_not_lt inside
        rw [List.set_eq_of_length_le outside, List.getD_eq_getElem?_getD,
          List.getElem?_eq_none outside, Option.getD_none]
        simp only [reduceCtorEq, if_false, Nat.sub_zero]
        exact Nat.le_add_right_of_le before
    · simp only [here, if_false, false_and, Nat.sub_zero, Nat.add_zero]
      exact before

/-- Relinking several uses moves exactly those. -/
theorem repeat_relink_count {old new : NodeRef} (differs : old ≠ new) (id : NodeId)
    (times : Nat) (g : Graph) (input user : NodeId) :
    ((times.repeat (relink id old new) g).usersSnapshot input).count user =
      (g.usersSnapshot input).count user
        - (if user = id ∧ old = some input then times else 0)
        + (if user = id ∧ new = some input then times else 0) := by
  have apart : ¬ (old = some input ∧ new = some input) := fun both =>
    differs (both.1.trans both.2.symm)
  induction times with
  | zero => simp [Nat.repeat]
  | succ times ih =>
      rw [Nat.repeat, relink_count, ih]
      split_ifs with first second
      · exact absurd ⟨first.2, second.2⟩ apart
      all_goals omega

/-- How often a reference occurs after another one was replaced. -/
theorem count_replace (refs : List NodeRef) (old new ref : NodeRef) :
    (refs.map fun input => if input = old then new else input).count ref =
      refs.count ref - (if old = ref then refs.count old else 0)
        + (if new = ref then refs.count old else 0) := by
  induction refs with
  | nil => simp
  | cons input refs ih =>
      simp only [List.map_cons, List.count_cons, beq_iff_eq]
      split_ifs at ih ⊢ <;> simp_all <;> omega

theorem swapInput_self (g : Graph) (id : NodeId) (ref : NodeRef) (input user : NodeId) :
    (g.usersSnapshot input).count user ≤
      ((g.swapInput id ref ref).usersSnapshot input).count user := by
  have each (times : Nat) (g : Graph) : (g.usersSnapshot input).count user ≤
      ((times.repeat (relink id ref ref) g).usersSnapshot input).count user := by
    induction times with
    | zero => exact le_rfl
    | succ times ih =>
        rw [Nat.repeat, relink_count]
        split_ifs <;> omega
  simp only [Graph.swapInput]
  split
  case isTrue => exact le_rfl
  case isFalse =>
    rw [← modifyNode_users g id]
    exact each _ _

theorem Listed.swapInput {g : Graph} (listed : g.Listed) (id : NodeId)
    (old new : NodeRef) : (g.swapInput id old new).Listed := by
  intro user input
  by_cases differs : old = new
  · subst differs
    have same : (fun input => if input = old then old else input) = fun input => input := by
      funext input
      split <;> simp_all
    rw [swapInput_node, same]
    refine Nat.le_trans ?_ (swapInput_self g id old input user)
    split <;> simpa using listed user input
  have before := listed user input
  have node := g.swapInput_node id old new user
  simp only [Graph.swapInput] at node ⊢
  split at node
  case isTrue none =>
    rw [if_pos none]
    exact before
  case isFalse some =>
    rw [if_neg some, node]
    have after := repeat_relink_count differs id ((g.node id).inputs.count old)
      (g.modifyNode id fun n => { n with inputs := n.inputs.map fun input =>
        if input = old then new else input }) input user
    rw [modifyNode_users] at after
    refine Nat.le_trans ?_ (Nat.le_of_eq after.symm)
    by_cases here : user = id
    · subst here
      have count := count_replace (g.node user).inputs old new (Option.some input)
      simp only [if_true, true_and]
      rw [count]
      omega
    · simp only [here, if_false, false_and, Nat.sub_zero, Nat.add_zero]
      exact before

/-- Read one node where another one was read. -/
def rename (old new : NodeId) (ref : NodeRef) : NodeRef :=
  if ref = some old then some new else ref

theorem rename_twice (old new : NodeId) (ref : NodeRef) :
    rename old new (rename old new ref) = rename old new ref := by
  unfold rename
  split_ifs <;> simp_all

theorem rename_absent {old new : NodeId} {refs : List NodeRef}
    (absent : some old ∉ refs) : refs.map (rename old new) = refs := by
  conv_rhs => rw [← List.map_id refs]
  refine List.map_congr_left fun ref member => ?_
  rw [rename, id, if_neg]
  rintro rfl
  exact absent member

/-- Replace a node in each of these users. -/
def swapIn (users : List NodeId) (old new : NodeId) (g : Graph) : Graph :=
  users.foldl (fun g user => g.swapInput user (some old) (some new)) g

@[simp]
theorem swapIn_size (users : List NodeId) (old new : NodeId) (g : Graph) :
    (swapIn users old new g).size = g.size := by
  unfold swapIn
  induction users generalizing g with
  | nil => rfl
  | cons user users ih => rw [List.foldl_cons, ih, swapInput_size]

theorem swapIn_node (users : List NodeId) (old new : NodeId) (g : Graph)
    (id : NodeId) :
    (swapIn users old new g).node id =
      if id ∈ users then
        { g.node id with inputs := (g.node id).inputs.map (rename old new) }
      else g.node id := by
  unfold swapIn
  induction users generalizing g with
  | nil => rfl
  | cons user users ih =>
      rw [List.foldl_cons, ih, swapInput_node]
      by_cases later : id ∈ users
      · rw [if_pos later, if_pos (List.mem_cons_of_mem _ later)]
        split
        case isTrue =>
          have twice : ((g.node id).inputs.map (rename old new)).map
              (rename old new) = (g.node id).inputs.map (rename old new) := by
            rw [List.map_map]
            exact List.map_congr_left fun ref _ => rename_twice old new ref
          exact congrArg (fun inputs => { g.node id with inputs }) twice
        case isFalse => rfl
      · rw [if_neg later]
        by_cases here : id = user
        · rw [if_pos here, if_pos (here ▸ List.mem_cons_self)]
          rfl
        · rw [if_neg here, if_neg (by simp [here, later])]

theorem Listed.swapIn {g : Graph} (listed : g.Listed) (users : List NodeId)
    (old new : NodeId) : (swapIn users old new g).Listed := by
  unfold Graph.swapIn
  induction users generalizing g with
  | nil => exact listed
  | cons user users ih => exact ih (listed.swapInput user _ _)

/-- With all users listed, nothing reads the old node any more. -/
theorem Listed.swapIn_node {g : Graph} (listed : g.Listed) {users : List NodeId}
    {old : NodeId} (all : ∀ user ∈ g.usersSnapshot old, user ∈ users)
    (new id : NodeId) :
    (Graph.swapIn users old new g).node id =
      { g.node id with inputs := (g.node id).inputs.map (rename old new) } := by
  rw [Graph.swapIn_node]
  split
  case isTrue => rfl
  case isFalse outside =>
    rw [rename_absent fun reads => outside (all id (listed.mem_users reads))]

end Graph

end Aegis
