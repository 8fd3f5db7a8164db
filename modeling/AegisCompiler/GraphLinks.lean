import AegisCompiler.SeaOfNodesGraph
import Mathlib.Data.List.Count

/-!
# The users of a node after an edit

How often a node is listed as a user of another after the edits of the graph.
-/

namespace Aegis

namespace Graph

/-- Removing a user removes it once, and no other user. -/
theorem removeFirst_count (users : List NodeId) (user other : NodeId) :
    (removeFirst users user).count other =
      users.count other - if other = user then 1 else 0 := by
  unfold removeFirst
  split
  case isFalse absent =>
    split
    case isTrue same =>
      subst same
      rw [List.count_eq_zero_of_not_mem absent]
    case isFalse => rfl
  case isTrue present =>
    rcases List.eq_nil_or_concat users with rfl | ⟨front, last, rfl⟩
    · cases present
    · rw [List.concat_eq_append, List.getLastD_concat, List.count_append]
      by_cases early : user ∈ front
      · have inside := List.idxOf_lt_length_of_mem early
        rw [List.idxOf_append_of_mem early, List.set_append_left _ _ inside,
          List.dropLast_concat, List.count_set inside, List.getElem_idxOf inside]
        simp only [List.count_singleton, beq_iff_eq, eq_comm (a := user)]
        have positive := List.count_pos_iff.mpr early
        split_ifs <;> simp_all
      · have isLast : last = user := by
          simpa [early, eq_comm] using present
        subst isLast
        rw [List.idxOf_append_of_notMem early]
        rw [List.idxOf_cons_self, Nat.add_zero, List.set_append_right _ _ le_rfl,
          Nat.sub_self, List.set_cons_zero, List.dropLast_concat]
        simp only [List.count_singleton, beq_iff_eq, eq_comm (a := last)]
        omega
variable (g : Graph)

@[simp]
theorem ensureOutputSlot_users (id input : NodeId) :
    (g.ensureOutputSlot id).usersSnapshot input = g.usersSnapshot input := by
  simp only [ensureOutputSlot, usersSnapshot, List.getD_eq_getElem?_getD]
  by_cases old : input < g.outputs.length
  · rw [List.getElem?_append_left old]
  · have beyond : g.outputs.length ≤ input := Nat.le_of_not_lt old
    rw [List.getElem?_append_right beyond, List.getElem?_eq_none beyond,
      List.getElem?_replicate]
    split <;> rfl

theorem users_of_modify (outputs : List (List NodeId)) (nodes : List Node)
    (target input : NodeId) (update : List NodeId → List NodeId)
    (inside : target < outputs.length ∨ update [] = []) :
    ({ nodes, outputs := outputs.modify target update } : Graph).usersSnapshot
        input =
      if input = target then
        update (({ nodes, outputs } : Graph).usersSnapshot input)
      else ({ nodes, outputs } : Graph).usersSnapshot input := by
  simp only [usersSnapshot, List.getD_eq_getElem?_getD, List.getElem?_modify]
  by_cases same : input = target
  · subst same
    simp only [if_true]
    cases found : outputs[input]? with
    | some users => rfl
    | none =>
        rcases inside with inside | empty
        · simp [inside] at found
        · simp [empty]
  · simp [same, Ne.symm same]

theorem linkInputToOutput_users (user : NodeId) (ref : NodeRef)
    (input : NodeId) :
    (g.linkInputToOutput user ref).usersSnapshot input =
      if ref = some input then g.usersSnapshot input ++ [user]
      else g.usersSnapshot input := by
  cases ref with
  | none => simp [linkInputToOutput]
  | some target =>
      have inside : target < (g.ensureOutputSlot target).outputs.length := by
        have covers (a b : Nat) : a < b + (a + 1 - b) := by omega
        rw [ensureOutputSlot, List.length_append, List.length_replicate]
        exact covers _ _
      have modified := users_of_modify (g.ensureOutputSlot target).outputs
        (g.ensureOutputSlot target).nodes target input (· ++ [user])
        (Or.inl inside)
      rw [linkInputToOutput, modified]
      have same : ({ nodes := (g.ensureOutputSlot target).nodes
                     outputs := (g.ensureOutputSlot target).outputs } :
          Graph).usersSnapshot input = g.usersSnapshot input :=
        g.ensureOutputSlot_users target input
      rw [same]
      simp [eq_comm]

theorem unlinkInputFromOutput_users (user : NodeId) (ref : NodeRef)
    (input : NodeId) :
    (g.unlinkInputFromOutput user ref).usersSnapshot input =
      if ref = some input then removeFirst (g.usersSnapshot input) user
      else g.usersSnapshot input := by
  cases ref with
  | none => simp [unlinkInputFromOutput]
  | some target =>
      have modified := users_of_modify g.outputs g.nodes target input
        (removeFirst · user) (Or.inr rfl)
      rw [unlinkInputFromOutput, modified]
      simp [eq_comm]

/-- Linking a list of inputs counts each of them. -/
theorem linkAll_users (user : NodeId) (refs : List NodeRef) (g : Graph)
    (input other : NodeId) :
    ((refs.foldl (fun g ref => g.linkInputToOutput user ref) g).usersSnapshot
        input).count other =
      (g.usersSnapshot input).count other +
        if other = user then refs.count (some input) else 0 := by
  induction refs generalizing g with
  | nil => simp
  | cons ref refs ih =>
      rw [List.foldl_cons, ih, linkInputToOutput_users]
      by_cases here : ref = some input
      · rw [if_pos here, here, List.count_append, List.count_cons_self]
        by_cases same : other = user
        · rw [if_pos same, if_pos same, same, List.count_cons_self,
            List.count_nil]
          omega
        · rw [if_neg same, if_neg same, List.count_cons_of_ne (Ne.symm same),
            List.count_nil, Nat.add_zero]
      · rw [if_neg here, List.count_cons_of_ne here]

@[simp]
theorem modifyNode_users (id : NodeId) (update : Node → Node) (input : NodeId) :
    (g.modifyNode id update).usersSnapshot input = g.usersSnapshot input := rfl

theorem pushNode_users_count (n : Node) (input user : NodeId) :
    ((g.pushNode n).2.usersSnapshot input).count user =
      (g.usersSnapshot input).count user +
        if user = g.size then n.inputs.count (some input) else 0 := by
  unfold pushNode
  rw [linkAll_users, ensureOutputSlot_users]
  rfl

/-- One use of `old` by `id` becomes a use of `new`, in the output lists. -/
def relink (id : NodeId) (old new : NodeRef) (g : Graph) : Graph :=
  (g.unlinkInputFromOutput id old).linkInputToOutput id new

theorem relink_count (id : NodeId) (old new : NodeRef) (g : Graph)
    (input user : NodeId) :
    ((relink id old new g).usersSnapshot input).count user =
      (g.usersSnapshot input).count user
        - (if user = id ∧ old = some input then 1 else 0)
        + (if user = id ∧ new = some input then 1 else 0) := by
  rw [relink, Graph.linkInputToOutput_users, Graph.unlinkInputFromOutput_users]
  have unlinked : (if old = some input then removeFirst (g.usersSnapshot input) id
      else g.usersSnapshot input).count user =
        (g.usersSnapshot input).count user
          - (if user = id ∧ old = some input then 1 else 0) := by
    by_cases here : old = some input
    · rw [if_pos here, removeFirst_count]
      by_cases same : user = id
      · simp [here, same]
      · simp [here, same]
    · simp [here]
  by_cases here : new = some input
  · rw [if_pos here, List.count_append, unlinked]
    by_cases same : user = id
    · simp [here, same]
    · simp [here, same, List.count_cons_of_ne (Ne.symm same)]
  · rw [if_neg here, unlinked]
    simp [here]

theorem setInput_users_count (id : NodeId) (slot : Nat) (new : NodeRef)
    (input user : NodeId) :
    ((g.setInput id slot new).usersSnapshot input).count user ≤
      (g.usersSnapshot input).count user
        + (if user = id ∧ new = some input then 1 else 0) := by
  simp only [setInput]
  split
  case isTrue => exact Nat.le_add_right _ _
  case isFalse =>
    change ((relink id _ new _).usersSnapshot input).count user ≤ _
    rw [relink_count, modifyNode_users]
    omega

theorem swapInput_users_count (id : NodeId) (old new : NodeRef)
    (input user : NodeId) (other : new ≠ some input) :
    ((g.swapInput id old new).usersSnapshot input).count user ≤
      (g.usersSnapshot input).count user := by
  simp only [swapInput]
  split
  case isTrue => exact le_rfl
  case isFalse =>
    have fewer (times : Nat) (h : Graph) :
        ((times.repeat (relink id old new) h).usersSnapshot input).count user ≤
          (h.usersSnapshot input).count user := by
      induction times with
      | zero => exact le_rfl
      | succ times ih =>
          rw [Nat.repeat, relink_count]
          simp only [other, and_false, if_false]
          omega
    exact fewer _ _

end Graph

end Aegis
