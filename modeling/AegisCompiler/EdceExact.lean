import AegisCompiler.Edce
import AegisCompiler.GraphOperations

/-!
# Dead code elimination, exactly

The sweep marks the nodes that no root needs, counts them, and touches nothing but flags.
What is left needs no second run.
-/

namespace Aegis

namespace Edce

variable {g : Graph}

/-- The sweep removes this node. -/
def Removed (g : Graph) (id : NodeId) : Prop :=
  id ≠ kStartNodeId ∧ (g.node id).isDead = false ∧ liveNodes g id = false

instance (g : Graph) (id : NodeId) : Decidable (Removed g id) :=
  inferInstanceAs (Decidable (_ ∧ _ ∧ _))

/-- The node after the sweep. -/
def flagged (g : Graph) (id : NodeId) : Node :=
  if id = kStartNodeId ∨ (g.node id).isDead = true then g.node id
  else (g.node id).setFlag (if liveNodes g id then .isLive else .isDead)

theorem isDead_flagged (g : Graph) (id : NodeId) :
    (flagged g id).isDead = ((g.node id).isDead || decide (Removed g id)) := by
  by_cases start : id = kStartNodeId
  · simp [flagged, Removed, start]
  · cases dead : (g.node id).isDead with
    | true => simp [flagged, dead]
    | false =>
        cases live : liveNodes g id <;>
          simp [flagged, Removed, start, dead, live, Node.isDead_setFlag]

/-- Only flags differ. -/
theorem flagged_eq (g : Graph) (id : NodeId) :
    ∃ flags, flagged g id = { g.node id with flags } := by
  unfold flagged
  split
  · exact ⟨_, rfl⟩
  · exact ⟨_, rfl⟩

/-- The sweep of the nodes below a bound. -/
structure SweptBelow (g : Graph) (bound : Nat) (progress : Graph × Nat) : Prop where
  size : progress.1.size = g.size
  outputs : progress.1.outputs = g.outputs
  node : ∀ id, progress.1.node id = if id < bound then flagged g id else g.node id
  count : progress.2 = (List.range bound).countP fun id => decide (Removed g id)

theorem SweptBelow.step {bound : Nat} {progress : Graph × Nat}
    (swept : SweptBelow g bound progress) (inside : bound < g.size) :
    SweptBelow g (bound + 1) (sweepNode (liveNodes g) progress bound) := by
  have here : progress.1.node bound = g.node bound := by
    rw [swept.node, if_neg (Nat.lt_irrefl bound)]
  have counted : (List.range (bound + 1)).countP (fun id => decide (Removed g id)) =
      progress.2 + if Removed g bound then 1 else 0 := by
    rw [List.range_succ, List.countP_append, ← swept.count, List.countP_singleton]
    simp only [decide_eq_true_eq]
  -- The node that is looked at is left alone or gets one flag.
  have extend {h : Graph} (size : h.size = g.size) (outputs : h.outputs = g.outputs)
      (node : ∀ id, h.node id =
        if id = bound then flagged g bound else progress.1.node id) :
      SweptBelow g (bound + 1) (h, progress.2 + if Removed g bound then 1 else 0) := by
    refine ⟨size, outputs, fun id => ?_, counted.symm⟩
    rw [node, swept.node]
    by_cases same : id = bound
    · simp [same]
    · have below : id < bound + 1 ↔ id < bound :=
        ⟨fun low => Nat.lt_of_le_of_ne (Nat.le_of_lt_succ low) same, Nat.lt_succ_of_lt⟩
      simp only [same, below, if_false]
  have unchanged (same : flagged g bound = g.node bound) (id : NodeId) :
      progress.1.node id = if id = bound then flagged g bound else progress.1.node id := by
    split
    case isTrue last => rw [last, here, same]
    case isFalse => rfl
  have flag (bit : NodeFlagBit) (same : flagged g bound = (g.node bound).setFlag bit)
      (id : NodeId) : (progress.1.setFlag bound bit).node id =
        if id = bound then flagged g bound else progress.1.node id := by
    rw [Graph.setFlag_node, swept.size]
    by_cases last : id = bound
    · rw [last, if_pos ⟨rfl, inside⟩, here, same, if_pos rfl]
    · simp [last]
  unfold sweepNode
  rw [here]
  split
  case isTrue start =>
    have kept : ¬Removed g bound := fun removed => removed.1 start
    simpa [kept] using extend swept.size swept.outputs
      (unchanged (if_pos (Or.inl start)))
  case isFalse notStart =>
    split
    case isTrue dead =>
      have kept : ¬Removed g bound := fun removed => by simp [removed.2.1] at dead
      simpa [kept] using extend swept.size swept.outputs
        (unchanged (if_pos (Or.inr dead)))
    case isFalse alive =>
      have flags : flagged g bound =
          (g.node bound).setFlag (if liveNodes g bound then .isLive else .isDead) :=
        if_neg (by simp [notStart, alive])
      rw [Bool.not_eq_true] at alive
      split
      case isTrue live =>
        have kept : ¬Removed g bound := fun removed => by simp [removed.2.2] at live
        rw [if_pos live] at flags
        simpa [kept] using extend ((progress.1.setFlag_size _ _).trans swept.size)
          swept.outputs (flag .isLive flags)
      case isFalse gone =>
        have removed : Removed g bound := ⟨notStart, alive, Bool.eq_false_of_not_eq_true gone⟩
        rw [if_neg gone] at flags
        simpa [removed] using extend ((progress.1.setFlag_size _ _).trans swept.size)
          swept.outputs (flag .isDead flags)

theorem run_swept (g : Graph) : SweptBelow g g.size (run g) := by
  have progress (bound : Nat) (within : bound ≤ g.size) :
      SweptBelow g bound ((List.range bound).foldl (sweepNode (liveNodes g)) (g, 0)) := by
    induction bound with
    | zero => exact ⟨rfl, rfl, fun _ => by simp, rfl⟩
    | succ bound ih =>
        rw [List.range_succ, List.foldl_append]
        exact (ih (Nat.le_of_succ_le within)).step within
  exact progress g.size le_rfl

theorem run_fst_size (g : Graph) : (run g).1.size = g.size := (run_swept g).size

theorem run_fst_node (g : Graph) {id : NodeId} (inside : id < g.size) :
    (run g).1.node id = flagged g id := by
  rw [(run_swept g).node, if_pos inside]

/-- The kind, the effect, the payload, the type and the inputs stay. -/
theorem run_fst_same (g : Graph) (id : NodeId) :
    ∃ flags, (run g).1.node id = { g.node id with flags } := by
  rw [(run_swept g).node]
  split
  · exact flagged_eq g id
  · exact ⟨_, rfl⟩

theorem isDead_run (g : Graph) {id : NodeId} (inside : id < g.size) :
    ((run g).1.node id).isDead = ((g.node id).isDead || decide (Removed g id)) := by
  rw [run_fst_node g inside, isDead_flagged]

theorem Needed.inside {id : NodeId} (needed : Needed g id) : id < g.size := by
  cases needed with
  | root inside => exact inside
  | input _ reads => exact reads.2.1

theorem Needed.live {id : NodeId} (needed : Needed g id) : (g.node id).isDead = false := by
  cases needed with
  | root _ root =>
      simp only [isRoot, Bool.and_eq_true, Bool.not_eq_true'] at root
      exact root.1
  | input _ reads => exact reads.2.2

/-- A needed node survives. -/
theorem Needed.survives {id : NodeId} (needed : Needed g id) :
    ((run g).1.node id).isDead = false := by
  have marked := (liveNodes_iff id).mpr needed
  rw [isDead_run g needed.inside, needed.live]
  simp [Removed, marked]

theorem alive_before {id : NodeId} (inside : id < g.size)
    (alive : ((run g).1.node id).isDead = false) : (g.node id).isDead = false := by
  rw [isDead_run g inside, Bool.or_eq_false_iff] at alive
  exact alive.1

theorem isRoot_run {id : NodeId} (alive : ((run g).1.node id).isDead = (g.node id).isDead) :
    isRoot (run g).1 id = isRoot g id := by
  obtain ⟨flags, same⟩ := run_fst_same g id
  rw [isRoot, isRoot, alive, same]
  rfl

theorem reads_run {user input : NodeId} : Reads (run g).1 user input ↔
    some input ∈ (g.node user).inputs ∧ input < g.size ∧
      ((run g).1.node input).isDead = false := by
  obtain ⟨flags, same⟩ := run_fst_same g user
  rw [Reads, same, run_fst_size]

/-- The first run leaves the needed nodes needed, and no others. -/
theorem needed_run {id : NodeId} : Needed (run g).1 id ↔ Needed g id := by
  constructor
  · intro needed
    induction needed with
    | root inside root =>
        rw [run_fst_size] at inside
        have alive : ((run g).1.node _).isDead = false := (Needed.root (g := (run g).1)
          (by rwa [run_fst_size]) root).live
        rw [isRoot_run (alive.trans (alive_before inside alive).symm)] at root
        exact .root inside root
    | input _ reads ih =>
        obtain ⟨member, inside, alive⟩ := reads_run.mp reads
        exact .input ih ⟨member, inside, alive_before inside alive⟩
  · intro needed
    induction needed with
    | root inside root =>
        have needed := Needed.root inside root
        refine .root (by rwa [run_fst_size]) ?_
        rw [isRoot_run (needed.survives.trans needed.live.symm)]
        exact root
    | input needed reads ih =>
        exact .input ih (reads_run.mpr ⟨reads.1, reads.2.1, (needed.input reads).survives⟩)

theorem liveNodes_run (id : NodeId) : liveNodes (run g).1 id = liveNodes g id := by
  rw [Bool.eq_iff_iff, liveNodes_iff, liveNodes_iff, needed_run]

/-- A second run finds every flag in place. -/
theorem flagged_run {id : NodeId} (inside : id < g.size) :
    flagged (run g).1 id = (run g).1.node id := by
  have dead := isDead_run g inside
  rw [flagged, liveNodes_run]
  split
  case isTrue => rfl
  case isFalse open_ =>
    rw [not_or, Bool.not_eq_true] at open_
    obtain ⟨notStart, alive⟩ := open_
    rw [alive, eq_comm, Bool.or_eq_false_iff] at dead
    obtain ⟨before, kept⟩ := dead
    have live : liveNodes g id = true := by
      by_contra gone
      exact of_decide_eq_false kept ⟨notStart, before, Bool.eq_false_of_not_eq_true gone⟩
    have here : (run g).1.node id = (g.node id).setFlag .isLive := by
      rw [run_fst_node g inside, flagged, if_neg (by simp [notStart, before]), if_pos live]
    rw [if_pos live, here, Node.setFlag_setFlag]

theorem graph_ext {g h : Graph} (size : h.size = g.size) (outputs : h.outputs = g.outputs)
    (node : ∀ id < g.size, h.node id = g.node id) : h = g := by
  have nodes : h.nodes = g.nodes := by
    apply List.ext_getElem size
    intro i before after
    rw [← h.node_eq_getElem before, ← g.node_eq_getElem after]
    exact node i after
  cases h
  cases g
  cases nodes
  cases outputs
  rfl

theorem run_run (g : Graph) : run (run g).1 = ((run g).1, 0) := by
  have second := run_swept (run g).1
  refine Prod.ext (graph_ext second.size second.outputs fun id inside => ?_) ?_
  · rw [run_fst_node _ inside, flagged_run (by rwa [run_fst_size] at inside)]
  · rw [second.count, List.countP_eq_zero]
    intro id member removed
    rw [List.mem_range, run_fst_size] at member
    obtain ⟨notStart, alive, gone⟩ := of_decide_eq_true removed
    rw [liveNodes_run] at gone
    rw [isDead_run g member, Bool.or_eq_false_iff] at alive
    exact of_decide_eq_false alive.2 ⟨notStart, alive.1, gone⟩

/-- The nodes that a run marks dead. -/
def newlyDead (g : Graph) : List NodeId :=
  (List.range g.size).filter fun id =>
    !(g.node id).isDead && ((run g).1.node id).isDead

theorem count_newlyDead (g : Graph) : (run g).2 = (newlyDead g).length := by
  rw [(run_swept g).count, List.countP_eq_length_filter, newlyDead]
  congr 1
  apply List.filter_congr
  intro id member
  rw [isDead_run g (List.mem_range.mp member)]
  cases dead : (g.node id).isDead with
  | true => simp [Removed, dead]
  | false => simp

/-- A run marks exactly the live nodes besides the start node that no live root reaches,
and counts them; it changes nothing but flags; a live node keeps its live inputs, the start
node when it is needed itself; and a second run changes nothing and returns 0. -/
theorem run_marks_exactly (g : Graph) :
    (∀ id < g.size, id ≠ kStartNodeId → (g.node id).isDead = false →
      (((run g).1.node id).isDead = true ↔ ¬Needed g id)) ∧
    (run g).2 = (newlyDead g).length ∧
    (∀ id, ∃ flags, (run g).1.node id = { g.node id with flags }) ∧
    (∀ user < g.size, ((run g).1.node user).isDead = false →
      user ≠ kStartNodeId ∨ Needed g user → ∀ input, Reads g user input →
        ((run g).1.node input).isDead = false) ∧
    run (run g).1 = ((run g).1, 0) := by
  refine ⟨?_, count_newlyDead g, run_fst_same g, ?_, run_run g⟩
  · intro id inside notStart alive
    have same := run_alive_iff (g := g) inside notStart
    rw [← Bool.not_eq_false, same]
    simp [alive]
  · intro user inside alive kept input reads
    have needed : Needed g user :=
      kept.elim (fun notStart => ((run_alive_iff inside notStart).mp alive).2) id
    exact (needed.input reads).survives

/-- The start node, with a constant appended to its inputs. -/
def startWithInput : Graph :=
  (Graph.fresh.makeConstant 7 kInvalidTypeId).2.appendInput kStartNodeId (some 1)

/-- The start node stays alive, and its input does not. -/
theorem start_loses_input :
    startWithInput.Operated ∧ Reads startWithInput kStartNodeId 1 ∧
      ((run startWithInput).1.node kStartNodeId).isDead = false ∧
        ((run startWithInput).1.node 1).isDead = true :=
  ⟨.apply (.appendInput kStartNodeId (some 1)) (Nat.zero_lt_succ 1)
      (.apply (.makeConstant 7 kInvalidTypeId) trivial .fresh),
    ⟨by decide, by decide, by decide⟩, by decide, by decide⟩

end Edce

end Aegis
