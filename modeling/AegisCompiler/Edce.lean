import AegisCompiler.SeaOfNodesGraph

/-!
# Effect-aware dead code elimination

Mark from the crowded nodes, returns and stops backwards over the inputs, and
sweep what was not reached.
-/

namespace Aegis

namespace Edce

/-- A live node of this kind is kept for its own sake. -/
def isRoot (g : Graph) (id : NodeId) : Bool :=
  let n := g.node id
  !n.isDead && (n.isCrowded || decide (n.kind = .returnNode) ||
    decide (n.kind = .stop))

/-- Mark one input and put it on the worklist. -/
def markInput (g : Graph) (progress : List NodeId × (NodeId → Bool))
    (ref : NodeRef) : List NodeId × (NodeId → Bool) :=
  match g.inRange ref with
  | none => progress
  | some input =>
      if (g.node input).isDead || progress.2 input then progress
      else (input :: progress.1, Function.update progress.2 input true)

/-- Mark everything the nodes on the worklist need.  The last pushed node is
at the head. -/
def mark (g : Graph) : Nat → List NodeId → (NodeId → Bool) → NodeId → Bool
  | 0, _, live => live
  | _ + 1, [], live => live
  | fuel + 1, id :: work, live =>
      let progress := (g.node id).inputs.foldl (markInput g) (work, live)
      mark g fuel progress.1 progress.2

/-- The marked nodes.  A node is pushed once at most. -/
def liveNodes (g : Graph) : NodeId → Bool :=
  let roots := (List.range g.size).filter (isRoot g)
  mark g (g.size + 1) roots.reverse fun id => roots.contains id

/-- Flag one node; the start node is left alone. -/
def sweepNode (live : NodeId → Bool) (progress : Graph × Nat) (id : NodeId) :
    Graph × Nat :=
  if id = kStartNodeId then progress
  else if (progress.1.node id).isDead then progress
  else if live id then (progress.1.setFlag id .isLive, progress.2)
  else (progress.1.setFlag id .isDead, progress.2 + 1)

/-- The pass: the swept graph and the number of nodes removed. -/
def run (g : Graph) : Graph × Nat :=
  (List.range g.size).foldl (sweepNode (liveNodes g)) (g, 0)

variable {g : Graph}

/-- The user reads a live node of the graph. -/
def Reads (g : Graph) (user input : NodeId) : Prop :=
  some input ∈ (g.node user).inputs ∧ input < g.size ∧
    (g.node input).isDead = false

/-- A root, or an input of a needed node. -/
inductive Needed (g : Graph) : NodeId → Prop where
  | root {id : NodeId} (inside : id < g.size) (isRoot : isRoot g id = true) :
      Needed g id
  | input {user id : NodeId} (needed : Needed g user)
      (reads : Reads g user id) : Needed g id

/-- The number of nodes not marked yet. -/
def unmarked (g : Graph) (live : NodeId → Bool) : Nat :=
  (List.range g.size).countP fun id => !live id

theorem unmarked_update {live : NodeId → Bool} {id : NodeId}
    (inside : id < g.size) (unknown : live id = false) :
    unmarked g (Function.update live id true) + 1 = unmarked g live := by
  have split : List.range g.size =
      List.range id ++ id :: (List.range (g.size - (id + 1))).map
        (id + 1 + ·) := by
    have sizes : g.size = id + 1 + (g.size - (id + 1)) :=
      (Nat.add_sub_of_le inside).symm
    rw [List.append_cons, ← List.range_succ, ← List.range_add, ← sizes]
  have apart (other : NodeId) (differs : other ≠ id) :
      Function.update live id true other = live other :=
    Function.update_of_ne differs _ _
  simp only [unmarked, split, List.countP_append, List.countP_cons,
    List.countP_map, Function.update_self, unknown]
  have low : (List.range id).countP
      (fun other => !Function.update live id true other) =
      (List.range id).countP fun other => !live other := by
    refine List.countP_congr fun other member => ?_
    rw [apart other (Nat.ne_of_lt (List.mem_range.mp member))]
  have high : (List.range (g.size - (id + 1))).countP
      ((fun other => !Function.update live id true other) ∘ (id + 1 + ·)) =
      (List.range (g.size - (id + 1))).countP
        ((fun other => !live other) ∘ (id + 1 + ·)) := by
    refine List.countP_congr fun other _ => ?_
    have differs : id + 1 + other ≠ id := by
      rw [Nat.add_assoc]
      exact Nat.ne_of_gt (Nat.lt_add_of_pos_right (by omega))
    simp only [Function.comp_apply, apart _ differs]
  rw [low, high]
  simp
  omega

/-- What marking the inputs `refs` of one node does to the worklist and the
marks. -/
structure Pushed (g : Graph) (refs : List NodeRef)
    (before after : List NodeId × (NodeId → Bool)) : Prop where
  mono : ∀ id, before.2 id = true → after.2 id = true
  kept : ∀ id ∈ before.1, id ∈ after.1
  pending : ∀ id ∈ after.1, id ∈ before.1 ∨ after.2 id = true
  fresh : ∀ id, after.2 id = true → before.2 id = true ∨
    id ∈ after.1 ∧ some id ∈ refs ∧ id < g.size ∧
      (g.node id).isDead = false
  reached : ∀ id, some id ∈ refs → id < g.size →
    (g.node id).isDead = false → after.2 id = true
  count : unmarked g after.2 + after.1.length =
    unmarked g before.2 + before.1.length

theorem markInput_pushed (progress : List NodeId × (NodeId → Bool))
    (ref : NodeRef) : Pushed g [ref] progress (markInput g progress ref) := by
  simp only [markInput]
  split
  case h_1 outside =>
    refine ⟨fun _ known => known, fun _ member => member,
      fun _ member => Or.inl member, fun _ known => Or.inl known, ?_, rfl⟩
    intro id member inside _
    have ranged : g.inRange ref = some id :=
      (g.inRange_some).mpr ⟨(List.mem_singleton.mp member).symm, inside⟩
    rw [outside] at ranged
    cases ranged
  case h_2 input found =>
    obtain ⟨rfl, inside⟩ := (g.inRange_some).mp found
    split
    case isTrue known =>
      refine ⟨fun _ known => known, fun _ member => member,
        fun _ member => Or.inl member, fun _ known => Or.inl known, ?_, rfl⟩
      intro id member _ alive
      cases List.mem_singleton.mp member
      simpa [alive] using known
    case isFalse unknown =>
      simp only [Bool.or_eq_true, not_or, Bool.not_eq_true] at unknown
      obtain ⟨alive, unmarkedYet⟩ := unknown
      refine ⟨?_, ?_, ?_, ?_, ?_, ?_⟩
      · intro id known
        by_cases same : id = input
        · simp [same]
        · simpa [same] using known
      · exact fun id member => List.mem_cons_of_mem _ member
      · intro id member
        rcases List.mem_cons.mp member with rfl | old
        · exact Or.inr (by simp)
        · exact Or.inl old
      · intro id known
        by_cases same : id = input
        · subst same
          exact Or.inr ⟨List.mem_cons_self, List.mem_singleton.mpr rfl, inside,
            alive⟩
        · exact Or.inl (by simpa [same] using known)
      · intro id member _ _
        cases List.mem_singleton.mp member
        simp
      · have fewer := unmarked_update inside unmarkedYet
        simp only [List.length_cons]
        omega

theorem markInputs_pushed (refs : List NodeRef)
    (progress : List NodeId × (NodeId → Bool)) :
    Pushed g refs progress (refs.foldl (markInput g) progress) := by
  induction refs generalizing progress with
  | nil =>
      exact ⟨fun _ known => known, fun _ member => member,
        fun _ member => Or.inl member, fun _ known => Or.inl known,
        nofun, rfl⟩
  | cons ref refs ih =>
      have first := markInput_pushed (g := g) progress ref
      have rest := ih (markInput g progress ref)
      rw [List.foldl_cons]
      refine ⟨?_, ?_, ?_, ?_, ?_, ?_⟩
      · exact fun id known => rest.mono id (first.mono id known)
      · exact fun id member => rest.kept id (first.kept id member)
      · intro id member
        rcases rest.pending id member with middle | known
        · exact (first.pending id middle).imp_right (rest.mono id)
        · exact Or.inr known
      · intro id known
        rcases rest.fresh id known with middle | ⟨work, member, alive⟩
        · refine (first.fresh id middle).imp_right ?_
          rintro ⟨work, member, alive⟩
          cases List.mem_singleton.mp member
          exact ⟨rest.kept id work, List.mem_cons_self, alive⟩
        · exact Or.inr ⟨work, List.mem_cons_of_mem _ member, alive⟩
      · intro id member inside alive
        rcases List.mem_cons.mp member with rfl | later
        · exact rest.mono id (first.reached id (List.mem_singleton.mpr rfl)
            inside alive)
        · exact rest.reached id later inside alive
      · rw [rest.count, first.count]

/-- Every mark is needed, and the inputs of every marked node that is off the
worklist are marked. -/
structure Marking (g : Graph) (work : List NodeId) (live : NodeId → Bool) :
    Prop where
  sound : ∀ id, live id = true → Needed g id
  pending : ∀ id ∈ work, live id = true
  closed : ∀ id, live id = true → id ∉ work →
    ∀ input, Reads g id input → live input = true

theorem Marking.step {id : NodeId} {work : List NodeId}
    {live : NodeId → Bool} (marking : Marking g (id :: work) live)
    {progress : List NodeId × (NodeId → Bool)}
    (pushed : Pushed g (g.node id).inputs (work, live) progress) :
    Marking g progress.1 progress.2 := by
  have here : live id = true := marking.pending id List.mem_cons_self
  constructor
  · intro other known
    rcases pushed.fresh other known with old | ⟨_, member, inside, alive⟩
    · exact marking.sound other old
    · exact .input (marking.sound id here) ⟨member, inside, alive⟩
  · intro other member
    rcases pushed.pending other member with old | known
    · exact pushed.mono other
        (marking.pending other (List.mem_cons_of_mem _ old))
    · exact known
  · intro other known off input reads
    by_cases same : other = id
    · subst same
      exact pushed.reached input reads.1 reads.2.1 reads.2.2
    · have old : live other = true :=
        (pushed.fresh other known).resolve_right fun fresh => off fresh.1
      have outside : other ∉ id :: work := by
        rw [List.mem_cons, not_or]
        exact ⟨same, fun member => off (pushed.kept other member)⟩
      exact pushed.mono input (marking.closed other old outside input reads)

/-- The run of the worklist: with a unit of fuel for every node that can still
be popped, what is marked is exactly closed. -/
theorem Marking.run {fuel : Nat} {work : List NodeId} {live : NodeId → Bool}
    (marking : Marking g work live)
    (enough : unmarked g live + work.length < fuel) :
    Marking g [] (mark g fuel work live) ∧
      ∀ id, live id = true → mark g fuel work live id = true := by
  induction fuel generalizing work live with
  | zero => omega
  | succ fuel ih =>
      cases work with
      | nil => exact ⟨marking, fun _ known => known⟩
      | cons id work =>
          have pushed := markInputs_pushed (g := g) (g.node id).inputs
            (work, live)
          have count := pushed.count
          simp only [List.length_cons] at enough
          simp only at count
          obtain ⟨final, mono⟩ := ih (marking.step pushed) (by omega)
          exact ⟨final, fun other known =>
            mono other (pushed.mono other known)⟩

theorem unmarked_roots (roots : List NodeId) (nodup : roots.Nodup)
    (inside : ∀ id ∈ roots, id < g.size) :
    unmarked g (fun id => roots.contains id) + roots.length ≤ g.size := by
  have split := List.length_eq_countP_add_countP (l := List.range g.size)
    (fun id => roots.contains id)
  have marked : (List.range g.size).countP (fun id => roots.contains id) =
      roots.length := by
    rw [List.countP_eq_length_filter]
    refine List.Perm.length_eq ?_
    rw [List.perm_ext_iff_of_nodup (List.nodup_range.filter _) nodup]
    intro id
    simp only [List.mem_filter, List.mem_range, List.contains_iff_mem]
    exact ⟨And.right, fun member => ⟨inside id member, member⟩⟩
  rw [List.length_range, marked] at split
  simp only [unmarked, Bool.not_eq_true] at split ⊢
  have same : (List.range g.size).countP (fun id => !roots.contains id) =
      (List.range g.size).countP
        (fun id => decide (roots.contains id = false)) :=
    List.countP_congr fun id _ => by simp
  omega

/-- Exactly the needed nodes are marked. -/
theorem liveNodes_iff (id : NodeId) : liveNodes g id = true ↔ Needed g id := by
  let roots := (List.range g.size).filter (isRoot g)
  have isRootOf (id : NodeId) : roots.contains id = true ↔
      id < g.size ∧ isRoot g id = true := by
    simp [roots]
  have marking : Marking g roots.reverse fun id => roots.contains id := by
    constructor
    · intro id known
      obtain ⟨inside, root⟩ := (isRootOf id).mp known
      exact .root inside root
    · intro id member
      exact List.contains_iff_mem.mpr (List.mem_reverse.mp member)
    · intro id known off
      exact absurd (List.mem_reverse.mpr (List.contains_iff_mem.mp known)) off
  have enough : unmarked g (fun id => roots.contains id) +
      roots.reverse.length < g.size + 1 := by
    have bound := unmarked_roots (g := g) roots (List.nodup_range.filter _)
      fun id member => ((isRootOf id).mp (List.contains_iff_mem.mpr member)).1
    rw [List.length_reverse]
    omega
  obtain ⟨final, mono⟩ := marking.run enough
  constructor
  · exact final.sound id
  · intro needed
    induction needed with
    | root inside root =>
        exact mono _ ((isRootOf _).mpr ⟨inside, root⟩)
    | input needed reads ih =>
        exact final.closed _ ih (by simp) _ reads

/-- The progress of the sweep: the nodes below `bound` are flagged, the others
are still as they were. -/
structure Swept (g : Graph) (bound : Nat) (h : Graph) : Prop where
  size : h.size = g.size
  below : ∀ id : Nat, id < bound → id ≠ kStartNodeId →
    ((h.node id).isDead = false ↔
      (g.node id).isDead = false ∧ liveNodes g id = true)
  above : ∀ id : Nat, bound ≤ id → h.node id = g.node id

theorem Swept.step {bound removed : Nat} {h : Graph}
    (swept : Swept g bound h) (inside : bound < g.size) :
    Swept g (bound + 1) (sweepNode (liveNodes g) (h, removed) bound).1 := by
  have here := swept.above bound le_rfl
  have within : bound < h.size := swept.size ▸ inside
  have flagged (bit : NodeFlagBit)
      (verdict : (g.node bound).isDead = false →
        ((((g.node bound).setFlag bit).isDead = false) ↔
          liveNodes g bound = true))
      (alive : (g.node bound).isDead = false) :
      Swept g (bound + 1) (h.setFlag bound bit) := by
    constructor
    · rw [Graph.setFlag_size, swept.size]
    · intro id low notStart
      rw [Graph.setFlag_node]
      by_cases same : id = bound
      · subst same
        rw [if_pos ⟨rfl, within⟩, here, verdict alive]
        simp [alive]
      · rw [if_neg (fun both => same both.1)]
        exact swept.below id (by omega) notStart
    · intro id high
      have differs : id ≠ bound := by omega
      rw [Graph.setFlag_node, if_neg (fun both => differs both.1)]
      exact swept.above id (by omega)
  have unchanged
      (verdict : bound ≠ kStartNodeId → (g.node bound).isDead = true) :
      Swept g (bound + 1) h := by
    refine ⟨swept.size, ?_, fun id high => swept.above id (by omega)⟩
    intro id low notStart
    by_cases same : id = bound
    · subst same
      rw [here]
      simp [verdict notStart]
    · exact swept.below id (by omega) notStart
  simp only [sweepNode]
  split
  case isTrue start => exact unchanged fun notStart => absurd start notStart
  case isFalse notStart =>
    rw [here]
    split
    case isTrue dead => exact unchanged fun _ => dead
    case isFalse alive =>
      rw [Bool.not_eq_true] at alive
      split
      case isTrue live =>
        exact flagged .isLive
          (fun _ => by simp [Node.isDead_setFlag, alive, live]) alive
      case isFalse dead =>
        exact flagged .isDead
          (fun _ => by simp [Node.isDead_setFlag, dead]) alive

/-- Apart from the start node, exactly the live nodes that some root needs
stay alive. -/
theorem run_alive_iff {id : NodeId} (inside : id < g.size)
    (notStart : id ≠ kStartNodeId) :
    ((run g).1.node id).isDead = false ↔
      (g.node id).isDead = false ∧ Needed g id := by
  have progress (bound : Nat) (within : bound ≤ g.size) :
      Swept g bound
        ((List.range bound).foldl (sweepNode (liveNodes g)) (g, 0)).1 := by
    induction bound with
    | zero => exact ⟨rfl, nofun, fun _ _ => rfl⟩
    | succ bound ih =>
        rw [List.range_succ, List.foldl_append]
        exact (ih (Nat.le_of_succ_le within)).step within
  rw [run, (progress g.size le_rfl).below id inside notStart, liveNodes_iff]

end Edce

end Aegis
