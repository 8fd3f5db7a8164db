import AegisCompiler.FirstAlike
import AegisCompiler.HashConsing
import Mathlib.Data.List.GetD

/-!
# Global value numbering

One scan over the nodes records the first live pure node of every key and
redirects the others with the same key to it.  A second scan rewires inputs, and a
third one marks the redirected nodes dead.
-/

namespace Aegis

namespace Gvn

open FirstAlike (firstWith earlier)

/-- The key of a live pure node other than a parameter. -/
def gvnKey (g : Graph) (id : NodeId) : Option HashKey :=
  let n := g.node id
  if n.isDead then none
  else if !n.isPure then none
  else if n.kind = .parameter then none
  else some ⟨n.kind, n.typeId, n.payload, hashInputs n.dataIns⟩

/-- The table of keys, the targets of redirected nodes, and how many there are. -/
structure Numbering where
  table : HashCons := []
  rewriteMap : List NodeRef
  replaced : Nat := 0

/-- Number one node. -/
def numberNode (g : Graph) (numbering : Numbering) (id : NodeId) : Numbering :=
  match gvnKey g id with
  | none => numbering
  | some key =>
      match numbering.table.find key with
      | some existing =>
          { numbering with
            rewriteMap := numbering.rewriteMap.set id (some existing)
            replaced := numbering.replaced + 1 }
      | none => { numbering with table := numbering.table ++ [(key, id)] }

def numbering (g : Graph) : Numbering :=
  (List.range g.size).foldl (numberNode g) { rewriteMap := List.replicate g.size none }

/-- Redirect one input slot. -/
def rewriteSlot (rewriteMap : List NodeRef) (id : NodeId) (g : Graph) (slot : Nat) : Graph :=
  match (g.node id).inputs.getD slot none with
  | none => g
  | some input =>
      match rewriteMap.getD input none with
      | none => g
      | some target => g.setInput id slot (some target)

def rewriteNode (rewriteMap : List NodeRef) (g : Graph) (id : NodeId) : Graph :=
  if (g.node id).isDead then g
  else (List.range (g.node id).inputs.length).foldl (rewriteSlot rewriteMap id) g

/-- Mark a redirected node dead. -/
def markNode (rewriteMap : List NodeRef) (g : Graph) (id : NodeId) : Graph :=
  if rewriteMap.getD id none = none then g else g.markDead id

/-- The pass: the new graph, and how many nodes were redirected. -/
def run (g : Graph) : Graph × Nat :=
  let numbered := numbering g
  if numbered.replaced = 0 then (g, 0)
  else
    let ids := List.range g.size
    (ids.foldl (markNode numbered.rewriteMap)
      (ids.foldl (rewriteNode numbered.rewriteMap) g), numbered.replaced)

theorem find_append (table : HashCons) (key : HashKey) (id : NodeId) (other : HashKey) :
    HashCons.find (table ++ [(key, id)]) other =
      (table.find other).or (if key = other then some id else none) := by
  rw [HashCons.find, List.find?_append, List.find?_singleton, HashCons.find]
  simp only [decide_eq_true_eq]
  cases List.find? (fun entry => decide (entry.1 = other)) table with
  | some entry => rfl
  | none =>
      rw [Option.none_or]
      split <;> rfl

/-- The scan has numbered the nodes below a bound. -/
structure Numbered (g : Graph) (bound : Nat) (numbering : Numbering) : Prop where
  table : ∀ key, numbering.table.find key = firstWith (gvnKey g) bound key
  rewriteMap : numbering.rewriteMap =
    (List.range bound).map (earlier (gvnKey g)) ++ List.replicate (g.size - bound) none
  replaced : numbering.replaced =
    ((List.range bound).filter fun id => (earlier (gvnKey g) id).isSome).length

theorem Numbered.step {g : Graph} {bound : Nat} {numbering : Numbering}
    (numbered : Numbered g bound numbering) (inside : bound < g.size) :
    Numbered g (bound + 1) (numberNode g numbering bound) := by
  obtain ⟨table, rewriteMap, replaced⟩ := numbered
  have room : List.replicate (g.size - bound) (none : NodeRef) =
      none :: List.replicate (g.size - (bound + 1)) none := by
    rw [← List.replicate_succ]
    congr 1
    omega
  have kept (unchanged : earlier (gvnKey g) bound = none) : numbering.rewriteMap =
      (List.range (bound + 1)).map (earlier (gvnKey g)) ++
        List.replicate (g.size - (bound + 1)) none := by
    rw [rewriteMap, room, List.range_succ, List.map_append, List.map_singleton, unchanged,
      List.append_assoc]
    rfl
  have same (unchanged : earlier (gvnKey g) bound = none) : numbering.replaced =
      ((List.range (bound + 1)).filter fun id => (earlier (gvnKey g) id).isSome).length := by
    rw [replaced, List.range_succ, List.filter_append]
    simp [unchanged]
  unfold numberNode
  split
  case h_1 skipped =>
    have unchanged : earlier (gvnKey g) bound = none := by rw [earlier, skipped]; rfl
    refine ⟨fun key => ?_, kept unchanged, same unchanged⟩
    rw [table, FirstAlike.firstWith_succ, skipped]
    simp
  case h_2 key found =>
    have target : earlier (gvnKey g) bound = numbering.table.find key := by
      rw [earlier, found, table]
      rfl
    split
    case h_1 existing isFirst =>
      refine ⟨fun other => ?_, ?_, ?_⟩
      · rw [table, FirstAlike.firstWith_succ, found]
        by_cases here : key = other
        · subst here
          rw [table] at isFirst
          rw [isFirst]
          rfl
        · simp [here]
      · have length : ((List.range bound).map (earlier (gvnKey g))).length = bound := by simp
        change numbering.rewriteMap.set bound (some existing) = _
        rw [rewriteMap, room, List.set_append_right _ _ (Nat.le_of_eq length), length,
          Nat.sub_self, List.set_cons_zero, List.range_succ, List.map_append,
          List.map_singleton, target, isFirst, List.append_assoc, List.singleton_append]
      · rw [replaced, List.range_succ, List.filter_append]
        simp [target, isFirst]
    case h_2 absent =>
      have unchanged : earlier (gvnKey g) bound = none := target.trans absent
      refine ⟨fun other => ?_, kept unchanged, same unchanged⟩
      rw [find_append, table, FirstAlike.firstWith_succ, found]
      simp only [Option.some.injEq]

theorem numbering_numbered (g : Graph) : Numbered g g.size (numbering g) := by
  have start : Numbered g 0 { rewriteMap := List.replicate g.size none } :=
    ⟨fun _ => rfl, rfl, rfl⟩
  have each (bound : Nat) (inside : bound ≤ g.size) :
      Numbered g bound ((List.range bound).foldl (numberNode g)
        { rewriteMap := List.replicate g.size none }) := by
    induction bound with
    | zero => exact start
    | succ bound ih =>
        rw [List.range_succ, List.foldl_append, List.foldl_cons, List.foldl_nil]
        exact (ih (Nat.le_of_succ_le inside)).step inside
  exact each g.size le_rfl

/-- A node is redirected to the first one with its key. -/
theorem redirected_iff {g : Graph} {id target : NodeId} :
    (numbering g).rewriteMap.getD id none = some target ↔
      id < g.size ∧ earlier (gvnKey g) id = some target := by
  rw [(numbering_numbered g).rewriteMap, Nat.sub_self, List.replicate_zero, List.append_nil]
  by_cases inside : id < g.size
  · simp [inside]
  · simp [inside]

/-- The nodes that value numbering looks at. -/
def IsNumbered (g : Graph) (id : NodeId) : Prop :=
  id < g.size ∧ (g.node id).isDead = false ∧ (g.node id).isPure = true ∧
    (g.node id).kind ≠ .parameter

/-- The same computation. -/
def Alike (n m : Node) : Prop :=
  n.kind = m.kind ∧ n.typeId = m.typeId ∧ n.payload = m.payload ∧ n.inputs = m.inputs

theorem alike_equivalence (g : Graph) :
    Equivalence fun id other => Alike (g.node id) (g.node other) where
  refl _ := ⟨rfl, rfl, rfl, rfl⟩
  symm same := ⟨same.1.symm, same.2.1.symm, same.2.2.1.symm, same.2.2.2.symm⟩
  trans first second := ⟨first.1.trans second.1, first.2.1.trans second.2.1,
    first.2.2.1.trans second.2.2.1, first.2.2.2.trans second.2.2.2⟩

/-- The key of a node of the graph. -/
def insideKey (g : Graph) (id : NodeId) : Option HashKey :=
  if id < g.size then gvnKey g id else none

theorem insideKey_eq_some {g : Graph} {id : NodeId} {key : HashKey} :
    insideKey g id = some key ↔ IsNumbered g id ∧
      key = ⟨(g.node id).kind, (g.node id).typeId, (g.node id).payload,
        hashInputs (g.node id).inputs⟩ := by
  unfold insideKey gvnKey IsNumbered
  split
  case isFalse outside => simp [outside]
  case isTrue inside =>
    cases dead : (g.node id).isDead
    case true => simp [dead]
    case false =>
      cases pure : (g.node id).isPure
      case false => simp [dead, pure]
      case true =>
        by_cases parameter : (g.node id).kind = .parameter
        · simp [dead, pure, parameter]
        · have data : (g.node id).dataIns = (g.node id).inputs := by
            rw [Node.dataIns, if_pos pure]
          simp [dead, pure, parameter, inside, data, eq_comm]

theorem redirected_iff_insideKey {g : Graph} {id target : NodeId} :
    (numbering g).rewriteMap.getD id none = some target ↔
      earlier (insideKey g) id = some target := by
  rw [redirected_iff]
  by_cases inside : id < g.size
  · have same : earlier (insideKey g) id = earlier (gvnKey g) id :=
      FirstAlike.earlier_congr fun other le => if_pos (Nat.lt_of_le_of_lt le inside)
    rw [same]
    exact and_iff_right inside
  · have none : earlier (insideKey g) id = none := by
      rw [earlier, insideKey, if_neg inside]
      rfl
    rw [none]
    constructor
    · intro redirected
      exact absurd redirected.1 inside
    · intro found
      exact absurd found.symm (Option.some_ne_none target)

/-- Numbered nodes that differ in their inputs alone have different hashes. -/
def HashesApart (g : Graph) : Prop :=
  ∀ id other, IsNumbered g id → IsNumbered g other →
    (g.node id).kind = (g.node other).kind → (g.node id).typeId = (g.node other).typeId →
      (g.node id).payload = (g.node other).payload →
        hashInputs (g.node id).inputs = hashInputs (g.node other).inputs →
          (g.node id).inputs = (g.node other).inputs

/-- The node that stands for a node after the pass. -/
def target (g : Graph) : NodeId → NodeId := FirstAlike.canonical (insideKey g)

/-- A redirected node is dead, and every live node has the targets as inputs. -/
def rewritten (g : Graph) (id : NodeId) : Node :=
  let n := g.node id
  if n.isDead then n
  else
    let n := { n with inputs := n.inputs.map (Option.map (target g)) }
    if target g id = id then n else n.setFlag .isDead

section Edits

variable {g : Graph} {rewriteMap : List NodeRef} {redirect : NodeId → NodeId}

theorem rewriteSlot_node (map : ∀ id, (rewriteMap.getD id none).getD id = redirect id)
    (id slot other : NodeId) :
    (rewriteSlot rewriteMap id g slot).node other =
      if other = id then
        { g.node other with
          inputs := (g.node other).inputs.set slot
            (((g.node other).inputs.getD slot none).map redirect) }
      else g.node other := by
  have same (value : NodeRef) (unchanged : value.map redirect = value)
      (read : (g.node id).inputs.getD slot none = value) : g.node other =
        if other = id then
          { g.node other with
            inputs := (g.node other).inputs.set slot
              (((g.node other).inputs.getD slot none).map redirect) }
        else g.node other := by
    split
    case isTrue here =>
      subst here
      rw [read, unchanged, ← read, Graph.set_getD_self]
    case isFalse => rfl
  unfold rewriteSlot
  split
  case h_1 absent => exact same none rfl absent
  case h_2 input read =>
    have target := map input
    split
    case h_1 absent =>
      rw [absent, Option.getD_none] at target
      exact same (some input) (congrArg some target.symm) read
    case h_2 new found =>
      rw [found, Option.getD_some] at target
      rw [Graph.setInput_node]
      split
      case isTrue here =>
        subst here
        rw [read, Option.map_some, target]
      case isFalse => rfl

theorem rewriteSlot_size (id slot : NodeId) :
    (rewriteSlot rewriteMap id g slot).size = g.size := by
  unfold rewriteSlot
  split
  · rfl
  · split
    · rfl
    · exact Graph.setInput_size _ _ _ _

/-- The slots below a bound are rewritten. -/
theorem rewriteSlots_node (map : ∀ id, (rewriteMap.getD id none).getD id = redirect id)
    (id bound other : NodeId) (inside : bound ≤ (g.node id).inputs.length) :
    ((List.range bound).foldl (rewriteSlot rewriteMap id) g).node other =
      if other = id then
        { g.node other with
          inputs := ((g.node other).inputs.take bound).map (Option.map redirect) ++
              (g.node other).inputs.drop bound }
      else g.node other := by
  induction bound with
  | zero =>
      simp only [List.range_zero, List.foldl_nil, List.take_zero, List.map_nil,
        List.nil_append, List.drop_zero, ite_self]
  | succ bound ih =>
      rw [List.range_succ, List.foldl_append, List.foldl_cons, List.foldl_nil,
        rewriteSlot_node map, ih (Nat.le_of_succ_le inside)]
      split
      case isTrue here =>
        subst here
        have length : (((g.node other).inputs.take bound).map (Option.map redirect)).length =
            bound := by
          rw [List.length_map, List.length_take]
          exact Nat.min_eq_left (Nat.le_of_succ_le inside)
        have slot : (g.node other).inputs.drop bound =
            (g.node other).inputs[bound] :: (g.node other).inputs.drop (bound + 1) :=
          List.drop_eq_getElem_cons inside
        simp only [slot]
        congr 1
        rw [List.set_append_right _ _ (Nat.le_of_eq length), List.getD_append_right _ _ _ _
          (Nat.le_of_eq length), length, Nat.sub_self, List.set_cons_zero, List.getD_cons_zero,
          List.take_succ_eq_append_getElem inside, List.map_append, List.append_assoc]
        rfl
      case isFalse => rfl

theorem rewriteNode_node (map : ∀ id, (rewriteMap.getD id none).getD id = redirect id)
    (id other : NodeId) :
    (rewriteNode rewriteMap g id).node other =
      if other = id ∧ (g.node other).isDead = false then
        { g.node other with inputs := (g.node other).inputs.map (Option.map redirect) }
      else g.node other := by
  unfold rewriteNode
  split
  case isTrue dead =>
    rw [if_neg]
    rintro ⟨rfl, live⟩
    rw [dead] at live
    cases live
  case isFalse live =>
    rw [rewriteSlots_node map id _ other le_rfl]
    by_cases here : other = id
    · subst here
      simp [live]
    · simp [here]

theorem rewriteNodes_node (map : ∀ id, (rewriteMap.getD id none).getD id = redirect id)
    (bound other : NodeId) :
    ((List.range bound).foldl (rewriteNode rewriteMap) g).node other =
      if other < bound ∧ (g.node other).isDead = false then
        { g.node other with inputs := (g.node other).inputs.map (Option.map redirect) }
      else g.node other := by
  induction bound with
  | zero => simp
  | succ bound ih =>
      rw [List.range_succ, List.foldl_append, List.foldl_cons, List.foldl_nil,
        rewriteNode_node map, ih]
      rcases Nat.lt_trichotomy other bound with below | rfl | above
      · have differs : other ≠ bound := Nat.ne_of_lt below
        simp [below, differs, Nat.lt_succ_of_lt below]
      · simp
      · have differs : other ≠ bound := Nat.ne_of_gt above
        have outside : ¬ other < bound := Nat.lt_asymm above
        have outside' : ¬ other < bound + 1 := Nat.not_lt_of_le above
        simp [differs, outside, outside']

theorem markNodes_node (bound other : NodeId) (inside : bound ≤ g.size) :
    ((List.range bound).foldl (markNode rewriteMap) g).size = g.size ∧
      ((List.range bound).foldl (markNode rewriteMap) g).node other =
        if other < bound ∧ rewriteMap.getD other none ≠ none then
          (g.node other).setFlag .isDead
        else g.node other := by
  induction bound with
  | zero => simp
  | succ bound ih =>
      obtain ⟨size, node⟩ := ih (Nat.le_of_succ_le inside)
      rw [List.range_succ, List.foldl_append, List.foldl_cons, List.foldl_nil]
      generalize (List.range bound).foldl (markNode rewriteMap) g = marked at size node
      unfold markNode
      split
      case isTrue absent =>
        refine ⟨size, node.trans ?_⟩
        by_cases here : other = bound
        · subst here
          simp only [absent, ne_eq, not_true_eq_false, and_false]
        · have same : other < bound + 1 ↔ other < bound :=
            ⟨fun below => Nat.lt_of_le_of_ne (Nat.le_of_lt_succ below) here, Nat.lt_succ_of_lt⟩
          simp only [same]
      case isFalse found =>
        refine ⟨(Graph.modifyNode_size _ _ _).trans size, ?_⟩
        rw [Graph.markDead, Graph.setFlag, Graph.modifyNode_node, size, node]
        by_cases here : other = bound
        · subst here
          have member : other < g.size := inside
          simp only [member, and_self, if_true, Nat.lt_irrefl, false_and, if_false,
            Nat.lt_succ_self, ne_eq, found, not_false_eq_true]
        · have same : other < bound + 1 ↔ other < bound :=
            ⟨fun below => Nat.lt_of_le_of_ne (Nat.le_of_lt_succ below) here, Nat.lt_succ_of_lt⟩
          simp only [here, false_and, if_false, same]

theorem rewriteNode_size (id : NodeId) : (rewriteNode rewriteMap g id).size = g.size := by
  unfold rewriteNode
  split
  · rfl
  · generalize (g.node id).inputs.length = bound
    induction bound with
    | zero => rfl
    | succ bound ih =>
        rw [List.range_succ, List.foldl_append, List.foldl_cons, List.foldl_nil,
          rewriteSlot_size, ih]

theorem rewriteNodes_size (bound : NodeId) :
    ((List.range bound).foldl (rewriteNode rewriteMap) g).size = g.size := by
  induction bound with
  | zero => rfl
  | succ bound ih =>
      rw [List.range_succ, List.foldl_append, List.foldl_cons, List.foldl_nil,
        rewriteNode_size, ih]

end Edits

theorem rewriteMap_eq (g : Graph) (id : NodeId) :
    (numbering g).rewriteMap.getD id none = earlier (insideKey g) id :=
  Option.ext fun _ => redirected_iff_insideKey

/-- A run that redirects nothing leaves every node to itself. -/
theorem replaced_eq_zero_iff {g : Graph} :
    (numbering g).replaced = 0 ↔ ∀ id, target g id = id := by
  have inside {id : NodeId} (member : id < g.size) :
      earlier (gvnKey g) id = earlier (insideKey g) id :=
    FirstAlike.earlier_congr fun other le => (if_pos (Nat.lt_of_le_of_lt le member)).symm
  rw [(numbering_numbered g).replaced, List.length_eq_zero_iff, List.filter_eq_nil_iff]
  constructor
  · intro none id
    by_contra moved
    have found := FirstAlike.earlier_isSome_iff.mpr moved
    by_cases member : id < g.size
    · rw [← inside member] at found
      exact none id (List.mem_range.mpr member) found
    · rw [earlier, insideKey, if_neg member] at found
      cases found
  · intro each id member found
    rw [inside (List.mem_range.mp member)] at found
    exact FirstAlike.earlier_isSome_iff.mp found (each id)

theorem rewritten_of_target {g : Graph} (each : ∀ id, target g id = id) (id : NodeId) :
    rewritten g id = g.node id := by
  have same : target g = fun id => id := funext each
  have slots : Option.map (target g) = fun slot => slot := by
    rw [same]
    exact Option.map_id
  simp only [rewritten, slots, List.map_id', each, if_true, ite_self]

theorem run_fst_node (g : Graph) (id : NodeId) : (run g).1.node id = rewritten g id := by
  by_cases quiet : (numbering g).replaced = 0
  · rw [run, if_pos quiet]
    exact (rewritten_of_target (replaced_eq_zero_iff.mp quiet) id).symm
  · have map (id : NodeId) : ((numbering g).rewriteMap.getD id none).getD id = target g id := by
      rw [rewriteMap_eq]
      rfl
    have size := @rewriteNodes_size g (numbering g).rewriteMap g.size
    have marked := (@markNodes_node _ (numbering g).rewriteMap g.size id
      (Nat.le_of_eq size.symm)).2
    have redirected : (numbering g).rewriteMap.getD id none ≠ none ↔ target g id ≠ id := by
      rw [rewriteMap_eq, ← Option.isSome_iff_ne_none]
      exact FirstAlike.earlier_isSome_iff
    rw [run, if_neg quiet]
    change Graph.node (List.foldl _ _ _) id = _
    rw [marked, rewriteNodes_node map]
    simp only [redirected]
    by_cases numbered : id < g.size ∧ (g.node id).isDead = false
    · simp only [rewritten, numbered, true_and, Bool.false_eq_true, if_false, and_self, if_true]
      by_cases moved : target g id = id <;> simp [moved]
    · have kept : target g id = id := by
        apply FirstAlike.canonical_of_none
        cases key : insideKey g id with
        | none => rfl
        | some k =>
            have member := (insideKey_eq_some.mp key).1
            exact absurd ⟨member.1, member.2.1⟩ numbered
      rw [if_neg fun both => both.2 kept, if_neg numbered]
      by_cases inside : id < g.size
      · have dead : (g.node id).isDead = true := by simpa [inside] using numbered
        rw [rewritten, if_pos dead]
      · rw [rewritten, kept, g.node_of_size_le (Nat.le_of_not_lt inside)]
        simp only [if_true, Node.default_inputs, List.map_nil]
        exact (ite_self _).symm

theorem run_fst_size (g : Graph) : (run g).1.size = g.size := by
  by_cases quiet : (numbering g).replaced = 0
  · rw [run, if_pos quiet]
  · rw [run, if_neg quiet]
    have size := @rewriteNodes_size g (numbering g).rewriteMap g.size
    exact (markNodes_node g.size 0 (Nat.le_of_eq size.symm)).1.trans size

/-- A run that redirects nothing leaves the graph as it is. -/
theorem run_of_unchanged {g : Graph} (unchanged : (run g).2 = 0) : (run g).1 = g := by
  by_cases quiet : (numbering g).replaced = 0
  · rw [run, if_pos quiet]
  · rw [run, if_neg quiet] at unchanged
    exact absurd unchanged quiet

end Gvn

end Aegis
