import AegisCompiler.LoweringInduction
import AegisCompiler.UseLists

/-!
# What lowering leaves untouched

Lowering any tree extends the graph without touching the nodes it found.  Its
table of operations names nodes of the recorded kinds, and the bindings refer
to the graph.
-/

namespace Aegis

namespace Lowerer

/-- The graph extends an earlier one without touching its nodes. -/
structure Extends (base g : Graph) : Prop where
  size : base.size ≤ g.size
  node : ∀ id : Nat, id < base.size → g.node id = base.node id

theorem Extends.refl (g : Graph) : Extends g g := ⟨le_rfl, fun _ _ => rfl⟩

/-- Every recorded operation is a node of the recorded kind. -/
def TableKinds (g : Graph) (table : HashCons) : Prop :=
  ∀ entry ∈ table, entry.2 < g.size ∧ (g.node entry.2).kind = entry.1.kind

/-- The reference is unset or a node of the graph. -/
def InsideGraph (g : Graph) (ref : NodeRef) : Prop :=
  ∀ id : Nat, ref = some id → id < g.size

/-- The table and the bindings of the state refer to its graph. -/
structure Sane (s : LowerState) : Prop where
  table : TableKinds s.graph s.table
  bound : ∀ entry ∈ s.bindings, InsideGraph s.graph entry.2

/-- Lowering extends the graph, rewires only what it added, and keeps names
bound. -/
def framed (base : Graph) (bindings : Bindings) : LowerInvariant where
  holds g table := Extends base g ∧ TableKinds g table
  usable := InsideGraph
  own id := base.size ≤ id
  names name := ∃ entry ∈ bindings, entry.1 = name
  tracked := False

theorem Extends.push {base g : Graph} (extended : Extends base g) (n : Node) :
    Extends base (g.pushNode n).2 where
  size := by
    rw [Graph.pushNode_size]
    exact Nat.le_succ_of_le extended.size
  node id inside := by
    rw [g.pushNode_node_of_lt n (Nat.lt_of_lt_of_le inside extended.size)]
    exact extended.node id inside

theorem TableKinds.push {g : Graph} {table : HashCons}
    (kinds : TableKinds g table) (n : Node) :
    TableKinds (g.pushNode n).2 table := by
  intro entry member
  obtain ⟨inside, kind⟩ := kinds entry member
  rw [Graph.pushNode_size, g.pushNode_node_of_lt n inside]
  exact ⟨Nat.lt_succ_of_lt inside, kind⟩

theorem framed_closed (base : Graph) (bindings : Bindings) :
    (framed base bindings).Closed where
  unset _ _ := nofun
  push n holds _ _ := ⟨holds.1.push n, holds.2.push n⟩
  pushUsable {g _} n inside id same := by
    rw [Graph.pushNode_size]
    exact Nat.lt_succ_of_lt (inside id same)
  new {g _} n holds := by
    refine ⟨holds.1.size, fun id same => ?_⟩
    cases same
    rw [Graph.pushNode_size]
    exact Nat.lt_succ_self _
  record {g table} n key holds _ _ kind := by
    refine ⟨holds.1.push n, fun entry member => ?_⟩
    rcases List.mem_append.mp member with old | new
    · exact holds.2.push n entry old
    · cases List.mem_singleton.mp new
      rw [Graph.pushNode_size, g.pushNode_node_size n]
      exact ⟨Nat.lt_succ_self _, kind⟩
  found {g table key id} holds search other same := by
    obtain ⟨entry, found, rfl⟩ := Option.map_eq_some_iff.mp search
    cases same
    exact (holds.2 entry (List.mem_of_find?_eq_some found)).1
  rewire {g table id} slot ref holds own _ := by
    refine ⟨⟨?_, ?_⟩, ?_⟩
    · rw [Graph.setInput_size]
      exact holds.1.size
    · intro other inside
      have differ : other ≠ id := Nat.ne_of_lt (Nat.lt_of_lt_of_le inside own)
      rw [Graph.setInput_node, if_neg differ]
      exact holds.1.node other inside
    · intro entry member
      rw [Graph.setInput_size, Graph.setInput_node]
      have old := holds.2 entry member
      split <;> exact old
  rewireUsable slot ref inside id same := by
    rw [Graph.setInput_size]
    exact inside id same

/-- What a run from a sane state leads to. -/
structure Continues (s t : LowerState) : Prop where
  sane : Sane t
  extended : Extends s.graph t.graph
  named : ∀ entry ∈ s.bindings, ∃ other ∈ t.bindings, other.1 = entry.1

theorem Sane.continues {α : Type} {s t : LowerState} (sane : Sane s)
    {run : LowerM α} {post : α → LowerState → Prop}
    (keeps : KeepsAt (framed s.graph s.bindings) s run post) {value : α}
    (ran : run s = .ok value t) : Continues s t ∧ post value t := by
  have start : Good (framed s.graph s.bindings) s :=
    ⟨⟨Extends.refl _, sane.table⟩, sane.bound, fun _ named => named, nofun⟩
  have good := keeps.good start
  rw [finalState_ok ran] at good
  exact ⟨⟨⟨good.holds.2, good.bound⟩, good.holds.1, fun entry member =>
    good.named entry.1 ⟨entry, member, rfl⟩⟩, keeps.result start value t ran⟩

theorem Sane.lowerExpr {order : TableOrder} {n : Ast} {s t : LowerState}
    (sane : Sane s) {ref : NodeRef} (ran : lowerExpr order n s = .ok ref t) :
    Continues s t ∧ InsideGraph t.graph ref :=
  sane.continues ((framed_closed _ _).lowerExpr order n s) ran

theorem Sane.lowerStmt {order : TableOrder} {n : Ast} {s t : LowerState}
    (sane : Sane s) {u : Unit} (ran : lowerStmt order n s = .ok u t) :
    Continues s t :=
  (sane.continues ((framed_closed _ _).lowerStmt order n s) ran).1

/-- Every input names a node of the graph. -/
def InputsInside (g : Graph) : Prop :=
  ∀ id, ∀ ref ∈ (g.node id).inputs, InsideGraph g ref

/-- The nodes of the graph are as the lowerer makes them, and the first one is
the start node. -/
structure WellMade (g : Graph) : Prop where
  inside : InputsInside g
  made : ∀ id, Made (g.node id)
  nonempty : kStartNodeId < g.size
  start : (g.node kStartNodeId).kind = .start

/-- The graph is well made, and its table names nodes of the graph. -/
def enclosed : LowerInvariant where
  holds g table := WellMade g ∧ ∀ entry ∈ table, entry.2 < g.size
  usable := InsideGraph
  own _ := True
  names _ := False
  tracked := True

theorem InsideGraph.push {g : Graph} {ref : NodeRef} (inside : InsideGraph g ref)
    (n : Node) : InsideGraph (g.pushNode n).2 ref := by
  intro id same
  rw [Graph.pushNode_size]
  exact Nat.lt_succ_of_lt (inside id same)

theorem InputsInside.push {g : Graph} (inside : InputsInside g) {n : Node}
    (reads : ∀ ref ∈ n.inputs, InsideGraph g ref) :
    InputsInside (g.pushNode n).2 := by
  intro id ref member
  rw [Graph.pushNode_node] at member
  split at member
  · exact (reads ref member).push n
  · exact (inside id ref member).push n

theorem InputsInside.setInput {g : Graph} (inside : InputsInside g)
    (id : NodeId) (slot : Nat) {ref : NodeRef} (new : InsideGraph g ref) :
    InputsInside (g.setInput id slot ref) := by
  intro user other member input same
  rw [Graph.setInput_size]
  rw [Graph.setInput_node] at member
  split at member
  · rcases List.mem_or_eq_of_mem_set member with old | rfl
    · exact inside user other old input same
    · exact new input same
  · exact inside user other member input same

theorem WellMade.push {g : Graph} (well : WellMade g) {n : Node} (made : Made n)
    (reads : ∀ ref ∈ n.inputs, InsideGraph g ref) :
    WellMade (g.pushNode n).2 where
  inside := well.inside.push reads
  made id := by
    rw [Graph.pushNode_node]
    split
    · exact made
    · exact well.made id
  nonempty := by
    rw [Graph.pushNode_size]
    exact Nat.lt_succ_of_lt well.nonempty
  start := by
    rw [g.pushNode_node_of_lt n well.nonempty]
    exact well.start

theorem WellMade.setInput {g : Graph} (well : WellMade g) (id : NodeId)
    (slot : Nat) {ref : NodeRef} (new : InsideGraph g ref) :
    WellMade (g.setInput id slot ref) where
  inside := well.inside.setInput id slot new
  made other := by
    rw [Graph.setInput_node]
    split
    · exact ⟨(well.made other).effect, (well.made other).flags⟩
    · exact well.made other
  nonempty := by
    rw [Graph.setInput_size]
    exact well.nonempty
  start := by
    rw [Graph.setInput_node]
    split <;> exact well.start

theorem enclosed_closed : enclosed.Closed where
  unset _ _ := nofun
  push {g _} n holds made reads := by
    refine ⟨holds.1.push made (reads trivial), fun entry member => ?_⟩
    rw [Graph.pushNode_size]
    exact Nat.lt_succ_of_lt (holds.2 entry member)
  pushUsable n inside := InsideGraph.push inside n
  new {g _} n _ := by
    refine ⟨trivial, fun id same => ?_⟩
    cases same
    rw [Graph.pushNode_size]
    exact Nat.lt_succ_self _
  record {g table} n key holds made reads _ := by
    refine ⟨holds.1.push made (reads trivial), fun entry member => ?_⟩
    rw [Graph.pushNode_size]
    rcases List.mem_append.mp member with old | new
    · exact Nat.lt_succ_of_lt (holds.2 entry old)
    · cases List.mem_singleton.mp new
      exact Nat.lt_succ_self _
  found {g table key id} holds search other same := by
    obtain ⟨entry, found, rfl⟩ := Option.map_eq_some_iff.mp search
    cases same
    exact holds.2 entry (List.mem_of_find?_eq_some found)
  rewire {g table id} slot ref holds _ reads := by
    have new := reads trivial ref (List.mem_singleton_self ref)
    refine ⟨holds.1.setInput id slot new, fun entry member => ?_⟩
    rw [Graph.setInput_size]
    exact holds.2 entry member
  rewireUsable slot ref inside id same := by
    rw [Graph.setInput_size]
    exact inside id same

theorem wellMade_fresh : WellMade .fresh where
  inside id ref member := by
    cases id with
    | zero => cases member
    | succ id => cases member
  made id := by
    cases id with
    | zero => exact ⟨rfl, rfl⟩
    | succ id => exact ⟨rfl, rfl⟩
  nonempty := by decide
  start := rfl

/-- A lowered graph is well made. -/
theorem lowerFresh_wellMade {order : TableOrder} {fn : Ast} {g : Graph}
    (lowered : lowerFresh order fn = .ok g) : WellMade g := by
  have unset := enclosed_closed.unset ({} : LowerState).graph
  have start : Good enclosed {} :=
    ⟨⟨wellMade_fresh, nofun⟩, nofun, nofun, Reads.two unset unset⟩
  have usable : enclosed.usable ({} : LowerState).graph (some kStartNodeId) := by
    intro id same
    cases same
    decide
  have good := (enclosed_closed.lowerFn order fn usable nofun).good start
  unfold lowerFresh at lowered
  split at lowered
  case h_1 u s ran =>
    cases lowered
    rw [finalState_ok ran] at good
    exact good.holds.1
  case h_2 => cases lowered

/-- The graph lists all uses. -/
def listing : LowerInvariant where
  holds g _ := g.Listed
  usable _ _ := True
  own _ := True
  names _ := False
  tracked := False

theorem listing_closed : listing.Closed where
  unset _ := trivial
  push n holds _ _ := holds.pushNode n
  pushUsable _ _ := trivial
  new _ _ := ⟨trivial, trivial⟩
  record n _ holds _ _ _ := holds.pushNode n
  found _ _ := trivial
  rewire slot ref holds _ _ := holds.setInput _ slot ref
  rewireUsable _ _ _ := trivial

theorem lowerFresh_listed {order : TableOrder} {fn : Ast} {g : Graph}
    (lowered : lowerFresh order fn = .ok g) : g.Listed := by
  have start : Good listing {} :=
    ⟨Graph.listed_fresh, fun _ _ => trivial, nofun, nofun⟩
  have good := (listing_closed.lowerFn order fn trivial nofun).good start
  unfold lowerFresh at lowered
  split at lowered
  case h_1 u s ran =>
    cases lowered
    rw [finalState_ok ran] at good
    exact good.holds
  case h_2 => cases lowered

/-- A function that lowers has the lowered graph. -/
theorem lowered_ok {fn : Ast} {order : TableOrder}
    (ok : (lowerFresh order fn).isOk = true) :
    lowerFresh order fn = .ok (loweredGraph order fn) := by
  unfold loweredGraph
  cases lowered : lowerFresh order fn with
  | ok g => rfl
  | error e =>
      rw [lowered] at ok
      cases ok

end Lowerer

end Aegis
