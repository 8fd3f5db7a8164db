import AegisCompiler.LoweredMerge
import AegisCompiler.LoweringFrame

/-!
# The phis of the accumulators

Every accumulator of a loop gets a phi at the header, which is wired to the value at the
end of the body and stays bound behind the loop.  This holds for any body and any state in
which the accumulators are bound.
-/

namespace Aegis

namespace Lowerer

/-- The bindings with the accumulators at their phis. -/
structure AccBound (accPhis : List (SymbolId × NodeId))
    (before after : Bindings) : Prop where
  phi : ∀ name phi, (name, phi) ∈ accPhis → after.get name = some (some phi)
  other : ∀ name, name ∉ accPhis.map Prod.fst → after.get name = before.get name

theorem AccBound.names {accPhis : List (SymbolId × NodeId)}
    {before after : Bindings} (bound : AccBound accPhis before after)
    {name : SymbolId} (member : name ∈ before.names) : name ∈ after.names := by
  rw [← Bindings.get_isSome_iff] at member ⊢
  by_cases acc : name ∈ accPhis.map Prod.fst
  · obtain ⟨⟨_, phi⟩, found, rfl⟩ := List.mem_map.mp acc
    rw [bound.phi _ phi found]
    rfl
  · rw [bound.other name acc]
    exact member

/-- The accumulators got their phis, and nothing else changed. -/
structure PhisMade (base : NodeId) (names : List SymbolId)
    (accPhis : List (SymbolId × NodeId)) (s t : LowerState) : Prop where
  extended : Extends s.graph t.graph
  table : t.table = s.table
  names : accPhis.map Prod.fst = names
  distinct : (accPhis.map Prod.snd).Nodup
  bound : AccBound accPhis s.bindings t.bindings
  node : ∀ name phi, (name, phi) ∈ accPhis → s.graph.size ≤ phi ∧
    phi < t.graph.size ∧ ∃ entry, s.bindings.get name = some entry ∧
      t.graph.node phi = phiNodeOf (some base) [entry, none]

/-- The state after making and binding one more phi. -/
def withAccPhi (base : NodeId) (name : SymbolId) (entry : NodeRef)
    (s : LowerState) : LowerState :=
  { pushed s (phiNodeOf (some base) [entry, none]) with
    bindings := s.bindings.insert name (some s.graph.size) }

theorem PhisMade.cons {base : NodeId} {name : SymbolId} {names : List SymbolId}
    {rest : List (SymbolId × NodeId)} {s t : LowerState} {entry : NodeRef}
    (absent : name ∉ names) (found : s.bindings.get name = some entry)
    (made : PhisMade base names rest (withAccPhi base name entry s) t) :
    PhisMade base (name :: names) ((name, s.graph.size) :: rest) s t := by
  have size : (withAccPhi base name entry s).graph.size = s.graph.size + 1 :=
    pushed_size s _
  have inside := made.extended.size
  rw [size] at inside
  have notLater : name ∉ rest.map Prod.fst := by
    rw [made.names]
    exact absent
  have first : t.graph.node s.graph.size =
      phiNodeOf (some base) [entry, none] := by
    rw [made.extended.node _ (size ▸ Nat.lt_succ_self _)]
    exact pushed_new s _
  constructor
  case extended =>
    refine ⟨Nat.le_of_succ_le inside, fun id old => ?_⟩
    rw [made.extended.node id (size ▸ Nat.lt_succ_of_lt old)]
    exact pushed_old s _ old
  case table => exact made.table
  case names => rw [List.map_cons, made.names]
  case distinct =>
    rw [List.map_cons, List.nodup_cons, List.mem_map]
    refine ⟨?_, made.distinct⟩
    rintro ⟨⟨other, phi⟩, member, same⟩
    have late := (made.node other phi member).1
    have same : phi = s.graph.size := same
    rw [size, same] at late
    exact Nat.not_succ_le_self _ late
  case bound =>
    constructor
    · intro other phi member
      rcases List.mem_cons.mp member with here | later
      · cases here
        rw [made.bound.other name notLater]
        exact Bindings.get_insert_self ..
      · exact made.bound.phi other phi later
    · intro other notAcc
      rw [List.map_cons, List.mem_cons, not_or] at notAcc
      rw [made.bound.other other notAcc.2]
      exact Bindings.get_insert_of_ne _ _ notAcc.1
  case node =>
    intro other phi member
    rcases List.mem_cons.mp member with here | later
    · cases here
      exact ⟨le_rfl, inside, entry, found, first⟩
    · obtain ⟨late, below, old, oldFound, node⟩ := made.node other phi later
      have differs : other ≠ name := by
        rintro rfl
        exact notLater (List.mem_map.mpr ⟨_, later, rfl⟩)
      have oldFound : (s.bindings.insert name (some s.graph.size)).get other =
          some old := oldFound
      rw [Bindings.get_insert_of_ne _ _ differs] at oldFound
      rw [size] at late
      exact ⟨Nat.le_of_succ_le late, below, old, oldFound, node⟩

theorem makeAccPhis_made {base : NodeId} {names : List SymbolId}
    (nodup : names.Nodup) {s : LowerState}
    (bound : ∀ name ∈ names, name ∈ s.bindings.names) :
    ∃ accPhis t, makeAccPhis base names s = .ok accPhis t ∧
      PhisMade base names accPhis s t := by
  induction names generalizing s with
  | nil =>
      exact ⟨[], s, rfl, Extends.refl _, rfl, rfl, List.nodup_nil,
        ⟨nofun, fun _ _ => rfl⟩, nofun⟩
  | cons name names ih =>
      rw [List.nodup_cons] at nodup
      obtain ⟨entry, found⟩ := Option.isSome_iff_exists.mp
        (Bindings.get_isSome_iff.mpr (bound name List.mem_cons_self))
      obtain ⟨rest, t, ran, made⟩ := @ih nodup.2 (withAccPhi base name entry s)
        fun other member => Bindings.mem_names_insert.mpr
          (Or.inl (bound other (List.mem_cons_of_mem _ member)))
      refine ⟨(name, s.graph.size) :: rest, t, ?_, made.cons nodup.1 found⟩
      rw [makeAccPhis, run_bind (boundOrZero_bound found), run_make,
        run_bindName]
      refine (run_bind ran).trans ?_
      rfl

/-- Replace an input of a node of the graph of a state. -/
def rewired (s : LowerState) (id slot : Nat) (ref : NodeRef) : LowerState :=
  { s with graph := s.graph.setInput id slot ref }

theorem run_setInput {β : Type} (id : NodeId) (slot : Nat) (ref : NodeRef)
    (next : Unit → LowerM β) (s : LowerState) :
    (setInput id slot ref >>= next) s = next () (rewired s id slot ref) := rfl

theorem rewired_kind (s : LowerState) (id slot : Nat) (ref : NodeRef)
    (other : NodeId) : ((rewired s id slot ref).graph.node other).kind =
      (s.graph.node other).kind := by
  rw [rewired, Graph.setInput_node]
  split <;> rfl

theorem rewired_size (s : LowerState) (id slot : Nat) (ref : NodeRef) :
    (rewired s id slot ref).graph.size = s.graph.size :=
  s.graph.setInput_size id slot ref

theorem rewired_other (s : LowerState) {id : Nat} (slot : Nat) (ref : NodeRef)
    {other : NodeId} (differs : other ≠ id) :
    (rewired s id slot ref).graph.node other = s.graph.node other := by
  rw [rewired, Graph.setInput_node, if_neg differs]

/-- The phis got their back edges, and nothing else changed. -/
structure PhisWired (accPhis : List (SymbolId × NodeId)) (s t : LowerState) :
    Prop where
  rest : t = { s with graph := t.graph }
  size : t.graph.size = s.graph.size
  kind : ∀ id, (t.graph.node id).kind = (s.graph.node id).kind
  other : ∀ id, id ∉ accPhis.map Prod.snd → t.graph.node id = s.graph.node id
  back : ∀ name phi, (name, phi) ∈ accPhis →
    ∃ ref, s.bindings.get name = some ref ∧ t.graph.node phi =
      { s.graph.node phi with inputs := (s.graph.node phi).inputs.set 2 ref }

theorem wireAccPhis_wired {accPhis : List (SymbolId × NodeId)}
    (distinct : (accPhis.map Prod.snd).Nodup) {s : LowerState}
    (bound : ∀ acc ∈ accPhis, acc.1 ∈ s.bindings.names) :
    ∃ t, wireAccPhis accPhis s = .ok () t ∧ PhisWired accPhis s t := by
  induction accPhis generalizing s with
  | nil => exact ⟨s, rfl, rfl, rfl, fun _ => rfl, fun _ _ => rfl, nofun⟩
  | cons acc rest ih =>
      obtain ⟨name, phi⟩ := acc
      rw [List.map_cons, List.nodup_cons] at distinct
      obtain ⟨ref, found⟩ := Option.isSome_iff_exists.mp
        (Bindings.get_isSome_iff.mpr (bound _ List.mem_cons_self))
      obtain ⟨t, ran, wired⟩ := @ih distinct.2 (rewired s phi 2 ref)
        fun other member => bound other (List.mem_cons_of_mem _ member)
      refine ⟨t, ?_, wired.rest, wired.size.trans (rewired_size ..), ?_, ?_, ?_⟩
      · rw [wireAccPhis, run_bind (boundOrZero_bound found), run_setInput]
        exact ran
      · intro id
        rw [wired.kind, rewired_kind]
      · intro id notPhi
        rw [List.map_cons, List.mem_cons, not_or] at notPhi
        rw [wired.other id notPhi.2, rewired_other _ _ _ notPhi.1]
      · intro other otherPhi member
        rcases List.mem_cons.mp member with here | later
        · cases here
          refine ⟨ref, found, ?_⟩
          rw [wired.other phi distinct.1, rewired, Graph.setInput_node,
            if_pos rfl]
        · obtain ⟨back, backFound, node⟩ := wired.back other otherPhi later
          have differs : otherPhi ≠ phi := by
            rintro rfl
            exact distinct.1 (List.mem_map.mpr ⟨_, later, rfl⟩)
          rw [rewired_other _ _ _ differs] at node
          exact ⟨back, backFound, node⟩

/-- The accumulators are bound to their phis again. -/
theorem bindAccPhis_accBound {accPhis : List (SymbolId × NodeId)}
    (distinct : (accPhis.map Prod.fst).Nodup) (s : LowerState) :
    ∃ bindings, bindAccPhis accPhis s = .ok () { s with bindings } ∧
      AccBound accPhis s.bindings bindings := by
  induction accPhis generalizing s with
  | nil => exact ⟨s.bindings, rfl, nofun, fun _ _ => rfl⟩
  | cons acc rest ih =>
      obtain ⟨name, phi⟩ := acc
      rw [List.map_cons, List.nodup_cons] at distinct
      obtain ⟨bindings, ran, bound⟩ :=
        ih distinct.2 { s with bindings := s.bindings.insert name (some phi) }
      refine ⟨bindings, ran, ?_, ?_⟩
      · intro other otherPhi member
        rcases List.mem_cons.mp member with here | later
        · cases here
          rw [bound.other name distinct.1]
          exact Bindings.get_insert_self ..
        · exact bound.phi other otherPhi later
      · intro other notAcc
        rw [List.map_cons, List.mem_cons, not_or] at notAcc
        rw [bound.other other notAcc.2]
        exact Bindings.get_insert_of_ne _ _ notAcc.1

end Lowerer

end Aegis
