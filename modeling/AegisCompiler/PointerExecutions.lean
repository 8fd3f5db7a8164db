import AegisCompiler.AliasAnalysis
import AegisCompiler.GraphOperations
import Mathlib.Logic.Function.Basic

/-!
# Executions over pointers

The nodes of a graph are evaluated one after the other, in any order.  A pointer is an allocation
site and an address in it, and there is one pointer cell for each of them.  The analyses find the
aliases of an execution in which pointers take only the ways that the analyses follow.
-/

namespace Aegis

namespace AliasAnalysis

/-- A pointer into what an allocation site has allocated. -/
structure Pointer (Addr : Type) where
  site : NodeId
  address : Addr
  deriving DecidableEq, Repr

/-- The pointers that the nodes hold, and the pointers in memory with the nodes that they were
stored through. -/
structure Execution (Addr : Type) where
  value : NodeId → Option (Pointer Addr) := fun _ => none
  memory : Pointer Addr → Option (Pointer Addr × NodeId) := fun _ => none

variable {Addr : Type} [DecidableEq Addr]

/-- Evaluate a node to a value. -/
def Execution.evaluate (s : Execution Addr) (id : NodeId) (value : Option (Pointer Addr)) :
    Execution Addr :=
  { s with value := Function.update s.value id value }

/-- Store a value through a node that holds a pointer. -/
def Execution.write (s : Execution Addr) (through : NodeId) (pointer : Pointer Addr)
    (value : Option (Pointer Addr)) : Execution Addr :=
  { s with memory := Function.update s.memory pointer (value.map (·, through)) }

section Updates

variable {s : Execution Addr} {id other : NodeId} {value : Option (Pointer Addr)}
  {pointer cell : Pointer Addr}

omit [DecidableEq Addr] in
theorem Execution.evaluate_self : (s.evaluate id value).value id = value :=
  Function.update_self ..

omit [DecidableEq Addr] in
theorem Execution.evaluate_of_ne (apart : other ≠ id) :
    (s.evaluate id value).value other = s.value other :=
  Function.update_of_ne apart ..

theorem Execution.write_self :
    (s.write id pointer value).memory pointer = value.map (·, id) :=
  Function.update_self ..

theorem Execution.write_of_ne (apart : cell ≠ pointer) :
    (s.write id pointer value).memory cell = s.memory cell :=
  Function.update_of_ne apart ..

end Updates

/-- The node that is the operand in a slot. -/
def Operand (g : Graph) (id : NodeId) (slot : Nat) (operand : NodeId) : Prop :=
  (g.node id).dataIns.getD slot none = some operand

/-- A live node is evaluated. -/
inductive Evaluates (g : Graph) (s : Execution Addr) (id : NodeId) : Execution Addr → Prop
  | allocates (live : g.Live id)
      (kind : (g.node id).kind = .alloc ∨ (g.node id).kind = .stackAlloc) (address : Addr) :
      Evaluates g s id (s.evaluate id (some ⟨id, address⟩))
  | casts {operand : NodeId} (live : g.Live id) (kind : (g.node id).kind = .cast)
      (source : Operand g id 0 operand) : Evaluates g s id (s.evaluate id (s.value operand))
  -- The offset of a field or an element may be any.
  | moves {operand : NodeId} {pointer : Pointer Addr} (live : g.Live id)
      (kind : (g.node id).kind = .getFieldPtr ∨ (g.node id).kind = .getElementPtr)
      (source : Operand g id 0 operand) (held : s.value operand = some pointer) (address : Addr) :
      Evaluates g s id (s.evaluate id (some ⟨pointer.site, address⟩))
  | selects {slot : Nat} {operand : NodeId} (live : g.Live id)
      (kind : (g.node id).kind = .select) (arm : slot = 1 ∨ slot = 2) (source : Operand g id slot operand) :
      Evaluates g s id (s.evaluate id (s.value operand))
  | merges {slot : Nat} {operand : NodeId} (live : g.Live id) (kind : (g.node id).kind = .phi)
      (arm : 1 ≤ slot) (source : Operand g id slot operand) :
      Evaluates g s id (s.evaluate id (s.value operand))
  | loads {operand : NodeId} {pointer : Pointer Addr} (live : g.Live id)
      (kind : (g.node id).kind = .load) (source : Operand g id 0 operand)
      (held : s.value operand = some pointer) :
      Evaluates g s id (s.evaluate id ((s.memory pointer).map Prod.fst))
  | stores {operand source_ : NodeId} {pointer : Pointer Addr} (live : g.Live id)
      (kind : (g.node id).kind = .store) (target : Operand g id 0 operand)
      (source : Operand g id 1 source_) (held : s.value operand = some pointer) :
      Evaluates g s id (s.write operand pointer (s.value source_))

/-- What an execution comes to whose steps all meet a condition on the state before them. -/
inductive Executes (g : Graph) (meets : Execution Addr → NodeId → Prop) : Execution Addr → Prop
  | start : Executes g meets {}
  | step {s s' : Execution Addr} {id : NodeId} (before : Executes g meets s) (allowed : meets s id)
      (evaluates : Evaluates g s id s') : Executes g meets s'

/-- Wherever two nodes point into the same allocation their sets have an element in common. -/
def AliasesFound {τ : Type} (sets : LocationSets τ) (s : Execution Addr) : Prop :=
  ∀ a b p q, s.value a = some p → s.value b = some q → p.site = q.site →
    ∃ location, location ∈ sets.of a ∧ location ∈ sets.of b

/-- The step takes no pointer past the analyses: a select or phi has no pointer to choose, and a
pointer that is loaded was stored through a node that flows to the one it is loaded through. -/
structure Followed (g : Graph) (s : Execution Addr) (id : NodeId) : Prop where
  chosen : (g.node id).kind = .select ∨ (g.node id).kind = .phi →
    ∀ slot operand, 1 ≤ slot → Operand g id slot operand → s.value operand = none
  loaded : (g.node id).kind = .load → ∀ operand pointer content through,
    Operand g id 0 operand → s.value operand = some pointer →
      s.memory pointer = some (content, through) → Flows g through operand

/-- The step is followed, and allocates no stack slot. -/
def FollowedOnHeap (g : Graph) (s : Execution Addr) (id : NodeId) : Prop :=
  Followed g s id ∧ (g.node id).kind ≠ .stackAlloc

theorem Executes.mono {g : Graph} {meets meets' : Execution Addr → NodeId → Prop}
    {s : Execution Addr} (executes : Executes g meets s)
    (weaker : ∀ s id, meets s id → meets' s id) : Executes g meets' s := by
  induction executes with
  | start => exact .start
  | step _ allowed evaluates ih => exact .step ih (weaker _ _ allowed) evaluates

section Covering

variable {τ : Type} {g : Graph} {origin : NodeId → Option τ}
  {sets : LocationSets τ} {s s' : Execution Addr}

/-- What stands for the allocation of a pointer is in a set. -/
def Covers (origin : NodeId → Option τ) (set : List τ) (pointer : Pointer Addr) : Prop :=
  ∃ location, origin pointer.site = some location ∧ location ∈ set

/-- The set of a node covers the pointer it holds, and the pointers stored through it. -/
structure Covered (g : Graph) (origin : NodeId → Option τ) (sets : LocationSets τ)
    (s : Execution Addr) : Prop where
  inside : ∀ id pointer, s.value id = some pointer → id < g.size
  held : ∀ id pointer, s.value id = some pointer → Covers origin (sets.of id) pointer
  stored : ∀ cell content through, s.memory cell = some (content, through) →
    Covers origin (sets.of through) content

omit [DecidableEq Addr] in
theorem Covers.mono {set set' : List τ} {pointer : Pointer Addr}
    (covers : Covers origin set pointer) (more : set ⊆ set') : Covers origin set' pointer := by
  obtain ⟨location, stands, inSet⟩ := covers
  exact ⟨location, stands, more inSet⟩

omit [DecidableEq Addr] in
theorem covered_start : Covered g origin sets ({} : Execution Addr) :=
  ⟨nofun, nofun, nofun⟩

omit [DecidableEq Addr] in
/-- A node may take on a pointer that its set covers. -/
theorem Covered.evaluate (covered : Covered g origin sets s) {id : NodeId}
    {value : Option (Pointer Addr)} (live : g.Live id)
    (covers : ∀ pointer, value = some pointer → Covers origin (sets.of id) pointer) :
    Covered g origin sets (s.evaluate id value) := by
  constructor
  · intro other pointer held
    by_cases here : other = id
    · exact here ▸ live.1
    · rw [Execution.evaluate_of_ne here] at held
      exact covered.inside other pointer held
  · intro other pointer held
    by_cases here : other = id
    · subst here
      rw [Execution.evaluate_self] at held
      exact covers pointer held
    · rw [Execution.evaluate_of_ne here] at held
      exact covered.held other pointer held
  · exact covered.stored

theorem Covered.write (covered : Covered g origin sets s) {through : NodeId}
    {pointer : Pointer Addr} {value : Option (Pointer Addr)}
    (covers : ∀ content, value = some content → Covers origin (sets.of through) content) :
    Covered g origin sets (s.write through pointer value) := by
  refine ⟨covered.inside, covered.held, fun cell content other known => ?_⟩
  by_cases here : cell = pointer
  · subst here
    rw [Execution.write_self] at known
    obtain ⟨_, stored, equal⟩ := Option.map_eq_some_iff.mp known
    cases equal
    exact covers content stored
  · rw [Execution.write_of_ne here] at known
    exact covered.stored cell content other known

/-- A pointer operand flows to the node. -/
theorem flows_operand {id operand : NodeId} (live : g.Live id)
    (kind : FollowsPointer (g.node id).kind) (source : Operand g id 0 operand)
    (inside : operand < g.size) : Flows g operand id :=
  .single (.operand live kind source inside)

/-- What a step of an execution keeps. -/
theorem Covered.step (closed : Closed g origin sets) (covered : Covered g origin sets s)
    {id : NodeId} (followed : Followed g s id)
    (stands : (g.node id).kind = .alloc ∨ (g.node id).kind = .stackAlloc → (origin id).isSome)
    (evaluates : Evaluates g s id s') : Covered g origin sets s' := by
  -- A pointer that a node takes from its pointer operand.
  have follows {operand : NodeId} {pointer pointer' : Pointer Addr} (live : g.Live id)
      (kind : FollowsPointer (g.node id).kind) (source : Operand g id 0 operand)
      (held : s.value operand = some pointer) (same : pointer'.site = pointer.site) :
      Covers origin (sets.of id) pointer' := by
    have flows := flows_operand live kind source (covered.inside operand pointer held)
    obtain ⟨location, known, inSet⟩ := covered.held operand pointer held
    exact ⟨location, same ▸ known, closed.flows flows inSet⟩
  -- A select or phi takes none.
  have chosen {slot : Nat} {operand : NodeId}
      (kind : (g.node id).kind = .select ∨ (g.node id).kind = .phi) (arm : 1 ≤ slot)
      (source : Operand g id slot operand) (pointer : Pointer Addr) :
      s.value operand = some pointer → Covers origin (sets.of id) pointer := by
    rw [followed.chosen kind slot operand arm source]
    nofun
  cases evaluates with
  | allocates live kind address =>
      refine covered.evaluate live fun pointer equal => ?_
      cases equal
      obtain ⟨location, known⟩ := Option.isSome_iff_exists.mp (stands kind)
      exact ⟨location, known, closed.allocated live kind known⟩
  | casts live kind source =>
      refine covered.evaluate live fun pointer held => ?_
      exact follows live (.inr (.inr (.inl kind))) source held rfl
  | moves live kind source held address =>
      refine covered.evaluate live fun pointer equal => ?_
      cases equal
      have follower : FollowsPointer (g.node id).kind :=
        kind.elim (fun field => .inr (.inl field)) .inl
      exact follows live follower source held rfl
  | selects live kind arm source =>
      exact covered.evaluate live fun pointer => chosen (.inl kind) (by omega) source pointer
  | merges live kind arm source =>
      exact covered.evaluate live fun pointer => chosen (.inr kind) arm source pointer
  | @loads operand pointer live kind source held =>
      refine covered.evaluate live fun content loaded => ?_
      obtain ⟨⟨_, through⟩, known, rfl⟩ := Option.map_eq_some_iff.mp loaded
      have inside := covered.inside operand pointer held
      have toOperand := followed.loaded kind operand pointer _ through source held known
      have toLoad := flows_operand live (.inr (.inr (.inr kind))) source inside
      exact (covered.stored pointer _ through known).mono (closed.flows (toOperand.trans toLoad))
  | @stores operand value pointer live kind target source held =>
      refine covered.write fun content stored => ?_
      have edge : FlowEdge g value operand :=
        .stored live kind target source (covered.inside operand pointer held)
          (covered.inside value content stored)
      exact (covered.held value content stored).mono (closed.along edge)

/-- The sets cover every execution whose steps are all followed. -/
theorem covered_of_executes (closed : Closed g origin sets)
    {meets : Execution Addr → NodeId → Prop} (followed : ∀ s id, meets s id → Followed g s id)
    (stands : ∀ s id, meets s id →
      (g.node id).kind = .alloc ∨ (g.node id).kind = .stackAlloc → (origin id).isSome)
    (executes : Executes g meets s) : Covered g origin sets s := by
  induction executes with
  | start => exact covered_start
  | step _ allowed evaluates ih =>
      exact ih.step closed (followed _ _ allowed) (stands _ _ allowed) evaluates

omit [DecidableEq Addr] in
theorem Covered.aliasesFound (covered : Covered g origin sets s) : AliasesFound sets s := by
  intro a b p q heldA heldB same
  obtain ⟨location, known, inA⟩ := covered.held a p heldA
  obtain ⟨location', known', inB⟩ := covered.held b q heldB
  rw [same, known'] at known
  cases known
  exact ⟨_, inA, inB⟩

end Covering

/-- The graphs are the same but for the payloads. -/
structure SameButPayloads (g h : Graph) : Prop where
  size : h.size = g.size
  node : ∀ id, ∃ payload, h.node id = { g.node id with payload }

theorem sameButPayloads_stampSites (g : Graph) :
    SameButPayloads g (ValueFlowAnalysis.stampSites g) := by
  have fold (ids : List NodeId) (progress : Graph × BitVec 32)
      (same : SameButPayloads g progress.1) :
      SameButPayloads g (ids.foldl ValueFlowAnalysis.stampSite progress).1 := by
    induction ids generalizing progress with
    | nil => exact same
    | cons id ids ih =>
        refine ih _ ?_
        unfold ValueFlowAnalysis.stampSite
        dsimp only
        split
        case isTrue => exact same
        case isFalse =>
          split
          case isTrue => exact same
          case isFalse =>
            refine ⟨(Graph.modifyNode_size ..).trans same.size, fun other => ?_⟩
            obtain ⟨payload, equal⟩ := same.node other
            rw [Graph.modifyNode_node, equal]
            split
            · exact ⟨_, rfl⟩
            · exact ⟨payload, rfl⟩
  exact fold _ (g, 1) ⟨rfl, fun id => ⟨(g.node id).payload, rfl⟩⟩

section Stamping

variable {g h : Graph} (same : SameButPayloads g h)

include same

theorem SameButPayloads.kind (id : NodeId) : (h.node id).kind = (g.node id).kind := by
  obtain ⟨payload, equal⟩ := same.node id
  rw [equal]

theorem SameButPayloads.dataIns (id : NodeId) : (h.node id).dataIns = (g.node id).dataIns := by
  obtain ⟨payload, equal⟩ := same.node id
  rw [equal]
  rfl

theorem SameButPayloads.live {id : NodeId} : h.Live id ↔ g.Live id := by
  obtain ⟨payload, equal⟩ := same.node id
  rw [Graph.Live, Graph.Live, equal, same.size]
  rfl

theorem SameButPayloads.flowEdge {x y : NodeId} (edge : FlowEdge g x y) : FlowEdge h x y := by
  cases edge with
  | operand live kind pointer inside =>
      refine .operand (same.live.mpr live) ?_ ?_ (same.size.symm ▸ inside)
      · rw [same.kind]
        exact kind
      · rw [same.dataIns]
        exact pointer
  | stored live kind pointer source inside inside' =>
      refine .stored (same.live.mpr live) ((same.kind _).trans kind) ?_ ?_
        (same.size.symm ▸ inside) (same.size.symm ▸ inside')
      · rw [same.dataIns]
        exact pointer
      · rw [same.dataIns]
        exact source

/-- Sets that are closed for the one graph are closed for the other one. -/
theorem SameButPayloads.closed {τ : Type} {origin : NodeId → Option τ} {sets : LocationSets τ}
    (closed : Closed h origin sets) : Closed g origin sets where
  allocated live kind known :=
    closed.allocated (same.live.mpr live) (by rw [same.kind]; exact kind) known
  along edge := closed.along (same.flowEdge edge)

end Stamping

/-- In every execution whose steps are all followed the points-to sets find the aliases; so do
the sets of allocation sites, where no stack slot is allocated. -/
theorem aliases_found (g : Graph) :
    (∀ sets, CFLAliasAnalysis.pointsTo g = .settled sets → ∀ s : Execution Addr,
      Executes g (Followed g) s → AliasesFound sets s) ∧
    (∀ sets, ValueFlowAnalysis.mayPointTo (ValueFlowAnalysis.stampSites g) = .settled sets →
      ∀ s : Execution Addr, Executes g (FollowedOnHeap g) s → AliasesFound sets s) := by
  constructor
  · intro sets settled s executes
    have closed := closed_of_settled settled
    exact (covered_of_executes closed (fun _ _ => id) (fun _ _ _ _ => rfl) executes).aliasesFound
  · intro sets settled s executes
    have same := sameButPayloads_stampSites g
    have closed := same.closed (closed_of_settled settled)
    refine (covered_of_executes closed (fun _ _ => And.left) (fun _ id allowed kind => ?_)
      executes).aliasesFound
    have alloc := kind.resolve_right allowed.2
    rw [ValueFlowAnalysis.siteOf, same.kind, if_pos alloc]
    rfl

omit [DecidableEq Addr] in
/-- A step at a node that neither chooses nor loads is followed. -/
theorem followed_of_kind {g : Graph} {s : Execution Addr} {id : NodeId}
    (noSelect : (g.node id).kind ≠ .select) (noPhi : (g.node id).kind ≠ .phi)
    (noLoad : (g.node id).kind ≠ .load) : Followed g s id where
  chosen kind := (kind.elim noSelect noPhi).elim
  loaded kind := (noLoad kind).elim

/-- Two objects; the second one is stored to a field of the first and loaded again. -/
def oneName : Graph :=
  let (ctrl, g) := Graph.fresh.makeProj (some kStartNodeId) 0
  let (effect, g) := g.makeProj (some kStartNodeId) 1
  let (object, g) := g.makeAlloc (some ctrl) (some effect) 0
  let (content, g) := g.makeAlloc (some ctrl) (some object) 0
  let (field, g) := g.makeNode .getFieldPtr [some object] 0 0
  let (store, g) := g.makeStore (some ctrl) (some content) (some field) (some content)
  (g.makeLoad (some ctrl) (some store) (some field) 0).2

/-- The objects are allocated and the field is addressed. -/
def oneNameAddressed : Execution Nat :=
  ((({} : Execution Nat).evaluate 3 (some ⟨3, 0⟩)).evaluate 4 (some ⟨4, 0⟩)).evaluate 5
    (some ⟨3, 1⟩)

/-- The second object is stored and loaded. -/
def oneNameLoaded : Execution Nat :=
  (oneNameAddressed.write 5 ⟨3, 1⟩ (some ⟨4, 0⟩)).evaluate 7 (some ⟨4, 0⟩)

theorem executes_oneName : Executes oneName (FollowedOnHeap oneName) oneNameLoaded := by
  have plain (s : Execution Nat) (id : NodeId) (noSelect : (oneName.node id).kind ≠ .select)
      (noPhi : (oneName.node id).kind ≠ .phi) (noLoad : (oneName.node id).kind ≠ .load)
      (noSlot : (oneName.node id).kind ≠ .stackAlloc) : FollowedOnHeap oneName s id :=
    ⟨followed_of_kind noSelect noPhi noLoad, noSlot⟩
  have loads : FollowedOnHeap oneName (oneNameAddressed.write 5 ⟨3, 1⟩ (some ⟨4, 0⟩)) 7 := by
    refine ⟨⟨fun kind => ?_, fun _ operand pointer content through source held known => ?_⟩, nofun⟩
    · exact absurd kind (by decide)
    · cases source
      cases held
      cases known
      exact .refl
  have object : Executes oneName (FollowedOnHeap oneName)
      (({} : Execution Nat).evaluate 3 (some ⟨3, 0⟩)) :=
    .step .start (plain _ 3 nofun nofun nofun nofun)
      (.allocates ⟨by decide, by decide⟩ (.inl rfl) 0)
  have content : Executes oneName (FollowedOnHeap oneName)
      ((({} : Execution Nat).evaluate 3 (some ⟨3, 0⟩)).evaluate 4 (some ⟨4, 0⟩)) :=
    .step object (plain _ 4 nofun nofun nofun nofun)
      (.allocates ⟨by decide, by decide⟩ (.inl rfl) 0)
  have addressed : Executes oneName (FollowedOnHeap oneName) oneNameAddressed :=
    .step content (plain _ 5 nofun nofun nofun nofun)
      (@Evaluates.moves Nat _ oneName _ 5 3 ⟨3, 0⟩ ⟨by decide, by decide⟩ (.inl rfl) rfl rfl 1)
  have stored : Executes oneName (FollowedOnHeap oneName)
      (oneNameAddressed.write 5 ⟨3, 1⟩ (some ⟨4, 0⟩)) :=
    .step addressed (plain _ 6 nofun nofun nofun nofun)
      (@Evaluates.stores Nat _ oneName _ 6 5 4 ⟨3, 1⟩ ⟨by decide, by decide⟩ rfl rfl rfl rfl)
  exact .step stored loads
    (@Evaluates.loads Nat _ oneName _ 7 5 ⟨3, 1⟩ ⟨by decide, by decide⟩ rfl rfl rfl)

theorem aliases_found_oneName :
    AliasesFound [[], [], [], [3], [4], [3, 4], [], [3, 4]] oneNameLoaded ∧
      AliasesFound ([[], [], [], [1], [2], [1, 2], [], [1, 2]] : LocationSets (BitVec 32))
        oneNameLoaded := by
  have pointsTo : CFLAliasAnalysis.pointsTo oneName =
      .settled [[], [], [], [3], [4], [3, 4], [], [3, 4]] := rfl
  have mayPointTo : ValueFlowAnalysis.mayPointTo (ValueFlowAnalysis.stampSites oneName) =
      .settled [[], [], [], [1], [2], [1, 2], [], [1, 2]] := rfl
  exact ⟨(aliases_found oneName).1 _ pointsTo _ (executes_oneName.mono fun _ _ => And.left),
    (aliases_found oneName).2 _ mayPointTo _ executes_oneName⟩

/-- Two allocations and a choice of one of them. -/
def chosenName : Graph :=
  let (ctrl, g) := Graph.fresh.makeProj (some kStartNodeId) 0
  let (effect, g) := g.makeProj (some kStartNodeId) 1
  let (first, g) := g.makeAlloc (some ctrl) (some effect) 0
  let (second, g) := g.makeAlloc (some ctrl) (some first) 0
  let (cond, g) := g.makeNode .parameter [] 0 0
  let (choice, g) := g.makeNode .select [some cond, some first, some second] 0 0
  (g.makeLoad (some ctrl) (some second) (some choice) 0).2

/-- As with one name, but the field is addressed twice; the second address is loaded from. -/
def twoNames : Graph :=
  let (ctrl, g) := Graph.fresh.makeProj (some kStartNodeId) 0
  let (effect, g) := g.makeProj (some kStartNodeId) 1
  let (object, g) := g.makeAlloc (some ctrl) (some effect) 0
  let (content, g) := g.makeAlloc (some ctrl) (some object) 0
  let (field, g) := g.makeNode .getFieldPtr [some object] 0 0
  let (again, g) := g.makeNode .getFieldPtr [some object] 0 0
  let (store, g) := g.makeStore (some ctrl) (some content) (some field) (some content)
  (g.makeLoad (some ctrl) (some store) (some again) 0).2

/-- Both fields are addressed. -/
def twoNamesAddressed : Execution Nat := oneNameAddressed.evaluate 6 (some ⟨3, 1⟩)

/-- The second object is stored through the one address and loaded through the other one. -/
def twoNamesLoaded : Execution Nat :=
  (twoNamesAddressed.write 5 ⟨3, 1⟩ (some ⟨4, 0⟩)).evaluate 8 (some ⟨4, 0⟩)

theorem executes_twoNames : Executes twoNames (fun _ _ => True) twoNamesLoaded := by
  have object : Executes twoNames (fun _ _ => True)
      (({} : Execution Nat).evaluate 3 (some ⟨3, 0⟩)) :=
    .step .start trivial (.allocates ⟨by decide, by decide⟩ (.inl rfl) 0)
  have content : Executes twoNames (fun _ _ => True)
      ((({} : Execution Nat).evaluate 3 (some ⟨3, 0⟩)).evaluate 4 (some ⟨4, 0⟩)) :=
    .step object trivial (.allocates ⟨by decide, by decide⟩ (.inl rfl) 0)
  have field : Executes twoNames (fun _ _ => True) oneNameAddressed :=
    .step content trivial
      (@Evaluates.moves Nat _ twoNames _ 5 3 ⟨3, 0⟩ ⟨by decide, by decide⟩ (.inl rfl) rfl rfl 1)
  have again : Executes twoNames (fun _ _ => True) twoNamesAddressed :=
    .step field trivial
      (@Evaluates.moves Nat _ twoNames _ 6 3 ⟨3, 0⟩ ⟨by decide, by decide⟩ (.inl rfl) rfl rfl 1)
  have stored : Executes twoNames (fun _ _ => True)
      (twoNamesAddressed.write 5 ⟨3, 1⟩ (some ⟨4, 0⟩)) :=
    .step again trivial
      (@Evaluates.stores Nat _ twoNames _ 7 5 4 ⟨3, 1⟩ ⟨by decide, by decide⟩ rfl rfl rfl rfl)
  exact .step stored trivial
    (@Evaluates.loads Nat _ twoNames _ 8 6 ⟨3, 1⟩ ⟨by decide, by decide⟩ rfl rfl rfl)

/-- The points-to sets miss what a select chooses, and the sets of sites what was stored through
another address of the same field. -/
theorem aliases_missed :
    (¬∀ g sets, CFLAliasAnalysis.pointsTo g = .settled sets → ∀ s : Execution Nat,
      Executes g (fun _ _ => True) s → AliasesFound sets s) ∧
    (¬∀ g sets, ValueFlowAnalysis.mayPointTo (ValueFlowAnalysis.stampSites g) = .settled sets →
      ∀ s : Execution Nat, Executes g (fun _ _ => True) s → AliasesFound sets s) := by
  constructor
  · intro found
    have settled : CFLAliasAnalysis.pointsTo chosenName =
        .settled [[], [], [], [3], [4], [], [], []] := rfl
    have first : Executes chosenName (fun _ _ => True)
        (({} : Execution Nat).evaluate 3 (some ⟨3, 0⟩)) :=
      .step .start trivial (.allocates ⟨by decide, by decide⟩ (.inl rfl) 0)
    have chosen : Executes chosenName (fun _ _ => True)
        ((({} : Execution Nat).evaluate 3 (some ⟨3, 0⟩)).evaluate 6 (some ⟨3, 0⟩)) :=
      .step first trivial
        (@Evaluates.selects Nat _ chosenName _ 6 1 3 ⟨by decide, by decide⟩ rfl (.inl rfl) rfl)
    obtain ⟨location, _, missed⟩ := found _ _ settled _ chosen 3 6 ⟨3, 0⟩ ⟨3, 0⟩ rfl rfl rfl
    cases missed
  · intro found
    have settled : ValueFlowAnalysis.mayPointTo (ValueFlowAnalysis.stampSites twoNames) =
        .settled [[], [], [], [1], [2], [1, 2], [1], [], [1]] := rfl
    obtain ⟨location, loaded, stored⟩ :=
      found _ _ settled _ executes_twoNames 8 4 ⟨4, 0⟩ ⟨4, 0⟩ rfl rfl rfl
    have one : location = 1 := List.mem_singleton.mp loaded
    have two : location = 2 := List.mem_singleton.mp stored
    exact absurd (one.symm.trans two) (by decide)

end AliasAnalysis

end Aegis
