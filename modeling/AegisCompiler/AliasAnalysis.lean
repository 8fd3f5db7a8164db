import AegisCompiler.InclusionSweeps
import AegisCompiler.SeaOfNodesGraph
import Mathlib.Logic.Relation

/-!
# Alias analysis

Both passes keep a set of allocations for every node and let the sets grow along the pointer
operands until nothing changes.  They differ in what stands for an allocation, and in whether
stack slots are allocations.
-/

namespace Aegis

namespace AliasAnalysis

open InclusionSweeps

variable {τ : Type} [DecidableEq τ]

/-- For every node the set of what it may point to. -/
abbrev LocationSets (τ : Type) : Type := List (List τ)

def LocationSets.of (sets : LocationSets τ) (id : NodeId) : List τ := sets.getD id []

/-- The node may also point to what is listed. -/
def LocationSets.grow (sets : LocationSets τ) (id : NodeId) (locations : List τ) :
    LocationSets τ × Bool :=
  let (set, changed) := addAll (sets.of id) locations
  (sets.set id set, changed)

/-- The set that grows at a node, and what it takes over. -/
def growth (g : Graph) (origin : NodeId → Option τ) (id : NodeId) (sets : LocationSets τ) :
    Option (NodeId × List τ) :=
  let n := g.node id
  if n.isDead then none
  else
    match n.kind with
    | .alloc | .stackAlloc =>
        match origin id with
        | some location => some (id, [location])
        | none => none
    | .getElementPtr | .getFieldPtr | .cast | .load =>
        match g.inRange (n.dataIns.getD 0 none) with
        | some ptr => some (id, sets.of ptr)
        | none => none
    | .store =>
        if n.dataIns.length < 2 then none
        else
          match g.inRange (n.dataIns.getD 0 none), g.inRange (n.dataIns.getD 1 none) with
          | some ptr, some value => some (ptr, sets.of value)
          | _, _ => none
    | _ => none

/-- Propagate at one node. -/
def visit (g : Graph) (origin : NodeId → Option τ) (id : NodeId) (sets : LocationSets τ) :
    LocationSets τ × Bool :=
  match growth g origin id sets with
  | some (target, locations) => sets.grow target locations
  | none => (sets, false)

/-- The sets of all nodes, from empty ones. -/
def solve (g : Graph) (origin : NodeId → Option τ) (visitLimit : Option Nat) (sweeps : Nat) :
    Ending (LocationSets τ) :=
  iterate (visit g origin) visitLimit (List.range g.size) sweeps 0 (List.replicate g.size [])

/-- The pairs of nodes with sets that are not empty and pass a test. -/
def countPairs (sets : LocationSets τ) (test : List τ → List τ → Bool) : Nat :=
  ((List.range sets.length).map fun a =>
    ((List.range sets.length).filter fun b =>
      decide (a < b) && !(sets.of a).isEmpty && !(sets.of b).isEmpty &&
        test (sets.of a) (sets.of b)).length).sum

/-- The sets have an element in common. -/
def meet (first second : List τ) : Bool := first.any fun x => second.contains x

/-- The kinds whose value comes from their pointer operand. -/
def FollowsPointer (kind : NodeKind) : Prop :=
  kind = .getElementPtr ∨ kind = .getFieldPtr ∨ kind = .cast ∨ kind = .load

/-- A pointer operand flows to its address computation, cast or load, and a stored value to the
pointer that it is stored through. -/
inductive FlowEdge (g : Graph) : NodeId → NodeId → Prop
  | operand {id ptr : NodeId} (live : g.Live id) (kind : FollowsPointer (g.node id).kind)
      (pointer : (g.node id).dataIns.getD 0 none = some ptr) (inside : ptr < g.size) :
      FlowEdge g ptr id
  | stored {id ptr value : NodeId} (live : g.Live id) (kind : (g.node id).kind = .store)
      (pointer : (g.node id).dataIns.getD 0 none = some ptr)
      (source : (g.node id).dataIns.getD 1 none = some value) (inside : ptr < g.size)
      (inside' : value < g.size) : FlowEdge g value ptr

/-- What a node may point to flows to another node. -/
abbrev Flows (g : Graph) : NodeId → NodeId → Prop := Relation.ReflTransGen (FlowEdge g)

/-- The sets hold every allocation, and grow along the flow. -/
structure Closed (g : Graph) (origin : NodeId → Option τ) (sets : LocationSets τ) : Prop where
  allocated : ∀ {id location}, g.Live id →
    (g.node id).kind = .alloc ∨ (g.node id).kind = .stackAlloc → origin id = some location →
      location ∈ sets.of id
  along : ∀ {x y}, FlowEdge g x y → sets.of x ⊆ sets.of y

variable {g : Graph} {origin : NodeId → Option τ} {sets : LocationSets τ}

theorem LocationSets.grow_old {id : NodeId} {locations : List τ}
    (old : (sets.grow id locations).2 = false) :
    (sets.grow id locations).1 = sets ∧ locations ⊆ sets.of id := by
  change (addAll (sets.of id) locations).2 = false at old
  obtain ⟨same, known⟩ := addAll_old old
  refine ⟨?_, known⟩
  change sets.set id (addAll (sets.of id) locations).1 = sets
  rw [same]
  apply List.ext_getElem (List.length_set ..)
  intro i _ below
  rw [List.getElem_set]
  split
  case isTrue here =>
    subst here
    rw [LocationSets.of, List.getD_eq_getElem?_getD, List.getElem?_eq_getElem below,
      Option.getD_some]
  case isFalse => rfl

theorem honest_visit : Honest (visit g origin) := by
  intro id sets old
  unfold visit at old ⊢
  cases grows : growth g origin id sets with
  | none => rfl
  | some target =>
      rw [grows] at old
      exact (LocationSets.grow_old old).1

theorem inRange_some {id : NodeId} (inside : id < g.size) : g.inRange (some id) = some id :=
  if_pos inside

/-- What grows at a node has grown already when a visit changes nothing. -/
theorem known_of_quiet {id target : NodeId} {locations : List τ}
    (quiet : (visit g origin id sets).2 = false)
    (grows : growth g origin id sets = some (target, locations)) : locations ⊆ sets.of target := by
  unfold visit at quiet
  rw [grows] at quiet
  exact (LocationSets.grow_old quiet).2

omit [DecidableEq τ] in
theorem growth_allocated {id : NodeId} {location : τ} (live : g.Live id)
    (kind : (g.node id).kind = .alloc ∨ (g.node id).kind = .stackAlloc)
    (known : origin id = some location) : growth g origin id sets = some (id, [location]) := by
  rcases kind with kind | kind <;> simp [growth, live.2, kind, known]

omit [DecidableEq τ] in
theorem growth_operand {id ptr : NodeId} (live : g.Live id)
    (kind : FollowsPointer (g.node id).kind)
    (pointer : (g.node id).dataIns.getD 0 none = some ptr) (inside : ptr < g.size) :
    growth g origin id sets = some (id, sets.of ptr) := by
  rcases kind with kind | kind | kind | kind <;>
    simp only [growth, live.2, kind, pointer, inRange_some inside, Bool.false_eq_true, if_false]

omit [DecidableEq τ] in
theorem growth_stored {id ptr value : NodeId} (live : g.Live id)
    (kind : (g.node id).kind = .store) (pointer : (g.node id).dataIns.getD 0 none = some ptr)
    (source : (g.node id).dataIns.getD 1 none = some value) (inside : ptr < g.size)
    (inside' : value < g.size) : growth g origin id sets = some (ptr, sets.of value) := by
  have two : ¬(g.node id).dataIns.length < 2 := by
    intro short
    rw [List.getD_eq_getElem?_getD, List.getElem?_eq_none (by omega)] at source
    cases source
  simp only [growth, live.2, kind, pointer, source, two, inRange_some inside,
    inRange_some inside', Bool.false_eq_true, if_false]

/-- The sets in which the loop settles are closed. -/
theorem closed_of_settled {limit : Option Nat} {sweeps : Nat}
    (settled : solve g origin limit sweeps = .settled sets) : Closed g origin sets := by
  have known {id target : NodeId} {locations : List τ} (live : g.Live id)
      (grows : growth g origin id sets = some (target, locations)) :
      locations ⊆ sets.of target :=
    known_of_quiet (settled_quiet honest_visit settled id (List.mem_range.mpr live.1)) grows
  constructor
  · intro id location live kind origin_
    exact known live (growth_allocated live kind origin_) (List.mem_singleton_self _)
  · intro x y edge
    cases edge with
    | operand live kind pointer inside =>
        exact known live (growth_operand live kind pointer inside)
    | stored live kind pointer source inside inside' =>
        exact known live (growth_stored live kind pointer source inside inside')

omit [DecidableEq τ] in
theorem Closed.flows (closed : Closed g origin sets) {x y : NodeId} (flows : Flows g x y) :
    sets.of x ⊆ sets.of y := by
  induction flows with
  | refl => exact List.Subset.refl _
  | tail _ edge ih => exact List.Subset.trans ih (closed.along edge)

end AliasAnalysis

namespace CFLAliasAnalysis

open InclusionSweeps AliasAnalysis

def kCflAliasMaxWorklistNodes : Nat := 10000

def kCflAliasMaxFixpointIterations : Nat := 10

/-- The points-to sets: an allocation stands for itself. -/
def pointsTo (g : Graph) : Ending (LocationSets NodeId) :=
  solve g some (some kCflAliasMaxWorklistNodes) kCflAliasMaxFixpointIterations

/-- The number of pairs that may alias; without an answer there are none. -/
def run (g : Graph) : Nat :=
  match pointsTo g with
  | .settled sets | .sweepLimit sets => countPairs sets meet
  | .visitLimit => 0

end CFLAliasAnalysis

namespace ValueFlowAnalysis

open InclusionSweeps AliasAnalysis

def kValueFlowMaxFixpointIterations : Nat := 10

/-- Stamp one live allocation with the next site id. -/
def stampSite (progress : Graph × BitVec 32) (id : NodeId) : Graph × BitVec 32 :=
  let (g, next) := progress
  if (g.node id).isDead then progress
  else if (g.node id).kind ≠ .alloc then progress
  else (g.modifyNode id fun n => { n with payload := next.setWidth 64 }, next + 1)

def stampSites (g : Graph) : Graph := ((List.range g.size).foldl stampSite (g, 1)).1

/-- The site id that an allocation is stamped with; stack slots have none. -/
def siteOf (g : Graph) (id : NodeId) : Option (BitVec 32) :=
  if (g.node id).kind = .alloc then some ((g.node id).payload.setWidth 32) else none

/-- The sets of allocation sites. -/
def mayPointTo (g : Graph) : Ending (LocationSets (BitVec 32)) :=
  solve g (siteOf g) none kValueFlowMaxFixpointIterations

/-- The stamped graph, and the number of disjoint pairs. -/
def run (g : Graph) : Graph × Nat :=
  let g := stampSites g
  match mayPointTo g with
  | .settled sets | .sweepLimit sets => (g, countPairs sets fun a b => !meet a b)
  | .visitLimit => (g, 0)

end ValueFlowAnalysis

end Aegis
