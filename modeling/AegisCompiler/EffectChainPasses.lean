import AegisCompiler.InductionVariables
import AegisCompiler.GraphOperations

/-!
# The passes along the effect chain

Reference counting, common subexpressions of loads and dead stores: three passes that
follow the effects from the start node.  Each of them makes an effect projection of its own
to start from.
-/

namespace Aegis

namespace EffectChain

/-- The effect projection that a pass makes for the first start node. -/
def startEffect (g : Graph) : Option (NodeId × Graph) :=
  ((List.range g.size).find? fun id => decide ((g.node id).kind = .start)).map fun id =>
    g.makeProj (some id) 1

/-- The next effect: the first listed user that is not pure and reads this one. -/
def nextEffect (g : Graph) (cursor : NodeId) : Option NodeId :=
  (g.usersSnapshot cursor).find? fun user =>
    decide (user < g.size) && !(g.node user).isPure &&
      decide ((g.node user).effIn = some cursor)

/-- Follow the effects from a node, visiting each of them: the state at the end, and the
visited nodes.  The first argument bounds the number of visits. -/
def walk {S : Type} (graphOf : S → Graph) (visit : S → NodeId → S) :
    Nat → S → NodeId → S × List NodeId
  | 0, s, _ => (s, [])
  | fuel + 1, s, cursor =>
      match nextEffect (graphOf s) cursor with
      | none => (s, [])
      | some next =>
          let rest := walk graphOf visit fuel (visit s next) next
          (rest.1, next :: rest.2)

/-- The walk of a pass from its own effect projection; the last argument but one bounds the
visits. -/
def walkFromStart {S : Type} (init : Graph → S) (graphOf : S → Graph)
    (visit : S → NodeId → S) (fuel : Graph → Nat) (g : Graph) : S × List NodeId :=
  match startEffect g with
  | none => (init g, [])
  | some (effect, g) => walk graphOf visit (fuel g) (init g) effect

/-- The pointer of a memory operation. -/
def pointerOf (n : Node) : NodeRef := n.dataIns.getD 0 none

end EffectChain

open EffectChain (walkFromStart pointerOf)

namespace RcOptimization

def kRcOptMaxOpsPerFunction : Nat := 4096

/-- The graph, the number of removed operations, and the last call with its pointer. -/
structure Progress where
  graph : Graph
  removed : Nat := 0
  lastRcCall : NodeRef := none
  lastRcPtr : NodeRef := none

/-- A call removes the last one together with itself when both take the same pointer; any
other effect in between breaks the pair. -/
def visit (p : Progress) (cursor : NodeId) : Progress :=
  let node := p.graph.node cursor
  if node.kind = .callAltered then
    match node.dataIns with
    | [] => p
    | ptr :: _ =>
        match p.lastRcCall with
        | some last =>
            if p.lastRcPtr = ptr then
              { graph := (p.graph.markDead last).markDead cursor, removed := p.removed + 2 }
            else { p with lastRcCall := some cursor, lastRcPtr := ptr }
        | none => { p with lastRcCall := some cursor, lastRcPtr := ptr }
  else { p with lastRcCall := none, lastRcPtr := none }

/-- The walk of the pass, within its budget. -/
def walked : Graph → Progress × List NodeId :=
  walkFromStart (fun g => { graph := g }) Progress.graph visit
    fun _ => kRcOptMaxOpsPerFunction

def run (g : Graph) : Graph × Nat :=
  let p := (walked g).1
  (p.graph, p.removed)

end RcOptimization

namespace Cse

/-- The graph, the number of removed loads, and the last load of each pointer that no store
has overwritten. -/
structure Progress where
  graph : Graph
  removed : Nat := 0
  lastLoadPerPtr : NodeId → Option NodeId := fun _ => none

def visit (p : Progress) (cursor : NodeId) : Progress :=
  let node := p.graph.node cursor
  if node.kind = .load then
    match pointerOf node with
    | none => p
    | some ptr =>
        match p.lastLoadPerPtr ptr with
        | some prevLoad =>
            { p with
              graph := (InductionVariables.replaceUses p.graph cursor prevLoad).markDead cursor
              removed := p.removed + 1 }
        | none =>
            { p with lastLoadPerPtr := Function.update p.lastLoadPerPtr ptr (some cursor) }
  else if node.kind = .store then
    match pointerOf node with
    | none => p
    | some ptr => { p with lastLoadPerPtr := Function.update p.lastLoadPerPtr ptr none }
  else p

/-- The walk of the pass.  It moves on to a node that reads the one before, so that no node
is visited twice. -/
def walked : Graph → Progress × List NodeId :=
  walkFromStart (fun g => { graph := g }) Progress.graph visit fun g => g.size + 1

def run (g : Graph) : Graph × Nat :=
  let p := (walked g).1
  (p.graph, p.removed)

end Cse

namespace Dse

/-- Some live load reads from the pointer. -/
def isReadFrom (g : Graph) (ptr : NodeId) : Bool :=
  (List.range g.size).any fun id =>
    !(g.node id).isDead && decide ((g.node id).kind = .load) &&
      decide (pointerOf (g.node id) = some ptr)

/-- The graph, the number of removed stores, and the last store to each pointer that
nothing has read. -/
structure Progress where
  graph : Graph
  removed : Nat := 0
  lastStorePerPtr : NodeId → Option NodeId := fun _ => none

/-- The kinds that may read or write anything. -/
def clearsStores (kind : NodeKind) : Bool :=
  match kind with
  | .atomicLoad | .atomicStore | .atomicRmw | .fence | .callAltered | .callCrowded => true
  | _ => false

/-- Look at one effect; the first argument tells which pointers are read at all. -/
def visit (readFrom : NodeId → Bool) (p : Progress) (cursor : NodeId) : Progress :=
  let node := p.graph.node cursor
  if node.kind = .store then
    match pointerOf node with
    | none => p
    | some ptr =>
        if readFrom ptr = false then
          { p with graph := p.graph.markDead cursor, removed := p.removed + 1 }
        else
          let table := Function.update p.lastStorePerPtr ptr (some cursor)
          match p.lastStorePerPtr ptr with
          | some prev =>
              { graph := p.graph.markDead prev
                removed := p.removed + 1
                lastStorePerPtr := table }
          | none => { p with lastStorePerPtr := table }
  else if node.kind = .load then
    match pointerOf node with
    | none => p
    | some ptr => { p with lastStorePerPtr := Function.update p.lastStorePerPtr ptr none }
  else if clearsStores node.kind then { p with lastStorePerPtr := fun _ => none }
  else p

/-- The walk of the pass. -/
def walked (g : Graph) : Progress × List NodeId :=
  walkFromStart (fun g => { graph := g }) Progress.graph (visit (isReadFrom g))
    (fun g => g.size + 1) g

def run (g : Graph) : Graph × Nat :=
  let p := (walked g).1
  (p.graph, p.removed)

end Dse

namespace EffectChain

variable {g : Graph}

/-- Some node names the next id as its effect before there is such a node. -/
def NamesNext (g : Graph) : Prop :=
  ∃ user ∈ g.usersSnapshot g.size, user < g.size ∧ (g.node user).isPure = false ∧
    (g.node user).effIn = some g.size

/-- A pass that finds a start node makes the next node. -/
theorem startEffect_of_start {start : NodeId} (inside : start < g.size)
    (isStart : (g.node start).kind = .start) :
    ∃ source, source < g.size ∧ startEffect g = some (g.makeProj (some source) 1) := by
  cases found : (List.range g.size).find? fun id => decide ((g.node id).kind = .start) with
  | none =>
      have other := List.find?_eq_none.mp found start (List.mem_range.mpr inside)
      exact absurd (decide_eq_true isStart) other
  | some source =>
      refine ⟨source, List.mem_range.mp (List.mem_of_find?_eq_some found), ?_⟩
      rw [startEffect, found]
      rfl

/-- Nothing uses the projection that a pass has just made. -/
theorem nextEffect_fresh {source next : NodeId}
    (found : nextEffect (g.makeProj (some source) 1).2 g.size = some next) :
    next ∈ g.usersSnapshot g.size ∧ next < g.size ∧ (g.node next).isPure = false ∧
      (g.node next).effIn = some g.size := by
  have listed := List.mem_of_find?_eq_some found
  have holds := List.find?_some found
  simp only [Bool.and_eq_true, decide_eq_true_eq, Bool.not_eq_true'] at holds
  obtain ⟨⟨below, impure⟩, effIn⟩ := holds
  -- The projection itself is pure.
  have old : next ≠ g.size := by
    rintro rfl
    rw [Graph.makeProj, Graph.makeNode, Graph.pushNode_node_size] at impure
    cases impure
  have small : next < g.size := by
    rw [Graph.makeProj, Graph.makeNode, Graph.pushNode_size] at below
    exact Nat.lt_of_le_of_ne (Nat.le_of_lt_succ below) old
  rw [Graph.makeProj, Graph.makeNode, g.pushNode_node_of_lt _ small] at impure effIn
  refine ⟨?_, small, impure, effIn⟩
  rw [← List.count_pos_iff] at listed ⊢
  rwa [Graph.makeProj, Graph.makeNode, Graph.pushNode_users_count, if_neg old,
    Nat.add_zero] at listed

theorem nextEffect_of_namesNext (names : NamesNext g) (source : NodeId) :
    nextEffect (g.makeProj (some source) 1).2 g.size ≠ none := by
  obtain ⟨user, listed, below, impure, effIn⟩ := names
  intro none
  have refused := List.find?_eq_none.mp none user (by
    rw [← List.count_pos_iff] at listed ⊢
    rw [Graph.makeProj, Graph.makeNode, Graph.pushNode_users_count]
    exact Nat.lt_add_right _ listed)
  rw [Graph.makeProj, Graph.makeNode, g.pushNode_node_of_lt _ below, Graph.pushNode_size]
    at refused
  simp [Nat.lt_succ_of_lt below, impure, effIn] at refused

/-- Unless a node names the next id in advance, a pass visits nothing. -/
theorem nextEffect_eq_none (unnamed : ¬NamesNext g) (source : NodeId) :
    nextEffect (g.makeProj (some source) 1).2 g.size = none := by
  by_contra some
  obtain ⟨next, found⟩ := Option.ne_none_iff_exists'.mp some
  exact unnamed ⟨next, nextEffect_fresh found⟩

section Walks

variable {S : Type} {init : Graph → S} {graphOf : S → Graph} {visit : S → NodeId → S}
  {fuel : Graph → Nat}

/-- A walk that visits anything starts at a node that named the projection in advance. -/
theorem walkFromStart_head (keeps : ∀ g, graphOf (init g) = g) {start first : NodeId}
    {rest : List NodeId} (inside : start < g.size) (isStart : (g.node start).kind = .start)
    (visited : (walkFromStart init graphOf visit fuel g).2 = first :: rest) :
    (g.node first).effIn = some g.size := by
  obtain ⟨source, -, made⟩ := startEffect_of_start inside isStart
  rw [walkFromStart, made] at visited
  simp only at visited
  cases allowed : fuel (g.makeProj (some source) 1).2 with
  | zero =>
      rw [allowed] at visited
      cases visited
  | succ left =>
      rw [allowed, walk, keeps] at visited
      split at visited
      case h_1 => cases visited
      case h_2 next found =>
        cases visited
        exact (nextEffect_fresh found).2.2.2

/-- Unless a node names the projection in advance, nothing is visited. -/
theorem walkFromStart_of_not_namesNext (keeps : ∀ g, graphOf (init g) = g)
    (unnamed : ¬NamesNext g) : (walkFromStart init graphOf visit fuel g).2 = [] := by
  cases made : startEffect g with
  | none => rw [walkFromStart, made]
  | some entry =>
      obtain ⟨source, -, same⟩ := Option.map_eq_some_iff.mp made
      rw [walkFromStart, made]
      obtain ⟨effect, h⟩ := entry
      have here : effect = g.size := (congrArg Prod.fst same).symm
      have none : nextEffect h effect = none := by
        have quiet := nextEffect_eq_none unnamed source
        rwa [same, ← here] at quiet
      cases allowed : fuel h with
      | zero => simp only [allowed, walk]
      | succ left => simp only [allowed, walk, keeps, none]

/-- When one does, something is visited. -/
theorem walkFromStart_of_namesNext (keeps : ∀ g, graphOf (init g) = g) {start : NodeId}
    (inside : start < g.size) (isStart : (g.node start).kind = .start) (names : NamesNext g)
    (allowed : ∀ g, fuel g ≠ 0) : (walkFromStart init graphOf visit fuel g).2 ≠ [] := by
  obtain ⟨source, -, made⟩ := startEffect_of_start inside isStart
  intro visited
  obtain ⟨left, enough⟩ := Nat.exists_eq_succ_of_ne_zero (allowed (g.makeProj (some source) 1).2)
  rw [walkFromStart, made] at visited
  simp only at visited
  rw [enough, walk, keeps] at visited
  split at visited
  case h_1 none => exact nextEffect_of_namesNext names source none
  case h_2 => cases visited

end Walks

/-- The live ordered nodes form one chain from an effect projection of the start node
through their effect inputs. -/
structure Chain (g : Graph) (effect : NodeId) (chain : List NodeId) : Prop where
  start : ∃ start, start < g.size ∧ (g.node start).kind = .start ∧
    (g.node effect).kind = .proj ∧ (g.node effect).inputs = [some start] ∧
      (g.node effect).payload.projIndex = 1
  inside : effect < g.size
  linked : (effect :: chain).IsChain fun before after => (g.node after).effIn = some before
  nodup : chain.Nodup
  live : ∀ id, id ∈ chain ↔
    id < g.size ∧ (g.node id).isDead = false ∧ (g.node id).isPure = false

/-- A live node of a kind on this pointer. -/
def Accesses (g : Graph) (kind : NodeKind) (ptr id : NodeId) : Prop :=
  (g.node id).isDead = false ∧ (g.node id).kind = kind ∧ pointerOf (g.node id) = some ptr

/-- No load of the chain is left with an earlier load of the same pointer and no store to it
in between. -/
def NoSecondLoad (g : Graph) (chain : List NodeId) : Prop :=
  ∀ front first mid second back ptr, chain = front ++ first :: mid ++ second :: back →
    Accesses g .load ptr first → Accesses g .load ptr second →
      ∃ id ∈ mid, Accesses g .store ptr id

/-- No store of the chain is left whose pointer is never loaded. -/
def NoUnreadStore (g : Graph) (chain : List NodeId) : Prop :=
  ∀ id ∈ chain, ∀ ptr, Accesses g .store ptr id →
    ∃ reader < g.size, Accesses g .load ptr reader

/-- The walks visit the chain in order, the one of the reference counts up to its budget,
and what they are for is done. -/
structure SeesChain (g : Graph) (chain : List NodeId) : Prop where
  cse : (Cse.walked g).2 = chain
  dse : (Dse.walked g).2 = chain
  rc : (RcOptimization.walked g).2 = chain.take RcOptimization.kRcOptMaxOpsPerFunction
  noSecondLoad : NoSecondLoad (Cse.run g).1 chain
  noUnreadStore : NoUnreadStore (Dse.run g).1 chain

/-- The passes see the chain only when it is empty. -/
theorem seesChain_iff {effect : NodeId} {chain : List NodeId} (ordered : Chain g effect chain) :
    SeesChain g chain ↔ chain = [] ∧ ¬NamesNext g := by
  obtain ⟨start, inside, isStart, -⟩ := ordered.start
  constructor
  · intro sees
    have empty : chain = [] := by
      cases chain with
      | nil => rfl
      | cons first rest =>
          have effIn := walkFromStart_head (fun _ => rfl) inside isStart sees.cse
          rw [(List.isChain_cons_cons.mp ordered.linked).1] at effIn
          exact absurd (Option.some.inj effIn) (Nat.ne_of_lt ordered.inside)
    refine ⟨empty, fun names => ?_⟩
    exact walkFromStart_of_namesNext (fun _ => rfl) inside isStart names
      (fun _ => Nat.succ_ne_zero _) (sees.cse.trans empty)
  · rintro ⟨rfl, unnamed⟩
    have quiet {S : Type} {init : Graph → S} {graphOf : S → Graph} {visit : S → NodeId → S}
        {fuel : Graph → Nat} (keeps : ∀ g, graphOf (init g) = g) :
        (walkFromStart init graphOf visit fuel g).2 = [] :=
      walkFromStart_of_not_namesNext keeps unnamed
    refine ⟨quiet fun _ => rfl, quiet fun _ => rfl, quiet fun _ => rfl, ?_,
      fun id member => absurd member List.not_mem_nil⟩
    intro front first mid second back ptr split
    simp at split

/-- Control and effect projections of the start node, and an allocation with two loads. -/
def loadedTwice : Graph :=
  let g := Graph.fresh
  let (ctrl, g) := g.makeProj (some kStartNodeId) 0
  let (effect, g) := g.makeProj (some kStartNodeId) 1
  let (alloc, g) := g.makeAlloc (some ctrl) (some effect) kInvalidTypeId
  let (first, g) := g.makeLoad (some ctrl) (some alloc) (some alloc) kInvalidTypeId
  (g.makeLoad (some ctrl) (some first) (some alloc) kInvalidTypeId).2

theorem chain_loadedTwice : Chain loadedTwice 2 [3, 4, 5] where
  start := ⟨0, by decide, by decide, by decide, by decide, by decide⟩
  inside := by decide
  linked := by decide
  nodup := by decide
  live := by
    intro id
    by_cases inside : id < 6
    · have all : ∀ id < 6, id ∈ [3, 4, 5] ↔ id < loadedTwice.size ∧
          (loadedTwice.node id).isDead = false ∧ (loadedTwice.node id).isPure = false := by
        decide
      exact all id inside
    · constructor
      · intro member
        have small : ∀ id ∈ [3, 4, 5], id < 6 := by decide
        exact absurd (small id member) inside
      · intro live
        exact absurd live.1 inside

theorem seesChain_iff_loadedTwice :
    SeesChain loadedTwice [3, 4, 5] ↔ [3, 4, 5] = ([] : List NodeId) ∧ ¬NamesNext loadedTwice :=
  seesChain_iff chain_loadedTwice

/-- No walk visits the chain, and the second load stays. -/
theorem loadedTwice_unseen : Chain loadedTwice 2 [3, 4, 5] ∧
    (Cse.walked loadedTwice).2 = [] ∧ (Dse.walked loadedTwice).2 = [] ∧
      (RcOptimization.walked loadedTwice).2 = [] ∧
        ¬NoSecondLoad (Cse.run loadedTwice).1 [3, 4, 5] := by
  refine ⟨chain_loadedTwice, by decide, by decide, by decide, fun claimed => ?_⟩
  obtain ⟨id, member, -⟩ := claimed [3] 4 [] 5 [] 3 rfl
    ⟨by decide, by decide, by decide⟩ ⟨by decide, by decide, by decide⟩
  cases member

end EffectChain

end Aegis
