import AegisCompiler.GlobalValueNumbering
import AegisCompiler.GraphVerify

/-!
# Collisions of input hashes

The tables of the hash-cons and of value numbering keep a hash of the inputs only.
They tell computations apart exactly when no two that they meet differ in their
inputs alone and have the same hash.
-/

namespace Aegis

namespace HashCons

/-- The arguments of a lookup. -/
structure Request where
  kind : NodeKind
  inputs : List NodeRef
  typeId : TypeId
  payload : NodePayload
  deriving DecidableEq, Repr

namespace Request

def key (r : Request) : HashKey := ⟨r.kind, r.typeId, r.payload, hashInputs r.inputs⟩

/-- The node is exactly the one asked for. -/
def MatchedBy (r : Request) (n : Node) : Prop :=
  n.kind = r.kind ∧ n.inputs = r.inputs ∧ n.typeId = r.typeId ∧ n.payload = r.payload

theorem MatchedBy.unique {r s : Request} {n : Node} (first : r.MatchedBy n)
    (second : s.MatchedBy n) : r = s := by
  obtain ⟨kind, inputs, typeId, payload⟩ := first
  obtain ⟨kind', inputs', typeId', payload'⟩ := second
  cases r
  cases s
  simp_all

end Request

/-- Look up one request after the other, with the answers. -/
def lookups : List Request → HashCons → Graph → List (Request × NodeId) × HashCons × Graph
  | [], table, g => ([], table, g)
  | r :: requests, table, g =>
      let (id, table, g) := table.lookupOrInsert g r.kind r.inputs r.typeId r.payload
      let (answers, table, g) := lookups requests table g
      ((r, id) :: answers, table, g)

/-- Every entry of the table is a node that matches one of the requests, and no two
entries share a node. -/
structure Recorded (requests : List Request) (table : HashCons) (g : Graph) : Prop where
  matched : ∀ key id, table.find key = some id → id < g.size ∧
    ∃ r ∈ requests, r.key = key ∧ r.MatchedBy (g.node id)
  apart : ∀ key key' id, table.find key = some id → table.find key' = some id → key = key'

theorem recorded_nil (requests : List Request) (g : Graph) : Recorded requests [] g := by
  have empty (key : HashKey) : find [] key = none := rfl
  constructor
  · intro key id found
    rw [empty] at found
    exact absurd found (Option.some_ne_none id).symm
  · intro key key' id found
    rw [empty] at found
    exact absurd found (Option.some_ne_none id).symm

/-- The table keeps its entries. -/
def Keeps (table later : HashCons) : Prop :=
  ∀ key id, table.find key = some id → later.find key = some id

theorem Recorded.lookup {requests : List Request} {table : HashCons} {g : Graph}
    (recorded : Recorded requests table g) {r : Request} (asked : r ∈ requests) :
    let result := table.lookupOrInsert g r.kind r.inputs r.typeId r.payload
    Recorded requests result.2.1 result.2.2 ∧ Keeps table result.2.1 ∧
      result.2.1.find r.key = some result.1 := by
  simp only [lookupOrInsert]
  split
  case h_1 existing found => exact ⟨recorded, fun _ _ same => same, found⟩
  case h_2 absent =>
    change table.find r.key = none at absent
    have entry {key : HashKey} {id : NodeId}
        (found : find (table ++ [(r.key, g.size)]) key = some id) :
        table.find key = some id ∨ (key = r.key ∧ id = g.size) := by
      rw [Gvn.find_append] at found
      cases old : table.find key with
      | some other =>
          rw [old] at found
          exact .inl found
      | none =>
          rw [old, Option.none_or] at found
          split at found
          case isTrue same =>
            cases found
            exact .inr ⟨same.symm, rfl⟩
          case isFalse => cases found
    have grown (id : NodeId) (old : id < g.size) :
        (g.makeNode r.kind r.inputs r.typeId r.payload).2.node id = g.node id :=
      g.pushNode_node_of_lt _ old
    have size : (g.makeNode r.kind r.inputs r.typeId r.payload).2.size = g.size + 1 :=
      g.pushNode_size _
    refine ⟨⟨fun key id found => ?_, fun key key' id first second => ?_⟩, ?_, ?_⟩
    · rw [size]
      rcases entry found with old | ⟨rfl, rfl⟩
      · obtain ⟨inside, s, member, same, matched⟩ := recorded.matched key id old
        exact ⟨Nat.lt_succ_of_lt inside, s, member, same, (grown id inside).symm ▸ matched⟩
      · refine ⟨Nat.lt_succ_self _, r, asked, rfl, ?_⟩
        have made := g.pushNode_node_size
          { kind := r.kind, effect := effectClassOf r.kind, typeId := r.typeId,
            payload := r.payload, inputs := r.inputs }
        rw [Graph.makeNode, made]
        exact ⟨rfl, rfl, rfl, rfl⟩
    · have fresh {key : HashKey} (old : table.find key = some g.size) : False :=
        Nat.lt_irrefl _ (recorded.matched key g.size old).1
      rcases entry first with old | ⟨rfl, rfl⟩ <;> rcases entry second with old' | ⟨rfl, same⟩
      · exact recorded.apart key key' id old old'
      · exact (fresh (same ▸ old)).elim
      · exact (fresh old').elim
      · rfl
    · intro key id found
      rw [Gvn.find_append, found]
      rfl
    · rw [Gvn.find_append, absent, Option.none_or]
      exact if_pos rfl

/-- What a sequence of lookups answers. -/
theorem Recorded.lookups {all requests : List Request} {table : HashCons} {g : Graph}
    (recorded : Recorded all table g) (asked : ∀ r ∈ requests, r ∈ all) :
    let result := HashCons.lookups requests table g
    Recorded all result.2.1 result.2.2 ∧ Keeps table result.2.1 ∧
      (∀ answer ∈ result.1, answer.1 ∈ requests ∧
        result.2.1.find answer.1.key = some answer.2) ∧
        ∀ r ∈ requests, ∃ id, (r, id) ∈ result.1 := by
  induction requests generalizing table g with
  | nil => exact ⟨recorded, fun _ _ same => same, nofun, nofun⟩
  | cons r requests ih =>
      obtain ⟨first, keeps, answered⟩ := recorded.lookup (asked r List.mem_cons_self)
      obtain ⟨rest, later, answers, all⟩ := ih first fun s member =>
        asked s (List.mem_cons_of_mem _ member)
      refine ⟨rest, fun key id found => later key id (keeps key id found), ?_, ?_⟩
      · intro answer member
        rcases List.mem_cons.mp member with rfl | member
        · exact ⟨List.mem_cons_self, later _ _ answered⟩
        · exact ⟨List.mem_cons_of_mem _ (answers answer member).1, (answers answer member).2⟩
      · intro s member
        rcases List.mem_cons.mp member with rfl | member
        · exact ⟨_, List.mem_cons_self⟩
        · obtain ⟨id, inside⟩ := all s member
          exact ⟨id, List.mem_cons_of_mem _ inside⟩

/-- The answers are the nodes asked for, and shared by equal requests only. -/
def Exact (answers : List (Request × NodeId)) (g : Graph) : Prop :=
  (∀ answer ∈ answers, answer.1.MatchedBy (g.node answer.2)) ∧
    ∀ answer ∈ answers, ∀ other ∈ answers, answer.2 = other.2 ↔ answer.1 = other.1

/-- Lookups are exact when their keys tell the requests apart. -/
theorem lookups_exact_iff (g : Graph) (requests : List Request) :
    Exact (lookups requests [] g).1 (lookups requests [] g).2.2 ↔
      ∀ r ∈ requests, ∀ s ∈ requests, r.key = s.key → r = s := by
  obtain ⟨recorded, -, answers, all⟩ :=
    (recorded_nil requests g).lookups fun r (member : r ∈ requests) => member
  constructor
  · rintro ⟨-, shared⟩ r inR s inS same
    obtain ⟨id, first⟩ := all r inR
    obtain ⟨id', second⟩ := all s inS
    have found := (answers _ first).2
    rw [show (r, id).1.key = s.key from same, (answers _ second).2] at found
    exact (shared _ first _ second).mp (Option.some.inj found).symm
  · intro apart
    have matched (answer : Request × NodeId) (member : answer ∈ (lookups requests [] g).1) :
        answer.1.MatchedBy ((lookups requests [] g).2.2.node answer.2) := by
      obtain ⟨asked, found⟩ := answers answer member
      obtain ⟨-, r, inR, same, matched⟩ := recorded.matched _ _ found
      rwa [apart r inR answer.1 asked same] at matched
    refine ⟨matched, fun answer member other member' => ⟨fun same => ?_, fun same => ?_⟩⟩
    · have first := matched answer member
      rw [same] at first
      exact first.unique (matched other member')
    · have found := (answers answer member).2
      rw [same, (answers other member').2] at found
      exact (Option.some.inj found).symm

end HashCons

namespace Gvn

/-- Redirected nodes compute the same as their targets exactly when no two nodes
differ in their inputs alone and have the same hash. -/
theorem redirects_exact_iff (g : Graph) :
    (∀ id target, (numbering g).rewriteMap.getD id none = some target →
      Alike (g.node id) (g.node target)) ↔ HashesApart g := by
  simp only [redirected_iff_insideKey]
  rw [FirstAlike.earlier_iff (alike_equivalence g)]
  constructor
  · intro agree id other first second kind typeId payload hash
    have same := agree id other _ (insideKey_eq_some.mpr ⟨first, rfl⟩)
      (insideKey_eq_some.mpr ⟨second, by rw [kind, typeId, payload, hash]⟩)
    exact same.2.2.2
  · intro apart id other key first second
    obtain ⟨numbered, rfl⟩ := insideKey_eq_some.mp first
    obtain ⟨numbered', same⟩ := insideKey_eq_some.mp second
    obtain ⟨kind, typeId, payload, hash⟩ := HashKey.mk.inj same
    exact ⟨kind, typeId, payload, apart id other numbered numbered' kind typeId payload hash⟩

end Gvn

/-- Value numbering never identifies different computations exactly when inputs that
it meets under one kind, type and payload do not collide. -/
theorem value_numbers_exact (g : Graph) (requests : List HashCons.Request) :
    (HashCons.Exact (HashCons.lookups requests [] g).1
        (HashCons.lookups requests [] g).2.2 ↔
      ∀ r ∈ requests, ∀ s ∈ requests, r.kind = s.kind → r.typeId = s.typeId →
        r.payload = s.payload → hashInputs r.inputs = hashInputs s.inputs →
          r.inputs = s.inputs) ∧
      ((∀ id target, (Gvn.numbering g).rewriteMap.getD id none = some target →
        Gvn.Alike (g.node id) (g.node target)) ↔ Gvn.HashesApart g) := by
  refine ⟨?_, Gvn.redirects_exact_iff g⟩
  rw [HashCons.lookups_exact_iff]
  constructor
  · intro apart r inR s inS kind typeId payload hash
    have key : r.key = s.key := by
      rw [HashCons.Request.key, HashCons.Request.key, kind, typeId, payload, hash]
    exact congrArg HashCons.Request.inputs (apart r inR s inS key)
  · intro apart r inR s inS key
    obtain ⟨kind, typeId, payload, hash⟩ := HashKey.mk.inj key
    have inputs := apart r inR s inS kind typeId payload hash
    cases r
    cases s
    cases kind
    cases inputs
    cases typeId
    cases payload
    rfl

/-- The inputs of a phi of the region 16. -/
def fourteen : List NodeRef :=
  [some 16, some 1, some 6, some 11, some 1, some 12, some 12, some 14, some 11, some 9,
    some 2, some 12, some 10, some 2, some 1]

/-- Other inputs with the same hash. -/
def fourteenOthers : List NodeRef :=
  [some 16, some 12, some 7, some 12, some 3, some 12, some 8, some 12, some 9, some 1,
    some 14, some 15, some 3, some 7, some 3]

/-- The start node, the parameters 1 to 15, a region, a phi of some parameters, and a phi
of others, which is returned. -/
def returningPhi : Graph :=
  let g := (List.range 15).foldl (fun g i =>
    (g.makeNode .parameter [some 0] 5 (BitVec.ofNat 64 i)).2) Graph.fresh
  let g := (g.makeRegion (List.replicate 14 (some 0))).2
  let g := (g.makeNode .phi fourteen 5 0).2
  let g := (g.makeNode .phi fourteenOthers 5 0).2
  (g.makeReturn (some 16) (some 0) (some 18)).2

/-- Two lookups with different inputs return one node, and the pass returns the phi of the
wrong parameters. -/
theorem phis_identified :
    ((HashCons.lookups [⟨.phi, fourteen, 5, 0⟩, ⟨.phi, fourteenOthers, 5, 0⟩] []
        Graph.fresh).1.map Prod.snd = [1, 1] ∧ fourteen ≠ fourteenOthers) ∧
      returningPhi.verify = none ∧
        (Gvn.numbering returningPhi).rewriteMap.getD 18 none = some 17 ∧
          ¬ Gvn.Alike (returningPhi.node 18) (returningPhi.node 17) ∧
            ((Gvn.run returningPhi).1.node 19).inputs = [some 16, some 0, some 17] := by
  have inputs : (returningPhi.node 18).inputs ≠ (returningPhi.node 17).inputs := by
    decide +kernel
  exact ⟨⟨by decide +kernel, by decide⟩, by decide +kernel, by decide +kernel,
    fun alike => inputs alike.2.2.2, by decide +kernel⟩

end Aegis
