import AegisCompiler.Detours
import AegisCompiler.SeaOfNodesGraph
import Mathlib.Data.List.Nodup
import Mathlib.Data.List.Pairwise

/-!
# Packable groups

The pass tags the additions, subtractions and multiplications of one type as a group that can be
packed when no two of them are joined by a user edge.  Whether one of them reaches another over
nodes in between is not looked at.
-/

namespace Aegis

namespace SLPVectorization

open Relation (TransGen)
open Detours (Detour)

/-- The least number of nodes in a group. -/
def kSlpMinPackableNodes : Nat := 4

/-- Neither of the nodes is among the users of the other one. -/
def independent (g : Graph) (a b : NodeId) : Bool :=
  !(g.usersSnapshot a).contains b && !(g.usersSnapshot b).contains a

/-- The live pure nodes of one kind and type. -/
structure Group where
  kind : NodeKind
  ty : TypeId
  nodes : List NodeId
  deriving DecidableEq, Repr

/-- Append a node to the first group of its kind and type, or open a new one. -/
def addMember (kind : NodeKind) (ty : TypeId) (id : NodeId) : List Group → List Group
  | [] => [⟨kind, ty, [id]⟩]
  | grp :: others =>
      if grp.kind = kind ∧ grp.ty = ty then
        { grp with nodes := grp.nodes ++ [id] } :: others
      else
        grp :: addMember kind ty id others

/-- Collect one node, unless it is dead, not pure, or of another kind. -/
def collect (g : Graph) (groups : List Group) (id : NodeId) : List Group :=
  let n := g.node id
  if n.isDead then groups
  else if !n.isPure then groups
  else if n.kind ≠ .add ∧ n.kind ≠ .sub ∧ n.kind ≠ .mul then groups
  else addMember n.kind n.typeId id groups

/-- All pairs of a group are independent. -/
def allIndependent (g : Graph) : List NodeId → Bool
  | [] => true
  | id :: others => others.all (independent g id) && allIndependent g others

/-- Tag the members of a group that can be packed.  The tagged groups are listed here; the source
counts them. -/
def tagGroup (progress : Graph × List Group) (grp : Group) : Graph × List Group :=
  let (g, tagged) := progress
  if grp.nodes.length < kSlpMinPackableNodes then progress
  else if !allIndependent g grp.nodes then progress
  else (grp.nodes.foldl (fun h id => h.setFlag id .isLowered) g, tagged ++ [grp])

def collectGroups (g : Graph) : List Group := (List.range g.size).foldl (collect g) []

def run (g : Graph) : Graph × List Group := (collectGroups g).foldl tagGroup (g, [])

/-- The kind and the type of a group. -/
def Group.key (grp : Group) : NodeKind × TypeId := (grp.kind, grp.ty)

/-- The nodes that are collected. -/
def isCandidate (n : Node) : Bool :=
  !n.isDead && n.isPure && (n.kind = .add || n.kind = .sub || n.kind = .mul)

/-- A class of nodes below a bound. -/
def classBelow (g : Graph) (bound : Nat) (key : NodeKind × TypeId) : List NodeId :=
  (List.range bound).filter fun id =>
    isCandidate (g.node id) && ((g.node id).kind, (g.node id).typeId) = key

/-- The live pure additions, subtractions or multiplications of one kind and type. -/
def classOf (g : Graph) (key : NodeKind × TypeId) : List NodeId := classBelow g g.size key

variable {g : Graph} {kind : NodeKind} {ty : TypeId} {id : NodeId} {groups : List Group}

theorem collect_eq (g : Graph) (groups : List Group) (id : NodeId) :
    collect g groups id =
      if isCandidate (g.node id) then addMember (g.node id).kind (g.node id).typeId id groups
      else groups := by
  have kinds : (¬((g.node id).kind ≠ .add ∧ (g.node id).kind ≠ .sub ∧ (g.node id).kind ≠ .mul)) ↔
      (g.node id).kind = .add ∨ (g.node id).kind = .sub ∨ (g.node id).kind = .mul := by
    tauto
  by_cases dead : (g.node id).isDead
  · simp [collect, isCandidate, dead]
  by_cases pure_ : (g.node id).isPure
  · simp only [collect, isCandidate, dead, pure_, Bool.not_true, Bool.not_false, if_false,
      Bool.true_and, Bool.or_eq_true, decide_eq_true_eq, or_assoc, ← kinds, Bool.false_eq_true,
      ite_not]
  · simp [collect, isCandidate, dead, pure_]

theorem keys_addMember :
    (addMember kind ty id groups).map Group.key =
      if (kind, ty) ∈ groups.map Group.key then groups.map Group.key
      else groups.map Group.key ++ [(kind, ty)] := by
  induction groups with
  | nil => rfl
  | cons grp others ih =>
      rw [addMember]
      split
      case isTrue same =>
        have here : grp.key = (kind, ty) := Prod.ext same.1 same.2
        simp [Group.key, same]
      case isFalse other =>
        have elsewhere : (kind, ty) ≠ grp.key := fun equal =>
          other ⟨(congrArg Prod.fst equal).symm, (congrArg Prod.snd equal).symm⟩
        rw [List.map_cons, ih, List.map_cons]
        by_cases known : (kind, ty) ∈ others.map Group.key
        · rw [if_pos known, if_pos (List.mem_cons_of_mem _ known)]
        · rw [if_neg known, if_neg fun listed => ?_, List.cons_append]
          exact (List.mem_cons.mp listed).elim elsewhere known

/-- A group with the new node is an old one with it behind, or is new itself. -/
theorem mem_addMember {grp : Group} (nodup : (groups.map Group.key).Nodup)
    (found : grp ∈ addMember kind ty id groups) :
    (grp.key ≠ (kind, ty) ∧ grp ∈ groups) ∨
      (grp.key = (kind, ty) ∧
        ((∃ old ∈ groups, old.key = (kind, ty) ∧ grp.nodes = old.nodes ++ [id]) ∨
          ((kind, ty) ∉ groups.map Group.key ∧ grp.nodes = [id]))) := by
  induction groups with
  | nil =>
      rw [addMember, List.mem_singleton] at found
      subst found
      exact .inr ⟨rfl, .inr ⟨List.not_mem_nil, rfl⟩⟩
  | cons head others ih =>
      rw [List.map_cons, List.nodup_cons] at nodup
      rw [addMember] at found
      split at found
      case isTrue same =>
        have here : head.key = (kind, ty) := Prod.ext same.1 same.2
        rcases List.mem_cons.mp found with rfl | behind
        · exact .inr ⟨here, .inl ⟨head, List.mem_cons_self, here, rfl⟩⟩
        · refine .inl ⟨fun equal => nodup.1 ?_, List.mem_cons_of_mem _ behind⟩
          rw [here, ← equal]
          exact List.mem_map_of_mem behind
      case isFalse other =>
        have elsewhere : head.key ≠ (kind, ty) := fun equal =>
          other ⟨congrArg Prod.fst equal, congrArg Prod.snd equal⟩
        rcases List.mem_cons.mp found with rfl | behind
        · exact .inl ⟨elsewhere, List.mem_cons_self⟩
        · rcases ih nodup.2 behind with ⟨apart, known⟩ | ⟨same, ⟨old, known, rest⟩ | ⟨none, only⟩⟩
          · exact .inl ⟨apart, List.mem_cons_of_mem _ known⟩
          · exact .inr ⟨same, .inl ⟨old, List.mem_cons_of_mem _ known, rest⟩⟩
          · refine .inr ⟨same, .inr ⟨?_, only⟩⟩
            rw [List.map_cons, List.mem_cons, not_or]
            exact ⟨Ne.symm elsewhere, none⟩

/-- The nodes below a bound are collected: every group is a class, and every class with a node
has its group. -/
structure Collected (g : Graph) (bound : Nat) (groups : List Group) : Prop where
  nodup : (groups.map Group.key).Nodup
  nodes : ∀ grp ∈ groups, grp.nodes = classBelow g bound grp.key
  found : ∀ key, classBelow g bound key ≠ [] → key ∈ groups.map Group.key

theorem classBelow_succ (g : Graph) (bound : Nat) (key : NodeKind × TypeId) :
    classBelow g (bound + 1) key = classBelow g bound key ++
      if isCandidate (g.node bound) ∧ ((g.node bound).kind, (g.node bound).typeId) = key
      then [bound] else [] := by
  rw [classBelow, List.range_succ, List.filter_append, ← classBelow, List.filter_singleton]
  congr 1
  simp

theorem Collected.step {bound : Nat} (collected : Collected g bound groups) :
    Collected g (bound + 1) (collect g groups bound) := by
  rw [collect_eq]
  split
  case isFalse other =>
    have same (key : NodeKind × TypeId) :
        classBelow g (bound + 1) key = classBelow g bound key := by
      rw [classBelow_succ, if_neg fun candidate => other candidate.1, List.append_nil]
    refine ⟨collected.nodup, fun grp known => ?_, fun key => ?_⟩
    · rw [same]
      exact collected.nodes grp known
    · rw [same]
      exact collected.found key
  case isTrue candidate =>
    constructor
    · rw [keys_addMember]
      split
      case isTrue => exact collected.nodup
      case isFalse new =>
        refine List.nodup_append.mpr ⟨collected.nodup, List.nodup_singleton _, ?_⟩
        intro key known key' last equal
        rw [equal, List.mem_singleton.mp last] at known
        exact new known
    · intro grp known
      rw [classBelow_succ]
      rcases mem_addMember collected.nodup known with
        ⟨apart, old⟩ | ⟨same, ⟨old, known, equal, nodes⟩ | ⟨new, nodes⟩⟩
      · rw [if_neg fun here => apart here.2.symm, List.append_nil]
        exact collected.nodes grp old
      · rw [if_pos ⟨candidate, same.symm⟩, nodes, collected.nodes old known, same, equal]
      · rw [if_pos ⟨candidate, same.symm⟩, nodes]
        have empty : classBelow g bound grp.key = [] := by
          by_contra some_
          exact new (same ▸ collected.found _ some_)
        rw [empty, List.nil_append]
    · intro key some_
      rw [keys_addMember]
      rw [classBelow_succ] at some_
      by_cases here : ((g.node bound).kind, (g.node bound).typeId) = key
      · split
        case isTrue known => exact here ▸ known
        case isFalse =>
          rw [here]
          exact List.mem_append_right _ (List.mem_singleton_self _)
      · rw [if_neg fun both => here both.2, List.append_nil] at some_
        have known := collected.found key some_
        split
        case isTrue => exact known
        case isFalse => exact List.mem_append_left _ known

theorem collected_groups (g : Graph) : Collected g g.size (collectGroups g) := by
  have upTo (bound : Nat) : Collected g bound ((List.range bound).foldl (collect g) []) := by
    induction bound with
    | zero => exact ⟨List.nodup_nil, nofun, fun _ some_ => absurd rfl some_⟩
    | succ bound ih =>
        rw [List.range_succ, List.foldl_append]
        exact ih.step
  exact upTo g.size

/-- A node is among the users of another one. -/
def Uses (g : Graph) (a b : NodeId) : Prop := b ∈ g.usersSnapshot a

/-- No node of a list is reached from another one along the user edges. -/
def Unreached (g : Graph) (nodes : List NodeId) : Prop :=
  ∀ a ∈ nodes, ∀ b ∈ nodes, a ≠ b → ¬TransGen (Uses g) a b

/-- No node of a list uses another one directly. -/
def Unjoined (g : Graph) (nodes : List NodeId) : Prop :=
  ∀ a ∈ nodes, ∀ b ∈ nodes, a ≠ b → ¬Uses g a b

/-- No node of a list is reached from another one through nodes outside of the list. -/
def NoDetour (g : Graph) (nodes : List NodeId) : Prop :=
  ∀ a ∈ nodes, ∀ b ∈ nodes, a ≠ b → ¬Detour (Uses g) (· ∈ nodes) a b

theorem independent_iff {a b : NodeId} : independent g a b ↔ ¬Uses g a b ∧ ¬Uses g b a := by
  simp [independent, Uses]

theorem allIndependent_iff {nodes : List NodeId} :
    allIndependent g nodes ↔ nodes.Pairwise fun a b => independent g a b := by
  induction nodes with
  | nil => simp [allIndependent]
  | cons id others ih => simp [allIndependent, ih]

theorem allIndependent_iff_unjoined {nodes : List NodeId} (nodup : nodes.Nodup) :
    allIndependent g nodes ↔ Unjoined g nodes := by
  rw [allIndependent_iff]
  constructor
  · intro pairs a inA b inB apart
    have : Std.Symm fun a b => (independent g a b : Prop) :=
      ⟨fun a b both => independent_iff.mpr (independent_iff.mp both).symm⟩
    exact (independent_iff.mp (pairs.forall inA inB apart)).1
  · intro unjoined
    refine nodup.pairwise_of_forall_ne fun a inA b inB apart => ?_
    exact independent_iff.mpr ⟨unjoined a inA b inB apart, unjoined b inB a inA apart.symm⟩

theorem outputs_tagMembers (nodes : List NodeId) (g : Graph) :
    (nodes.foldl (fun h id => h.setFlag id .isLowered) g).outputs = g.outputs := by
  induction nodes generalizing g with
  | nil => rfl
  | cons id others ih => exact ih _

theorem allIndependent_congr {g h : Graph} (same : h.outputs = g.outputs) (nodes : List NodeId) :
    allIndependent h nodes = allIndependent g nodes := by
  have pair : independent h = independent g := by
    funext a b
    simp only [independent, Graph.usersSnapshot, same]
  induction nodes with
  | nil => rfl
  | cons id others ih => simp only [allIndependent, ih, pair]

/-- The groups that are large enough and whose pairs are independent. -/
def packable (g : Graph) (grp : Group) : Bool :=
  decide (kSlpMinPackableNodes ≤ grp.nodes.length) && allIndependent g grp.nodes

/-- Tagging does not change what can be packed. -/
theorem tagged_foldl (groups : List Group) (progress : Graph × List Group)
    (same : progress.1.outputs = g.outputs) :
    (groups.foldl tagGroup progress).2 = progress.2 ++ groups.filter (packable g) := by
  induction groups generalizing progress with
  | nil => simp
  | cons grp others ih =>
      have pairs := allIndependent_congr same grp.nodes
      rw [List.foldl_cons, List.filter_cons, packable]
      by_cases short : grp.nodes.length < kSlpMinPackableNodes
      · have kept : tagGroup progress grp = progress := if_pos short
        rw [kept, ih progress same]
        simp [Nat.not_le_of_lt short]
      · by_cases joined : allIndependent g grp.nodes
        · have tagged : tagGroup progress grp =
              (grp.nodes.foldl (fun h id => h.setFlag id .isLowered) progress.1,
                progress.2 ++ [grp]) := by
            simp [tagGroup, short, pairs, joined]
          rw [tagged, ih _ ((outputs_tagMembers _ _).trans same)]
          simp [Nat.le_of_not_lt short, joined]
        · have kept : tagGroup progress grp = progress := by
            simp [tagGroup, pairs, joined]
          rw [kept, ih progress same]
          simp [joined]

theorem nodup_classOf (key : NodeKind × TypeId) : (classOf g key).Nodup :=
  List.nodup_range.filter _

/-- The tagged groups are the classes of at least the least size without a direct edge. -/
theorem mem_run_iff {nodes : List NodeId} :
    (∃ grp ∈ (run g).2, grp.nodes = nodes) ↔
      ∃ key, nodes = classOf g key ∧ kSlpMinPackableNodes ≤ nodes.length ∧ Unjoined g nodes := by
  have collected := collected_groups g
  rw [run, tagged_foldl (collectGroups g) (g, []) rfl, List.nil_append]
  simp only [List.mem_filter, packable, Bool.and_eq_true, decide_eq_true_eq]
  constructor
  · rintro ⟨grp, ⟨known, large, pairs⟩, rfl⟩
    have isClass : grp.nodes = classOf g grp.key := collected.nodes grp known
    refine ⟨grp.key, isClass, large, ?_⟩
    rw [isClass] at pairs ⊢
    exact (allIndependent_iff_unjoined (nodup_classOf _)).mp pairs
  · rintro ⟨key, rfl, large, unjoined⟩
    have some_ : classOf g key ≠ [] := by
      intro empty
      rw [empty] at large
      exact absurd large (by decide)
    obtain ⟨grp, known, rfl⟩ := List.mem_map.mp (collected.found key some_)
    have isClass : grp.nodes = classOf g grp.key := collected.nodes grp known
    refine ⟨grp, ⟨known, isClass ▸ large, ?_⟩, isClass⟩
    rw [isClass]
    exact (allIndependent_iff_unjoined (nodup_classOf _)).mpr unjoined

/-- The members of every tagged group are independent of each other if and only if no large
class without direct edges has a detour. -/
theorem tagged_unreached_iff (g : Graph) :
    (∀ grp ∈ (run g).2, Unreached g grp.nodes) ↔
      ∀ key, kSlpMinPackableNodes ≤ (classOf g key).length → Unjoined g (classOf g key) →
        NoDetour g (classOf g key) := by
  have parts (nodes : List NodeId) :
      Unreached g nodes ↔ Unjoined g nodes ∧ NoDetour g nodes := by
    rw [Unreached, Detours.unreached_iff]
    constructor
    · intro none
      exact ⟨fun a inA b inB apart => (none a inA b inB apart).1,
        fun a inA b inB apart => (none a inA b inB apart).2⟩
    · rintro ⟨unjoined, noDetour⟩ a inA b inB apart
      exact ⟨unjoined a inA b inB apart, noDetour a inA b inB apart⟩
  constructor
  · intro unreached key large unjoined
    obtain ⟨grp, tagged, isClass⟩ := mem_run_iff.mpr ⟨key, rfl, large, unjoined⟩
    rw [← isClass]
    exact ((parts _).mp (unreached grp tagged)).2
  · intro noDetour grp tagged
    obtain ⟨key, isClass, large, unjoined⟩ := mem_run_iff.mp ⟨grp, tagged, rfl⟩
    rw [isClass] at large unjoined ⊢
    exact (parts _).mpr ⟨unjoined, noDetour key large unjoined⟩

/-- Four additions; the third of them adds to a product of the first. -/
def dependentSums : Graph :=
  let (x, g) := Graph.fresh.makeNode .parameter [] 0 0
  let (y, g) := g.makeNode .parameter [] 0 0
  let (sum, g) := g.makeBinop .add (some x) (some y) 0
  let (product, g) := g.makeBinop .mul (some sum) (some y) 0
  let (_, g) := g.makeBinop .add (some x) (some x) 0
  let (last, g) := g.makeBinop .add (some product) (some x) 0
  let (_, g) := g.makeBinop .add (some y) (some y) 0
  (g.makeReturn (some kStartNodeId) none (some last)).2

theorem tagged_reached : ¬∀ g, ∀ grp ∈ (run g).2, Unreached g grp.nodes := by
  intro unreached
  have path : TransGen (Uses dependentSums) 3 6 :=
    .tail (.single (show 4 ∈ dependentSums.usersSnapshot 3 by decide))
      (show 6 ∈ dependentSums.usersSnapshot 4 by decide)
  have tagged : (⟨.add, 0, [3, 5, 6, 7]⟩ : Group) ∈ (run dependentSums).2 := by decide
  exact unreached dependentSums _ tagged 3 (by decide) 6 (by decide) (by decide) path

end SLPVectorization

end Aegis
