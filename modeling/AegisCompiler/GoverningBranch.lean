import AegisCompiler.InstrSelCollect
import AegisCompiler.LoweredControl
import AegisCompiler.TypeChecker

/-!
# The branch that governs a region

The selector finds the If of a merge by walking up from both predecessors and
looking for an If that both walks see.  A walk ends at a loop, where an arm has
returned, and after 64 levels.  When only one walk sees an If at all, the first
one that it sees is taken.
-/

namespace Aegis

namespace InstrSel

open Lowerer

/-- The control of an If of the expected shape. -/
def ifCtrl (g : Graph) (ifNode : NodeId) : NodeRef :=
  if kIfInputs ≤ (g.node ifNode).inputs.length then (g.node ifNode).inputs.getD 0 none
  else none

/-- The node is a projection of the If. -/
structure Projects (g : Graph) (ctrl ifNode : NodeId) : Prop where
  inside : ctrl < g.size
  kind : (g.node ctrl).kind = .proj
  source : inputNode g ctrl 0 = some ifNode
  isIf : (g.node ifNode).kind = .ifNode

/-- Walking up from a control reference, through so many levels at most, gets to a
projection of the If. -/
inductive Sees (g : Graph) : Nat → NodeRef → NodeId → Prop where
  | here {d ctrl ifNode} (projects : Projects g ctrl ifNode) :
      Sees g (d + 1) (some ctrl) ifNode
  | above {d ctrl base ifNode} (projects : Projects g ctrl base)
      (rest : Sees g d (ifCtrl g base) ifNode) : Sees g (d + 1) (some ctrl) ifNode
  | region {d ctrl pred ifNode} (inside : ctrl < g.size)
      (kind : (g.node ctrl).kind = .region) (member : pred ∈ (g.node ctrl).inputs)
      (rest : Sees g d pred ifNode) : Sees g (d + 1) (some ctrl) ifNode

/-- Collect an If once. -/
def note (out : List NodeId) (ifNode : NodeId) : List NodeId :=
  if out.contains ifNode then out else out ++ [ifNode]

theorem mem_note {out : List NodeId} {ifNode other : NodeId} :
    other ∈ note out ifNode ↔ other ∈ out ∨ other = ifNode := by
  unfold note
  split
  case isTrue member =>
    have inside := List.contains_iff_mem.mp member
    constructor
    · exact Or.inl
    · rintro (old | rfl)
      · exact old
      · exact inside
  case isFalse => simp

section Walk

variable {g : Graph}

theorem collectIfs_none (d : Nat) (out : List NodeId) : collectIfs g d none out = out := by
  cases d <;> rfl

/-- What one level of the walk does: it stops, collects the If of a projection and
goes on above it, or goes on from the predecessors of a region. -/
theorem collectIfs_cases (d : Nat) (ref : NodeRef) :
    (∀ i, ¬ Sees g (d + 1) ref i) ∧ (∀ out, collectIfs g (d + 1) ref out = out) ∨
      (∃ ctrl base, ref = some ctrl ∧ Projects g ctrl base ∧
        ∀ out, collectIfs g (d + 1) ref out = collectIfs g d (ifCtrl g base) (note out base)) ∨
      ∃ ctrl, ref = some ctrl ∧ ctrl < g.size ∧ (g.node ctrl).kind = .region ∧
        ∀ out, collectIfs g (d + 1) ref out =
          (g.node ctrl).inputs.foldl (fun out pred => collectIfs g d pred out) out := by
  cases found : g.inRange ref with
  | none =>
      refine Or.inl ⟨fun i sees => ?_, fun out => by rw [collectIfs, found]⟩
      cases sees with
      | here projects => simp [Graph.inRange, projects.inside] at found
      | above projects => simp [Graph.inRange, projects.inside] at found
      | region inside => simp [Graph.inRange, inside] at found
  | some ctrl =>
      obtain ⟨rfl, inside⟩ := (g.inRange_some).mp found
      by_cases isProj : (g.node ctrl).kind = .proj
      · have stops (nothing : ∀ i, ¬ Projects g ctrl i) (i : NodeId) :
            ¬ Sees g (d + 1) (some ctrl) i := by
          intro sees
          cases sees with
          | here projects => exact nothing _ projects
          | above projects => exact nothing _ projects
          | region _ kind =>
              rw [isProj] at kind
              cases kind
        cases source : inputNode g ctrl 0 with
        | none =>
            refine Or.inl ⟨stops fun i projects => ?_, fun out => ?_⟩
            · have same := projects.source
              rw [source] at same
              cases same
            · rw [collectIfs, found]
              simp only [isProj, if_true, source]
        | some base =>
            by_cases isIf : (g.node base).kind = .ifNode
            · refine Or.inr (Or.inl ⟨ctrl, base, rfl, ⟨inside, isProj, source, isIf⟩,
                fun out => ?_⟩)
              rw [collectIfs, found]
              simp only [isProj, if_true, source, isIf, ifCtrl]
              split
              · rfl
              · rw [collectIfs_none]
                rfl
            · refine Or.inl ⟨stops fun i projects => ?_, fun out => ?_⟩
              · have same := projects.source
                rw [source, Option.some.injEq] at same
                rw [same] at isIf
                exact isIf projects.isIf
              · rw [collectIfs, found]
                simp only [isProj, if_true, source, isIf, if_false]
      · by_cases isRegion : (g.node ctrl).kind = .region
        · refine Or.inr (Or.inr ⟨ctrl, rfl, inside, isRegion, fun out => ?_⟩)
          rw [collectIfs, found]
          simp only [isRegion, if_true]
          rfl
        · refine Or.inl ⟨fun i sees => ?_, fun out => ?_⟩
          · cases sees with
            | here projects => exact isProj projects.kind
            | above projects => exact isProj projects.kind
            | region _ kind => exact isRegion kind
          · rw [collectIfs, found]
            simp only [isProj, isRegion, if_false]

/-- The walk collects exactly the Ifs that it sees. -/
theorem mem_collectIfs (d : Nat) (ref : NodeRef) (out : List NodeId) (i : NodeId) :
    i ∈ collectIfs g d ref out ↔ i ∈ out ∨ Sees g d ref i := by
  induction d generalizing ref out with
  | zero =>
      have nothing : ¬ Sees g 0 ref i := by
        intro sees
        cases sees
      simp [collectIfs, nothing]
  | succ d ih =>
      rcases collectIfs_cases (g := g) d ref with
        ⟨nothing, same⟩ | ⟨ctrl, base, rfl, projects, same⟩ | ⟨ctrl, rfl, inside, kind, same⟩
      · simp [same, nothing]
      · rw [same, ih, mem_note, or_assoc]
        apply or_congr_right
        constructor
        · rintro (rfl | sees)
          · exact .here projects
          · exact .above projects sees
        · intro sees
          cases sees with
          | here other =>
              left
              have one := projects.source
              rw [other.source] at one
              exact Option.some.inj one
          | above other rest =>
              have one := projects.source
              rw [other.source, Option.some.injEq] at one
              exact Or.inr (one ▸ rest)
          | region _ kind =>
              rw [projects.kind] at kind
              cases kind
      · rw [same]
        have each (refs : List NodeRef) (out : List NodeId) :
            i ∈ refs.foldl (fun out pred => collectIfs g d pred out) out ↔
              i ∈ out ∨ ∃ pred ∈ refs, Sees g d pred i := by
          induction refs generalizing out with
          | nil => simp
          | cons pred refs rest =>
              rw [List.foldl_cons, rest, ih, or_assoc, List.exists_mem_cons_iff]
        rw [each]
        apply or_congr_right
        constructor
        · rintro ⟨pred, member, sees⟩
          exact .region inside kind member sees
        · intro sees
          cases sees with
          | here projects =>
              rw [projects.kind] at kind
              cases kind
          | above projects =>
              rw [projects.kind] at kind
              cases kind
          | region _ _ member rest => exact ⟨_, member, rest⟩

theorem note_append (out : List NodeId) (ifNode : NodeId) :
    ∃ more, note out ifNode = out ++ more := by
  unfold note
  split
  · exact ⟨[], (List.append_nil out).symm⟩
  · exact ⟨[ifNode], rfl⟩

/-- The walk only appends to what it has collected. -/
theorem collectIfs_append (d : Nat) (ref : NodeRef) (out : List NodeId) :
    ∃ more, collectIfs g d ref out = out ++ more := by
  induction d generalizing ref out with
  | zero => exact ⟨[], (List.append_nil out).symm⟩
  | succ d ih =>
      rcases collectIfs_cases (g := g) d ref with
        ⟨-, same⟩ | ⟨ctrl, base, -, -, same⟩ | ⟨ctrl, -, -, -, same⟩
      · exact ⟨[], by rw [same, List.append_nil]⟩
      · obtain ⟨first, noted⟩ := note_append out base
        obtain ⟨more, collected⟩ := ih (ifCtrl g base) (note out base)
        exact ⟨first ++ more, by rw [same, collected, noted, List.append_assoc]⟩
      · rw [same]
        induction (g.node ctrl).inputs generalizing out with
        | nil => exact ⟨[], (List.append_nil out).symm⟩
        | cons pred refs rest =>
            obtain ⟨first, here⟩ := ih pred out
            obtain ⟨more, later⟩ := rest (collectIfs g d pred out)
            exact ⟨first ++ more, by rw [List.foldl_cons, later, here, List.append_assoc]⟩

end Walk

/-- The nodes of one arm of an If: they lead up to each other, and only an If of the
arm leads up to the projection where the arm starts. -/
structure Arm (g : Graph) (ifNode proj lo hi : NodeId) : Prop where
  before : ifNode < lo
  start : proj < lo
  projects : Projects g proj ifNode
  up : ∀ id c, lo ≤ id → id < hi → LeadsUp (g.node id) c →
    c < id ∧ (lo ≤ c ∨ proj = c ∧ (g.node id).kind = .ifNode)

/-- The reference is unset, the projection where the arm starts or a node of the
arm. -/
def InArm (proj lo hi : NodeId) (ref : NodeRef) : Prop :=
  ∀ c, ref = some c → lo ≤ c ∧ c < hi ∨ c = proj

section Arms

variable {g : Graph} {ifNode proj lo hi : NodeId} (arm : Arm g ifNode proj lo hi)

theorem Projects.leadsUp {ctrl base : NodeId} (projects : Projects g ctrl base) :
    LeadsUp (g.node ctrl) base := by
  have source := projects.source
  rw [inputNode] at source
  exact Or.inr ⟨Or.inr projects.kind, ((g.inRange_some).mp source).1⟩

theorem ifCtrl_leadsUp {base c : NodeId} (isIf : (g.node base).kind = .ifNode)
    (up : ifCtrl g base = some c) : LeadsUp (g.node base) c := by
  rw [ifCtrl] at up
  split at up
  · exact Or.inr ⟨Or.inl isIf, up⟩
  · cases up

include arm in
/-- The If of a projection in an arm. -/
theorem Arm.base {ctrl base : NodeId} (projects : Projects g ctrl base)
    (here : InArm proj lo hi (some ctrl)) :
    ctrl = proj ∧ base = ifNode ∨ lo ≤ ctrl ∧ lo ≤ base ∧ base < hi := by
  rcases here ctrl rfl with ⟨first, last⟩ | rfl
  · obtain ⟨below, inside | ⟨-, isIf⟩⟩ := arm.up ctrl base first last projects.leadsUp
    · exact Or.inr ⟨first, inside, Nat.lt_trans below last⟩
    · rw [projects.kind] at isIf
      cases isIf
  · have same := arm.projects.source
    rw [projects.source, Option.some.injEq] at same
    exact Or.inl ⟨rfl, same⟩

include arm in
theorem Arm.above {base : NodeId} (isIf : (g.node base).kind = .ifNode) (first : lo ≤ base)
    (last : base < hi) : InArm proj lo hi (ifCtrl g base) := by
  intro c up
  obtain ⟨below, inside | ⟨same, -⟩⟩ := arm.up base c first last (ifCtrl_leadsUp isIf up)
  · exact Or.inl ⟨inside, Nat.lt_trans below last⟩
  · exact Or.inr same.symm

include arm in
/-- The predecessors of a region of the arm are in the arm. -/
theorem Arm.preds {ctrl : NodeId} (kind : (g.node ctrl).kind = .region)
    (here : InArm proj lo hi (some ctrl)) {pred : NodeRef}
    (member : pred ∈ (g.node ctrl).inputs) {c : NodeId} (same : pred = some c) :
    lo ≤ c ∧ c < hi := by
  rcases here ctrl rfl with ⟨first, last⟩ | rfl
  · have up : LeadsUp (g.node ctrl) c := Or.inl ⟨kind, same ▸ member⟩
    obtain ⟨below, inside | ⟨-, isIf⟩⟩ := arm.up ctrl c first last up
    · exact ⟨inside, Nat.lt_trans below last⟩
    · rw [kind] at isIf
      cases isIf
  · rw [arm.projects.kind] at kind
    cases kind

/-- Ifs of the arm, possibly followed by the If above it and more. -/
def ArmFirst (ifNode lo hi : NodeId) (out : List NodeId) : Prop :=
  ∃ inner, (∀ i ∈ inner, lo ≤ i ∧ i < hi) ∧
    (out = inner ∨ ∃ more, out = inner ++ ifNode :: more)

theorem ArmFirst.note {out : List NodeId} (first : ArmFirst ifNode lo hi out) {base : NodeId}
    (lower : lo ≤ base) (upper : base < hi) : ArmFirst ifNode lo hi (note out base) := by
  unfold InstrSel.note
  split
  · exact first
  · obtain ⟨inner, inArm, rfl | ⟨more, rfl⟩⟩ := first
    · refine ⟨out ++ [base], fun i member => ?_, Or.inl rfl⟩
      rcases List.mem_append.mp member with old | new
      · exact inArm i old
      · rw [List.mem_singleton.mp new]
        exact ⟨lower, upper⟩
    · exact ⟨inner, inArm, Or.inr ⟨more ++ [base], by rw [List.append_assoc]; rfl⟩⟩

include arm in
/-- Once the If above the arm is collected, nothing that follows matters. -/
theorem Arm.note_above {out : List NodeId} (first : ArmFirst ifNode lo hi out)
    (extra : List NodeId) : ArmFirst ifNode lo hi (note out ifNode ++ extra) := by
  obtain ⟨inner, inArm, rfl | ⟨more, rfl⟩⟩ := first
  · have fresh : ifNode ∉ out := fun member =>
      Nat.not_lt_of_le (inArm ifNode member).1 arm.before
    rw [note, if_neg (by simpa using fresh)]
    exact ⟨out, inArm, Or.inr ⟨extra, by rw [List.append_assoc]; rfl⟩⟩
  · rw [note, if_pos (by simp)]
    exact ⟨inner, inArm, Or.inr ⟨more ++ extra, by rw [List.append_assoc]; rfl⟩⟩

include arm in
theorem Arm.collect_armFirst (d : Nat) {ref : NodeRef} (here : InArm proj lo hi ref)
    {out : List NodeId} (first : ArmFirst ifNode lo hi out) :
    ArmFirst ifNode lo hi (collectIfs g d ref out) := by
  induction d generalizing ref out with
  | zero => exact first
  | succ d ih =>
      rcases collectIfs_cases (g := g) d ref with
        ⟨-, same⟩ | ⟨ctrl, base, rfl, projects, same⟩ | ⟨ctrl, rfl, -, kind, same⟩
      · rwa [same]
      · rw [same]
        rcases arm.base projects here with ⟨-, rfl⟩ | ⟨-, lower, upper⟩
        · obtain ⟨extra, collected⟩ := collectIfs_append (g := g) d (ifCtrl g base) (note out base)
          rw [collected]
          exact arm.note_above first extra
        · exact ih (arm.above projects.isIf lower upper) (first.note lower upper)
      · rw [same]
        have inside : ∀ pred ∈ (g.node ctrl).inputs, InArm proj lo hi pred :=
          fun pred member c some => Or.inl (arm.preds kind here member some)
        exact List.foldlRecOn _ _ first fun before first' pred member =>
          ih (inside pred member) first'

/-- The first If is one of the arm, if there is any. -/
def HeadInArm (lo hi : NodeId) (out : List NodeId) : Prop :=
  ∀ i, out.head? = some i → lo ≤ i ∧ i < hi

theorem HeadInArm.append {out : List NodeId} (head : HeadInArm lo hi out) (some : out ≠ [])
    (more : List NodeId) : HeadInArm lo hi (out ++ more) := by
  intro i isHead
  cases out with
  | nil => exact absurd rfl some
  | cons first rest => exact head i isHead

theorem HeadInArm.note {out : List NodeId} (head : HeadInArm lo hi out) {base : NodeId}
    (lower : lo ≤ base) (upper : base < hi) :
    HeadInArm lo hi (note out base) ∧ note out base ≠ [] := by
  unfold InstrSel.note
  cases out with
  | nil =>
      refine ⟨fun i isHead => ?_, List.cons_ne_nil _ _⟩
      rw [← Option.some.inj isHead]
      exact ⟨lower, upper⟩
  | cons first rest =>
      have kept : HeadInArm lo hi (first :: rest) := head
      split
      · exact ⟨kept, List.cons_ne_nil _ _⟩
      · exact ⟨kept.append (List.cons_ne_nil _ _) [base], List.cons_ne_nil _ _⟩

include arm in
/-- From inside an arm, the walk sees an If of the arm first. -/
theorem Arm.collect_head (d : Nat) {ref : NodeRef}
    (here : ∀ c, ref = some c → lo ≤ c ∧ c < hi) {out : List NodeId}
    (head : HeadInArm lo hi out) : HeadInArm lo hi (collectIfs g d ref out) := by
  induction d generalizing ref out with
  | zero => exact head
  | succ d ih =>
      rcases collectIfs_cases (g := g) d ref with
        ⟨-, same⟩ | ⟨ctrl, base, rfl, projects, same⟩ | ⟨ctrl, rfl, -, kind, same⟩
      · rwa [same]
      · rw [same]
        obtain ⟨first, last⟩ := here ctrl rfl
        have inArm : InArm proj lo hi (some ctrl) := fun c same =>
          Or.inl (Option.some.inj same ▸ ⟨first, last⟩)
        obtain ⟨more, collected⟩ := collectIfs_append (g := g) d (ifCtrl g base) (note out base)
        rw [collected]
        have noted : HeadInArm lo hi (note out base) ∧ note out base ≠ [] := by
          rcases arm.base projects inArm with ⟨rfl, -⟩ | ⟨-, lower, upper⟩
          · exact absurd arm.start (Nat.not_lt_of_le first)
          · exact head.note lower upper
        exact noted.1.append noted.2 more
      · rw [same]
        have inArm : InArm proj lo hi (some ctrl) := fun c same =>
          Or.inl (Option.some.inj same ▸ here ctrl rfl)
        exact List.foldlRecOn _ _ head fun before head' pred member =>
          ih (fun c some => arm.preds kind inArm member some) head'

/-- A walk that starts in a set closed under going up sees Ifs of the set only. -/
theorem Sees.closed {inside : NodeId → Prop}
    (closed : ∀ id c, inside id → LeadsUp (g.node id) c → inside c) {d : Nat} {ref : NodeRef}
    {i : NodeId} (sees : Sees g d ref i) (start : ∀ c, ref = some c → inside c) : inside i := by
  induction sees with
  | here projects => exact closed _ _ (start _ rfl) projects.leadsUp
  | above projects _ ih =>
      have base := closed _ _ (start _ rfl) projects.leadsUp
      exact ih fun c up => closed _ c base (ifCtrl_leadsUp projects.isIf up)
  | region _ kind member _ ih =>
      exact ih fun c same => closed _ c (start _ rfl) (Or.inl ⟨kind, same ▸ member⟩)

end Arms

section Choice

variable {g : Graph} {region : NodeId} {first second : NodeRef}

/-- What the walk from a predecessor collects. -/
def chainOf (g : Graph) (pred : NodeRef) : List NodeId :=
  collectIfs g (gMaxRegionWalkDepth + 1) pred []

/-- The If of a merge of two predecessors, from what the walks collect. -/
def chosen : List NodeId → List NodeId → Option NodeId
  | [], [] => none
  | [], i :: _ => some i
  | i :: _, [] => some i
  | i :: ifs, j :: jfs => (i :: ifs).find? fun candidate => (j :: jfs).contains candidate

/-- The If of a region is chosen from what the walks that collect anything collect. -/
theorem governingIf_pair (inside : region < g.size)
    (inputs : (g.node region).inputs = [first, second]) :
    governingIf g region = chosen (chainOf g first) (chainOf g second) := by
  let walked (pred : NodeRef) : Option (List NodeId) :=
    if chainOf g pred = [] then none else some (chainOf g pred)
  rw [governingIf, if_pos inside, inputs, List.filterMap_congr (f := _) (g := walked)]
  · cases one : chainOf g first with
    | nil =>
        cases two : chainOf g second with
        | nil => simp [walked, one, two, chosen]
        | cons j jfs => simp [walked, one, two, chosen]
    | cons i ifs =>
        cases two : chainOf g second with
        | nil => simp [walked, one, two, chosen]
        | cons j jfs => simp [walked, one, two, chosen]
  · intro pred _
    cases found : g.inRange pred with
    | none =>
        have empty : chainOf g pred = [] := by rw [chainOf, collectIfs, found]
        simp [walked, empty]
    | some ctrl =>
        by_cases empty : collectIfs g (gMaxRegionWalkDepth + 1) pred [] = []
        · simp [walked, chainOf, empty]
        · obtain ⟨i, ifs, some⟩ := List.exists_cons_of_ne_nil empty
          simp [walked, chainOf, some]

/-- The walk from a predecessor. -/
def SeesFrom (g : Graph) (pred : NodeRef) (ifNode : NodeId) : Prop :=
  Sees g (gMaxRegionWalkDepth + 1) pred ifNode

theorem mem_chainOf {pred : NodeRef} {i : NodeId} : i ∈ chainOf g pred ↔ SeesFrom g pred i := by
  rw [chainOf, mem_collectIfs]
  exact or_iff_right (by simp)

theorem chainOf_nil {pred : NodeRef} : chainOf g pred = [] ↔ ∀ i, ¬ SeesFrom g pred i := by
  rw [List.eq_nil_iff_forall_not_mem]
  exact forall_congr' fun i => not_congr mem_chainOf

theorem Projects.seen {ctrl i : NodeId} (projects : Projects g ctrl i) :
    SeesFrom g (some ctrl) i := Sees.here projects

/-- From a projection, the If of the projection is seen first. -/
theorem Projects.head {ctrl i : NodeId} (projects : Projects g ctrl i) :
    (chainOf g (some ctrl)).head? = some i := by
  rw [chainOf]
  rcases collectIfs_cases (g := g) gMaxRegionWalkDepth (some ctrl) with
    ⟨nothing, -⟩ | ⟨other, base, same, known, walks⟩ | ⟨other, same, -, kind, -⟩
  · exact absurd projects.seen (nothing i)
  · cases same
    have isBase := known.source
    rw [projects.source, Option.some.injEq] at isBase
    subst isBase
    obtain ⟨more, collected⟩ :=
      collectIfs_append (g := g) gMaxRegionWalkDepth (ifCtrl g i) (note [] i)
    rw [walks, collected]
    rfl
  · cases same
    rw [projects.kind] at kind
    cases kind

/-- From an arm, the If above the arm is seen first only from where the arm starts. -/
theorem Arm.head_iff {ifNode proj lo hi : NodeId} (arm : Arm g ifNode proj lo hi)
    {ref : NodeRef} (here : InArm proj lo hi ref) :
    (chainOf g ref).head? = some ifNode ↔ ref = some proj := by
  constructor
  · intro head
    cases ref with
    | none =>
        rw [chainOf, collectIfs_none] at head
        cases head
    | some c =>
        rcases here c rfl with inside | rfl
        · have nothing : HeadInArm lo hi [] := fun i isHead => by cases isHead
          have start : ∀ other, some c = some other → lo ≤ other ∧ other < hi :=
            fun other same => Option.some.inj same ▸ inside
          have inArm := arm.collect_head (gMaxRegionWalkDepth + 1) start nothing
          exact absurd (inArm ifNode head).1 (Nat.not_le_of_lt arm.before)
        · rfl
  · rintro rfl
    exact arm.projects.head

/-- The two arms of an If. -/
structure Fork (g : Graph) (ifNode left right lo mid hi : NodeId) : Prop where
  first : Arm g ifNode left lo mid
  second : Arm g ifNode right mid hi
  apart : right < lo
  down : ∀ id c, id ≤ ifNode → LeadsUp (g.node id) c → c ≤ ifNode

variable {ifNode left right lo mid hi : NodeId} (fork : Fork g ifNode left right lo mid hi)

include fork in
/-- From the second arm, no If of the first arm is seen. -/
theorem Fork.unshared {i : NodeId} (lower : lo ≤ i) (upper : i < mid) {d : Nat}
    (here : InArm right mid hi second) : ¬ Sees g d second i := by
  intro sees
  have closed : ∀ id c, mid ≤ id ∧ id < hi ∨ id = right ∨ id ≤ ifNode →
      LeadsUp (g.node id) c → mid ≤ c ∧ c < hi ∨ c = right ∨ c ≤ ifNode := by
    rintro id c (⟨first, last⟩ | rfl | above) up
    · obtain ⟨below, inside | ⟨same, -⟩⟩ := fork.second.up id c first last up
      · exact Or.inl ⟨inside, Nat.lt_trans below last⟩
      · exact Or.inr (Or.inl same.symm)
    · have source := fork.second.projects.source
      rw [inputNode] at source
      rcases up with ⟨kind, -⟩ | ⟨-, isFirst⟩
      · rw [fork.second.projects.kind] at kind
        cases kind
      · rw [((g.inRange_some).mp source).1, Option.some.injEq] at isFirst
        exact Or.inr (Or.inr (Nat.le_of_eq isFirst.symm))
    · exact Or.inr (Or.inr (fork.down id c above up))
  have inside := sees.closed closed fun c same =>
    (here c same).imp_right Or.inl
  have before := fork.first.before
  have apart := fork.apart
  rcases inside with ⟨late, -⟩ | rfl | early
  · exact Nat.not_lt_of_le late upper
  · exact Nat.not_lt_of_le lower apart
  · exact Nat.not_lt_of_le (lower.trans early) before

/-- The If is found: both walks see it, or one arm ends where it starts and the other
walk sees nothing. -/
def BranchFound (g : Graph) (ifNode left right : NodeId) (first second : NodeRef) : Prop :=
  SeesFrom g first ifNode ∧ SeesFrom g second ifNode ∨
    (first = some left ∧ ∀ i, ¬ SeesFrom g second i) ∨
    (second = some right ∧ ∀ i, ¬ SeesFrom g first i)

include fork in
/-- When both walks see the If, it is the first one that they share. -/
theorem Fork.find (fromFirst : InArm left lo mid first) (fromSecond : InArm right mid hi second) :
    ((chainOf g first).find? fun i => (chainOf g second).contains i) = some ifNode ↔
      SeesFrom g first ifNode ∧ SeesFrom g second ifNode := by
  constructor
  · intro found
    have shared := List.find?_some found
    exact ⟨mem_chainOf.mp (List.mem_of_find?_eq_some found),
      mem_chainOf.mp (List.contains_iff_mem.mp shared)⟩
  · rintro ⟨one, two⟩
    have member := mem_chainOf.mpr one
    have nothing : ArmFirst ifNode lo mid [] :=
      ⟨[], fun i member => (List.not_mem_nil member).elim, Or.inl rfl⟩
    obtain ⟨inner, inArm, same | ⟨more, same⟩⟩ :=
      fork.first.collect_armFirst (gMaxRegionWalkDepth + 1) fromFirst nothing
    · rw [chainOf, same] at member
      exact absurd (inArm ifNode member).1 (Nat.not_le_of_lt fork.first.before)
    · have unshared : (inner.find? fun i => (chainOf g second).contains i) = none := by
        rw [List.find?_eq_none]
        intro i member shared
        obtain ⟨lower, upper⟩ := inArm i member
        exact fork.unshared lower upper fromSecond
          (mem_chainOf.mp (List.contains_iff_mem.mp shared))
      have shared : (chainOf g second).contains ifNode = true :=
        List.contains_iff_mem.mpr (mem_chainOf.mpr two)
      have whole : chainOf g first = inner ++ ifNode :: more := same
      rw [whole, List.find?_append, unshared, List.find?_cons, shared]
      rfl

include fork in
theorem Fork.chosen_iff (fromFirst : InArm left lo mid first)
    (fromSecond : InArm right mid hi second) :
    chosen (chainOf g first) (chainOf g second) = some ifNode ↔
      BranchFound g ifNode left right first second := by
  have seenFirst : first = some left → SeesFrom g first ifNode := by
    rintro rfl
    exact fork.first.projects.seen
  have seenSecond : second = some right → SeesFrom g second ifNode := by
    rintro rfl
    exact fork.second.projects.seen
  have headFirst := fork.first.head_iff fromFirst
  have headSecond := fork.second.head_iff fromSecond
  have findShared := fork.find fromFirst fromSecond
  cases one : chainOf g first with
  | nil =>
      have nothing := chainOf_nil.mp one
      rw [one] at headFirst
      cases two : chainOf g second with
      | nil =>
          have neither := chainOf_nil.mp two
          constructor
          · intro none
            cases none
          · rintro (⟨seen, -⟩ | ⟨start, -⟩ | ⟨start, -⟩)
            · exact absurd seen (nothing ifNode)
            · exact absurd (seenFirst start) (nothing ifNode)
            · exact absurd (seenSecond start) (neither ifNode)
      | cons j jfs =>
          rw [two] at headSecond
          constructor
          · exact fun isFirst => Or.inr (Or.inr ⟨headSecond.mp isFirst, nothing⟩)
          · rintro (⟨seen, -⟩ | ⟨start, -⟩ | ⟨start, -⟩)
            · exact absurd seen (nothing ifNode)
            · exact absurd (seenFirst start) (nothing ifNode)
            · exact headSecond.mpr start
  | cons i ifs =>
      rw [one] at headFirst
      have something : SeesFrom g first i := mem_chainOf.mp (one ▸ List.mem_cons_self)
      cases two : chainOf g second with
      | nil =>
          have nothing := chainOf_nil.mp two
          constructor
          · exact fun isFirst => Or.inr (Or.inl ⟨headFirst.mp isFirst, nothing⟩)
          · rintro (⟨-, seen⟩ | ⟨start, -⟩ | ⟨-, neither⟩)
            · exact absurd seen (nothing ifNode)
            · exact headFirst.mpr start
            · exact absurd something (neither i)
      | cons j jfs =>
          have other : SeesFrom g second j := mem_chainOf.mp (two ▸ List.mem_cons_self)
          rw [one, two] at findShared
          refine findShared.trans ⟨Or.inl, ?_⟩
          rintro (both | ⟨-, neither⟩ | ⟨-, neither⟩)
          · exact both
          · exact absurd other (neither j)
          · exact absurd something (neither i)

end Choice

end InstrSel

namespace Lowerer

open InstrSel

/-- The states in which lowering a function gets to a statement of its body. -/
inductive Meets (order : TableOrder) : LowerState → Prop where
  | enter (params : List Ast) : Meets order (finalState (enterFunction params) {})
  | stmt {s} (met : Meets order s) (n : Ast) : Meets order (finalState (lowerStmt order n) s)
  | expr {s} (met : Meets order s) (n : Ast) : Meets order (finalState (lowerExpr order n) s)
  | thenArm {s before cond value} (met : Meets order s)
      (condRan : lowerExpr order cond s = .ok value before) :
      Meets order (thenStart before value)
  | elseArm {s before afterThen cond value thenBranch} (met : Meets order s)
      (condRan : lowerExpr order cond s = .ok value before)
      (thenRan : lowerStmt order thenBranch (thenStart before value) = .ok () afterThen) :
      Meets order (elseStart before afterThen)
  | loopBody {s t varName accumulators loValue hiValue entry} (met : Meets order s)
      (opened : openHeader varName accumulators loValue hiValue s = .ok entry t) :
      Meets order t

theorem Meets.controlled {order : TableOrder} {s : LowerState} (met : Meets order s) :
    Controlled s := by
  induction met with
  | enter params => exact enterFunction_controlled params
  | stmt _ n ih => exact ih.later (lowerStmt_runsDown order n _ ih.inside)
  | expr _ n ih => exact ih.later (lowerExpr_runsDown order n _ ih.inside)
  | thenArm _ condRan ih =>
      have toBefore := (lowerExpr_runsDown order _).ok ih.inside condRan
      exact ih.later (toBefore.trans (Descends.branched toBefore.inside _))
  | elseArm _ condRan thenRan ih =>
      have toBefore := (lowerExpr_runsDown order _).ok ih.inside condRan
      have opened := Descends.branched toBefore.inside
      have arm := (lowerStmt_runsDown order _).ok (opened _).inside thenRan
      exact ih.later (toBefore.trans (arm.elseStart ((opened _).trans arm)))
  | loopBody _ opened ih =>
      refine ih.later ?_
      rw [← finalState_ok opened]
      exact (openHeader_made ih.inside _ _).1

/-- An absent second arm is empty. -/
def lowerElse (order : TableOrder) : Option Ast → LowerM Unit
  | some elseBranch => lowerStmt order elseBranch
  | none => pure ()

theorem lowerElse_runsDown (order : TableOrder) (elseBranch : Option Ast) :
    RunsDown (lowerElse order elseBranch) := by
  cases elseBranch with
  | none => exact RunsDown.pure ()
  | some n => exact lowerStmt_runsDown order n

/-- A run of the lowering of an if statement, with the states between its parts. -/
structure IfRun (order : TableOrder) (cond thenBranch : Ast) (elseBranch : Option Ast)
    (s t : LowerState) where
  value : NodeRef
  before : LowerState
  afterThen : LowerState
  afterElse : LowerState
  condRan : lowerExpr order cond s = .ok value before
  thenRan : lowerStmt order thenBranch (thenStart before value) = .ok () afterThen
  elseRan : lowerElse order elseBranch (elseStart before afterThen) = .ok () afterElse
  merged : mergeArms order afterThen afterElse = .ok () t

section Runs

variable {order : TableOrder} {cond thenBranch : Ast} {elseBranch : Option Ast}
variable {s t : LowerState}

theorem lowerStmt_if : lowerStmt order (.ifStmt cond thenBranch elseBranch) =
    lowerIf order (lowerExpr order cond) (lowerStmt order thenBranch)
      (lowerElse order elseBranch) := by
  cases elseBranch with
  | none => rw [lowerStmt, lowerElse]
  | some n => rw [lowerStmt, lowerElse]

/-- Every if statement that is lowered has such a run. -/
theorem ifRun_of_lowered
    (lowered : lowerStmt order (.ifStmt cond thenBranch elseBranch) s = .ok () t) :
    Nonempty (IfRun order cond thenBranch elseBranch s t) := by
  rw [lowerStmt_if] at lowered
  cases condRan : lowerExpr order cond s with
  | error e u =>
      simp only [lowerIf, Bind.bind, EStateM.bind, condRan] at lowered
      cases lowered
  | ok value before =>
      rw [lowerIf_arms order condRan] at lowered
      obtain ⟨_, afterThen, thenRan, rest⟩ := bind_inv lowered
      rw [secondArm_arms] at rest
      obtain ⟨_, afterElse, elseRan, merged⟩ := bind_inv rest
      exact ⟨⟨value, before, afterThen, afterElse, condRan, thenRan, elseRan, merged⟩⟩

/-- The If that the statement makes. -/
def IfRun.ifNode (run : IfRun order cond thenBranch elseBranch s t) : NodeId :=
  run.before.graph.size

/-- The region that the statement makes. -/
def IfRun.region (run : IfRun order cond thenBranch elseBranch s t) : NodeId :=
  run.afterElse.graph.size

/-- What each part of the run does to the control. -/
structure IfFacts (run : IfRun order cond thenBranch elseBranch s t) : Prop where
  toBefore : Descends s run.before
  opened : Descends run.before (thenStart run.before run.value)
  first : Descends (thenStart run.before run.value) run.afterThen
  turned : Descends run.before (elseStart run.before run.afterThen)
  second : Descends (elseStart run.before run.afterThen) run.afterElse
  joined : KeepsUpward (mergeStart run.afterThen run.afterElse).graph t.graph

theorem IfRun.facts (run : IfRun order cond thenBranch elseBranch s t)
    (inside : CtrlInside s) : IfFacts run := by
  have toBefore := (lowerExpr_runsDown order cond).ok inside run.condRan
  have opened := Descends.branched toBefore.inside run.value
  have first := (lowerStmt_runsDown order thenBranch).ok opened.inside run.thenRan
  have turned := first.elseStart (opened.trans first)
  have second := (lowerElse_runsDown order elseBranch).ok turned.inside run.elseRan
  have start := first.mergeStart second (turned.trans second)
  have merged := run.merged
  rw [mergeArms_merge] at merged
  exact ⟨toBefore, opened, first, turned, second,
    ((RunsDown.mergeBindings _ _ _).ok start.inside merged).keeps⟩

variable {run : IfRun order cond thenBranch elseBranch s t} {g : Graph}

/-- The nodes of an arm, in any later graph. -/
theorem arm_of_descends {start after : LowerState} {proj ifNode : NodeId}
    (arm : Descends start after) (entry : start.ctrl = some proj)
    (later : KeepsUpward after.graph g) (before : ifNode < start.graph.size)
    (below : proj < start.graph.size) (projects : Projects g proj ifNode) :
    Arm g ifNode proj start.graph.size after.graph.size where
  before := before
  start := below
  projects := projects
  up id c lower upper up := by
    obtain ⟨earlier, since⟩ := arm.up id c lower ((later.leadsUp upper).mp up)
    rw [SinceFor, ← later.kind id upper, entry, Option.some.injEq] at since
    exact ⟨earlier, since⟩

theorem inArm_of_descends {start after : LowerState} {proj : NodeId}
    (arm : Descends start after) (entry : start.ctrl = some proj) :
    InArm proj start.graph.size after.graph.size after.ctrl := by
  intro c here
  obtain ⟨below, late | current⟩ := arm.ctrl c here
  · exact Or.inl ⟨late, below⟩
  · rw [entry, Option.some.injEq] at current
    exact Or.inr current.symm

/-- The projections in any later graph. -/
theorem projects_of_branched {before : LowerState} {value : NodeRef}
    (later : KeepsUpward (branched before value).graph g) :
    Projects g (before.graph.size + 1) before.graph.size ∧
      Projects g (before.graph.size + 2) before.graph.size := by
  obtain ⟨isIf, isFirst, isSecond⟩ := branched_nodes before value
  have size := branched_size before value
  have early {id : NodeId} (below : id < before.graph.size + 3) :
      id < (branched before value).graph.size := by rwa [size]
  have base := early (Nat.lt_add_of_pos_right (by decide : 0 < 3))
  have kind := later.kind _ base
  rw [isIf] at kind
  have projects {id : NodeId} {which : BitVec 32} (below : id < before.graph.size + 3)
      (same : (branched before value).graph.node id =
        projNodeOf (some before.graph.size) which) : Projects g id before.graph.size := by
    have upward : IsUpward ((branched before value).graph.node id).kind := by
      rw [same]
      exact Or.inr (Or.inr rfl)
    have isProj := later.kind id (early below)
    have inputs := later.inputs id (early below) upward
    rw [same] at isProj inputs
    refine ⟨Nat.lt_of_lt_of_le (early below) later.size, isProj, ?_, kind⟩
    rw [inputNode, inputs]
    exact (g.inRange_some).mpr ⟨rfl, Nat.lt_of_lt_of_le base later.size⟩
  exact ⟨projects (Nat.add_lt_add_left (by decide) _) isFirst,
    projects (Nat.add_lt_add_left (by decide) _) isSecond⟩

/-- The two arms of a lowered if statement, in any later graph. -/
theorem IfFacts.fork (facts : IfFacts run) (controlled : Controlled s)
    (later : KeepsUpward t.graph g) :
    Fork g run.ifNode (run.ifNode + 1) (run.ifNode + 2) (run.ifNode + 3)
      run.afterThen.graph.size run.region := by
  have size := branched_size run.before run.value
  have fromElse : KeepsUpward run.afterElse.graph g :=
    ((KeepsUpward.push _ _).trans facts.joined).trans later
  have fromThen : KeepsUpward run.afterThen.graph g := facts.second.keeps.trans fromElse
  have fromStart : KeepsUpward (branched run.before run.value).graph g :=
    facts.first.keeps.trans fromThen
  obtain ⟨left, right⟩ := projects_of_branched fromStart
  have opened : run.ifNode + 3 ≤ run.afterThen.graph.size := by
    have kept := facts.first.keeps.size
    change (branched run.before run.value).graph.size ≤ _ at kept
    rwa [size] at kept
  have first : Arm g run.ifNode (run.ifNode + 1)
      (thenStart run.before run.value).graph.size run.afterThen.graph.size := by
    refine arm_of_descends facts.first rfl fromThen ?_ ?_ left
    · change _ < (branched run.before run.value).graph.size
      rw [size]
      exact Nat.lt_add_of_pos_right (by decide)
    · change _ < (branched run.before run.value).graph.size
      rw [size]
      exact Nat.add_lt_add_left (by decide) _
  change Arm g _ _ (branched run.before run.value).graph.size _ at first
  rw [size] at first
  have second : Arm g run.ifNode (run.ifNode + 2)
      (elseStart run.before run.afterThen).graph.size run.afterElse.graph.size := by
    refine arm_of_descends facts.second rfl fromElse ?_ ?_ right
    · exact Nat.lt_of_lt_of_le (Nat.lt_add_of_pos_right (by decide)) opened
    · exact Nat.lt_of_lt_of_le (Nat.lt_succ_self _) opened
  refine ⟨first, second, Nat.lt_succ_self _, fun id c above up => ?_⟩
  have early : id < (branched run.before run.value).graph.size := by
    rw [size]
    exact Nat.lt_of_le_of_lt above (Nat.lt_add_of_pos_right (by decide))
  have before := controlled.later (facts.toBefore.trans facts.opened)
  exact (Nat.le_of_lt (before.down id c ((fromStart.leadsUp early).mp up))).trans above

/-- The region merges the controls at the ends of the arms. -/
theorem IfFacts.region_inputs (facts : IfFacts run) (later : KeepsUpward t.graph g) :
    run.region < g.size ∧
      (g.node run.region).inputs = [run.afterThen.ctrl, run.afterElse.ctrl] := by
  have keeps := facts.joined.trans later
  have inside : run.region < (mergeStart run.afterThen run.afterElse).graph.size := by
    change _ < (pushed run.afterElse _).graph.size
    rw [pushed_size]
    exact Nat.lt_succ_self _
  have node : (mergeStart run.afterThen run.afterElse).graph.node run.region =
      regionNodeOf [run.afterThen.ctrl, run.afterElse.ctrl] := pushed_new _ _
  have upward : IsUpward ((mergeStart run.afterThen run.afterElse).graph.node run.region).kind := by
    rw [node]
    exact Or.inl rfl
  have inputs := keeps.inputs _ inside upward
  rw [node] at inputs
  exact ⟨Nat.lt_of_lt_of_le inside keeps.size, inputs⟩

/-- The If keeps the condition of the statement. -/
theorem IfFacts.ifCond_eq (facts : IfFacts run) (later : KeepsUpward t.graph g) :
    ifCond g run.ifNode = run.value := by
  have size := branched_size run.before run.value
  have kept : KeepsUpward (branched run.before run.value).graph g :=
    (facts.first.keeps.trans (facts.second.keeps.trans
      ((KeepsUpward.push _ _).trans facts.joined))).trans later
  have early : run.ifNode < (branched run.before run.value).graph.size := by
    rw [size]
    exact Nat.lt_add_of_pos_right (by decide)
  have node := (branched_nodes run.before run.value).1
  have inputs := kept.inputs run.ifNode early (by
    rw [IfRun.ifNode, node]
    exact Or.inr (Or.inl rfl))
  rw [ifCond, inputs, IfRun.ifNode, node]
  rfl

/-- The If that the statement made governs its region, and every phi of the region
selects on the condition of the statement. -/
def Governed (run : IfRun order cond thenBranch elseBranch s t) (g : Graph) : Prop :=
  governingIf g run.region = some run.ifNode ∧
    ∀ phi, isSelectPhi g phi = true → inputNode g phi 0 = some run.region →
      selectCond g phi = g.inRange run.value

/-- In every graph that lowering makes from there on, the If of an if statement
governs its region exactly when the walks from the ends of both arms see it, or when
one arm makes no control and the walk from the other sees no If at all. -/
theorem governed_iff (met : Meets order s) (run : IfRun order cond thenBranch elseBranch s t)
    {g : Graph} (later : KeepsUpward t.graph g) :
    Governed run g ↔ BranchFound g run.ifNode (run.ifNode + 1) (run.ifNode + 2)
      run.afterThen.ctrl run.afterElse.ctrl := by
  have controlled := met.controlled
  have facts := run.facts controlled.inside
  have fork := facts.fork controlled later
  obtain ⟨inside, inputs⟩ := facts.region_inputs later
  have fromFirst := inArm_of_descends facts.first rfl
  change InArm _ (branched run.before run.value).graph.size _ _ at fromFirst
  rw [branched_size] at fromFirst
  have fromSecond := inArm_of_descends facts.second rfl
  rw [← fork.chosen_iff fromFirst fromSecond, ← governingIf_pair inside inputs]
  constructor
  · exact And.left
  · intro governs
    refine ⟨governs, fun phi isSelect merges => ?_⟩
    simp only [selectCond, isSelect, if_true, merges, governs, facts.ifCond_eq later]

/-- The states of a run follow from where it starts. -/
theorem IfRun.states (run : IfRun order cond thenBranch elseBranch s t) {value : NodeRef}
    {before : LowerState} (condRan : lowerExpr order cond s = .ok value before) :
    run.before = before ∧ run.value = value ∧
      run.afterThen = finalState (lowerStmt order thenBranch) (thenStart before value) ∧
      run.afterElse = finalState (lowerElse order elseBranch)
        (elseStart before (finalState (lowerStmt order thenBranch)
          (thenStart before value))) := by
  have same := run.condRan
  rw [condRan] at same
  cases same
  have first := finalState_ok run.thenRan
  have second := finalState_ok run.elseRan
  rw [← first] at second
  exact ⟨rfl, rfl, first.symm, second.symm⟩

theorem ident_ran {name : SymbolId} {ref : NodeRef} (bound : s.bindings.get name = some ref) :
    lowerExpr order (.ident name) s = .ok ref s := by
  simp only [lowerExpr, lowerLeaf, run_get, bound]
  rfl

end Runs

/-- Assign one of two constants. -/
def innerIf : Ast :=
  .ifStmt (.ident 2) (.exprStmt (.assignExpr .eq (.ident 3) (.intLit 1)))
    (some (.exprStmt (.assignExpr .eq (.ident 3) (.intLit 2))))

/-- Return from one arm and branch in the other. -/
def earlyFn : Ast :=
  .fnDecl 4 [.param 1 (.ident 10) false, .param 2 (.ident 10) false] none (.block [
    .letStmt 3 none (some (.intLit 0)) true,
    .ifStmt (.ident 1) (.returnStmt (some (.intLit 7))) (some innerIf),
    .returnStmt (some (.ident 3))]) false

/-- The state in front of the branch of this function. -/
def earlyStart : LowerState :=
  finalState (lowerStmt .asListed (.letStmt 3 none (some (.intLit 0)) true))
    (finalState (enterFunction [.param 1 (.ident 10) false, .param 2 (.ident 10) false]) {})

theorem earlyStart_met : Meets .asListed earlyStart := (Meets.enter _).stmt _

/-- A branch that assigns in both arms governs its region. -/
theorem innerIf_governed : ∃ t, ∃ run : IfRun .asListed (.ident 2)
    (.exprStmt (.assignExpr .eq (.ident 3) (.intLit 1)))
    (some (.exprStmt (.assignExpr .eq (.ident 3) (.intLit 2)))) earlyStart t,
      Governed run t.graph := by
  have ends : succeeds (lowerStmt .asListed innerIf) earlyStart = true := by decide +kernel
  obtain ⟨t, ran⟩ := ran_of_succeeds ends
  obtain ⟨run⟩ := ifRun_of_lowered ran
  have bound : earlyStart.bindings.get 2 = some (some 4) := by decide +kernel
  obtain ⟨before, -, afterThen, afterElse⟩ := run.states (ident_ran bound)
  have final := (finalState_ok ran).symm
  refine ⟨t, run, (governed_iff earlyStart_met run (KeepsUpward.refl t.graph)).mpr (Or.inl ?_)⟩
  rw [IfRun.ifNode, before, afterThen, afterElse, final, ← mem_chainOf, ← mem_chainOf]
  decide +kernel

/-- The checker accepts the function, but the region behind its branch gets the
inner If, and the phi there selects on the inner condition. -/
theorem earlyFn_misgoverned :
    TypeChecker.checkFn [] earlyFn = [] ∧ succeeds (lowerFn .asListed earlyFn) {} = true ∧
      ∃ t, lowerStmt .asListed
        (.ifStmt (.ident 1) (.returnStmt (some (.intLit 7))) (some innerIf)) earlyStart =
          .ok () t ∧
      ∃ run : IfRun .asListed (.ident 1) (.returnStmt (some (.intLit 7))) (some innerIf)
        earlyStart t, ∃ phi other cond,
          isSelectPhi t.graph phi = true ∧ inputNode t.graph phi 0 = some run.region ∧
          governingIf t.graph run.region = some other ∧ other ≠ run.ifNode ∧
          selectCond t.graph phi = some cond ∧ run.value ≠ some cond := by
  have ends : succeeds (lowerStmt .asListed
      (.ifStmt (.ident 1) (.returnStmt (some (.intLit 7))) (some innerIf))) earlyStart = true := by
    decide +kernel
  obtain ⟨t, ran⟩ := ran_of_succeeds ends
  obtain ⟨run⟩ := ifRun_of_lowered ran
  have bound : earlyStart.bindings.get 1 = some (some 3) := by decide +kernel
  obtain ⟨before, value, -, afterElse⟩ := run.states (ident_ran bound)
  have final := (finalState_ok ran).symm
  refine ⟨by decide, by decide +kernel, t, ran, run, 19, 11, 4, ?_⟩
  rw [IfRun.region, IfRun.ifNode, before, value, afterElse, final]
  decide +kernel

end Lowerer

end Aegis
