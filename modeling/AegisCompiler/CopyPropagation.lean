import AegisCompiler.NodeEquations
import AegisCompiler.UseLists

/-!
# Copy propagation

Identity casts, selects between equal operands and phis of equal values are copies.  The
pass lets the users of a copy read what it copies, one copy after the other.
-/

namespace Aegis

namespace CopyPropagation

open InductionVariables (replaceUses)
open NodeEquations

/-- A node that merges control. -/
def isMerge (g : Graph) (id : NodeId) : Bool :=
  decide ((g.node id).kind = .region ∨ (g.node id).kind = .loop)

/-- The values of a phi that are looked at: without the region slot, which is skipped by its
position, and without control merges. -/
def phiValues (g : Graph) (n : Node) : List NodeId :=
  (n.dataIns.tail.filterMap g.inRange).filter fun input => !isMerge g input

/-- What a node copies, if it is a copy. -/
def replacement (g : Graph) (id : NodeId) : NodeRef :=
  let n := g.node id
  match n.kind with
  | .cast =>
      match n.dataIns with
      | [src] =>
          (g.inRange src).filter fun src => decide ((g.node src).typeId = n.typeId)
      | _ => none
  | .select =>
      if n.dataIns.length = kSelectInputs ∧ n.dataIns.getD 1 none = n.dataIns.getD 2 none then
        n.dataIns.getD 1 none
      else none
  | .phi =>
      match phiValues g n with
      | [] => none
      | first :: rest => if rest.all (· = first) then some first else none
  | _ => none

/-- Replace one node, if it is a live copy. -/
def copyNode (progress : Graph × Nat) (id : NodeId) : Graph × Nat :=
  let g := progress.1
  if (g.node id).isDead then progress
  else match replacement g id with
    | none => progress
    | some src => ((replaceUses g id src).markDead id, progress.2 + 1)

/-- The sweep over the nodes below a bound. -/
def sweep (g : Graph) (bound : Nat) : Graph × Nat :=
  (List.range bound).foldl copyNode (g, 0)

/-- The pass: the new graph, and the number of removed copies. -/
def run (g : Graph) : Graph × Nat := sweep g g.size

/-- The valuation gives a value to every input of a live node, and satisfies the equations of
the live nodes; casts between equal types, selects and phis have equations of their own. -/
structure Obeys (meaning : Meaning) (g : Graph) (v : Valuation) : Prop
    extends Satisfies meaning g v where
  given : ∀ id, g.Live id → ∀ input, some input ∈ (g.node id).inputs →
    (g.node input).isDead = false
  cast : ∀ id src, g.Live id → (g.node id).kind = .cast → (g.node id).dataIns = [some src] →
    (g.node src).typeId = (g.node id).typeId → v id = valueOf g v src
  select : ∀ id cond yes no, g.Live id → (g.node id).kind = .select →
    (g.node id).dataIns = [some cond, some yes, some no] →
      v id = if valueOf g v cond ≠ 0 then valueOf g v yes else valueOf g v no
  phi : ∀ id region values, g.Live id → (g.node id).kind = .phi →
    (g.node id).dataIns = some region :: values →
      ∃ value, values[(valueOf g v region).toNat]? = some (some value) ∧
        v id = valueOf g v value

/-- The phis and selects have no invalid inputs. -/
def NoInvalid (g : Graph) : Prop :=
  ∀ id, g.Live id → (g.node id).kind = .phi ∨ (g.node id).kind = .select →
    ∀ ref ∈ (g.node id).dataIns, ∃ input < g.size, ref = some input

/-- No other live node reads this one. -/
def isUnused (g : Graph) (id : NodeId) : Bool :=
  (List.range g.size).all fun user =>
    decide (user = id) || (g.node user).isDead || !(g.node user).inputs.contains (some id)

/-- The node may be replaced: nothing reads it, or it does not copy itself, no value of a phi
is left out, and no cast of another type comes to read its own type. -/
def isClean (g : Graph) (id : NodeId) : Bool :=
  match replacement g id with
  | none => true
  | some src =>
      isUnused g id ||
        decide (src ≠ id) &&
          (decide ((g.node id).kind ≠ .phi) ||
            (g.node id).dataIns.tail.all fun ref => ref.all fun input => !isMerge g input) &&
          (List.range g.size).all fun user =>
            decide ((g.node user).isDead = false → (g.node user).kind = .cast →
              (g.node user).dataIns = [some id] →
                (g.node src).typeId = (g.node user).typeId →
                  (g.node id).typeId = (g.node user).typeId)

/-- Every copy that the sweep comes to may be replaced. -/
def CleanSweep (g : Graph) : Prop :=
  ∀ id < g.size, ((sweep g id).1.node id).isDead = false → isClean (sweep g id).1 id = true

section Step

variable {meaning : Meaning} {g : Graph} {v : Valuation} {id src : NodeId}

/-- The graph after one replacement. -/
def replaced (g : Graph) (id src : NodeId) : Graph := (replaceUses g id src).markDead id

theorem replaced_size : (replaced g id src).size = g.size := by
  rw [replaced, Graph.markDead, Graph.setFlag_size]
  exact InductionVariables.replaceUses_size g id src

/-- Every node reads the copied node in place of the copy. -/
theorem replaced_node (listed : g.Listed) (other : NodeId) : ∃ flags,
    (replaced g id src).node other = { g.node other with
      flags, inputs := (g.node other).inputs.map (Graph.rename id src) } ∧
      ((replaced g id src).Live other → g.Live other ∧ other ≠ id) := by
  have inUsers : ∀ user ∈ g.usersSnapshot id, user ∈ g.usersSnapshot id :=
    fun _ member => member
  have renamed := listed.swapIn_node inUsers src other
  change (replaceUses g id src).node other = _ at renamed
  have size := InductionVariables.replaceUses_size g id src
  simp only [Graph.Live, replaced_size]
  rw [replaced, Graph.markDead, Graph.setFlag_node, renamed, size]
  split
  case isTrue here =>
    refine ⟨_, rfl, fun live => absurd live.2 ?_⟩
    rw [Node.isDead_setFlag]
    simp
  case isFalse apart =>
    exact ⟨_, rfl, fun live => ⟨live, fun same => apart ⟨same, same ▸ live.1⟩⟩⟩

theorem mem_inputs_of_mem_dataIns {n : Node} {ref : NodeRef} (member : ref ∈ n.dataIns) :
    ref ∈ n.inputs := by
  unfold Node.dataIns at member
  split at member
  · exact member
  · exact List.mem_of_mem_drop member

theorem replaced_dataIns (listed : g.Listed) (other : NodeId) :
    ((replaced g id src).node other).dataIns =
      (g.node other).dataIns.map (Graph.rename id src) := by
  obtain ⟨flags, node, -⟩ := @replaced_node g id src listed other
  rw [node, Node.dataIns, Node.dataIns]
  change (if (g.node other).isPure = true then (g.node other).inputs.map _
    else ((g.node other).inputs.map _).drop 2) = _
  split
  · rfl
  · exact (List.map_drop ..).symm

theorem replaced_kind (listed : g.Listed) (other : NodeId) :
    ((replaced g id src).node other).kind = (g.node other).kind := by
  obtain ⟨flags, node, -⟩ := @replaced_node g id src listed other
  rw [node]

theorem replaced_typeId (listed : g.Listed) (other : NodeId) :
    ((replaced g id src).node other).typeId = (g.node other).typeId := by
  obtain ⟨flags, node, -⟩ := @replaced_node g id src listed other
  rw [node]

theorem live_of_replaced (listed : g.Listed) {other : NodeId}
    (live : (replaced g id src).Live other) : g.Live other ∧ other ≠ id := by
  obtain ⟨flags, -, before⟩ := @replaced_node g id src listed other
  exact before live

/-- Only the copy dies. -/
theorem alive_replaced (listed : g.Listed) {other : NodeId} (differs : other ≠ id) :
    ((replaced g id src).node other).isDead = (g.node other).isDead := by
  have inUsers : ∀ user ∈ g.usersSnapshot id, user ∈ g.usersSnapshot id :=
    fun _ member => member
  have renamed := listed.swapIn_node inUsers src other
  change (replaceUses g id src).node other = _ at renamed
  rw [replaced, Graph.markDead, Graph.setFlag_node, if_neg fun both => differs both.1, renamed]
  rfl

theorem valueOf_replaced (listed : g.Listed) (v : Valuation) (other : NodeId) :
    valueOf (replaced g id src) v other = valueOf g v other := by
  obtain ⟨flags, node, -⟩ := @replaced_node g id src listed other
  rw [valueOf, valueOf, node]

theorem mem_phiValues {n : Node} {input : NodeId} : input ∈ phiValues g n ↔
    some input ∈ n.dataIns.tail ∧ input < g.size ∧ isMerge g input = false := by
  simp only [phiValues, List.mem_filter, List.mem_filterMap, Bool.not_eq_true']
  constructor
  · rintro ⟨⟨ref, member, inRange⟩, value⟩
    obtain ⟨rfl, inside⟩ := (g.inRange_some).mp inRange
    exact ⟨member, inside, value⟩
  · rintro ⟨member, inside, value⟩
    exact ⟨⟨some input, member, (g.inRange_some).mpr ⟨rfl, inside⟩⟩, value⟩

/-- What the check of a replacement says about a node that is read. -/
structure MayReplace (g : Graph) (id src : NodeId) : Prop where
  apart : src ≠ id
  values : (g.node id).kind = .phi → ∀ input, some input ∈ (g.node id).dataIns.tail →
    isMerge g input = false
  types : ∀ user, g.Live user → (g.node user).kind = .cast →
    (g.node user).dataIns = [some id] → (g.node src).typeId = (g.node user).typeId →
      (g.node id).typeId = (g.node user).typeId

theorem isClean_of_replacement (copied : replacement g id = some src)
    (clean : isClean g id = true) : isUnused g id = true ∨ MayReplace g id src := by
  rw [isClean, copied] at clean
  simp only [Bool.or_eq_true, Bool.and_eq_true, decide_eq_true_eq, List.all_eq_true,
    List.mem_range] at clean
  apply clean.imp_right
  rintro ⟨⟨apart, values⟩, types⟩
  refine ⟨apart, fun kind input member => ?_, fun user live => types user live.1 live.2⟩
  have all := values.resolve_left (not_not.mpr kind) (some input) member
  simpa using all

theorem reads_of_replacement (copied : replacement g id = some src) :
    some src ∈ (g.node id).inputs ∧
      ((g.node id).kind = .phi → ∀ input ∈ phiValues g (g.node id), input = src) := by
  unfold replacement at copied
  simp only at copied
  split at copied
  case h_1 kind =>
    refine ⟨?_, fun phi => by simp [kind] at phi⟩
    split at copied
    case h_1 ref dataIns =>
      obtain ⟨inRange, -⟩ := Option.filter_eq_some_iff.mp copied
      obtain ⟨rfl, -⟩ := (g.inRange_some).mp inRange
      exact mem_inputs_of_mem_dataIns (by simp [dataIns])
    case h_2 => cases copied
  case h_2 kind =>
    refine ⟨?_, fun phi => by simp [kind] at phi⟩
    split at copied
    case isTrue shape =>
      obtain ⟨cond, yes, no, dataIns⟩ := List.length_eq_three.mp shape.1
      rw [dataIns] at copied
      cases copied
      exact mem_inputs_of_mem_dataIns (by simp [dataIns])
    case isFalse => cases copied
  case h_3 kind =>
    split at copied
    case h_1 => cases copied
    case h_2 first rest values =>
      split at copied
      case isTrue all =>
        cases copied
        have listed : src ∈ phiValues g (g.node id) := by
          rw [values]
          exact List.mem_cons_self
        refine ⟨mem_inputs_of_mem_dataIns
          (List.mem_of_mem_tail (mem_phiValues.mp listed).1), fun _ input member => ?_⟩
        rw [values] at member
        rcases List.mem_cons.mp member with same | later
        · exact same
        · exact of_decide_eq_true (List.all_eq_true.mp all input later)
      case isFalse => cases copied
  case h_4 => cases copied

theorem kind_of_replacement (copied : replacement g id = some src) :
    (g.node id).kind = .cast ∨ (g.node id).kind = .select ∨ (g.node id).kind = .phi := by
  by_contra other
  rw [not_or, not_or] at other
  unfold replacement at copied
  simp only at copied
  split at copied
  case h_1 kind => exact other.1 kind
  case h_2 kind => exact other.2.1 kind
  case h_3 kind => exact other.2.2 kind
  case h_4 => cases copied

/-- A copy that may be replaced has the value of what it copies. -/
theorem value_of_replacement (obeys : Obeys meaning g v) (noInvalid : NoInvalid g)
    (live : g.Live id) (copied : replacement g id = some src) (may : MayReplace g id src) :
    valueOf g v src = valueOf g v id := by
  have own : valueOf g v id = v id := by
    rw [valueOf, if_neg]
    rcases kind_of_replacement copied with kind | kind | kind <;> rw [kind] <;>
      exact NodeKind.noConfusion
  rw [own]
  have same := (reads_of_replacement copied).2
  unfold replacement at copied
  simp only at copied
  split at copied
  case h_1 kind =>
    split at copied
    case h_1 ref dataIns =>
      obtain ⟨inRange, sameType⟩ := Option.filter_eq_some_iff.mp copied
      obtain ⟨rfl, -⟩ := (g.inRange_some).mp inRange
      exact (obeys.cast id src live kind dataIns (of_decide_eq_true sameType)).symm
    case h_2 => cases copied
  case h_2 kind =>
    split at copied
    case isTrue shape =>
      obtain ⟨length, equal⟩ := shape
      obtain ⟨cond, yes, no, dataIns⟩ := List.length_eq_three.mp length
      rw [dataIns] at equal copied
      cases equal
      cases copied
      obtain ⟨condId, -, rfl⟩ := noInvalid id live (.inr kind) cond (by simp [dataIns])
      have value := obeys.select id condId src src live kind dataIns
      rw [ite_self] at value
      exact value.symm
    case isFalse => cases copied
  case h_3 kind =>
    cases dataIns : (g.node id).dataIns with
    | nil => simp [phiValues, dataIns] at copied
    | cons slot values =>
        obtain ⟨region, -, rfl⟩ := noInvalid id live (.inl kind) slot (by simp [dataIns])
        obtain ⟨value, selected, equal⟩ := obeys.phi id region values live kind dataIns
        have listed : some value ∈ values := List.mem_of_getElem? selected
        obtain ⟨input, inside, this⟩ := noInvalid id live (.inl kind) (some value)
          (by simp [dataIns, listed])
        cases this
        -- The selected value is one of those that are looked at.
        have looked : value ∈ phiValues g (g.node id) := by
          rw [mem_phiValues, dataIns]
          exact ⟨listed, inside, may.values kind value (by rwa [dataIns])⟩
        rw [equal, same kind value looked]
  case h_4 => cases copied

/-- The value of every slot of the other live nodes is kept. -/
structure Keeps (g : Graph) (v : Valuation) (id src : NodeId) : Prop where
  inside : src < g.size
  alive : (g.node src).isDead = false
  slots : isUnused g id = true ∨ MayReplace g id src ∧ valueOf g v src = valueOf g v id

/-- A slot of another live node, before and after: it held the copy, or it is the same. -/
theorem Keeps.slot (keeps : Keeps g v id src) {user : NodeId} (live : g.Live user)
    (notCopy : user ≠ id) {ref : NodeRef} (member : ref ∈ (g.node user).inputs) :
    (ref = some id ∧ Graph.rename id src ref = some src ∧ MayReplace g id src ∧
      valueOf g v src = valueOf g v id) ∨ ref ≠ some id ∧ Graph.rename id src ref = ref := by
  by_cases copy : ref = some id
  · rcases keeps.slots with unused | ⟨may, value⟩
    · have quiet := List.all_eq_true.mp unused user (List.mem_range.mpr live.1)
      simp [notCopy, live.2, copy ▸ member] at quiet
    · exact .inl ⟨copy, if_pos copy, may, value⟩
  · exact .inr ⟨copy, if_neg copy⟩

theorem Keeps.value (keeps : Keeps g v id src) {user : NodeId} (live : g.Live user)
    (notCopy : user ≠ id) {ref : NodeRef} (member : ref ∈ (g.node user).inputs)
    {input : NodeId} (renamed : Graph.rename id src ref = some input) :
    ∃ before, ref = some before ∧ valueOf g v input = valueOf g v before := by
  rcases keeps.slot live notCopy member with ⟨rfl, read, -, value⟩ | ⟨-, read⟩
  · rw [read] at renamed
    cases renamed
    exact ⟨id, rfl, value⟩
  · rw [read] at renamed
    exact ⟨input, renamed, rfl⟩

theorem Keeps.satisfies (keeps : Keeps g v id src) (obeys : Obeys meaning g v)
    (listed : g.Listed) : Satisfies meaning (replaced g id src) v := by
  constructor
  · intro user after input member
    obtain ⟨flags, node, before⟩ := @replaced_node g id src listed user
    obtain ⟨old, notCopy⟩ := before after
    rw [node] at member
    obtain ⟨ref, there, renamed⟩ := List.mem_map.mp member
    rw [replaced_size]
    rcases keeps.slot old notCopy there with ⟨-, read, -⟩ | ⟨-, read⟩
    · rw [read] at renamed
      cases renamed
      exact keeps.inside
    · rw [read] at renamed
      exact obeys.inside user old input (renamed ▸ there)
  · intro user after
    obtain ⟨flags, node, before⟩ := @replaced_node g id src listed user
    obtain ⟨old, notCopy⟩ := before after
    have operands : operandsOf (replaced g id src) v
        ((g.node user).inputs.map (Graph.rename id src)) =
          operandsOf g v (g.node user).inputs := by
      rw [operandsOf, operandsOf, List.map_map]
      apply List.map_congr_left
      intro ref member
      rw [Function.comp_apply]
      cases renamed : Graph.rename id src ref with
      | none =>
          rcases keeps.slot old notCopy member with ⟨-, read, -⟩ | ⟨-, read⟩
          · rw [read] at renamed
            cases renamed
          · rw [read] at renamed
            rw [renamed]
            rfl
      | some input =>
          obtain ⟨before, rfl, value⟩ := keeps.value old notCopy member renamed
          exact congrArg some ((valueOf_replaced listed v input).trans value)
    have computes := obeys.computes user old
    rw [node, operands]
    exact ⟨computes.demanded, computes.related⟩

/-- One replacement keeps the equations. -/
theorem Keeps.obeys (keeps : Keeps g v id src) (obeys : Obeys meaning g v)
    (listed : g.Listed) : Obeys meaning (replaced g id src) v := by
  have alike (other : NodeId) : valueOf (replaced g id src) v other = valueOf g v other :=
    valueOf_replaced listed v other
  have inputs {user : NodeId} {ref : NodeRef} (member : ref ∈ (g.node user).dataIns) :
      ref ∈ (g.node user).inputs := mem_inputs_of_mem_dataIns member
  constructor
  · exact keeps.satisfies obeys listed
  · -- The inputs of a live node stay alive.
    intro user after input member
    obtain ⟨flags, node, before⟩ := @replaced_node g id src listed user
    obtain ⟨old, notCopy⟩ := before after
    rw [node] at member
    obtain ⟨ref, there, renamed⟩ := List.mem_map.mp member
    rcases keeps.slot old notCopy there with ⟨-, read, may, -⟩ | ⟨other, read⟩
    · rw [read] at renamed
      cases renamed
      rw [alive_replaced listed may.apart]
      exact keeps.alive
    · rw [read] at renamed
      subst renamed
      have differs : input ≠ id := fun same => other (congrArg some same)
      rw [alive_replaced listed differs]
      exact obeys.given user old input there
  · intro user input after kind dataIns sameType
    obtain ⟨old, notCopy⟩ := live_of_replaced listed after
    rw [replaced_kind listed] at kind
    rw [replaced_typeId listed, replaced_typeId listed] at sameType
    rw [replaced_dataIns listed] at dataIns
    obtain ⟨ref, before, renamed⟩ := List.map_eq_singleton_iff.mp dataIns
    have member : ref ∈ (g.node user).inputs := inputs (by simp [before])
    rw [alike]
    rcases keeps.slot old notCopy member with ⟨rfl, read, may, value⟩ | ⟨-, read⟩
    · rw [read] at renamed
      cases renamed
      rw [value]
      exact obeys.cast user id old kind before (may.types user old kind before sameType)
    · rw [read] at renamed
      subst renamed
      exact obeys.cast user input old kind before sameType
  · intro user cond yes no after kind dataIns
    obtain ⟨old, notCopy⟩ := live_of_replaced listed after
    rw [replaced_kind listed] at kind
    rw [replaced_dataIns listed] at dataIns
    obtain ⟨first, second, third, before⟩ : ∃ a b c, (g.node user).dataIns = [a, b, c] :=
      List.length_eq_three.mp (by simpa using congrArg List.length dataIns)
    rw [before] at dataIns
    simp only [List.map_cons, List.map_nil, List.cons.injEq, and_true] at dataIns
    obtain ⟨cond', rfl, condValue⟩ :=
      keeps.value old notCopy (inputs (by simp [before])) dataIns.1
    obtain ⟨yes', rfl, yesValue⟩ :=
      keeps.value old notCopy (inputs (by simp [before])) dataIns.2.1
    obtain ⟨no', rfl, noValue⟩ :=
      keeps.value old notCopy (inputs (by simp [before])) dataIns.2.2
    rw [alike, alike, alike, condValue, yesValue, noValue]
    exact obeys.select user cond' yes' no' old kind before
  · intro user region values after kind dataIns
    obtain ⟨old, notCopy⟩ := live_of_replaced listed after
    rw [replaced_kind listed] at kind
    rw [replaced_dataIns listed] at dataIns
    obtain ⟨first, rest, before, renamed, rfl⟩ := List.map_eq_cons_iff.mp dataIns
    obtain ⟨region', rfl, regionValue⟩ :=
      keeps.value old notCopy (inputs (by simp [before])) renamed
    obtain ⟨value, selected, equal⟩ := obeys.phi user region' rest old kind before
    have member : some value ∈ (g.node user).inputs :=
      inputs (by simp [before, List.mem_of_getElem? selected])
    rw [alike, regionValue, List.getElem?_map, selected, Option.map_some]
    rcases keeps.slot old notCopy member with ⟨copy, read, -, same⟩ | ⟨-, read⟩
    · cases copy
      exact ⟨src, congrArg some read, by rw [alike, equal, same]⟩
    · exact ⟨value, congrArg some read, by rw [alike, equal]⟩

theorem NoInvalid.replaced (noInvalid : NoInvalid g) (listed : g.Listed)
    (inside : src < g.size) : NoInvalid (replaced g id src) := by
  intro user after kinds ref member
  have old := (live_of_replaced listed after).1
  rw [replaced_kind listed] at kinds
  rw [replaced_dataIns listed] at member
  obtain ⟨before, there, rfl⟩ := List.mem_map.mp member
  obtain ⟨input, within, rfl⟩ := noInvalid user old kinds before there
  rw [replaced_size]
  unfold Graph.rename
  split
  · exact ⟨src, inside, rfl⟩
  · exact ⟨input, within, rfl⟩

theorem listed_replaced (listed : g.Listed) : (replaced g id src).Listed :=
  (listed.swapIn (g.usersSnapshot id) id src).markDead id

end Step

section Sweep

variable {meaning : Meaning} {g : Graph} {v : Valuation}

theorem sweep_succ (g : Graph) (bound : Nat) :
    sweep g (bound + 1) = copyNode (sweep g bound) bound := by
  rw [sweep, sweep, List.range_succ, List.foldl_append]
  rfl

/-- The state of the sweep: the equations hold, and the lists are complete. -/
structure Swept (meaning : Meaning) (g : Graph) (v : Valuation) (h : Graph) : Prop where
  size : h.size = g.size
  listed : h.Listed
  noInvalid : NoInvalid h
  obeys : Obeys meaning h v

theorem Swept.step {progress : Graph × Nat} (swept : Swept meaning g v progress.1)
    {id : NodeId} (inside : id < g.size)
    (clean : (progress.1.node id).isDead = false → isClean progress.1 id = true) :
    Swept meaning g v (copyNode progress id).1 := by
  unfold copyNode
  simp only
  split
  case isTrue => exact swept
  case isFalse alive =>
    rw [Bool.not_eq_true] at alive
    split
    case h_1 => exact swept
    case h_2 src copied =>
      have live : progress.1.Live id := ⟨by rwa [swept.size], alive⟩
      have reads := (reads_of_replacement copied).1
      have below := swept.obeys.inside id live src reads
      have keeps : Keeps progress.1 v id src := by
        refine ⟨below, swept.obeys.given id live src reads, ?_⟩
        apply (isClean_of_replacement copied (clean alive)).imp_right
        intro may
        exact ⟨may, value_of_replacement swept.obeys swept.noInvalid live copied may⟩
      exact ⟨replaced_size.trans swept.size, listed_replaced swept.listed,
        swept.noInvalid.replaced swept.listed below, keeps.obeys swept.obeys swept.listed⟩

/-- A sweep that comes to no other copies than those that may be replaced keeps the meaning
of the graph: the valuations of the nodes that are left satisfy all equations, after every
step. -/
theorem sweep_obeys (listed : g.Listed) (noInvalid : NoInvalid g) (clean : CleanSweep g)
    (obeys : Obeys meaning g v) {bound : Nat} (within : bound ≤ g.size) :
    Obeys meaning (sweep g bound).1 v := by
  have swept : Swept meaning g v (sweep g bound).1 := by
    induction bound with
    | zero => exact ⟨rfl, listed, noInvalid, obeys⟩
    | succ bound ih =>
        rw [sweep_succ]
        exact (ih (Nat.le_of_succ_le within)).step within (clean bound within)
  exact swept.obeys

end Sweep

/-- Check the equation of a copy. -/
def checkCopy (g : Graph) (v : Valuation) (id : NodeId) : Bool :=
  let n := g.node id
  match n.kind, n.dataIns with
  | .cast, [some src] => decide ((g.node src).typeId = n.typeId → v id = valueOf g v src)
  | .select, [some cond, some yes, some no] =>
      decide (v id = if valueOf g v cond ≠ 0 then valueOf g v yes else valueOf g v no)
  | .phi, some region :: values =>
      match values.getD (valueOf g v region).toNat none with
      | some value => decide (v id = valueOf g v value)
      | none => false
  | _, _ => true

/-- Check the equations that demand a value, and those of copies. -/
def checkAll (g : Graph) (v : Valuation) : Bool :=
  check g v && (List.range g.size).all fun id =>
    (g.node id).isDead ||
      ((g.node id).inputs.all fun ref => ref.all fun input => !(g.node input).isDead) &&
        checkCopy g v id

theorem obeys_of_checkAll {g : Graph} {v : Valuation} (checked : checkAll g v = true) :
    Obeys (fun _ _ _ _ => True) g v := by
  rw [checkAll, Bool.and_eq_true] at checked
  obtain ⟨equations, copies⟩ := checked
  have each {id : NodeId} (live : g.Live id) :
      ((g.node id).inputs.all fun ref => ref.all fun input => !(g.node input).isDead) = true ∧
        checkCopy g v id = true := by
    have here := List.all_eq_true.mp copies id (List.mem_range.mpr live.1)
    rw [live.2, Bool.false_or, Bool.and_eq_true] at here
    exact here
  refine ⟨satisfies_of_check equations, ?_, ?_, ?_, ?_⟩
  · intro id live input member
    have alive := List.all_eq_true.mp (each live).1 _ member
    simpa using alive
  · intro id src live kind dataIns sameType
    have here := (each live).2
    rw [checkCopy] at here
    simp only [kind, dataIns] at here
    exact of_decide_eq_true here sameType
  · intro id cond yes no live kind dataIns
    have here := (each live).2
    rw [checkCopy] at here
    simp only [kind, dataIns] at here
    exact of_decide_eq_true here
  · intro id region values live kind dataIns
    have here := (each live).2
    rw [checkCopy] at here
    simp only [kind, dataIns] at here
    split at here
    case h_1 value selected =>
      refine ⟨value, ?_, of_decide_eq_true here⟩
      rw [List.getD_eq_getElem?_getD] at selected
      cases found : values[(valueOf g v region).toNat]? with
      | none => simp [found] at selected
      | some slot => simpa [found] using selected
    case h_2 => cases here

/-- A phi that merges one effect projection with itself, a cast of it, and its negation. -/
def mergedEffect : Graph :=
  let g := Graph.fresh
  let (ctrl, g) := g.makeProj (some kStartNodeId) 0
  let (effect, g) := g.makeProj (some kStartNodeId) 1
  let (region, g) := g.makeRegion [some ctrl, some ctrl]
  let (phi, g) := g.makePhi (some region) [some effect, some effect] kInvalidTypeId
  let (cast, g) := g.makeNode .cast [some phi] kInvalidTypeId 0
  (g.makeNode .neg [some cast] kInvalidTypeId 0).2

theorem listed_mergedEffect : mergedEffect.Listed :=
  (((((Graph.listed_fresh.pushNode _).pushNode _).pushNode _).pushNode _).pushNode _).pushNode _

theorem sweep_obeys_mergedEffect :
    Obeys (fun _ _ _ _ => True) (run mergedEffect).1 fun id => [0, 1, 9, 1, 9, 9, -9].getD id 0 :=
  sweep_obeys listed_mergedEffect (by
      have all : ∀ id < 7, (mergedEffect.node id).kind = .phi ∨
          (mergedEffect.node id).kind = .select →
            ∀ ref ∈ (mergedEffect.node id).dataIns, ∃ input < 7, ref = some input := by
        decide
      exact fun id live => all id live.1)
    (by
      have all : ∀ id < 7, ((sweep mergedEffect id).1.node id).isDead = false →
          isClean (sweep mergedEffect id).1 id = true := by
        decide
      exact all)
    (obeys_of_checkAll (by decide)) le_rfl

/-- A phi of a parameter and of a region, and its negation. -/
def mergedRegion : Graph :=
  let g := Graph.fresh
  let (ctrl, g) := g.makeProj (some kStartNodeId) 0
  let (param, g) := g.makeNode .parameter [] kInvalidTypeId 0
  let (inner, g) := g.makeRegion [some ctrl]
  let (outer, g) := g.makeRegion [some ctrl, some inner]
  let (phi, g) := g.makePhi (some outer) [some param, some inner] kInvalidTypeId
  (g.makeNode .neg [some phi] kInvalidTypeId 0).2

/-- The region is left out among the values, although it is the one that is selected. -/
theorem mergedRegion_changes : mergedRegion.Listed ∧ NoInvalid mergedRegion ∧
    ∃ v, Obeys (fun _ _ _ _ => True) mergedRegion v ∧
      ¬Obeys (fun _ _ _ _ => True) (run mergedRegion).1 v := by
  have listed : mergedRegion.Listed :=
    (((((Graph.listed_fresh.pushNode _).pushNode _).pushNode _).pushNode _).pushNode _).pushNode _
  have all : ∀ id < 7, (mergedRegion.node id).kind = .phi ∨
      (mergedRegion.node id).kind = .select →
        ∀ ref ∈ (mergedRegion.node id).dataIns, ∃ input < 7, ref = some input := by
    decide
  refine ⟨listed, fun id live => all id live.1,
    fun id => [0, 1, 5, 7, 1, 7, -7].getD id 0, obeys_of_checkAll (by decide), ?_⟩
  intro obeys
  have negation := (obeys.computes 6 ⟨by decide, by decide⟩).demanded (-5) (by decide)
  revert negation
  decide

end CopyPropagation

end Aegis
