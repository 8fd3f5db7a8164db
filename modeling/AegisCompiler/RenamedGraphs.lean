import AegisCompiler.ControlMerges
import AegisCompiler.DataRedirects
import Mathlib.Data.List.Sort

/-!
# Graphs with renamed inputs

A pass that takes nodes out of a graph lets their users read other nodes, marks
the nodes dead, and may append constants.
-/

namespace Aegis

namespace CallWalk

open ControlWalk (operate paramRank isPhiOf)

/-- The second graph reads other nodes in the place of some, appends data
nodes, and marks some control nodes dead. -/
structure Renames (g h : Graph) (subst : NodeId → NodeId) (gone : NodeId → Prop) :
    Prop where
  size : g.size ≤ h.size
  added : ∀ id, g.size ≤ id → IsData (h.node id).kind ∧ (h.node id).kind ≠ .phi
  kind : ∀ id, id < g.size → (h.node id).kind = (g.node id).kind
  payload : ∀ id, id < g.size → (h.node id).payload = (g.node id).payload
  dead : ∀ id, id < g.size → ¬ IsData (g.node id).kind →
    ((h.node id).isDead = true ↔ (g.node id).isDead = true ∨ gone id)
  inputs : ∀ id, id < g.size →
    (h.node id).inputs = (g.node id).inputs.map (Option.map subst)

theorem isPhiOf_iff_ctrlIn {g : Graph} {region id : NodeId} :
    isPhiOf g region id = true ↔
      (g.node id).kind = .phi ∧ (g.node id).ctrlIn = some region := by
  simp only [isPhiOf, Bool.and_eq_true, decide_eq_true_eq, Node.ctrlIn]
  cases (g.node id).inputs <;> simp

namespace Renames

variable {g h : Graph} {subst : NodeId → NodeId} {gone : NodeId → Prop}
variable (renames : Renames g h subst gone)
include renames

theorem live_iff {id : NodeId} (inside : id < g.size)
    (steers : ¬ IsData (g.node id).kind) :
    (h.node id).isDead = false ↔ (g.node id).isDead = false ∧ ¬ gone id := by
  have dead := renames.dead id inside steers
  rw [← Bool.not_eq_true, dead, not_or, Bool.not_eq_true]

theorem getD {id : NodeId} (inside : id < g.size) (slot : Nat) :
    (h.node id).inputs.getD slot none =
      ((g.node id).inputs.getD slot none).map subst := by
  rw [renames.inputs id inside, List.getD_eq_getElem?_getD,
    List.getD_eq_getElem?_getD, List.getElem?_map]
  cases (g.node id).inputs[slot]? <;> rfl

theorem readsControl_iff {id ctrl : NodeId} (inside : id < g.size) :
    ReadsControl (h.node id) ctrl ↔
      ∃ source, subst source = ctrl ∧ ReadsControl (g.node id) source := by
  have first : (h.node id).ctrlIn = some ctrl ↔
      ∃ source, subst source = ctrl ∧ (g.node id).ctrlIn = some source := by
    rw [Node.ctrlIn, renames.getD inside 0, Option.map_eq_some_iff]
    exact exists_congr fun _ => and_comm
  have member : some ctrl ∈ (h.node id).inputs ↔
      ∃ source, subst source = ctrl ∧ some source ∈ (g.node id).inputs := by
    rw [renames.inputs id inside, List.mem_map]
    constructor
    · rintro ⟨ref, reads, same⟩
      obtain ⟨source, rfl, here⟩ := Option.map_eq_some_iff.mp same
      exact ⟨source, here, reads⟩
    · rintro ⟨source, here, reads⟩
      exact ⟨some source, reads, congrArg some here⟩
  unfold ReadsControl
  rw [renames.kind id inside]
  split
  · exact first
  · exact first
  · exact member
  · exact member
  · simp

omit renames in
theorem steers_of_reads {n : Node} {ctrl : NodeId} (reads : ReadsControl n ctrl) :
    ¬ IsData n.kind :=
  fun data => Redirects.not_readsControl data reads

theorem mem_consumers_iff {ctrl user : NodeId} :
    user ∈ consumers h ctrl ↔ user < g.size ∧ (g.node user).isDead = false ∧
      ¬ gone user ∧
        ∃ source, subst source = ctrl ∧ ReadsControl (g.node user) source := by
  rw [mem_consumers]
  by_cases inside : user < g.size
  · rw [renames.readsControl_iff inside]
    constructor
    · rintro ⟨-, live, source, same, reads⟩
      have live := (renames.live_iff inside (steers_of_reads reads)).mp live
      exact ⟨inside, live.1, live.2, source, same, reads⟩
    · rintro ⟨-, live, stays, source, same, reads⟩
      exact ⟨Nat.lt_of_lt_of_le inside renames.size,
        (renames.live_iff inside (steers_of_reads reads)).mpr ⟨live, stays⟩,
        source, same, reads⟩
  · constructor
    · rintro ⟨-, -, reads⟩
      exact absurd reads
        (Redirects.not_readsControl
          (renames.added user (Nat.le_of_not_lt inside)).1)
    · exact fun reads => absurd reads.1 inside

theorem mem_projs_iff {source proj : NodeId} {which : BitVec 32} :
    proj ∈ projs h source which ↔ proj < g.size ∧
      (g.node proj).isDead = false ∧ ¬ gone proj ∧ (g.node proj).kind = .proj ∧
        (∃ before, subst before = source ∧ (g.node proj).inputs = [some before]) ∧
          (g.node proj).payload.projIndex = which := by
  rw [mem_projs]
  by_cases inside : proj < g.size
  · rw [renames.kind proj inside, renames.payload proj inside,
      renames.inputs proj inside]
    have single : (g.node proj).inputs.map (Option.map subst) = [some source] ↔
        ∃ before, subst before = source ∧
          (g.node proj).inputs = [some before] := by
      constructor
      · intro same
        obtain ⟨ref, inputs, here⟩ := List.map_eq_singleton_iff.mp same
        obtain ⟨before, rfl, same⟩ := Option.map_eq_some_iff.mp here
        exact ⟨before, same, inputs⟩
      · rintro ⟨before, same, inputs⟩
        rw [inputs, List.map_singleton, Option.map_some, same]
    rw [single]
    constructor
    · rintro ⟨-, live, isProj, rest⟩
      have live := (renames.live_iff inside
        fun data => data.2.2.2.2.1 isProj).mp live
      exact ⟨inside, live.1, live.2, isProj, rest⟩
    · rintro ⟨-, live, stays, isProj, rest⟩
      exact ⟨Nat.lt_of_lt_of_le inside renames.size, (renames.live_iff inside
        fun data => data.2.2.2.2.1 isProj).mpr ⟨live, stays⟩, isProj, rest⟩
  · constructor
    · rintro ⟨-, -, isProj, -⟩
      exact absurd isProj
        (renames.added proj (Nat.le_of_not_lt inside)).1.2.2.2.2.1
    · exact fun there => absurd there.1 inside

theorem mem_callsAt_iff {ctrl call : NodeId} :
    call ∈ callsAt h ctrl ↔ call < g.size ∧ (g.node call).isDead = false ∧
      ¬ gone call ∧ (g.node call).kind.isCall = true ∧
        ∃ source, subst source = ctrl ∧ (g.node call).ctrlIn = some source := by
  rw [mem_callsAt]
  by_cases inside : call < g.size
  · rw [renames.kind call inside, Node.ctrlIn, renames.getD inside 0,
      Option.map_eq_some_iff]
    constructor
    · rintro ⟨-, live, isCall, source, ctrlIn, same⟩
      have live := (renames.live_iff inside
        fun data => by simp [data.2.2.2.2.2.2] at isCall).mp live
      exact ⟨inside, live.1, live.2, isCall, source, same, ctrlIn⟩
    · rintro ⟨-, live, stays, isCall, source, same, ctrlIn⟩
      exact ⟨Nat.lt_of_lt_of_le inside renames.size, (renames.live_iff inside
        fun data => by simp [data.2.2.2.2.2.2] at isCall).mpr ⟨live, stays⟩,
        isCall, source, ctrlIn, same⟩
  · constructor
    · rintro ⟨-, -, isCall, -⟩
      have data := (renames.added call (Nat.le_of_not_lt inside)).1
      simp [data.2.2.2.2.2.2] at isCall
    · exact fun there => absurd there.1 inside

theorem paramRank_eq {id : NodeId} (inside : id < g.size) :
    paramRank h id = paramRank g id :=
  paramRank_congr fun p earlier => renames.kind p (Nat.lt_trans earlier inside)

theorem idxOf_eq {id ctrl place : NodeId} (inside : id < g.size)
    (same : ∀ source, some source ∈ (g.node id).inputs →
      (subst source = place ↔ source = ctrl)) :
    (h.node id).inputs.idxOf (some place) = (g.node id).inputs.idxOf (some ctrl) := by
  rw [renames.inputs id inside]
  revert same
  induction (g.node id).inputs with
  | nil => exact fun _ => rfl
  | cons ref refs ih =>
      intro same
      have rest := ih fun source member =>
        same source (List.mem_cons_of_mem _ member)
      have head : (ref.map subst == some place) = (ref == some ctrl) := by
        rw [Bool.eq_iff_iff, beq_iff_eq, beq_iff_eq]
        cases ref with
        | none => simp
        | some source =>
            simpa using same source List.mem_cons_self
      rw [List.map_cons, List.idxOf_cons, List.idxOf_cons, rest, head]

theorem phiSlot_eq {id ctrl place : NodeId} (inside : id < g.size)
    (same : ∀ source, some source ∈ (g.node id).inputs →
      (subst source = place ↔ source = ctrl)) :
    phiSlot (h.node id) place = phiSlot (g.node id) ctrl := by
  simp only [phiSlot, renames.idxOf_eq inside same, renames.kind id inside]

theorem isPhiOf_iff {region id : NodeId} :
    isPhiOf h region id = true ↔ id < g.size ∧ (g.node id).kind = .phi ∧
      ∃ source, subst source = region ∧ (g.node id).ctrlIn = some source := by
  rw [isPhiOf_iff_ctrlIn]
  by_cases inside : id < g.size
  · rw [renames.kind id inside, Node.ctrlIn, renames.getD inside 0,
      Option.map_eq_some_iff]
    constructor
    · rintro ⟨isPhi, source, reads, same⟩
      exact ⟨inside, isPhi, source, same, reads⟩
    · rintro ⟨-, isPhi, source, same, reads⟩
      exact ⟨isPhi, source, reads, same⟩
  · constructor
    · exact fun phi => absurd phi.1 (renames.added id (Nat.le_of_not_lt inside)).2
    · exact fun phi => absurd phi.1 inside

end Renames

/-- Increasing lists with the same members are equal. -/
theorem eq_of_mem_iff {xs ys : List NodeId} (increasing : xs.Pairwise (· < ·))
    (increasing' : ys.Pairwise (· < ·)) (same : ∀ id, id ∈ xs ↔ id ∈ ys) :
    xs = ys :=
  increasing.eq_of_mem_iff increasing' same

theorem consumers_pairwise (g : Graph) (ctrl : NodeId) :
    (consumers g ctrl).Pairwise (· < ·) :=
  List.pairwise_lt_range.filter _

theorem projs_pairwise (g : Graph) (source : NodeId) (which : BitVec 32) :
    (projs g source which).Pairwise (· < ·) :=
  List.pairwise_lt_range.filter _

theorem callsAt_pairwise (g : Graph) (ctrl : NodeId) :
    (callsAt g ctrl).Pairwise (· < ·) :=
  List.pairwise_lt_range.filter _

theorem phiSlot_pos (n : Node) (ctrl : NodeId) : 0 < phiSlot n ctrl := by
  simp only [phiSlot]
  split_ifs <;> omega

/-- Control nodes that merge or end something have no value. -/
theorem not_hasValue_of_kind {g : Graph} {args : List Word} {held : Held}
    {id : NodeId} {v : Word}
    (kind : (g.node id).kind = .ifNode ∨ (g.node id).kind = .returnNode ∨
      (g.node id).kind = .region ∨ (g.node id).kind = .loop ∨
        (g.node id).kind = .start) :
    ¬ HasValue g args held id v := by
  intro value
  obtain ⟨fuel, value⟩ := hasValue_iff.mp value
  have operated : operate (g.node id) (valueAt g args held fuel) = some v := by
    unfold valueStep at value
    rcases kind with kind | kind | kind | kind | kind <;> simpa [kind] using value
  have unop (a : Word) : evalUnop (g.node id).kind a = none := by
    rcases kind with kind | kind | kind | kind | kind <;> rw [kind] <;> rfl
  have binop (a b : Word) : evalBinop (g.node id).kind a b = none := by
    rcases kind with kind | kind | kind | kind | kind <;> rw [kind] <;> rfl
  unfold operate at operated
  split at operated <;> simp [unop, binop] at operated

end CallWalk

end Aegis
