import AegisCompiler.ControlWiring

/-!
# Steps of a walk in a wired graph

In a graph without pending loops every use of a control value is its only use,
so it decides the next step of the walk.
-/

namespace Aegis

namespace ControlWalk

/-- No header is pending. -/
def noPending : NodeId → Prop := fun _ => False

variable {g : Graph} {args : List Word} {phis : Phis}

theorem mem_consumers {ctrl user slot : Nat} :
    (user, slot) ∈ consumers g ctrl ↔ ReadsCtrl (g.node user) slot ctrl := by
  simp only [consumers, List.mem_flatMap, List.mem_range, List.mem_map,
    List.mem_filter, decide_eq_true_eq, Prod.mk.injEq]
  constructor
  · rintro ⟨user, -, slot, ⟨-, reads⟩, rfl, rfl⟩
    exact reads
  · intro reads
    refine ⟨user, readsCtrl_inside reads, slot, ⟨?_, reads⟩, rfl, rfl⟩
    by_contra outside
    have missing := reads.2
    rw [List.getD_eq_getElem?_getD,
      List.getElem?_eq_none (Nat.le_of_not_lt outside)] at missing
    cases missing

theorem consumers_nodup (ctrl : NodeId) : (consumers g ctrl).Nodup := by
  rw [consumers, List.nodup_flatMap]
  constructor
  · intro user _
    refine (List.nodup_range.filter _).map fun first second same => ?_
    exact (Prod.mk.inj same).2
  · refine List.Pairwise.imp ?_ List.nodup_range
    intro first second differ
    simp only [Function.onFun, List.disjoint_left, List.mem_map]
    rintro pair ⟨_, -, rfl⟩ ⟨_, -, same⟩
    exact differ (Prod.mk.inj same).1.symm

/-- A list without repetitions whose members are all equal is a singleton. -/
theorem eq_singleton_of_nodup {α : Type} {xs : List α} {x : α}
    (nodup : xs.Nodup) (member : x ∈ xs) (only : ∀ y ∈ xs, y = x) :
    xs = [x] := by
  have perm : xs.Perm [x] := by
    rw [List.perm_ext_iff_of_nodup nodup (List.nodup_singleton x)]
    intro y
    rw [List.mem_singleton]
    exact ⟨only y, fun same => same ▸ member⟩
  exact List.perm_singleton.mp perm

variable (wired : Wired noPending g)
include wired

theorem consumers_eq {ctrl user slot : Nat}
    (reads : ReadsCtrl (g.node user) slot ctrl) :
    consumers g ctrl = [(user, slot)] := by
  have counts {user slot : Nat} (reads : ReadsCtrl (g.node user) slot ctrl) :
      Uses noPending g user slot ctrl := ⟨reads, And.left⟩
  refine eq_singleton_of_nodup (consumers_nodup ctrl)
    (mem_consumers.mpr reads) ?_
  rintro ⟨other, otherSlot⟩ member
  obtain ⟨rfl, rfl⟩ := wired.single _ _ _ _ _ (counts reads)
    (counts (mem_consumers.mp member))
  rfl

theorem projs_eq {source proj : NodeId} {which : BitVec 32}
    (kind : (g.node proj).kind = .proj)
    (inputs : (g.node proj).inputs = [some source])
    (index : (g.node proj).payload.projIndex = which) :
    projs g source which = [proj] := by
  have mem (p : NodeId) : p ∈ projs g source which ↔ p < g.size ∧
      ((g.node p).kind = .proj ∧ (g.node p).inputs = [some source]) ∧
        (g.node p).payload.projIndex = which := by
    simp [projs]
  refine eq_singleton_of_nodup (List.nodup_range.filter _) ?_ ?_
  · exact (mem proj).mpr ⟨kind_proj_inside kind, ⟨kind, inputs⟩, index⟩
  · intro other member
    obtain ⟨-, ⟨otherKind, otherInputs⟩, otherIndex⟩ := (mem other).mp member
    exact wired.projs other proj otherKind kind (otherInputs.trans inputs.symm)
      (otherIndex.trans index.symm)

/-- An If continues at projection 0 exactly if its condition is not zero. -/
theorem step_if {ctrl ifNode proj cond : NodeId} {v : Word}
    (kind : (g.node ifNode).kind = .ifNode)
    (inputs : (g.node ifNode).inputs = [some ctrl, some cond])
    (condition : value g args phis cond = some v)
    (projKind : (g.node proj).kind = .proj)
    (projInputs : (g.node proj).inputs = [some ifNode])
    (index : (g.node proj).payload.projIndex = if v ≠ 0 then 0 else 1) :
    step g args (.walking ctrl phis) = some (.walking proj phis) := by
  have reads : ReadsCtrl (g.node ifNode) 0 ctrl := by
    simp [ReadsCtrl, kind, inputs]
  simp only [step, consumers_eq wired reads, kind, inputs, valueOf,
    List.getD_cons_succ, List.getD_cons_zero, Option.bind_some, condition,
    projs_eq wired projKind projInputs index]

/-- Entering a region through one of its slots. -/
theorem step_region {ctrl region slot : Nat}
    (kind : (g.node region).kind = .region)
    (input : (g.node region).inputs.getD slot none = some ctrl) :
    step g args (.walking ctrl phis) =
      some (.walking region (enter g args region (slot + 1) phis)) := by
  have reads : ReadsCtrl (g.node region) slot ctrl :=
    ⟨Or.inr (Or.inl kind), input⟩
  simp only [step, consumers_eq wired reads, kind]

/-- Entering a loop, from slot 1 for the first time and from slot 0 around the
back edge. -/
theorem step_loop {ctrl loop slot : Nat} (kind : (g.node loop).kind = .loop)
    (input : (g.node loop).inputs.getD slot none = some ctrl) :
    step g args (.walking ctrl phis) =
      some (.walking loop
        (enter g args loop (if slot = 1 then 1 else 2) phis)) := by
  have reads : ReadsCtrl (g.node loop) slot ctrl :=
    ⟨Or.inr (Or.inr kind), input⟩
  simp only [step, consumers_eq wired reads, kind]

theorem step_return {ctrl ret result : NodeId} {eff : NodeRef} {v : Word}
    (kind : (g.node ret).kind = .returnNode)
    (inputs : (g.node ret).inputs = [some ctrl, eff, some result])
    (returned : value g args phis result = some v) :
    step g args (.walking ctrl phis) = some (.returned v) := by
  have reads : ReadsCtrl (g.node ret) 0 ctrl := by
    simp [ReadsCtrl, kind, inputs]
  simp only [step, consumers_eq wired reads, kind, inputs, valueOf,
    List.getD_cons_succ, List.getD_cons_zero, Option.bind_some, returned,
    Option.map_some]

omit wired in
/-- Entering a region leaves everything but its own phis alone. -/
theorem enter_other {region phi : NodeId} {slot : Nat}
    (other : isPhiOf g region phi = false) :
    enter g args region slot phis phi = phis phi := by
  simp [enter, other]

/-- The phis of a region come after it. -/
theorem enter_below {region id : NodeId} {slot : Nat} (before : id ≤ region) :
    enter g args region slot phis id = phis id := by
  refine enter_other ?_
  by_contra isPhi
  simp only [isPhiOf, Bool.not_eq_false, Bool.and_eq_true, decide_eq_true_eq]
    at isPhi
  obtain ⟨source, head, below⟩ := (wired.ordered.node id).phi isPhi.1
  rw [isPhi.2, Option.some.injEq, Option.some.injEq] at head
  exact Nat.lt_irrefl _ (Nat.lt_of_lt_of_le (head ▸ below) before)

omit wired in
theorem enter_phi {region phi : NodeId} {slot : Nat}
    (kind : (g.node phi).kind = .phi)
    (head : (g.node phi).inputs.head? = some (some region)) :
    enter g args region slot phis phi =
      valueOf g args phis ((g.node phi).inputs.getD slot none) := by
  simp [enter, isPhiOf, kind, head]

end ControlWalk

end Aegis
