import AegisCompiler.SccpSweeps
import Mathlib.Logic.Relation

/-!
# The sweep loop ends

Merging moves a value down the lattice only, whatever the transfer functions say and in
whatever order the nodes are visited.  The loop runs until a sweep changes nothing, and then
no live node has anything to merge.
-/

namespace Aegis

namespace Sccp

variable {g : Graph} {state later final : State}

/-- Values move from top to a constant to bottom. -/
def LatticeVal.Descends : LatticeVal → LatticeVal → Prop
  | .top, _ => True
  | .const value, .const other => value = other
  | .const _, .bottom => True
  | .bottom, .bottom => True
  | _, _ => False

theorem LatticeVal.Descends.refl (value : LatticeVal) : value.Descends value := by
  cases value <;> trivial

theorem LatticeVal.Descends.trans {first second third : LatticeVal}
    (early : first.Descends second) (late : second.Descends third) : first.Descends third := by
  cases first with
  | top => trivial
  | const value =>
      cases second with
      | top => exact early.elim
      | const other =>
          obtain rfl : value = other := early
          exact late
      | bottom =>
          cases third with
          | bottom => trivial
          | top => exact late.elim
          | const other => exact late.elim
  | bottom =>
      cases second with
      | bottom => exact late
      | top => exact early.elim
      | const other => exact early.elim

/-- Whatever is merged into a value, it moves down or stays. -/
theorem LatticeVal.descends_merge (value other : LatticeVal) :
    value.Descends (value.merge other).1 := by
  cases value with
  | top => trivial
  | bottom => cases other <;> trivial
  | const constant =>
      cases other with
      | top => exact LatticeVal.Descends.refl (.const constant)
      | bottom => trivial
      | const other =>
          rw [LatticeVal.merge]
          split
          · exact LatticeVal.Descends.refl (.const constant)
          · trivial

/-- One more state is reached by visiting a node. -/
def Visits (g : Graph) (state later : State) : Prop :=
  ∃ id < g.size, later = (visit g state id).1

theorem visit_descends (g : Graph) (state : State) (id other : NodeId) :
    (state.valueAt other).Descends ((visit g state id).1.valueAt other) := by
  simp only [visit]
  split
  case isTrue => exact LatticeVal.Descends.refl _
  case isFalse =>
    split
    case isTrue => exact LatticeVal.Descends.refl _
    case isFalse =>
      cases transfer g state id with
      | none => exact LatticeVal.Descends.refl _
      | some value =>
          simp only [State.mergeAt, valueAt_set]
          split
          case isTrue here =>
            rw [here.1]
            exact LatticeVal.descends_merge _ _
          case isFalse => exact LatticeVal.Descends.refl _

/-- Along any visits, in any order, every value only moves down. -/
theorem visits_descend (path : Relation.ReflTransGen (Visits g) state later) (id : NodeId) :
    (state.valueAt id).Descends (later.valueAt id) := by
  induction path with
  | refl => exact LatticeVal.Descends.refl _
  | tail _ visited ih =>
      obtain ⟨node, _, rfl⟩ := visited
      exact ih.trans (visit_descends g _ node id)

/-- The `while` loop: a sweep that changes nothing is the last one. -/
inductive Loops (g : Graph) : Nat → State → State → Prop
  | last {state : State} (quiet : (sweep g state).2 = false) : Loops g 1 state (sweep g state).1
  | again {count : Nat} {state final : State} (changed : (sweep g state).2 = true)
      (rest : Loops g count (sweep g state).1 final) : Loops g (count + 1) state final

/-- The loop has one number of sweeps and one result. -/
theorem Loops.unique {count count' : Nat} {final' : State} (loops : Loops g count state final)
    (loops' : Loops g count' state final') : count = count' ∧ final = final' := by
  induction loops generalizing count' final' with
  | last quiet =>
      cases loops' with
      | last => exact ⟨rfl, rfl⟩
      | again changed => exact absurd (quiet.symm.trans changed) Bool.false_ne_true
  | again changed _ ih =>
      cases loops' with
      | last quiet => exact absurd (quiet.symm.trans changed) Bool.false_ne_true
      | again _ rest =>
          obtain ⟨rfl, rfl⟩ := ih rest
          exact ⟨rfl, rfl⟩

theorem visitAll_visits (ids : List NodeId) (inside : ∀ id ∈ ids, id < g.size)
    (state : State) (changed : Bool) :
    Relation.ReflTransGen (Visits g) state (visitAll g ids (state, changed)).1 := by
  induction ids generalizing state changed with
  | nil => exact Relation.ReflTransGen.refl
  | cons id ids ih =>
      have first : Visits g state (visit g state id).1 := ⟨id, inside id List.mem_cons_self, rfl⟩
      exact (ih (fun other member => inside other (List.mem_cons_of_mem id member)) _ _).head first

theorem Loops.visits {count : Nat} (loops : Loops g count state final) :
    Relation.ReflTransGen (Visits g) state final := by
  induction loops with
  | last => exact visitAll_visits _ mem_range_inside _ _
  | again _ _ ih => exact (visitAll_visits _ mem_range_inside _ _).trans ih

/-- Enough sweeps for the nodes at top are those of the loop. -/
theorem loops_sweeps {fuel : Nat} (invariant : Invariant g state) (enough : tops state < fuel) :
    ∃ count ≤ fuel, Loops g count state (sweeps g fuel state) := by
  induction fuel generalizing state with
  | zero => omega
  | succ fuel ih =>
      obtain ⟨kept, _, _, progress, _⟩ :=
        visitAll_spec (mem_range_inside (g := g)) invariant false
      rw [sweeps]
      cases changed : (sweep g state).2 with
      | false => exact ⟨1, Nat.succ_le_succ (Nat.zero_le _), Loops.last changed⟩
      | true =>
          have fewer : tops (sweep g state).1 < tops state :=
            (progress changed).resolve_left Bool.false_ne_true
          obtain ⟨count, few, rest⟩ := @ih (sweep g state).1 kept (by omega)
          exact ⟨count + 1, Nat.succ_le_succ few, Loops.again changed rest⟩

/-- What a quiet visit says about the value of the node. -/
theorem merge_of_quiet {id : NodeId} (live : g.Live id)
    (notConstant : (g.node id).kind ≠ .constant)
    (quiet : visit g state id = (state, false)) {value : LatticeVal}
    (decision : transfer g state id = some value) :
    (state.valueAt id).merge value = (state.valueAt id, false) := by
  rw [visit, if_neg (by rw [live.2]; exact Bool.false_ne_true), if_neg notConstant,
    decision] at quiet
  have flag : ((state.valueAt id).merge value).2 = false := congrArg Prod.snd quiet
  revert flag
  cases state.valueAt id with
  | top => cases value <;> simp [LatticeVal.merge]
  | bottom => cases value <;> simp [LatticeVal.merge]
  | const held =>
      cases value with
      | top => simp [LatticeVal.merge]
      | bottom => simp [LatticeVal.merge]
      | const other =>
          rw [LatticeVal.merge]
          split
          · intro _
            rfl
          · intro impossible
            cases impossible

/-- Values move down only, the loop ends after at most `2n + 1` sweeps, and in its result no
visit of a live node changes anything. -/
theorem terminates_at_fixpoint (g : Graph) :
    (∀ state later, Relation.ReflTransGen (Visits g) state later →
      ∀ id, (state.valueAt id).Descends (later.valueAt id)) ∧
    ∃ count ≤ 2 * g.size + 1, ∃ final, Loops g count (seed g) final ∧
      Relation.ReflTransGen (Visits g) (seed g) final ∧
      ∀ id, g.Live id → visit g final id = (final, false) ∧
        ((g.node id).kind ≠ .constant → ∀ value, transfer g final id = some value →
          (final.valueAt id).merge value = (final.valueAt id, false)) := by
  refine ⟨fun _ _ path id => visits_descend path id, ?_⟩
  obtain ⟨count, few, loops⟩ := loops_sweeps Invariant.seed (tops_seed (g := g))
  refine ⟨count, by omega, analyze g, loops, loops.visits, fun id live => ?_⟩
  have quiet := analyze_stable live.1
  exact ⟨quiet, fun notConstant value decision =>
    merge_of_quiet live notConstant quiet decision⟩

end Sccp

end Aegis
