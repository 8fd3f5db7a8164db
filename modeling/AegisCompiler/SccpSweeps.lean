import AegisCompiler.SccpTransfer

/-!
# The sweep loop

A visit either changes nothing or raises one node from top, so the loop ends
within one sweep per node, in a state that no visit changes.
-/

namespace Aegis

namespace Sccp

variable {g : Graph}

/-- What holds of the lattice values throughout the run: constants are decided
by the operands as they stand, and overdefined nodes have a reason. -/
structure Invariant (g : Graph) (state : State) : Prop where
  length : state.length = g.size
  constants : ∀ id, g.Live id → (g.node id).kind = .constant →
    state.valueAt id = .const (g.node id).payload
  decided : ∀ id value, state.valueAt id = .const value →
    g.Live id ∧ ((g.node id).kind = .constant ∨ Decides g state id value)
  blocked : ∀ id, state.valueAt id = .bottom →
    (g.node id).kind ≠ .constant ∧ ((g.node id).kind = .phi ∨
      ∃ input ∈ consulted g (g.node id), state.valueAt input = .bottom)

/-- The later state keeps every decision of the earlier one. -/
def Keeps (earlier later : State) : Prop :=
  ∀ id, earlier.valueAt id ≠ .top → later.valueAt id = earlier.valueAt id

theorem Keeps.refl (state : State) : Keeps state state :=
  fun _ _ => rfl

theorem Keeps.trans {first second third : State}
    (early : Keeps first second) (late : Keeps second third) :
    Keeps first third := by
  intro id known
  rw [late id (by rwa [early id known]), early id known]

theorem Keeps.const {earlier later : State} (keeps : Keeps earlier later)
    {id : NodeId} {value : Word} (known : earlier.valueAt id = .const value) :
    later.valueAt id = .const value := by
  rw [keeps id (by simp [known]), known]

theorem Decides.keeps {earlier later : State} (keeps : Keeps earlier later)
    {id : NodeId} {value : Word} (decides : Decides g earlier id value) :
    Decides g later id value := by
  simp only [Decides] at decides ⊢
  split at decides
  case isTrue isPhi =>
    simp only [isPhi, if_true]
    exact ⟨decides.1, fun input member => keeps.const (decides.2 input member)⟩
  case isFalse notPhi =>
    simp only [notPhi, if_false]
    split at decides
    case isTrue isUnary =>
      obtain ⟨input, operand, first, known, folded⟩ := decides
      simp only [isUnary, if_true]
      exact ⟨input, operand, first, keeps.const known, folded⟩
    case isFalse notUnary =>
      obtain ⟨constants, folded⟩ := decides
      have agree : ∀ input ∈ operands g (g.node id),
          later.valueAt input = earlier.valueAt input :=
        fun input member => keeps input (by rw [constants input member]; simp)
      simp only [notUnary]
      refine ⟨fun input member => ?_, ?_⟩
      · rw [agree input member]
        exact constants input member
      · have same : payloads later (operands g (g.node id)) =
            payloads earlier (operands g (g.node id)) :=
          List.map_congr_left fun input member => by rw [agree input member]
        rw [same]
        exact folded

@[simp]
theorem valueAt_set (state : State) (id : NodeId) (value : LatticeVal)
    (other : NodeId) :
    State.valueAt (state.set id value) other =
      if other = id ∧ id < state.length then value
      else state.valueAt other := by
  by_cases same : other = id
  · subst same
    by_cases inside : other < state.length
    · simp [State.valueAt, inside]
    · simp [State.valueAt, inside, List.set_eq_of_length_le
        (Nat.le_of_not_lt inside)]
  · simp [State.valueAt, same, Ne.symm same]

/-- A visit either changes nothing or raises one node from top. -/
theorem visit_cases {state : State} (invariant : Invariant g state)
    (id : NodeId) (inside : id < g.size) :
    visit g state id = (state, false) ∨
      ∃ value, g.Live id ∧ (g.node id).kind ≠ .constant ∧
        state.valueAt id = .top ∧ value ≠ .top ∧
        transfer g state id = some value ∧
        visit g state id = (state.set id value, true) := by
  have unchanged : state.set id (state.valueAt id) = state :=
    Graph.set_getD_self state id .top
  simp only [visit]
  split
  case isTrue => exact Or.inl rfl
  case isFalse alive =>
    split
    case isTrue => exact Or.inl rfl
    case isFalse notConstant =>
      cases decision : transfer g state id with
      | none => exact Or.inl rfl
      | some value =>
          have notTop : value ≠ .top := by
            rintro rfl
            exact transfer_ne_top decision
          simp only [State.mergeAt]
          cases known : state.valueAt id with
          | top =>
              refine Or.inr ⟨value, ⟨inside, by simpa using alive⟩,
                notConstant, rfl, notTop, rfl, ?_⟩
              cases value with
              | top => exact absurd rfl notTop
              | bottom => rfl
              | const value => rfl
          | bottom =>
              left
              have merged : LatticeVal.bottom.merge value =
                  (.bottom, false) := by
                cases value <;> rfl
              rw [merged, ← known, unchanged]
          | const held =>
              left
              obtain ⟨-, isConstant | decides⟩ := invariant.decided id held known
              · exact absurd isConstant notConstant
              · rw [transfer_eq_const_iff.mpr decides] at decision
                cases decision
                simp only [LatticeVal.merge, if_true]
                rw [← known, unchanged]

theorem keeps_set {state : State} {id : NodeId} {value : LatticeVal}
    (unknown : state.valueAt id = .top) :
    Keeps state (state.set id value) := by
  intro other known
  have apart : other ≠ id := by
    rintro rfl
    exact known unknown
  simp [apart]

theorem Invariant.visit {state : State} (invariant : Invariant g state)
    (id : NodeId) (inside : id < g.size) :
    Invariant g (visit g state id).1 ∧ Keeps state (visit g state id).1 := by
  rcases visit_cases invariant id inside with
    same | ⟨value, live, notConstant, unknown, notTop, decision, changed⟩
  · rw [same]
    exact ⟨invariant, Keeps.refl state⟩
  · rw [changed]
    have keeps : Keeps state (state.set id value) := keeps_set unknown
    refine ⟨⟨?_, ?_, ?_, ?_⟩, keeps⟩
    · simpa using invariant.length
    · intro other otherLive isConstant
      exact keeps.const (invariant.constants other otherLive isConstant)
    · intro other constant known
      by_cases same : other = id
      · subst same
        simp only [valueAt_set, invariant.length, inside, and_self, if_true]
          at known
        subst known
        exact ⟨live, Or.inr
          ((transfer_eq_const_iff.mp decision).keeps keeps)⟩
      · simp only [valueAt_set, same, false_and, if_false] at known
        obtain ⟨otherLive, reason⟩ := invariant.decided other constant known
        exact ⟨otherLive, reason.imp_right fun decides => decides.keeps keeps⟩
    · intro other known
      have later {input : NodeId} (bottom : state.valueAt input = .bottom) :
          State.valueAt (state.set id value) input = .bottom := by
        rw [keeps input (by simp [bottom]), bottom]
      by_cases same : other = id
      · subst same
        simp only [valueAt_set, invariant.length, inside, and_self, if_true]
          at known
        subst known
        refine ⟨notConstant, (transfer_bottom notConstant decision).imp_right ?_⟩
        rintro ⟨input, member, bottom⟩
        exact ⟨input, member, later bottom⟩
      · simp only [valueAt_set, same, false_and, if_false] at known
        obtain ⟨otherKind, reason⟩ := invariant.blocked other known
        refine ⟨otherKind, reason.imp_right ?_⟩
        rintro ⟨input, member, bottom⟩
        exact ⟨input, member, later bottom⟩

theorem seed_valueAt (id : NodeId) :
    (seed g).valueAt id =
      if id < g.size ∧ (g.node id).isDead = false ∧
          (g.node id).kind = .constant then
        .const (g.node id).payload
      else .top := by
  by_cases inside : id < g.size
  · have here : id < g.nodes.length := inside
    simp only [seed, State.valueAt, List.getD_eq_getElem?_getD,
      List.getElem?_map, List.getElem?_eq_getElem here, Option.map_some,
      Option.getD_some, inside, true_and, g.node_eq_getElem here]
    cases dead : g.nodes[id].isDead <;> simp
  · have outside : g.nodes.length ≤ id := Nat.le_of_not_lt inside
    simp [seed, State.valueAt, inside, outside]

theorem Invariant.seed : Invariant g (seed g) where
  length := by simp [Sccp.seed, Graph.size]
  constants := by
    intro id live isConstant
    rw [seed_valueAt, if_pos ⟨live.1, live.2, isConstant⟩]
  decided := by
    intro id value known
    rw [seed_valueAt] at known
    split at known
    case isTrue found => exact ⟨⟨found.1, found.2.1⟩, Or.inl found.2.2⟩
    case isFalse => cases known
  blocked := by
    intro id bottom
    rw [seed_valueAt] at bottom
    split at bottom <;> cases bottom

/-- The number of nodes still at top bounds the sweeps left. -/
def tops (state : State) : Nat := state.count .top

theorem tops_set {state : State} {id : NodeId} {value : LatticeVal}
    (inside : id < state.length) (unknown : state.valueAt id = .top)
    (notTop : value ≠ .top) : tops (state.set id value) < tops state := by
  have here : state[id] = LatticeVal.top := by
    simpa [State.valueAt, inside] using unknown
  have member : LatticeVal.top ∈ state := here ▸ List.getElem_mem inside
  have positive : 0 < state.count LatticeVal.top :=
    List.count_pos_iff.mpr member
  simp only [tops, List.count_set inside, here, beq_self_eq_true, if_true,
    beq_iff_eq, notTop, if_false]
  omega

/-- A change is never forgotten within a sweep. -/
theorem visitAll_changed (ids : List NodeId) (state : State) :
    (visitAll g ids (state, true)).2 = true := by
  induction ids generalizing state with
  | nil => rfl
  | cons id ids ih =>
      simp only [visitAll, Bool.true_or]
      exact ih _

/-- Visiting a list of nodes keeps the invariant; it reports no change only
if every visit was idle, and otherwise fewer nodes are left at top. -/
theorem visitAll_spec {ids : List NodeId} (inside : ∀ id ∈ ids, id < g.size)
    {state : State} (invariant : Invariant g state) (changed : Bool) :
    let result := visitAll g ids (state, changed)
    Invariant g result.1 ∧ Keeps state result.1 ∧
      tops result.1 ≤ tops state ∧
      (result.2 = true → changed = true ∨ tops result.1 < tops state) ∧
      (result.2 = false → result.1 = state ∧
        ∀ id ∈ ids, visit g state id = (state, false)) := by
  induction ids generalizing state changed with
  | nil => simp [visitAll, invariant, Keeps.refl]
  | cons id ids ih =>
      have here := inside id (by simp)
      obtain ⟨kept, keeps⟩ := invariant.visit id here
      obtain ⟨final, later, fewer, progress, idle⟩ :=
        ih (fun other member => inside other (by simp [member])) kept
          (changed || (visit g state id).2)
      rcases visit_cases invariant id here with
        same | ⟨value, -, -, unknown, notTop, -, raised⟩
      · simp only [same, Bool.or_false] at final later fewer progress idle
        simp only [visitAll, same, Bool.or_false]
        refine ⟨final, later, fewer, progress, fun quiet => ?_⟩
        obtain ⟨equal, rest⟩ := idle quiet
        refine ⟨equal, fun other member => ?_⟩
        rcases List.mem_cons.mp member with rfl | member
        · exact same
        · exact rest other member
      · have shrinks : tops (state.set id value) < tops state :=
          tops_set (by rw [invariant.length]; exact here) unknown notTop
        rw [raised] at keeps
        simp only [raised, Bool.or_true] at final later fewer progress idle
        simp only [visitAll, raised, Bool.or_true]
        refine ⟨final, keeps.trans later, by omega, fun _ => Or.inr (by omega),
          fun quiet => ?_⟩
        rw [visitAll_changed] at quiet
        cases quiet

/-- Any property preserved by a visit is preserved by a list of visits. -/
theorem visitAll_induct {motive : State → Prop} {ids : List NodeId}
    (inside : ∀ id ∈ ids, id < g.size)
    (step : ∀ state id, Invariant g state → id < g.size → motive state →
      motive (visit g state id).1)
    {state : State} (invariant : Invariant g state) (start : motive state)
    (changed : Bool) : motive (visitAll g ids (state, changed)).1 := by
  induction ids generalizing state changed with
  | nil => exact start
  | cons id ids ih =>
      have here := inside id (by simp)
      exact ih (fun other member => inside other (by simp [member]))
        (invariant.visit id here).1 (step state id invariant here start) _

theorem mem_range_inside : ∀ id ∈ List.range g.size, id < g.size :=
  fun _ member => List.mem_range.mp member

/-- The sweep loop stops in a state that no visit changes. -/
theorem sweeps_spec {fuel : Nat} {state : State}
    (invariant : Invariant g state) (enough : tops state < fuel) :
    Invariant g (sweeps g fuel state) ∧ Keeps state (sweeps g fuel state) ∧
      ∀ id < g.size,
        visit g (sweeps g fuel state) id = (sweeps g fuel state, false) := by
  induction fuel generalizing state with
  | zero => omega
  | succ fuel ih =>
      obtain ⟨final, later, -, progress, idle⟩ :=
        visitAll_spec (mem_range_inside (g := g)) invariant false
      simp only [sweeps]
      cases flag : (sweep g state).2 with
      | false =>
          obtain ⟨fixed, quiet⟩ := idle flag
          simp only [Bool.false_eq_true, if_false]
          have swept : (sweep g state).1 = state := fixed
          rw [swept]
          exact ⟨invariant, Keeps.refl state, fun id inside =>
            quiet id (List.mem_range.mpr inside)⟩
      | true =>
          simp only [if_true]
          have fewer : tops (sweep g state).1 < tops state :=
            (progress flag).resolve_left (by simp)
          obtain ⟨kept, keeps, quiet⟩ :=
            @ih (sweep g state).1 final (by omega)
          exact ⟨kept, later.trans keeps, quiet⟩

/-- Any property preserved by a visit survives the sweep loop. -/
theorem sweeps_induct {motive : State → Prop}
    (step : ∀ state id, Invariant g state → id < g.size → motive state →
      motive (visit g state id).1)
    (fuel : Nat) {state : State} (invariant : Invariant g state)
    (start : motive state) : motive (sweeps g fuel state) := by
  induction fuel generalizing state with
  | zero => exact start
  | succ fuel ih =>
      have swept := visitAll_induct (mem_range_inside (g := g)) step
        invariant start false
      have kept := (visitAll_spec (mem_range_inside (g := g))
        invariant false).1
      simp only [sweeps]
      split
      · exact ih kept swept
      · exact swept

theorem tops_seed : tops (seed g) < g.size + 1 := by
  have bound : (seed g).count .top ≤ (seed g).length := List.count_le_length
  rw [Invariant.seed.length] at bound
  exact Nat.lt_succ_of_le bound

theorem analyze_invariant : Invariant g (analyze g) :=
  (sweeps_spec Invariant.seed tops_seed).1

/-- The analysis ends in a state that no visit changes. -/
theorem analyze_stable {id : NodeId} (inside : id < g.size) :
    visit g (analyze g) id = (analyze g, false) :=
  (sweeps_spec Invariant.seed tops_seed).2.2 id inside

/-- At the end, whatever the operands decide has been recorded. -/
theorem analyze_of_decides {id : NodeId} {value : Word} (live : g.Live id)
    (notConstant : (g.node id).kind ≠ .constant)
    (notPhi : (g.node id).kind ≠ .phi)
    (decides : Decides g (analyze g) id value) :
    (analyze g).valueAt id = .const value := by
  have stable := analyze_stable live.1
  simp only [visit, live.2, notConstant, if_false, Bool.false_eq_true,
    transfer_eq_const_iff.mpr decides] at stable
  have quiet := congrArg Prod.snd stable
  simp only [State.mergeAt] at quiet
  cases held : (analyze g).valueAt id with
  | top => simp [held, LatticeVal.merge] at quiet
  | const other =>
      by_cases same : other = value
      · rw [same]
      · simp [held, LatticeVal.merge, same] at quiet
  | bottom =>
      -- An overdefined node has an overdefined operand, and then nothing
      -- could be decided.
      obtain ⟨-, isPhi | ⟨input, member, overdefined⟩⟩ :=
        analyze_invariant.blocked id held
      · exact absurd isPhi notPhi
      · simp only [consulted, notConstant, notPhi, if_false] at member
        simp only [Decides, notPhi, if_false] at decides
        split at decides
        case isTrue isUnary =>
          obtain ⟨only, operand, first, known, -⟩ := decides
          simp only [isUnary, if_true, first, Option.mem_toList] at member
          cases member
          rw [known] at overdefined
          cases overdefined
        case isFalse notUnary =>
          simp only [notUnary, Bool.false_eq_true, if_false] at member
          rw [decides.1 input member] at overdefined
          cases overdefined

end Sccp

end Aegis
