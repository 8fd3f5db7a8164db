import AegisCompiler.GraphVerify
import AegisCompiler.SpeculativePasses
import AegisCompiler.WordArithmetic

/-!
# Operands under speculation

A frame state among the inputs of a call or load is one more data operand.  The passes
leave the operands alone exactly when there is nothing for them to speculate on.
-/

namespace Aegis

namespace Speculation

/-- A visit that does to every node what a relation says, and nothing to frame states. -/
structure Visits (does : Node → Node → Prop) (visit : Graph × Nat → NodeId → Graph × Nat) :
    Prop where
  spec : ∀ progress id, id < progress.1.size → Visited progress.1 id (visit progress id).1 ∧
    does (progress.1.node id) ((visit progress id).1.node id)
  idle : ∀ progress id, (progress.1.node id).kind = .frameState → visit progress id = progress

/-- The nodes below a bound have been visited. -/
structure SweptTo (does : Node → Node → Prop) (g : Graph) (bound : Nat) (h : Graph) :
    Prop where
  size_le : g.size ≤ h.size
  new : ∀ id, g.size ≤ id → id < h.size → (h.node id).kind = .frameState
  below : ∀ id < bound, id < g.size → does (g.node id) (h.node id)
  above : ∀ id, bound ≤ id → id < g.size → h.node id = g.node id

section Sweeps

variable {does : Node → Node → Prop} {visit : Graph × Nat → NodeId → Graph × Nat} {g : Graph}

theorem SweptTo.step (visits : Visits does visit) {bound : Nat} {progress : Graph × Nat}
    (swept : SweptTo does g bound progress.1) (inside : bound < progress.1.size) :
    SweptTo does g (bound + 1) (visit progress bound).1 := by
  by_cases known : bound < g.size
  · obtain ⟨visited, done⟩ := visits.spec progress bound inside
    rw [swept.above bound (Nat.le_refl _) known] at done
    refine ⟨Nat.le_trans swept.size_le visited.size_le, ?_, ?_, ?_⟩
    · intro id beyond inNew
      by_cases old : id < progress.1.size
      · rw [visited.others id old (by omega)]
        exact swept.new id beyond old
      · exact visited.new id (Nat.le_of_not_lt old) inNew
    · intro id low inG
      by_cases same : id = bound
      · rw [same]
        exact done
      · rw [visited.others id (Nat.lt_of_lt_of_le inG swept.size_le) same]
        exact swept.below id (by omega) inG
    · intro id high inG
      rw [visited.others id (Nat.lt_of_lt_of_le inG swept.size_le) (by omega)]
      exact swept.above id (by omega) inG
  · rw [visits.idle progress bound (swept.new bound (Nat.le_of_not_lt known) inside)]
    refine ⟨swept.size_le, swept.new, ?_, ?_⟩
    · intro id _ inG
      exact swept.below id (by omega) inG
    · intro id high inG
      omega

/-- As many visits as there are nodes visit all of them. -/
theorem SweptTo.sweep (visits : Visits does visit) (fuel : Nat) :
    ∀ (bound : Nat) (progress : Graph × Nat), SweptTo does g bound progress.1 →
      g.size ≤ bound + fuel →
      SweptTo does g g.size (sweep visit fuel bound progress).1 := by
  have finished {bound : Nat} {h : Graph} (swept : SweptTo does g bound h)
      (all : g.size ≤ bound) : SweptTo does g g.size h :=
    ⟨swept.size_le, swept.new,
      fun id _ inG => swept.below id (Nat.lt_of_lt_of_le inG all) inG,
      fun id high inG => absurd inG (Nat.not_lt_of_le high)⟩
  induction fuel with
  | zero =>
      intro bound progress swept enough
      exact finished swept enough
  | succ fuel ih =>
      intro bound progress swept enough
      rw [Speculation.sweep]
      split
      case isTrue inside => exact ih (bound + 1) _ (swept.step visits inside) (by omega)
      case isFalse outside =>
        exact finished swept (Nat.le_trans swept.size_le (Nat.le_of_not_lt outside))

theorem sweptTo_zero (g : Graph) : SweptTo does g 0 g :=
  ⟨Nat.le_refl _, fun _ beyond inside => absurd inside (Nat.not_lt_of_le beyond),
    fun _ below => absurd below (Nat.not_lt_zero _), fun _ _ _ => rfl⟩

end Sweeps

theorem tagNode_visits (kinds : NodeKind → Bool) (bits : List NodeFlagBit)
    (apart : kinds .frameState = false) : Visits (Tagged kinds bits) (tagNode kinds bits) := by
  constructor
  · intro progress id inside
    exact tagNode_spec kinds bits progress inside
  · intro progress id frameState
    simp [tagNode, frameState, apart]

theorem speculativeBceNode_visits : Visits Quiet speculativeBceNode := by
  constructor
  · intro progress id inside
    exact speculativeBceNode_spec progress inside
  · intro progress id frameState
    simp [speculativeBceNode, frameState]

/-- The kinds of nodes whose inputs a pass extends. -/
def SpeculativePass.kinds : SpeculativePass → NodeKind → Bool
  | .guardedDevirtualization, kind => kind = .callAltered || kind = .callCrowded
  | .speculativeBce, _ => false
  | .speculativeEffectReordering, kind => kind = .load
  | .speculativeLockElision, kind => kind = .callCrowded

/-- A live node that has not been speculated on, of a kind for some pass of an order. -/
def Targeted (order : List SpeculativePass) (n : Node) : Prop :=
  n.isDead = false ∧ isSpeculated n = false ∧ ∃ pass ∈ order, pass.kinds n.kind = true

instance (order : List SpeculativePass) (n : Node) : Decidable (Targeted order n) :=
  inferInstanceAs (Decidable (_ ∧ _ ∧ _))

/-- What an order of passes does to a node: a targeted node gets one frame state, and the
inputs of all others stay. -/
structure Treated (order : List SpeculativePass) (n m : Node) : Prop where
  kind : m.kind = n.kind
  effect : m.effect = n.effect
  isDead : m.isDead = n.isDead
  payload : n.kind ≠ .guard → m.payload = n.payload
  speculated : n.kind ≠ .guard →
    (isSpeculated m = true ↔ isSpeculated n = true ∨ Targeted order n)
  extended : Targeted order n → ∃ fs, m.inputs = n.inputs ++ [some fs]
  kept : ¬Targeted order n → m.inputs = n.inputs

theorem not_targeted_nil (n : Node) : ¬Targeted [] n := by
  rintro ⟨-, -, pass, none, -⟩
  cases none

theorem treated_nil (n : Node) : Treated [] n n :=
  ⟨rfl, rfl, rfl, fun _ => rfl,
    fun _ => ⟨.inl, fun either => either.resolve_right (not_targeted_nil n)⟩,
    fun targeted => absurd targeted (not_targeted_nil n), fun _ => rfl⟩

theorem not_guard_of_kinds {pass : SpeculativePass} {kind : NodeKind}
    (picked : pass.kinds kind = true) : kind ≠ .guard := by
  rintro rfl
  cases pass <;> cases picked

theorem Targeted.not_guard {order : List SpeculativePass} {n : Node}
    (targeted : Targeted order n) : n.kind ≠ .guard := by
  obtain ⟨-, -, pass, -, picked⟩ := targeted
  exact not_guard_of_kinds picked

/-- A node is targeted by a pass in front of others if the pass picks it, or if the others
still target it afterwards. -/
theorem Treated.targeted_append {first rest : List SpeculativePass} {n m : Node}
    (treated : Treated first n m) :
    Targeted (first ++ rest) n ↔ Targeted first n ∨ Targeted rest m := by
  constructor
  · rintro ⟨live, fresh, pass, listed, picked⟩
    by_cases targeted : Targeted first n
    · exact .inl targeted
    · have later : pass ∈ rest := (List.mem_append.mp listed).resolve_left fun early =>
        targeted ⟨live, fresh, pass, early, picked⟩
      have still : isSpeculated m = false := by
        rw [Bool.eq_false_iff, ne_eq, treated.speculated (not_guard_of_kinds picked), fresh]
        exact fun either => targeted (either.resolve_left Bool.false_ne_true)
      exact .inr ⟨treated.isDead.trans live, still, pass, later, treated.kind ▸ picked⟩
  · rintro (⟨live, fresh, pass, listed, picked⟩ | later)
    · exact ⟨live, fresh, pass, List.mem_append_left _ listed, picked⟩
    · have notGuard : n.kind ≠ .guard := treated.kind ▸ later.not_guard
      obtain ⟨live, fresh, pass, listed, picked⟩ := later
      have before : ¬(isSpeculated n = true ∨ Targeted first n) := by
        rw [← treated.speculated notGuard, fresh]
        exact Bool.false_ne_true
      exact ⟨treated.isDead ▸ live, Bool.eq_false_iff.mpr fun done => before (.inl done), pass,
        List.mem_append_right _ listed, treated.kind ▸ picked⟩

theorem Treated.append {first rest : List SpeculativePass} {n m k : Node}
    (early : Treated first n m) (late : Treated rest m k) : Treated (first ++ rest) n k := by
  have targeted : Targeted (first ++ rest) n ↔ Targeted first n ∨ Targeted rest m :=
    early.targeted_append
  -- A node that has been speculated on is not targeted again.
  have once : Targeted first n → ¬Targeted rest m := by
    intro now again
    have done := (early.speculated now.not_guard).mpr (.inr now)
    rw [again.2.1] at done
    cases done
  refine ⟨late.kind.trans early.kind, late.effect.trans early.effect,
    late.isDead.trans early.isDead, ?_, ?_, ?_, ?_⟩
  · intro notGuard
    exact (late.payload (early.kind ▸ notGuard)).trans (early.payload notGuard)
  · intro notGuard
    rw [late.speculated (early.kind ▸ notGuard), early.speculated notGuard, targeted, or_assoc]
  · intro picked
    rcases targeted.mp picked with now | later
    · obtain ⟨fs, inputs⟩ := early.extended now
      exact ⟨fs, (late.kept (once now)).trans inputs⟩
    · obtain ⟨fs, inputs⟩ := late.extended later
      have same := early.kept fun now => once now later
      exact ⟨fs, by rw [inputs, same]⟩
  · intro picked
    rw [targeted, not_or] at picked
    exact (late.kept picked.2).trans (early.kept picked.1)

/-- What tagging does is what an order of one pass does. -/
theorem Tagged.treated {pass : SpeculativePass} {bits : List NodeFlagBit} {n m : Node}
    (tagged : Tagged pass.kinds bits n m) (clear : bits.contains .isDead = false)
    (marks : bits.contains .isPgoSpeculated = true) : Treated [pass] n m := by
  have single : Targeted [pass] n ↔
      n.isDead = false ∧ pass.kinds n.kind = true ∧ isSpeculated n = false := by
    unfold Targeted
    simp only [List.mem_singleton, exists_eq_left]
    tauto
  rcases tagged with ⟨live, picked, fresh, fs, rfl⟩ | ⟨none, rfl⟩
  · have targeted := single.mpr ⟨live, picked, fresh⟩
    refine ⟨setFlags_kind _ _, setFlags_effect _ _, isDead_setFlags clear _,
      fun _ => setFlags_payload _ _, fun _ => ?_, fun _ => ⟨fs, setFlags_inputs _ _⟩,
      fun other => absurd targeted other⟩
    have done : isSpeculated (attached bits fs n) = true := by
      rw [isSpeculated, attached, has_setFlags, marks, Bool.or_true]
    exact iff_of_true done (.inr targeted)
  · have untargeted : ¬Targeted [pass] m := mt single.mp none
    exact ⟨rfl, rfl, rfl, fun _ => rfl,
      fun _ => ⟨.inl, fun either => either.resolve_right untargeted⟩,
      fun targeted => absurd targeted untargeted, fun _ => rfl⟩

theorem Quiet.treated {n m : Node} (quiet : Quiet n m) : Treated [.speculativeBce] n m := by
  have untargeted : ¬Targeted [.speculativeBce] n := by
    rintro ⟨-, -, pass, listed, picked⟩
    cases List.mem_singleton.mp listed
    cases picked
  refine ⟨quiet.kind, quiet.effect, quiet.isDead, fun other => by rw [quiet.rest other],
    fun other => ?_, fun targeted => absurd targeted untargeted, fun _ => quiet.inputs⟩
  rw [quiet.rest other]
  exact ⟨.inl, fun either => either.resolve_right untargeted⟩

/-- The budget lets the passes speculate. -/
def PassBudget.Speculates (budget : PassBudget) : Prop :=
  budget.pgoAvailable = true ∧ budget.allowSpeculation = true

theorem runBudgeted_of_speculates {budget : PassBudget} (speculates : budget.Speculates)
    (visit : Graph × Nat → NodeId → Graph × Nat) (g : Graph) :
    runBudgeted visit budget g = sweep visit (2 * g.size) 0 (g, 0) := by
  rw [runBudgeted, speculates.1, speculates.2]
  rfl

theorem run_of_not_speculates {budget : PassBudget} (quiet : ¬budget.Speculates)
    (pass : SpeculativePass) (g : Graph) : pass.run budget g = (g, 0) := by
  unfold SpeculativePass.run runBudgeted
  rw [if_pos]
  unfold PassBudget.Speculates at quiet
  revert quiet
  cases budget.pgoAvailable <;> cases budget.allowSpeculation <;> simp

/-- A pass treats every node of the graph. -/
theorem run_treated {budget : PassBudget} (speculates : budget.Speculates)
    (pass : SpeculativePass) (g : Graph) :
    g.size ≤ (pass.run budget g).1.size ∧
      ∀ id < g.size, Treated [pass] (g.node id) ((pass.run budget g).1.node id) := by
  have swept {does : Node → Node → Prop} {visit : Graph × Nat → NodeId → Graph × Nat}
      (visits : Visits does visit) :
      g.size ≤ (runBudgeted visit budget g).1.size ∧
        ∀ id < g.size, does (g.node id) ((runBudgeted visit budget g).1.node id) := by
    have all := SweptTo.sweep visits (2 * g.size) 0 (g, 0) (sweptTo_zero g) (by omega)
    rw [runBudgeted_of_speculates speculates]
    exact ⟨all.size_le, fun id inside => all.below id inside inside⟩
  cases pass with
  | guardedDevirtualization =>
      obtain ⟨sizes, each⟩ := swept (tagNode_visits
        (SpeculativePass.kinds .guardedDevirtualization) (.isMonomorphic :: speculated) rfl)
      exact ⟨sizes, fun id inside => (each id inside).treated rfl rfl⟩
  | speculativeBce =>
      obtain ⟨sizes, each⟩ := swept speculativeBceNode_visits
      exact ⟨sizes, fun id inside => (each id inside).treated⟩
  | speculativeEffectReordering =>
      obtain ⟨sizes, each⟩ := swept (tagNode_visits
        (SpeculativePass.kinds .speculativeEffectReordering) speculated rfl)
      exact ⟨sizes, fun id inside => (each id inside).treated rfl rfl⟩
  | speculativeLockElision =>
      obtain ⟨sizes, each⟩ := swept (tagNode_visits
        (SpeculativePass.kinds .speculativeLockElision) speculated rfl)
      exact ⟨sizes, fun id inside => (each id inside).treated rfl rfl⟩

/-- An order of passes treats every node of the graph. -/
theorem runAll_treated {budget : PassBudget} (speculates : budget.Speculates)
    (order : List SpeculativePass) : ∀ g : Graph,
      ∀ id < g.size, Treated order (g.node id) ((runAll order budget g).node id) := by
  induction order with
  | nil =>
      intro g id _
      exact treated_nil _
  | cons pass order ih =>
      intro g id inside
      obtain ⟨sizes, each⟩ := run_treated speculates pass g
      have early := each id inside
      have late := ih (pass.run budget g).1 id (Nat.lt_of_lt_of_le inside sizes)
      exact early.append late

theorem runAll_of_not_speculates {budget : PassBudget} (quiet : ¬budget.Speculates)
    (order : List SpeculativePass) (g : Graph) : runAll order budget g = g := by
  induction order with
  | nil => rfl
  | cons pass order ih =>
      rw [runAll, List.foldl_cons, run_of_not_speculates quiet]
      exact ih

/-- Live calls, loads and guards keep the callee, the control and effect inputs, and the
data operands. -/
def KeepsOperands (g h : Graph) : Prop :=
  ∀ id < g.size, (g.node id).isDead = false →
    ((g.node id).kind.isCall = true →
        (h.node id).payload.sym = (g.node id).payload.sym) ∧
      ((g.node id).kind.isCall = true ∨ (g.node id).kind = .load ∨ (g.node id).kind = .guard →
        (h.node id).ctrlIn = (g.node id).ctrlIn ∧ (h.node id).effIn = (g.node id).effIn ∧
          (h.node id).dataIns = (g.node id).dataIns)

/-- One more input is one more data operand, or the control or effect input. -/
theorem not_kept_of_extended {n m : Node} (effect : m.effect = n.effect) {fs : NodeId}
    (inputs : m.inputs = n.inputs ++ [some fs]) :
    ¬(m.ctrlIn = n.ctrlIn ∧ m.effIn = n.effIn ∧ m.dataIns = n.dataIns) := by
  rintro ⟨ctrl, eff, data⟩
  unfold Node.ctrlIn at ctrl
  unfold Node.effIn at eff
  unfold Node.dataIns Node.isPure at data
  rw [inputs] at ctrl eff data
  rw [effect] at data
  by_cases pure : n.effect = .pure
  · simp [pure] at data
  · rcases slots : n.inputs with _ | ⟨first, _ | ⟨second, rest⟩⟩
    · simp [slots] at ctrl
    · simp [slots] at eff
    · simp [slots, pure] at data

theorem Targeted.site {order : List SpeculativePass} {n : Node} (targeted : Targeted order n) :
    n.kind.isCall = true ∨ n.kind = .load := by
  obtain ⟨-, -, pass, -, picked⟩ := targeted
  unfold NodeKind.isCall
  cases pass with
  | guardedDevirtualization =>
      simp only [SpeculativePass.kinds, Bool.or_eq_true, decide_eq_true_eq] at picked
      rcases picked with kind | kind <;> simp [kind]
  | speculativeBce => cases picked
  | speculativeEffectReordering => exact .inr (of_decide_eq_true picked)
  | speculativeLockElision => simp [of_decide_eq_true picked]

/-- An order of speculative passes keeps the operands of all live calls, loads and guards
exactly when it does not speculate at all, or finds no node to speculate on. -/
theorem runAll_keeps_iff (order : List SpeculativePass) (budget : PassBudget) (g : Graph) :
    KeepsOperands g (runAll order budget g) ↔
      ¬budget.Speculates ∨ ∀ id < g.size, ¬Targeted order (g.node id) := by
  by_cases speculates : budget.Speculates
  · have treated := runAll_treated speculates order g
    constructor
    · intro keeps
      right
      intro id inside targeted
      obtain ⟨fs, inputs⟩ := (treated id inside).extended targeted
      have site : (g.node id).kind.isCall = true ∨ (g.node id).kind = .load ∨
          (g.node id).kind = .guard := targeted.site.imp_right .inl
      exact not_kept_of_extended (treated id inside).effect inputs
        ((keeps id inside targeted.1).2 site)
    · intro either id inside _
      have untargeted := either.resolve_left (not_not_intro speculates) id inside
      have same := (treated id inside).kept untargeted
      have effect := (treated id inside).effect
      refine ⟨fun call => ?_, fun _ => ⟨?_, ?_, ?_⟩⟩
      · have notGuard : (g.node id).kind ≠ .guard := by
          intro guard
          rw [guard] at call
          cases call
        rw [(treated id inside).payload notGuard]
      · rw [Node.ctrlIn, same]
        rfl
      · rw [Node.effIn, same]
        rfl
      · rw [Node.dataIns, Node.isPure, same, effect]
        rfl
  · rw [runAll_of_not_speculates speculates]
    exact iff_of_true (fun _ _ _ => ⟨fun _ => rfl, fun _ => ⟨rfl, rfl, rfl⟩⟩) (.inl speculates)

/-- A call with one argument, whose result is returned. -/
def oneCall : Graph :=
  let g := (Graph.fresh.makeProj (some 0) 0).2
  let g := (g.makeProj (some 0) 1).2
  let g := (g.makeConstant 1 1).2
  let g := (g.makeCall (some 1) (some 2) 1 [some 3] 1 .altered).2
  (g.makeReturn (some 1) (some 4) (some 4)).2

/-- The call gets the frame state as its second argument. -/
theorem oneCall_extended :
    oneCall.verify = none ∧ (oneCall.node 4).dataIns = [some 3] ∧
      ((runAll [.guardedDevirtualization, .speculativeBce, .speculativeEffectReordering,
        .speculativeLockElision] ⟨true, true⟩ oneCall).node 4).dataIns = [some 3, some 6] := by
  refine ⟨?_, ?_, ?_⟩ <;> decide

end Speculation

end Aegis
