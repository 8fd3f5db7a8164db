import AegisCompiler.SccpSweeps

/-!
# Soundness of constant propagation

The first sweep decides every phi, and the later ones close the constants
under arithmetic, so the final state is described by the graph alone.  The
pass is sound exactly when no node outside the folded kinds has a constant
expression as its only operand.
-/

namespace Aegis

namespace Sccp

variable {g : Graph}

/-- The state after the first sweep has visited the nodes below `bound`. -/
def afterFirst (g : Graph) (bound : Nat) : State :=
  (visitAll g (List.range bound) (seed g, false)).1

theorem visitAll_append (first second : List NodeId)
    (result : State × Bool) :
    visitAll g (first ++ second) result =
      visitAll g second (visitAll g first result) := by
  induction first generalizing result with
  | nil => rfl
  | cons id ids ih =>
      simp only [List.cons_append, visitAll]
      exact ih _

theorem afterFirst_zero : afterFirst g 0 = seed g := rfl

theorem afterFirst_succ (bound : Nat) :
    afterFirst g (bound + 1) = (visit g (afterFirst g bound) bound).1 := by
  simp only [afterFirst, List.range_succ, visitAll_append]
  rfl

theorem range_inside {bound : Nat} (within : bound ≤ g.size) :
    ∀ id ∈ List.range bound, id < g.size :=
  fun _ member => Nat.lt_of_lt_of_le (List.mem_range.mp member) within

theorem afterFirst_invariant {bound : Nat} (within : bound ≤ g.size) :
    Invariant g (afterFirst g bound) :=
  (visitAll_spec (range_inside within) Invariant.seed false).1

theorem afterFirst_keeps {early late : Nat} (order : early ≤ late)
    (within : late ≤ g.size) :
    Keeps (afterFirst g early) (afterFirst g late) := by
  induction late, order using Nat.le_induction with
  | base => exact Keeps.refl _
  | succ late order ih =>
      have invariant := afterFirst_invariant (g := g) (Nat.le_of_succ_le within)
      rw [afterFirst_succ]
      exact (ih (Nat.le_of_succ_le within)).trans
        (invariant.visit late within).2

theorem visit_other {state : State} (invariant : Invariant g state)
    {id other : NodeId} (inside : id < g.size) (apart : other ≠ id) :
    (visit g state id).1.valueAt other = state.valueAt other := by
  rcases visit_cases invariant id inside with
    same | ⟨value, -, -, -, -, -, raised⟩
  · rw [same]
  · rw [raised]
    simp [apart]

/-- A node not yet visited is at top, unless it is a constant. -/
theorem afterFirst_unvisited {bound : Nat} (within : bound ≤ g.size)
    {id : NodeId} (later : bound ≤ id)
    (notConstant : (g.node id).kind ≠ .constant) :
    (afterFirst g bound).valueAt id = .top := by
  induction bound with
  | zero => simp [afterFirst_zero, seed_valueAt, notConstant]
  | succ bound ih =>
      have previous := Nat.le_of_succ_le within
      rw [afterFirst_succ, visit_other (afterFirst_invariant previous) within
        (Nat.ne_of_gt later)]
      exact ih previous (Nat.le_of_succ_le later)

/-- The value a node receives on its first visit. -/
theorem afterFirst_visited {id : NodeId} {value : LatticeVal}
    (live : g.Live id) (notConstant : (g.node id).kind ≠ .constant)
    (decision : transfer g (afterFirst g id) id = some value)
    (notTop : value ≠ .top) {bound : Nat} (visited : id < bound)
    (within : bound ≤ g.size) :
    (afterFirst g bound).valueAt id = value := by
  have here : id ≤ g.size := Nat.le_of_lt live.1
  have unknown := afterFirst_unvisited here (Nat.le_refl id) notConstant
  have length := (afterFirst_invariant here).length
  have raised : (afterFirst g (id + 1)).valueAt id = value := by
    rw [afterFirst_succ]
    simp only [visit, live.2, notConstant, decision, State.mergeAt, unknown,
      if_false, Bool.false_eq_true]
    cases value with
    | top => exact absurd rfl notTop
    | const constant => simp [LatticeVal.merge, length, live.1]
    | bottom => simp [LatticeVal.merge, length, live.1]
  rw [afterFirst_keeps visited within id (by rwa [raised]), raised]

/-- Every early constant expression is known as soon as it was visited. -/
theorem EarlyConst.known {id : NodeId} {value : Word}
    (early : EarlyConst g id value) {bound : Nat} (within : bound ≤ g.size)
    (visited : (g.node id).kind = .constant ∨ id < bound) :
    (afterFirst g bound).valueAt id = .const value := by
  induction early generalizing bound with
  | constant live isConstant =>
      exact (afterFirst_invariant within).constants _ live isConstant
  | @unop id input operand result live unary first before _ folded ih =>
      have notConstant := (shape_of_isUnop unary).1
      have known := ih (Nat.le_of_lt live.1) before
      exact afterFirst_visited live notConstant
        (transfer_eq_const_iff.mpr (decides_unop unary first known folded))
        (by simp) (visited.resolve_left notConstant) within
  | @binop id result values live binary before _ folded ih =>
      have notConstant := (shape_of_isBinop binary).1
      have known (input : NodeId) (member : input ∈ operands g (g.node id)) :
          (afterFirst g id).valueAt input = .const (values input) :=
        ih input member (Nat.le_of_lt live.1) (before input member)
      exact afterFirst_visited live notConstant
        (transfer_eq_const_iff.mpr (decides_binop binary known folded))
        (by simp) (visited.resolve_left notConstant) within
  | @phi id value live isPhi nonempty before _ ih =>
      have notConstant : (g.node id).kind ≠ .constant := by simp [isPhi]
      have known (input : NodeId) (member : input ∈ phiValues g (g.node id)) :
          (afterFirst g id).valueAt input = .const value :=
        ih input member (Nat.le_of_lt live.1) (before input member)
      exact afterFirst_visited live notConstant
        (transfer_eq_const_iff.mpr (decides_phi isPhi nonempty known))
        (by simp) (visited.resolve_left notConstant) within

/-- A phi is decided by its first visit. -/
theorem afterFirst_phi {id : NodeId} (live : g.Live id)
    (isPhi : (g.node id).kind = .phi) :
    (afterFirst g g.size).valueAt id ≠ .top := by
  have notConstant : (g.node id).kind ≠ .constant := by simp [isPhi]
  obtain ⟨value, decision, notTop⟩ : ∃ value,
      transfer g (afterFirst g id) id = some value ∧ value ≠ .top := by
    simp only [transfer, isPhi, if_true]
    split <;> exact ⟨_, rfl, by simp⟩
  rw [afterFirst_visited live notConstant decision notTop live.1
    (Nat.le_refl _)]
  exact notTop

/-- The sweeps after the first one. -/
theorem analyze_eq_sweeps :
    ∃ fuel, analyze g = sweeps g fuel (afterFirst g g.size) := by
  simp only [analyze, sweeps]
  split
  · exact ⟨g.size, rfl⟩
  · exact ⟨0, rfl⟩

theorem afterFirst_keeps_analyze :
    Keeps (afterFirst g g.size) (analyze g) := by
  obtain ⟨fuel, equal⟩ := analyze_eq_sweeps (g := g)
  rw [equal]
  exact sweeps_induct (motive := Keeps (afterFirst g g.size))
    (fun state id invariant inside keeps =>
      keeps.trans (invariant.visit id inside).2)
    fuel (afterFirst_invariant (Nat.le_refl _)) (Keeps.refl _)

theorem EarlyConst.live {id : NodeId} {value : Word}
    (early : EarlyConst g id value) : g.Live id := by
  cases early <;> assumption

/-- The analysis finds every constant expression. -/
theorem ConstExpr.known {id : NodeId} {value : Word}
    (expression : ConstExpr g id value) :
    (analyze g).valueAt id = .const value := by
  induction expression with
  | early early =>
      exact afterFirst_keeps_analyze.const
        (early.known (Nat.le_refl _) (Or.inr early.live.1))
  | unop live unary first _ folded ih =>
      obtain ⟨notConstant, notPhi⟩ := shape_of_isUnop unary
      exact analyze_of_decides live notConstant notPhi
        (decides_unop unary first ih folded)
  | binop values live binary _ folded ih =>
      obtain ⟨notConstant, notPhi, -⟩ := shape_of_isBinop binary
      exact analyze_of_decides live notConstant notPhi
        (decides_binop binary ih folded)

/-- A kind without a binary meaning folds at most one operand. -/
theorem single_of_evalOperands {kind : NodeKind} {values : List Word}
    {result : Word} (notBinary : kind.isBinop = false)
    (folded : evalOperands kind values = some result) :
    ∃ value, values = [value] := by
  match values, folded with
  | [value], _ => exact ⟨value, rfl⟩
  | first :: second :: rest, folded =>
      simp [evalOperands, List.foldlM_cons,
        evalBinop_eq_none_of_not_isBinop notBinary] at folded

/-- In a clean graph, operands that hold constant expressions decide only
nodes of the folded kinds. -/
theorem isBinop_of_decides (clean : Clean g) {state : State} {id : NodeId}
    {value : Word} (live : g.Live id)
    (notConstant : (g.node id).kind ≠ .constant)
    (notPhi : (g.node id).kind ≠ .phi)
    (notUnary : (g.node id).kind.isUnop = false)
    (expressions : ∀ other held, state.valueAt other = .const held →
      ConstExpr g other held)
    (constants : AllConst state (operands g (g.node id)))
    (folded : evalOperands (g.node id).kind
      (payloads state (operands g (g.node id))) = some value) :
    (g.node id).kind.isBinop = true := by
  by_contra notBinary
  obtain ⟨held, single⟩ :=
    single_of_evalOperands (by simpa using notBinary) folded
  obtain ⟨input, only, -⟩ := List.map_eq_singleton_iff.mp single
  refine clean.passes id ⟨live, ?_, input, _, only,
    expressions input _ (constants input (by simp [only]))⟩
  simp [Folds, notConstant, notPhi, notUnary, notBinary]

/-- What is known on the first visit is an early constant expression. -/
theorem earlyConst_of_afterFirst (clean : Clean g) {bound : Nat}
    (within : bound ≤ g.size) {id : NodeId} {value : Word}
    (known : (afterFirst g bound).valueAt id = .const value) :
    EarlyConst g id value ∧
      ((g.node id).kind = .constant ∨ id < bound) := by
  induction bound generalizing id value with
  | zero =>
      rw [afterFirst_zero, seed_valueAt] at known
      split at known
      case isTrue found =>
        cases known
        exact ⟨.constant ⟨found.1, found.2.1⟩ found.2.2, Or.inl found.2.2⟩
      case isFalse => cases known
  | succ bound ih =>
      have previous := Nat.le_of_succ_le within
      have invariant := afterFirst_invariant (g := g) previous
      have older (known : (afterFirst g bound).valueAt id = .const value) :
          EarlyConst g id value ∧
            ((g.node id).kind = .constant ∨ id < bound + 1) := by
        obtain ⟨early, before⟩ := ih previous known
        exact ⟨early, before.imp_right Nat.lt_succ_of_lt⟩
      rw [afterFirst_succ] at known
      by_cases same : id = bound
      · subst same
        rcases visit_cases invariant id within with
          idle | ⟨decision, live, notConstant, -, -, decided, raised⟩
        · rw [idle] at known
          exact older known
        · rw [raised] at known
          simp only [valueAt_set, invariant.length, live.1, and_self, if_true]
            at known
          subst known
          refine ⟨?_, Or.inr (Nat.lt_succ_self id)⟩
          have decides := transfer_eq_const_iff.mp decided
          simp only [Decides] at decides
          split at decides
          case isTrue isPhi =>
            exact .phi live isPhi decides.1
              (fun input member => (ih previous (decides.2 input member)).2)
              (fun input member => (ih previous (decides.2 input member)).1)
          case isFalse notPhi =>
            split at decides
            case isTrue unary =>
              obtain ⟨input, operand, first, held, folded⟩ := decides
              obtain ⟨early, before⟩ := ih previous held
              exact .unop live unary first before early folded
            case isFalse notUnary =>
              obtain ⟨constants, folded⟩ := decides
              have binary := isBinop_of_decides clean live notConstant notPhi
                (by simpa using notUnary)
                (fun other held known => .early (ih previous known).1)
                constants folded
              exact .binop _ live binary
                (fun input member => (ih previous (constants input member)).2)
                (fun input member => (ih previous (constants input member)).1)
                folded
      · rw [visit_other invariant within same] at known
        exact older known

/-- In a clean graph the analysis finds constant expressions only. -/
theorem constExpr_of_analyze (clean : Clean g) {id : NodeId} {value : Word}
    (known : (analyze g).valueAt id = .const value) :
    ConstExpr g id value := by
  let motive (state : State) : Prop :=
    (∀ id value, state.valueAt id = .const value → ConstExpr g id value) ∧
      ∀ id, g.Live id → (g.node id).kind = .phi → state.valueAt id ≠ .top
  have step (state : State) (id : NodeId) (invariant : Invariant g state)
      (inside : id < g.size) (holds : motive state) :
      motive (visit g state id).1 := by
    have keeps := (invariant.visit id inside).2
    refine ⟨fun other value known => ?_, fun other live isPhi => ?_⟩
    · by_cases same : other = id
      · subst same
        rcases visit_cases invariant other inside with
          idle | ⟨decision, live, notConstant, unknown, -, decided, raised⟩
        · rw [idle] at known
          exact holds.1 other value known
        · rw [raised] at known
          simp only [valueAt_set, invariant.length, inside, and_self, if_true]
            at known
          subst known
          have notPhi : (g.node other).kind ≠ .phi :=
            fun isPhi => holds.2 other live isPhi unknown
          have decides := transfer_eq_const_iff.mp decided
          simp only [Decides, notPhi, if_false] at decides
          split at decides
          case isTrue unary =>
            obtain ⟨input, operand, first, held, folded⟩ := decides
            exact .unop live unary first (holds.1 input operand held) folded
          case isFalse notUnary =>
            obtain ⟨constants, folded⟩ := decides
            have binary := isBinop_of_decides clean live notConstant notPhi
              (by simpa using notUnary) holds.1 constants folded
            exact .binop _ live binary
              (fun input member => holds.1 input _ (constants input member))
              folded
      · rw [visit_other invariant inside same] at known
        exact holds.1 other value known
    · rw [keeps other (holds.2 other live isPhi)]
      exact holds.2 other live isPhi
  obtain ⟨fuel, equal⟩ := analyze_eq_sweeps (g := g)
  rw [equal] at known
  have final : motive (sweeps g fuel (afterFirst g g.size)) :=
    sweeps_induct step fuel (afterFirst_invariant (Nat.le_refl _))
      ⟨fun id value known =>
          .early (earlyConst_of_afterFirst clean (Nat.le_refl _) known).1,
        fun id live isPhi => afterFirst_phi live isPhi⟩
  exact final.1 id value known

section Values

theorem phiInputs_sublist (g : Graph) (n : Node) :
    (phiInputs g n).Sublist (operands g n) := by
  apply List.Sublist.filterMap
  rw [Node.dataIns]
  split
  · exact List.drop_sublist 1 n.inputs
  · exact List.Sublist.refl _

/-- A value input of a constant phi of a clean graph is one the pass looks at. -/
theorem Clean.looked (clean : Clean g) {id input : NodeId} {value : Word}
    (isPhi : (g.node id).kind = .phi) (early : EarlyConst g id value)
    (member : input ∈ phiInputs g (g.node id)) : input ∈ phiValues g (g.node id) := by
  refine List.mem_filter.mpr ⟨(phiInputs_sublist g _).mem member, ?_⟩
  rw [Bool.not_eq_true', ← Bool.not_eq_true]
  exact fun merges => clean.skips id ⟨isPhi, ⟨value, early⟩, input, member, merges⟩

variable {valuation : NodeId → Word} (satisfies : Satisfies g valuation)
include satisfies

theorem Satisfies.constant {id : NodeId} (live : g.Live id)
    (isConstant : (g.node id).kind = .constant) :
    valuation id = (g.node id).payload := by
  have equation := satisfies id live
  simpa only [NodeEquation, isConstant, if_true] using equation

theorem Satisfies.phi {id : NodeId} (live : g.Live id)
    (isPhi : (g.node id).kind = .phi) :
    ∃ input ∈ phiInputs g (g.node id), valuation id = valuation input := by
  have equation := satisfies id live
  simpa only [NodeEquation, isPhi, reduceCtorEq, if_false, if_true]
    using equation

theorem Satisfies.unop {id input : NodeId} {operand value : Word}
    (live : g.Live id) (unary : (g.node id).kind.isUnop = true)
    (first : firstOperand g (g.node id) = some input)
    (known : valuation input = operand)
    (folded : evalUnop (g.node id).kind operand = some value) :
    valuation id = value := by
  obtain ⟨notConstant, notPhi⟩ := shape_of_isUnop unary
  have equation := satisfies id live
  simp only [NodeEquation, notConstant, notPhi, unary, if_false, if_true]
    at equation
  have result := equation input first
  rw [known, folded] at result
  exact (Option.some.inj result).symm

theorem Satisfies.binop {id : NodeId} {values : NodeId → Word} {value : Word}
    (live : g.Live id) (binary : (g.node id).kind.isBinop = true)
    (known : ∀ input ∈ operands g (g.node id), valuation input = values input)
    (folded : evalOperands (g.node id).kind
      ((operands g (g.node id)).map values) = some value) :
    valuation id = value := by
  obtain ⟨notConstant, notPhi, notUnary⟩ := shape_of_isBinop binary
  have equation := satisfies id live
  simp only [NodeEquation, notConstant, notPhi, notUnary, binary, if_false,
    if_true, Bool.false_eq_true] at equation
  apply equation value
  rw [List.map_congr_left known]
  exact folded

theorem EarlyConst.value_eq (clean : Clean g) {id : NodeId} {value : Word}
    (early : EarlyConst g id value) : valuation id = value := by
  induction early with
  | constant live isConstant => exact satisfies.constant live isConstant
  | unop live unary first _ _ folded ih =>
      exact satisfies.unop live unary first ih folded
  | binop values live binary _ _ folded ih =>
      exact satisfies.binop live binary ih folded
  | phi live isPhi nonempty before operands ih =>
      obtain ⟨input, member, equal⟩ := satisfies.phi live isPhi
      have early : EarlyConst g _ _ := .phi live isPhi nonempty before operands
      rw [equal, ih input (clean.looked isPhi early member)]

/-- A constant expression of a clean graph has its value in every valuation. -/
theorem ConstExpr.value_eq (clean : Clean g) {id : NodeId} {value : Word}
    (expression : ConstExpr g id value) : valuation id = value := by
  induction expression with
  | early early => exact early.value_eq satisfies clean
  | unop live unary first _ folded ih =>
      exact satisfies.unop live unary first ih folded
  | binop values live binary _ folded ih =>
      exact satisfies.binop live binary ih folded

end Values

theorem EarlyConst.folds {id : NodeId} {value : Word}
    (early : EarlyConst g id value) : Folds (g.node id).kind := by
  cases early <;> simp_all [Folds]

theorem ConstExpr.folds {id : NodeId} {value : Word}
    (expression : ConstExpr g id value) : Folds (g.node id).kind := by
  cases expression with
  | early early => exact early.folds
  | unop _ unary => simp [Folds, unary]
  | binop _ _ binary => simp [Folds, binary]

/-- A region or a loop is not folded. -/
theorem not_folds_of_merges {kind : NodeKind} (merges : isMergeNode kind = true) :
    ¬ Folds kind := by
  cases kind <;> simp_all [isMergeNode, Folds, NodeKind.isUnop, NodeKind.isBinop]

/-- A node that passes a constant through is given that constant. -/
theorem PassesConstant.known {id : NodeId} (passes : PassesConstant g id) :
    ∃ value, (analyze g).valueAt id = .const value := by
  obtain ⟨live, notFolds, input, value, only, expression⟩ := passes
  simp only [Folds, not_or, Bool.not_eq_true] at notFolds
  obtain ⟨notConstant, notPhi, notUnary, -⟩ := notFolds
  refine ⟨value, analyze_of_decides live notConstant notPhi ?_⟩
  simp [Decides, notPhi, notUnary, only, AllConst, payloads,
    expression.known, LatticeVal.payload, evalOperands]

/-- A constant phi has its value from its first visit. -/
theorem ConstExpr.early_of_phi {id : NodeId} {value : Word}
    (expression : ConstExpr g id value) (isPhi : (g.node id).kind = .phi) :
    EarlyConst g id value := by
  cases expression with
  | early early => exact early
  | unop _ unary => exact absurd isPhi (shape_of_isUnop unary).2
  | binop _ _ binary => exact absurd isPhi (shape_of_isBinop binary).2.1

/-- In a clean graph, every operand that decides a node holds a constant of its own. -/
theorem consulted_const (clean : Clean g) {id : NodeId} {value : Word}
    (known : (analyze g).valueAt id = .const value) {input : NodeId}
    (member : input ∈ consulted g (g.node id)) :
    ∃ held, (analyze g).valueAt input = .const held := by
  obtain ⟨-, isConstant | decides⟩ := analyze_invariant.decided id value known
  · simp [consulted, isConstant] at member
  · simp only [Decides] at decides
    simp only [consulted] at member
    split at member
    case isTrue => simp at member
    case isFalse =>
      split at member
      case isTrue isPhi =>
        simp only [isPhi, if_true] at decides
        have early := (constExpr_of_analyze clean known).early_of_phi isPhi
        exact ⟨value, decides.2 input (clean.looked isPhi early member)⟩
      case isFalse notPhi =>
        simp only [notPhi, if_false] at decides
        split at member
        case isTrue unary =>
          simp only [unary, if_true] at decides
          obtain ⟨only, operand, first, held, -⟩ := decides
          simp only [first, Option.toList_some, List.mem_singleton] at member
          exact ⟨operand, member ▸ held⟩
        case isFalse notUnary =>
          simp only [notUnary, Bool.false_eq_true, if_false] at decides
          exact ⟨_, decides.1 input member⟩

/-- Constant propagation is sound exactly when no node outside the folded kinds has a
constant expression as its only operand, and no phi that is a constant expression has a
region or a loop as a value input. -/
theorem sound_iff_clean (g : Graph) : Sound g ↔ Clean g := by
  constructor
  · intro sound
    constructor
    · intro id passes
      obtain ⟨value, known⟩ := passes.known
      exact sound.unfolded id passes.1 passes.2.1 value known
    · rintro id ⟨isPhi, ⟨value, early⟩, input, member, merges⟩
      have operand : input ∈ consulted g (g.node id) := by
        rw [consulted, if_neg (by rw [isPhi]; decide), if_pos isPhi]
        exact member
      have folds := sound.users id value early.live (ConstExpr.early early).known input operand
      exact not_folds_of_merges merges folds
  · intro clean
    refine ⟨?_, ?_, ?_⟩
    · intro valuation satisfies id value replaced
      exact (constExpr_of_analyze clean replaced.2.2.2).value_eq satisfies clean
    · intro id _ notFolds value known
      exact notFolds (constExpr_of_analyze clean known).folds
    · intro id value _ known input member
      obtain ⟨held, inputKnown⟩ := consulted_const clean known member
      exact (constExpr_of_analyze clean inputKnown).folds

/-- The graph of `fn main() { return f(5); }`. -/
def returnCallOfConstant : Graph :=
  let control := Graph.fresh.makeProj (some kStartNodeId) 0
  let effect := control.2.makeProj (some kStartNodeId) 1
  let five := effect.2.makeConstant 5 kInvalidTypeId
  let call := five.2.makeCall (some control.1) (some effect.1) 7
    [some five.1] kInvalidTypeId .altered
  let result := call.2.makeProj (some call.1) 0
  (result.2.makeReturn (some control.1) (some call.1) (some result.1)).2

/-- The result of `f(5)` is replaced by the constant 5. -/
theorem returnCallOfConstant_replaced :
    Replaced returnCallOfConstant 5 5 := by
  refine ⟨⟨by decide, by decide⟩, by decide, by decide, by decide⟩

/-- Any result of the call is a valuation of the graph. -/
theorem returnCallOfConstant_satisfies (result : Word) :
    Satisfies returnCallOfConstant fun id => if id = 3 then 5 else result := by
  have kinds : ∀ id < 7, id ≠ 3 → (returnCallOfConstant.node id).kind ∈
      [NodeKind.start, .proj, .callAltered, .returnNode] := by decide
  rintro id ⟨inside, -⟩
  by_cases five : id = 3
  · subst five
    have kind : (returnCallOfConstant.node 3).kind = .constant := by decide
    have payload : (returnCallOfConstant.node 3).payload = 5 := by decide
    simp [NodeEquation, kind, payload]
  · have kind := kinds id inside five
    simp only [List.mem_cons, List.not_mem_nil, or_false] at kind
    rcases kind with kind | kind | kind | kind <;>
      simp [NodeEquation, kind, NodeKind.isUnop, NodeKind.isBinop]

/-- The call returns 7 here, and its result is replaced by 5. -/
theorem not_sound_returnCallOfConstant : ¬ ∀ g, Sound g := by
  intro sound
  have wrong := (sound returnCallOfConstant).replaced _
    (returnCallOfConstant_satisfies 7) 5 5 returnCallOfConstant_replaced
  exact absurd wrong (by decide)

end Sccp

end Aegis
