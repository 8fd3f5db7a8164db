import AegisCompiler.ExpressionLevels
import AegisCompiler.GlobalValueNumbering
import AegisCompiler.GraphVerify
import AegisCompiler.LoweringFrame

/-!
# The pass manager

Every pass runs until it changes nothing, or until it has used its budget of runs.
For value numbering, each run finds the duplicates one level deeper.
-/

namespace Aegis

/-- The runs of one pass that the manager allows before the last one. -/
def kFixpointBudgetPerPass : Nat := 5

/-- An optimization pass: its name, and a run with the number of changes. -/
structure Pass where
  name : String
  isIdempotent : Bool := true
  run : Graph → Graph × Int

namespace PassManager

/-- What the runs of one pass end with. -/
structure Fixpoint where
  graph : Graph
  lastChanged : Int
  iters : Nat
  overBudget : Bool

/-- Run a pass until it is stable; the first argument counts the runs that are left
after the next one. -/
def fixpoint (pass : Pass) : Nat → Nat → Graph → Fixpoint
  | 0, iters, g =>
      let (g, changed) := pass.run g
      ⟨g, changed, iters + 1, true⟩
  | left + 1, iters, g =>
      let (g, changed) := pass.run g
      if 0 < changed ∧ pass.isIdempotent = true then fixpoint pass left (iters + 1) g
      else ⟨g, changed, iters + 1, false⟩

/-- The graph after the passes, the changes of their last runs, and the events. -/
structure Outcome where
  graph : Graph
  totalRemoved : Int := 0
  events : List String := []

/-- Run one pass, and verify the graph in a debug build. -/
def runPass (verifyIr : Bool) (outcome : Outcome) (pass : Pass) : Except String Outcome :=
  let result := fixpoint pass kFixpointBudgetPerPass 0 outcome.graph
  let events := outcome.events ++
    if result.overBudget then
      ["pass=" ++ pass.name ++ " iters=" ++ toString result.iters]
    else []
  match if verifyIr then result.graph.verify else none with
  | some why => .error ("pass=" ++ pass.name ++ " reason=" ++ why)
  | none => .ok ⟨result.graph, outcome.totalRemoved + result.lastChanged, events⟩

def run (verifyIr : Bool) (passes : List Pass) (g : Graph) : Except String Outcome :=
  passes.foldlM (runPass verifyIr) { graph := g }

end PassManager

namespace Gvn

def pass : Pass where
  name := "gvn"
  run := fun g => ((run g).1, (run g).2)

/-- The graph after some runs. -/
def afterRuns (g : Graph) : Nat → Graph
  | 0 => g
  | k + 1 => (run (afterRuns g k)).1

theorem afterRuns_of_unchanged {g : Graph} (unchanged : (run g).1 = g) (k : Nat) :
    afterRuns g k = g := by
  induction k with
  | zero => rfl
  | succ k ih => rw [afterRuns, ih, unchanged]

theorem afterRuns_succ (g : Graph) (k : Nat) :
    afterRuns g (k + 1) = afterRuns (run g).1 k := by
  induction k with
  | zero => rfl
  | succ k ih => rw [afterRuns, ih, afterRuns]

/-- The loop of the manager ends with the graph after all the runs of its budget. -/
theorem fixpoint_graph (left iters : Nat) (g : Graph) :
    (PassManager.fixpoint pass left iters g).graph = afterRuns g (left + 1) := by
  induction left generalizing iters g with
  | zero => rfl
  | succ left ih =>
      rw [afterRuns_succ, PassManager.fixpoint]
      simp only [pass, and_true]
      split
      case isTrue => exact ih (iters + 1) (run g).1
      case isFalse stable =>
        have unchanged : (run g).2 = 0 := by omega
        have same : (run g).1 = g := run_of_unchanged unchanged
        change (run g).1 = _
        rw [same, afterRuns_of_unchanged same]

/-- The node that stands for a node after some runs. -/
def representative (g : Graph) : Nat → NodeId → NodeId
  | 0, id => id
  | k + 1, id => target (afterRuns g k) (representative g k id)

instance (g : Graph) (id : NodeId) : Decidable (IsNumbered g id) :=
  inferInstanceAs (Decidable (_ ∧ _ ∧ _ ∧ _))

/-- What a numbered node computes from its inputs. -/
def signature (g : Graph) (id : NodeId) : Option (NodeKind × TypeId × NodePayload) :=
  if IsNumbered g id then some ((g.node id).kind, (g.node id).typeId, (g.node id).payload)
  else none

/-- No two numbered nodes are the same computation. -/
def IsNormal (g : Graph) : Prop :=
  ∀ id other, IsNumbered g id → IsNumbered g other → Alike (g.node id) (g.node other) →
    id = other

theorem representative_le (g : Graph) (k : Nat) (id : NodeId) :
    representative g k id ≤ id := by
  induction k with
  | zero => exact le_rfl
  | succ k ih => exact (FirstAlike.canonical_le _).trans ih

/-- A node is alive after some runs when it was alive and stands for itself. -/
structure Reached (g : Graph) (k : Nat) : Prop where
  size : (afterRuns g k).size = g.size
  live : ∀ id, (g.node id).isDead = false → representative g k id = id →
    (afterRuns g k).node id =
      { g.node id with inputs := (g.node id).inputs.map (Option.map (representative g k)) }
  gone : ∀ id, (g.node id).isDead = true ∨ representative g k id ≠ id →
    ((afterRuns g k).node id).isDead = true

theorem reached (g : Graph) (k : Nat) : Reached g k := by
  induction k with
  | zero =>
      have slots : Option.map (representative g 0) = fun slot => slot := Option.map_id
      refine ⟨rfl, fun id _ _ => ?_, fun id gone => ?_⟩
      · rw [slots, List.map_id']
        rfl
      · rcases gone with dead | moved
        · exact dead
        · exact absurd rfl moved
  | succ k ih =>
      refine ⟨(run_fst_size _).trans ih.size, fun id live stays => ?_, fun id gone => ?_⟩
      · have before : representative g k id = id := by
          apply Nat.le_antisymm (representative_le g k id)
          calc id = target (afterRuns g k) (representative g k id) := stays.symm
            _ ≤ representative g k id := FirstAlike.canonical_le _
        have kept : target (afterRuns g k) id = id := by
          rw [representative, before] at stays
          exact stays
        have slots : Option.map (representative g (k + 1)) =
            Option.map (target (afterRuns g k)) ∘ Option.map (representative g k) := by
          rw [Option.map_comp_map]
          rfl
        rw [afterRuns, run_fst_node, rewritten, if_neg, if_pos kept, ih.live id live before,
          List.map_map, slots]
        rw [ih.live id live before]
        exact ne_true_of_eq_false live
      · rw [afterRuns, run_fst_node, rewritten]
        split
        case isTrue dead => exact dead
        case isFalse live =>
          rcases gone with dead | moved
          · exact absurd (ih.gone id (.inl dead)) live
          · have before : representative g k id = id := by
              by_contra moved
              exact live (ih.gone id (.inr moved))
            rw [representative, before] at moved
            rw [if_neg moved, Node.isDead_setFlag]
            simp

theorem signature_eq_some {g : Graph} {id : NodeId}
    {l : NodeKind × TypeId × NodePayload} : signature g id = some l ↔ IsNumbered g id ∧
      l = ((g.node id).kind, (g.node id).typeId, (g.node id).payload) := by
  unfold signature
  split
  case isTrue numbered => simp [numbered, eq_comm]
  case isFalse other => simp [other]

/-- The nodes that are still numbered stand for themselves. -/
theorem isNumbered_afterRuns {g : Graph} {k : Nat} {id : NodeId} :
    IsNumbered (afterRuns g k) id ↔ IsNumbered g id ∧ representative g k id = id := by
  obtain ⟨size, live, gone⟩ := reached g k
  by_cases stays : (g.node id).isDead = false ∧ representative g k id = id
  · simp only [IsNumbered, size, live id stays.1 stays.2, Node.isPure, Node.isDead, stays.2,
      and_true]
  · have dead := gone id (by
      by_contra both
      rw [not_or, Bool.not_eq_true, not_not] at both
      exact stays both)
    constructor
    · intro numbered
      rw [numbered.2.1] at dead
      cases dead
    · intro numbered
      exact absurd ⟨numbered.1.2.1, numbered.2⟩ stays

theorem representative_of_isNumbered {g : Graph} {k : Nat} {id : NodeId}
    (numbered : IsNumbered (afterRuns g k) id) : representative g k id = id :=
  (isNumbered_afterRuns.mp numbered).2

/-- The node after some runs, while it is numbered. -/
theorem node_afterRuns {g : Graph} {k : Nat} {id : NodeId}
    (numbered : IsNumbered (afterRuns g k) id) : (afterRuns g k).node id =
      { g.node id with inputs := (g.node id).inputs.map (Option.map (representative g k)) } :=
  (reached g k).live id (isNumbered_afterRuns.mp numbered).1.2.1
    (representative_of_isNumbered numbered)

/-- Numbered nodes are the same computation when they had one signature and their inputs
are identified. -/
theorem alike_afterRuns {g : Graph} {k : Nat} {id other : NodeId}
    (first : IsNumbered (afterRuns g k) id) (second : IsNumbered (afterRuns g k) other) :
    Alike ((afterRuns g k).node id) ((afterRuns g k).node other) ↔
      ∃ l, signature g id = some l ∧ signature g other = some l ∧
        (g.node id).inputs.map (Option.map (representative g k)) =
          (g.node other).inputs.map (Option.map (representative g k)) := by
  rw [node_afterRuns first, node_afterRuns second]
  constructor
  · rintro ⟨kind, typeId, payload, inputs⟩
    refine ⟨_, signature_eq_some.mpr ⟨(isNumbered_afterRuns.mp first).1, rfl⟩,
      signature_eq_some.mpr ⟨(isNumbered_afterRuns.mp second).1, ?_⟩, inputs⟩
    exact Prod.ext kind (Prod.ext typeId payload)
  · rintro ⟨l, labelN, labelM, inputs⟩
    obtain ⟨-, rfl⟩ := signature_eq_some.mp labelN
    obtain ⟨-, same⟩ := signature_eq_some.mp labelM
    obtain ⟨kind, rest⟩ := Prod.mk.inj same
    obtain ⟨typeId, payload⟩ := Prod.mk.inj rest
    exact ⟨kind, typeId, payload, inputs⟩

/-- A run identifies the numbered nodes that are the same computation. -/
theorem target_eq_iff {g : Graph} (apart : HashesApart g) {id other : NodeId} :
    target g id = target g other ↔ id = other ∨
      IsNumbered g id ∧ IsNumbered g other ∧ Alike (g.node id) (g.node other) := by
  rw [target, FirstAlike.canonical_eq_iff]
  apply or_congr_right
  constructor
  · rintro ⟨key, first, second⟩
    obtain ⟨numbered, rfl⟩ := insideKey_eq_some.mp first
    obtain ⟨numbered', same⟩ := insideKey_eq_some.mp second
    obtain ⟨kind, typeId, payload, hash⟩ := HashKey.mk.inj same
    exact ⟨numbered, numbered', kind, typeId, payload,
      apart id other numbered numbered' kind typeId payload hash⟩
  · rintro ⟨numbered, numbered', kind, typeId, payload, inputs⟩
    exact ⟨_, insideKey_eq_some.mpr ⟨numbered, rfl⟩,
      insideKey_eq_some.mpr ⟨numbered', by rw [kind, typeId, payload, inputs]⟩⟩

theorem representative_target (g : Graph) (k : Nat) {id : NodeId}
    (stays : representative g k id = id) :
    representative g k (target (afterRuns g k) id) = target (afterRuns g k) id := by
  cases key : insideKey (afterRuns g k) id with
  | none => rw [target, FirstAlike.canonical_of_none key, stays]
  | some found =>
      have first := (FirstAlike.canonical_of_key key).1
      exact representative_of_isNumbered (insideKey_eq_some.mp first).1

theorem representative_representative (g : Graph) (k : Nat) (id : NodeId) :
    representative g k (representative g k id) = representative g k id := by
  induction k with
  | zero => rfl
  | succ k ih =>
      change target (afterRuns g k) (representative g k
        (target (afterRuns g k) (representative g k id))) = _
      rw [representative_target g k ih]
      exact FirstAlike.canonical_canonical _

/-- The runs are rounds of identifications of the first graph. -/
theorem rounds {g : Graph} {bound : Nat}
    (apart : ∀ k < bound, HashesApart (afterRuns g k)) :
    Expressions.Rounds (signature g) (fun id => (g.node id).inputs) bound (representative g)
      fun k => target (afterRuns g k) where
  start _ := rfl
  next _ _ := rfl
  live k id := representative_target g k (representative_representative g k id)
  again _ _ := FirstAlike.canonical_canonical _
  identifies k inside id other stays stays' := by
    rw [target_eq_iff (apart k inside)]
    apply or_congr_right
    constructor
    · rintro ⟨first, second, alike⟩
      exact (alike_afterRuns first second).mp alike
    · rintro ⟨l, labelN, labelM, inputs⟩
      have first := isNumbered_afterRuns.mpr ⟨(signature_eq_some.mp labelN).1, stays⟩
      have second := isNumbered_afterRuns.mpr ⟨(signature_eq_some.mp labelM).1, stays'⟩
      exact ⟨first, second, (alike_afterRuns first second).mpr ⟨l, labelN, labelM, inputs⟩⟩

/-- Equality of expressions down to a level in a graph. -/
abbrev Level (g : Graph) : Nat → NodeId → NodeId → Prop :=
  Expressions.Level (signature g) fun id => (g.node id).inputs

/-- The graph after some runs is normal exactly when the next level finds nothing more. -/
theorem isNormal_afterRuns_iff {g : Graph} {k : Nat}
    (apart : ∀ i < k, HashesApart (afterRuns g i)) :
    IsNormal (afterRuns g k) ↔ ∀ id other, Level g (k + 1) id other → Level g k id other := by
  rw [← (rounds apart).apart_iff le_rfl]
  constructor
  · intro normal id other l stays stays' labelN labelM inputs
    have first := isNumbered_afterRuns.mpr ⟨(signature_eq_some.mp labelN).1, stays⟩
    have second := isNumbered_afterRuns.mpr ⟨(signature_eq_some.mp labelM).1, stays'⟩
    exact normal id other first second
      ((alike_afterRuns first second).mpr ⟨l, labelN, labelM, inputs⟩)
  · intro apart id other first second alike
    obtain ⟨l, labelN, labelM, inputs⟩ := (alike_afterRuns first second).mp alike
    exact apart id other l (representative_of_isNumbered first)
      (representative_of_isNumbered second) labelN labelM inputs

/-- A manager that runs only value numbering ends with the graph after the runs of its
budget. -/
theorem outcome_graph {verifyIr : Bool} {g : Graph} {outcome : PassManager.Outcome}
    (ran : PassManager.run verifyIr [pass] g = .ok outcome) :
    outcome.graph = afterRuns g (kFixpointBudgetPerPass + 1) := by
  change (PassManager.runPass verifyIr { graph := g } pass >>= pure) = _ at ran
  rw [bind_pure, PassManager.runPass] at ran
  simp only at ran
  split at ran
  case h_1 => cases ran
  case h_2 =>
    cases ran
    exact fixpoint_graph _ _ _

/-- Value numbering ends in its normal form exactly when expressions that are equal at any
level are equal down to the level of the last run. -/
theorem outcome_normal_iff {verifyIr : Bool} {g : Graph} {outcome : PassManager.Outcome}
    (ran : PassManager.run verifyIr [pass] g = .ok outcome)
    (apart : ∀ k ≤ kFixpointBudgetPerPass, HashesApart (afterRuns g k)) :
    IsNormal outcome.graph ↔ ∀ k id other, Level g k id other →
      Level g (kFixpointBudgetPerPass + 1) id other := by
  rw [outcome_graph ran, isNormal_afterRuns_iff fun k below => apart k (Nat.le_of_lt_succ below)]
  constructor
  · intro stable k id other level
    rcases Nat.le_total k (kFixpointBudgetPerPass + 1) with le | le
    · exact level.mono le
    · obtain ⟨more, rfl⟩ := Nat.exists_eq_add_of_le le
      exact Expressions.level_stable stable more level
  · intro bounded id other level
    exact bounded _ id other level

instance (g : Graph) : Decidable (HashesApart g) :=
  decidable_of_iff (∀ id ∈ List.range g.size, ∀ other ∈ List.range g.size,
    IsNumbered g id ∧ IsNumbered g other ∧ (g.node id).kind = (g.node other).kind ∧
      (g.node id).typeId = (g.node other).typeId ∧
        (g.node id).payload = (g.node other).payload ∧
          hashInputs (g.node id).inputs = hashInputs (g.node other).inputs →
            (g.node id).inputs = (g.node other).inputs)
    ⟨fun apart id other first second kind typeId payload hash =>
        apart id (List.mem_range.mpr first.1) other (List.mem_range.mpr second.1)
          ⟨first, second, kind, typeId, payload, hash⟩,
      fun apart id _ other _ same =>
        apart id other same.1 same.2.1 same.2.2.1 same.2.2.2.1 same.2.2.2.2.1
          same.2.2.2.2.2⟩

instance (n m : Node) : Decidable (Alike n m) :=
  inferInstanceAs (Decidable (_ ∧ _ ∧ _ ∧ _))

instance (g : Graph) : Decidable (IsNormal g) :=
  decidable_of_iff (∀ id ∈ List.range g.size, ∀ other ∈ List.range g.size,
    IsNumbered g id ∧ IsNumbered g other ∧ Alike (g.node id) (g.node other) → id = other)
    ⟨fun apart id other first second alike =>
        apart id (List.mem_range.mpr first.1) other (List.mem_range.mpr second.1)
          ⟨first, second, alike⟩,
      fun apart id _ other _ same => apart id other same.1 same.2.1 same.2.2⟩

/-- One plus one, some times. -/
def sumOfOnes : Nat → Ast
  | 0 => .intLit 1
  | n + 1 => .binaryExpr .plus (sumOfOnes n) (.intLit 1)

/-- A function that subtracts a sum from itself. -/
def selfDifference (n : Nat) : Ast :=
  .fnDecl 0 [] none (.block [
    .returnStmt (some (.binaryExpr .minus (sumOfOnes n) (sumOfOnes n)))]) false

def difference (n : Nat) : Graph := Lowerer.loweredGraph .asListed (selfDifference n)

/-- The graph that value numbering ends with, if it verifies, is normal or not. -/
def endsNormal (g : Graph) : Except String Bool :=
  (PassManager.run true [pass] g).map fun outcome => decide (IsNormal outcome.graph)

theorem endsNormal_eq_ok {g : Graph} {normal : Bool} (ends : endsNormal g = .ok normal) :
    ∃ outcome, PassManager.run true [pass] g = .ok outcome ∧
      decide (IsNormal outcome.graph) = normal := by
  unfold endsNormal at ends
  cases ran : PassManager.run true [pass] g with
  | error why =>
      rw [ran] at ends
      cases ends
  | ok outcome =>
      rw [ran] at ends
      exact ⟨outcome, rfl, Except.ok.inj ends⟩

/-- Six additions are more than the runs of the budget find. -/
theorem outcome_not_normal :
    Lowerer.lowerFresh .asListed (selfDifference 6) = .ok (difference 6) ∧
      (∀ k ≤ kFixpointBudgetPerPass, HashesApart (afterRuns (difference 6) k)) ∧
        ∃ outcome, PassManager.run true [pass] (difference 6) = .ok outcome ∧
          ¬ IsNormal outcome.graph := by
  have ends : endsNormal (difference 6) = .ok false := by decide +kernel
  obtain ⟨outcome, ran, normal⟩ := endsNormal_eq_ok ends
  exact ⟨Lowerer.lowered_ok (by decide +kernel), by decide +kernel, outcome, ran,
    of_decide_eq_false normal⟩

/-- One addition is found. -/
theorem outcome_normal_one :
    ∃ outcome, PassManager.run true [pass] (difference 1) = .ok outcome ∧
      IsNormal outcome.graph ∧ ∀ k id other, Level (difference 1) k id other →
        Level (difference 1) (kFixpointBudgetPerPass + 1) id other := by
  have ends : endsNormal (difference 1) = .ok true := by decide +kernel
  obtain ⟨outcome, ran, decided⟩ := endsNormal_eq_ok ends
  have normal := of_decide_eq_true decided
  exact ⟨outcome, ran, normal, (outcome_normal_iff ran (by decide +kernel)).mp normal⟩

end Gvn

end Aegis
