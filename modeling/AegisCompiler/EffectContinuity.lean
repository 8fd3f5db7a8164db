import AegisCompiler.GraphOperations
import AegisCompiler.GraphVerify

/-!
# The rules behind the verifier

The specification has four rules, about the edges between live nodes and the flags of all
nodes.  Three of the verifier's checks are these rules.  For the effect chain it checks that
there is an effect input, not that this input produces an effect.
-/

namespace Aegis.Graph

variable {g : Graph} {id source : NodeId}

/-- The effect token of the start node. -/
def IsStartEffect (g : Graph) (id : NodeId) : Prop :=
  (g.node id).kind = .proj ∧ NodePayload.projIndex (g.node id).payload = 1#32 ∧
    ∃ start, (g.node id).inputs = [some start] ∧ (g.node start).kind = .start

/-- The members are the start node and its effect token, altered and crowded nodes, and phis
that merge members.  A loop's phi merges the effect of its own iterations. -/
def EffectClosed (g : Graph) (members : NodeId → Prop) : Prop :=
  ∀ id, members id →
    (g.node id).isPure = false ∨ (g.node id).kind = .start ∨ g.IsStartEffect id ∨
      ((g.node id).kind = .phi ∧ (g.node id).inputs.drop 1 ≠ [] ∧
        ∀ value ∈ (g.node id).inputs.drop 1, ∃ merged, value = some merged ∧ members merged)

def ProducesEffect (g : Graph) (id : NodeId) : Prop :=
  ∃ members, g.EffectClosed members ∧ members id

/-- A live altered or crowded node; the start node begins the chain. -/
structure TakesEffect (g : Graph) (id : NodeId) : Prop where
  inside : id < g.size
  live : (g.node id).isDead = false
  effectful : (g.node id).isPure = false
  started : (g.node id).kind ≠ .start

/-- Rule 1: the inputs of live nodes exist and are live. -/
def NoDanglingInputs (g : Graph) : Prop :=
  ∀ id < g.size, (g.node id).isDead = false → ∀ input, some input ∈ (g.node id).inputs →
    input < g.size ∧ (g.node input).isDead = false

/-- Rule 2: the effect input of an altered or crowded node is another node that produces an
effect. -/
def EffectChainContinuity (g : Graph) : Prop :=
  ∀ id, g.TakesEffect id → ∃ source, (g.node id).effIn = some source ∧ source ≠ id ∧
    g.ProducesEffect source

/-- Rule 3: guards on profiled assumptions have a frame state. -/
def FrameStatesAttached (g : Graph) : Prop :=
  ∀ id < g.size, (g.node id).flags.has .isPgoSpeculated = true →
    (g.node id).flags.has .isGuarded = true → (g.node id).flags.has .hasFrameState = true

/-- Rule 4: the live consumers in an output list have the producer as an input. -/
def UseDefConsistent (g : Graph) : Prop :=
  ∀ id, ∀ user ∈ g.usersSnapshot id, user < g.size ∧
    ((g.node user).isDead = false → some id ∈ (g.node user).inputs)

structure MeetsRules (g : Graph) : Prop where
  noDangling : g.NoDanglingInputs
  effectChain : g.EffectChainContinuity
  frameStates : g.FrameStatesAttached
  useDef : g.UseDefConsistent

theorem checkFrameStates_eq_none : g.checkFrameStates = none ↔ g.FrameStatesAttached := by
  simp only [checkFrameStates, List.findSome?_eq_none_iff, List.mem_range]
  refine forall_congr' fun id => forall_congr' fun _ => ?_
  cases (g.node id).flags.has .isPgoSpeculated <;> cases (g.node id).flags.has .isGuarded <;>
    cases (g.node id).flags.has .hasFrameState <;> simp

theorem takesEffect_iff : g.checkEffects = none ↔
    ∀ id, g.TakesEffect id → ∃ source, (g.node id).effIn = some source := by
  rw [checkEffects_eq_none]
  constructor
  · intro checked id takes
    exact Option.ne_none_iff_exists'.mp
      (checked id takes.inside takes.live takes.effectful takes.started)
  · intro some id inside live effectful started
    exact Option.ne_none_iff_exists'.mpr (some id ⟨inside, live, effectful, started⟩)

/-- The graph breaks a rule in a way that the verifier sees. -/
def Faulty (g : Graph) : Prop :=
  ¬(g.NoDanglingInputs ∧ g.FrameStatesAttached ∧ g.UseDefConsistent) ∨
    ∃ id, g.TakesEffect id ∧ (g.node id).effIn = none

/-- A live altered or crowded node takes its effect from a node that has none to give, or
from itself. -/
def Misdirected (g : Graph) : Prop :=
  ∃ id, g.TakesEffect id ∧ ∃ source, (g.node id).effIn = some source ∧
    (source = id ∨ ¬g.ProducesEffect source)

theorem accepts_iff : g.verify = none ↔ ¬g.Faulty := by
  have effects : g.checkEffects = none ↔ ¬∃ id, g.TakesEffect id ∧ (g.node id).effIn = none := by
    rw [takesEffect_iff]
    constructor
    · rintro all ⟨id, takes, missing⟩
      obtain ⟨source, found⟩ := all id takes
      cases missing.symm.trans found
    · intro absent id takes
      rw [← Option.ne_none_iff_exists']
      exact fun missing => absent ⟨id, takes, missing⟩
  rw [verify_eq_none, checkInputs_eq_none, effects, checkFrameStates_eq_none, checkUses_eq_none,
    Faulty, not_or, not_not]
  constructor
  · rintro ⟨inputs, effect, frames, uses⟩
    exact ⟨⟨inputs, frames, uses⟩, effect⟩
  · rintro ⟨⟨inputs, frames, uses⟩, effect⟩
    exact ⟨inputs, effect, frames, uses⟩

theorem meetsRules_iff : g.MeetsRules ↔ ¬g.Faulty ∧ ¬g.Misdirected := by
  constructor
  · intro rules
    constructor
    · rintro (broken | ⟨id, takes, missing⟩)
      · exact broken ⟨rules.noDangling, rules.frameStates, rules.useDef⟩
      · obtain ⟨source, found, _⟩ := rules.effectChain id takes
        cases missing.symm.trans found
    · rintro ⟨id, takes, source, found, wrong⟩
      obtain ⟨source', found', other, produces⟩ := rules.effectChain id takes
      obtain rfl := Option.some.inj (found.symm.trans found')
      exact wrong.elim other fun silent => silent produces
  · rintro ⟨sound, directed⟩
    rw [Faulty, not_or, not_not] at sound
    refine ⟨sound.1.1, fun id takes => ?_, sound.1.2.1, sound.1.2.2⟩
    cases found : (g.node id).effIn with
    | none => exact absurd ⟨id, takes, found⟩ sound.2
    | some source =>
        have right : ¬(source = id ∨ ¬g.ProducesEffect source) :=
          fun wrong => directed ⟨id, takes, source, found, wrong⟩
        rw [not_or, not_not] at right
        exact ⟨source, rfl, right⟩

/-- No graph that meets the rules is rejected. -/
theorem MeetsRules.accepted (rules : g.MeetsRules) : g.verify = none :=
  accepts_iff.mpr (meetsRules_iff.mp rules).1

/-- The verifier tells the graphs that meet the rules from the others, unless a misdirected
effect is all that is wrong. -/
theorem verify_exact_iff (g : Graph) :
    (g.verify = none ↔ g.MeetsRules) ↔ (g.Misdirected → g.Faulty) := by
  rw [accepts_iff, meetsRules_iff]
  constructor
  · intro same misdirected
    by_contra sound
    exact (same.mp sound).2 misdirected
  · intro seen
    exact ⟨fun sound => ⟨sound, fun misdirected => sound (seen misdirected)⟩, And.left⟩

/-- The load takes its effect from the constant. -/
def constantEffect : Graph :=
  let (null, g) := Graph.fresh.makeConstant 0 kInvalidTypeId
  (g.makeLoad (some kStartNodeId) (some null) (some null) kInvalidTypeId).2

theorem accepts_constantEffect : ¬(constantEffect.verify = none ↔ constantEffect.MeetsRules) := by
  intro exact
  have rules := exact.mp (by decide)
  obtain ⟨source, found, _, members, closed, member⟩ :=
    rules.effectChain 2 ⟨by decide, by decide, by decide, by decide⟩
  obtain rfl : source = 1 := Option.some.inj (found.symm.trans (by decide))
  rcases closed 1 member with effect | start | proj | phi
  · exact absurd effect (by decide)
  · exact absurd start (by decide)
  · exact absurd proj.1 (by decide)
  · exact absurd phi.1 (by decide)

end Aegis.Graph
