import AegisCompiler.MovedArguments
import AegisCompiler.StraightLineRuns
import Mathlib.Data.List.TakeWhile

/-!
# Parameters in front

When the parameters of a straight-line graph come before its other nodes, the flat
schedule emits them first.
-/

namespace Aegis

namespace InstrSel

section Growth

variable {g : Graph} {perNode : List NodeInstr} {owner : Owners}
variable (plain : FlatPlain perNode g owner)

include plain

theorem flatLoop_grows {fuel : Nat} {stack : List Frame} {visits visits' : NodeId → Visit}
    {s s' : EmitState g} (collected : ∀ frame ∈ stack, frame.node ∈ perNode.map (·.node))
    (ran : flatLoop perNode owner fuel stack visits s = some (visits', s')) :
    ∃ more, s'.instrs = s.instrs ++ more := by
  induction fuel generalizing stack visits s with
  | zero => cases ran
  | succ fuel ih =>
      cases stack with
      | nil =>
          cases ran
          exact ⟨[], (List.append_nil _).symm⟩
      | cons frame rest =>
          obtain ⟨id, expanded⟩ := frame
          have member : id ∈ perNode.map (·.node) := collected ⟨id, expanded⟩ List.mem_cons_self
          have others : ∀ frame ∈ rest, frame.node ∈ perNode.map (·.node) :=
            fun frame later => collected frame (List.mem_cons_of_mem _ later)
          obtain ⟨mi, found⟩ :=
            Option.isSome_iff_exists.mp ((instrOf_isSome_iff perNode).mpr member)
          have emits {visits : NodeId → Visit} (ran : (emitCollected perNode id >>= fun _ =>
              flatLoop perNode owner fuel rest visits) s = some (visits', s')) :
              ∃ more, s'.instrs = s.instrs ++ more := by
            rw [run_emitCollected found] at ran
            obtain ⟨more, grown⟩ := ih others ran
            exact ⟨[mi] ++ more, by rw [grown, List.append_assoc]⟩
          rw [flatLoop, if_neg (by rw [plain.noSelect id member]; exact Bool.false_ne_true)] at ran
          split at ran
          case isTrue => exact emits ran
          case isFalse =>
            split at ran
            case isTrue => exact ih others ran
            case isFalse =>
              cases children : (g.node id).inputs.filterMap (flatChild (g := g) perNode owner
                  (Function.update visits id .onStack)) with
              | nil =>
                  simp only [children] at ran
                  exact emits ran
              | cons child more =>
                  simp only [children] at ran
                  refine ih (fun frame pushed => ?_) ran
                  rw [← children, plain.children member] at pushed
                  rcases List.mem_append.mp pushed with new | below
                  · obtain ⟨input, operand, rfl⟩ := List.mem_map.mp new
                    have known := (mem_operandNodes perNode).mp (List.mem_filter.mp operand).1
                    exact (instrOf_isSome_iff perNode).mp known.2.2
                  · rcases List.mem_cons.mp below with rfl | below
                    · exact member
                    · exact others frame below

theorem flatSchedule_grows {fuel : Nat} {nodes : List NodeInstr}
    (known : ∀ ni ∈ nodes, ni ∈ perNode) {visits visits' : NodeId → Visit} {s s' : EmitState g}
    (ran : flatSchedule perNode owner fuel nodes visits s = some (visits', s')) :
    ∃ more, s'.instrs = s.instrs ++ more := by
  induction nodes generalizing visits s with
  | nil =>
      cases ran
      exact ⟨[], (List.append_nil _).symm⟩
  | cons ni nodes ih =>
      have others := fun other later => known other (List.mem_cons_of_mem ni later)
      rw [flatSchedule] at ran
      split at ran
      case isTrue => exact ih others ran
      case isFalse =>
        obtain ⟨⟨visits₁, s₁⟩, first, rest⟩ := Option.bind_eq_some_iff.mp ran
        have inside : ∀ frame ∈ [(⟨ni.node, false⟩ : Frame)],
            frame.node ∈ perNode.map (·.node) := by
          intro frame member
          rw [List.mem_singleton.mp member]
          exact List.mem_map_of_mem (known ni List.mem_cons_self)
        obtain ⟨more, grown⟩ := flatLoop_grows plain inside first
        obtain ⟨others, grown'⟩ := ih others rest
        exact ⟨more ++ others, by rw [grown', grown, List.append_assoc]⟩

/-- Nodes without inputs are emitted where they stand. -/
theorem flatSchedule_leaves {fuel : Nat} (enough : 2 ≤ fuel) {leaves rest : List NodeInstr}
    (known : ∀ ni ∈ leaves, ni ∈ perNode ∧ instrOf perNode ni.node = some ni.mi)
    (leaf : ∀ ni ∈ leaves, (g.node ni.node).inputs = [])
    (nodup : (leaves.map (·.node)).Nodup) {visits : NodeId → Visit}
    (fresh : ∀ ni ∈ leaves, visits ni.node = .new) {s : EmitState g}
    {result : (NodeId → Visit) × EmitState g}
    (ran : flatSchedule perNode owner fuel (leaves ++ rest) visits s = some result) :
    ∃ visits' s', s'.instrs = s.instrs ++ leaves.map (·.mi) ∧
      flatSchedule perNode owner fuel rest visits' s' = some result := by
  induction leaves generalizing visits s with
  | nil => exact ⟨visits, s, (List.append_nil _).symm, ran⟩
  | cons ni leaves ih =>
      obtain ⟨member, found⟩ := known ni List.mem_cons_self
      have new := fresh ni List.mem_cons_self
      obtain ⟨absent, nodup⟩ := List.nodup_cons.mp nodup
      let visits₁ := Function.update (Function.update visits ni.node .onStack) ni.node .done
      have walked : flatLoop perNode owner fuel [⟨ni.node, false⟩] visits s =
          some (visits₁, { s with instrs := s.instrs ++ [ni.mi] }) := by
        obtain ⟨fuel, rfl⟩ := Nat.exists_eq_add_of_le' enough
        have noSelect := plain.noSelect ni.node (List.mem_map_of_mem member)
        rw [flatLoop, if_neg (by rw [noSelect]; exact Bool.false_ne_true),
          if_neg Bool.false_ne_true, if_neg (by rw [new]; decide)]
        simp only [leaf ni List.mem_cons_self, List.filterMap_nil]
        rw [run_emitCollected found]
        rfl
      rw [List.cons_append, flatSchedule, if_neg] at ran
      · change (flatLoop perNode owner fuel [⟨ni.node, false⟩] visits s).bind (fun result =>
          flatSchedule perNode owner fuel (leaves ++ rest) result.1 result.2) = some result at ran
        rw [walked, Option.bind_some] at ran
        have others : ∀ other ∈ leaves, visits₁ other.node = .new := by
          intro other later
          have differ : other.node ≠ ni.node := fun same =>
            absent (List.mem_map.mpr ⟨other, later, same⟩)
          simp only [visits₁, Function.update_of_ne differ]
          exact fresh other (List.mem_cons_of_mem _ later)
        obtain ⟨visits', s', grown, goes⟩ :=
          ih (fun other later => known other (List.mem_cons_of_mem _ later))
            (fun other later => leaf other (List.mem_cons_of_mem _ later)) nodup others ran
        exact ⟨visits', s', by rw [grown, List.map_cons, List.append_assoc]; rfl, goes⟩
      · simp [new, isOwned, plain.unowned]

end Growth

/-- The parameters stand in front of all other nodes with instructions, and have no
inputs. -/
structure ParamsLead (g : Graph) : Prop where
  leads : ∀ id other, liveParam g id = true → liveParam g other = false →
    (recipe g other).isSome = true → id < other
  leaves : ∀ id, liveParam g id = true → (g.node id).inputs = []

/-- Some parameters in front of instructions that are none. -/
def ParamsThenRest (instrs : List MachineInstr) : Prop :=
  ∃ params rest, instrs = params ++ rest ∧ (∀ mi ∈ params, mi.op = .param) ∧
    ∀ mi ∈ rest, mi.op ≠ .param

theorem dropWhile_none {α : Type} {first : α → Bool} {xs : List α}
    (ordered : xs.Pairwise fun a b => first b = true → first a = true) :
    ∀ a ∈ xs.dropWhile first, first a = false := by
  induction ordered with
  | nil => exact fun a member => absurd member List.not_mem_nil
  | @cons a xs later _ ih =>
      cases leads : first a with
      | true => rwa [List.dropWhile_cons_of_pos leads]
      | false =>
          rw [List.dropWhile_cons_of_neg (by rw [leads]; exact Bool.false_ne_true)]
          intro b member
          rcases List.mem_cons.mp member with rfl | behind
          · exact leads
          · cases isFirst : first b with
            | false => rfl
            | true => exact absurd ((later b behind isFirst).symm.trans leads) (by decide)

section Stream

variable {g : Graph} {ret value : NodeId}
variable (straight : StraightLine g ret value) {out : List NodeId} (stream : Stream g out)

include straight stream

/-- No two instructions have the same result. -/
theorem Stream.results_distinct : (emittedInstrs g (keptNodes g out)).Pairwise fun a b =>
    ∀ v, a.result = some v → b.result ≠ some v := by
  have nodup : (keptNodes g out).Nodup := stream.nodup.filter _
  rw [emittedInstrs, List.pairwise_filterMap]
  refine List.Pairwise.imp_of_mem ?_ nodup
  intro a b aMember bMember differ mi here mj there v first second
  obtain ⟨-, mi', r, instr, found, fits⟩ := stream.instr straight (List.mem_filter.mp aMember).1
  obtain ⟨-, mj', r', instr', found', fits'⟩ := stream.instr straight (List.mem_filter.mp bMember).1
  cases here.symm.trans instr
  cases there.symm.trans instr'
  have register {id : NodeId} {r : Recipe} {mi : MachineInstr}
      (fits : Fits (collect g).table id r mi)
      (result : mi.result = some v) : (collect g).table.vregOf id = some v := by
    rw [fits.instr] at result
    dsimp only at result
    split at result
    · cases result
    · exact result
  have same := (collect g).table.distinct _ _ v (register fits first) (register fits' second)
  rw [straight.registerSource (recipe_cases found).1,
    straight.registerSource (recipe_cases found').1] at same
  exact differ same

end Stream

theorem RecipesCollected.instrOf_mem {g : Graph} {c : Collected g}
    (collected : RecipesCollected g.size c) {ni : NodeInstr} (member : ni ∈ c.perNode) :
    instrOf c.perNode ni.node = some ni.mi := by
  obtain ⟨mi, found⟩ := Option.isSome_iff_exists.mp
    ((instrOf_isSome_iff c.perNode).mpr (List.mem_map_of_mem member))
  obtain ⟨-, r, known, fits⟩ := collected.instrOf_eq found
  obtain ⟨r', known', fits'⟩ := collected.fits ni member
  cases known.symm.trans known'
  rw [found, fits.instr, fits'.instr]

section Selected

variable {g : Graph} {ret value : NodeId}
variable (straight : StraightLine g ret value) (lead : ParamsLead g)

include straight

/-- A live parameter is selected to `param`. -/
theorem StraightLine.param_op {ni : NodeInstr} (member : ni ∈ (collect g).perNode)
    (isParam : liveParam g ni.node = true) : ni.mi.op = .param := by
  obtain ⟨r, found, fits⟩ :=
    (collect_recipes fun id live => straight.plain live).fits ni member
  obtain ⟨live, kind⟩ : (g.node ni.node).isDead = false ∧ (g.node ni.node).kind = .parameter := by
    simpa [liveParam] using isParam
  rw [recipe] at found
  simp only [live, kind, Bool.false_eq_true, if_false, Option.some.injEq] at found
  rw [fits.instr, ← found]

include lead

/-- The parameters are the first nodes with instructions. -/
theorem StraightLine.leading :
    ∀ ni ∈ (collect g).perNode.dropWhile fun ni => liveParam g ni.node,
      liveParam g ni.node = false := by
  have collected := collect_recipes fun id live => straight.plain live
  apply dropWhile_none
  have ascending : (collect g).perNode.Pairwise fun a b => a.node < b.node := by
    have nodes : ((collect g).perNode.map (·.node)).Pairwise (· < ·) := by
      rw [collected.nodes]
      exact List.pairwise_lt_range.filter _
    exact List.pairwise_map.mp nodes
  refine ascending.imp_of_mem fun {a b} aMember _ less later => ?_
  cases earlier : liveParam g a.node with
  | true => rfl
  | false =>
      have hasRecipe : (recipe g a.node).isSome = true := by
        have member := List.mem_map_of_mem (f := (·.node)) aMember
        rw [collected.nodes] at member
        exact (List.mem_filter.mp member).2
      exact absurd (lead.leads b.node a.node later earlier hasRecipe) (Nat.lt_asymm less)

theorem lower_params {fuel : Nat} (enough : scheduleFuel g (collect g).perNode ≤ fuel)
    {name : String} {mf : MachineFunction} (lowered : lower fuel g name = .ok mf) :
    ParamsThenRest mf.instrs := by
  have collected := collect_recipes fun id live => straight.plain live
  obtain ⟨rank, flat⟩ := straight.flat
  obtain ⟨out, ordered, nodup, all, lowered'⟩ := flat.lower_eq enough name
  have stream : Stream g out := ⟨ordered, nodup, all⟩
  have noSelect : ∀ id ∈ (collect g).perNode.map (·.node), isSelectPhi g id = false :=
    fun id member => (flat.plain id (flat.live member)).noSelect
  have plain : FlatPlain (collect g).perNode g (selectGlobalOwner g (collect g).perNode) := by
    refine ⟨?_, noSelect, fun id member input operand => ?_⟩
    · exact selectGlobalOwner_none fun ni member => noSelect _ (List.mem_map_of_mem member)
    · exact (flat.plain input (flat.reads id (flat.live member) input operand)).noResult
  let isFirst (ni : NodeInstr) := liveParam g ni.node
  let leading := (collect g).perNode.takeWhile isFirst
  let others := (collect g).perNode.dropWhile isFirst
  have whole : leading ++ others = (collect g).perNode := List.takeWhile_append_dropWhile
  have inside : ∀ ni ∈ leading, ni ∈ (collect g).perNode :=
    fun ni member => whole ▸ List.mem_append_left _ member
  have first : ∀ ni ∈ leading, liveParam g ni.node = true :=
    fun ni member => List.mem_takeWhile_imp (p := isFirst) member
  have nodes : ((collect g).perNode.map (·.node)).Nodup := by
    rw [collected.nodes]
    exact List.nodup_range.filter _
  -- The schedule emits the leading parameters, and then more instructions.
  obtain ⟨final, emitted, instrs⟩ : ∃ final : EmitState g,
      (∃ more, final.instrs = leading.map (·.mi) ++ more) ∧
        mf.instrs = sweepDead final.instrs := by
    simp only [lower, flat.noLoop, ne_eq, not_true_eq_false, if_false] at lowered
    split at lowered
    case h_1 => cases lowered
    case h_2 visits final ran =>
      split at lowered
      case h_1 => cases lowered
      case h_2 =>
        cases lowered
        have ran : flatSchedule (collect g).perNode (selectGlobalOwner g (collect g).perNode)
            fuel (leading ++ others) (fun _ => .new) { table := (collect g).table } =
              some (visits, final) := by
          rwa [whole]
        have two : 2 ≤ fuel := (Nat.le_add_left _ _).trans enough
        obtain ⟨visits₁, s₁, started, rest⟩ := flatSchedule_leaves plain two
          (fun ni member => ⟨inside ni member, collected.instrOf_mem (inside ni member)⟩)
          (fun ni member => lead.leaves ni.node (first ni member))
          (List.Nodup.sublist ((List.takeWhile_sublist _).map _) nodes) (fun _ _ => rfl) ran
        obtain ⟨more, grown⟩ := flatSchedule_grows plain
          (fun ni member => whole ▸ List.mem_append_right _ member) rest
        exact ⟨final, ⟨more, by rw [grown, started, List.nil_append]⟩, rfl⟩
  obtain ⟨more, grown⟩ := emitted
  have distinct := stream.results_distinct straight
  have kept : mf.instrs = emittedInstrs g (keptNodes g out) := by
    cases lowered.symm.trans lowered'
    exact sweepDead_emitted out
  rw [← kept, instrs, sweepDead, grown, List.filter_append] at distinct
  refine ⟨_, _, by rw [instrs, sweepDead, grown, List.filter_append], ?_, ?_⟩
  · intro mi member
    obtain ⟨ni, front, rfl⟩ := List.mem_map.mp (List.mem_filter.mp member).1
    exact straight.param_op (inside ni front) (first ni front)
  · -- A later parameter would be one of the leading ones, which have other results.
    intro mi member isParam
    have known : mi ∈ emittedInstrs g (keptNodes g out) := by
      rw [← kept, instrs, sweepDead, grown, List.filter_append]
      exact List.mem_append_right _ member
    obtain ⟨id, -, instr⟩ := List.mem_filterMap.mp known
    obtain ⟨ni, collectedNi, rfl, rfl⟩ := mem_of_instrOf instr
    obtain ⟨r, found, fits⟩ := collected.fits ni collectedNi
    have op : r.op = .param := by
      rw [fits.instr] at isParam
      exact isParam
    obtain ⟨live, shape⟩ := recipe_cases found
    have isFirst : liveParam g ni.node = true := by
      simp [liveParam, live, (shape.param op).1]
    have front : ni ∈ leading := by
      rw [← whole] at collectedNi
      refine (List.mem_append.mp collectedNi).resolve_right fun later => ?_
      exact absurd ((straight.leading lead ni later).symm.trans isFirst) Bool.false_ne_true
    have notRet : r.op ≠ .ret := by
      rw [op]
      decide
    obtain ⟨v, register⟩ := Option.isSome_iff_exists.mp (fits.result.resolve_right notRet)
    have result := (fits.result_eq notRet).trans register
    have again := List.mem_filter.mpr ⟨List.mem_map_of_mem front, (List.mem_filter.mp member).2⟩
    exact (List.pairwise_append.mp distinct).2.2 ni.mi again ni.mi member v result result

end Selected

end InstrSel

end Aegis
