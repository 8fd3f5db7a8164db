import AegisCompiler.InstrSelRecipes
import AegisCompiler.PostorderWalk

/-!
# The flat schedule of straight-line code

Without selects and calls, the flat scheduler walks the operands of the collected nodes
depth first.  Given enough fuel it emits every collected instruction once, behind the
instructions of its operands.
-/

namespace Aegis

namespace InstrSel

section Operands

variable {g : Graph} (perNode : List NodeInstr)

/-- The operands of a node for which an instruction was collected. -/
def operandNodes (g : Graph) (id : NodeId) : List NodeId :=
  ((g.node id).inputs.filterMap g.inRange).filter fun input => (instrOf perNode input).isSome

theorem mem_operandNodes {id input : NodeId} :
    input ∈ operandNodes perNode g id ↔
      some input ∈ (g.node id).inputs ∧ input < g.size ∧
        (instrOf perNode input).isSome = true := by
  rw [operandNodes, List.mem_filter, List.mem_filterMap, ← and_assoc]
  apply and_congr_left'
  constructor
  · rintro ⟨ref, member, found⟩
    obtain ⟨rfl, inside⟩ := (g.inRange_some).mp found
    exact ⟨member, inside⟩
  · rintro ⟨member, inside⟩
    exact ⟨some input, member, (g.inRange_some).mpr ⟨rfl, inside⟩⟩

theorem instrOf_isSome_iff {id : NodeId} :
    (instrOf perNode id).isSome = true ↔ id ∈ perNode.map (·.node) := by
  rw [instrOf, Option.isSome_map, List.find?_isSome, List.mem_map]
  simp

/-- The schedule of this graph pushes plain operands only. -/
structure FlatPlain (g : Graph) (owner : Owners) : Prop where
  unowned : ∀ id, owner id = none
  noSelect : ∀ id ∈ perNode.map (·.node), isSelectPhi g id = false
  noResult : ∀ id ∈ perNode.map (·.node), ∀ input, some input ∈ (g.node id).inputs →
    isCallValueProj g input = false

variable {perNode} {owner : Owners} (plain : FlatPlain perNode g owner)

include plain in
/-- The children that are pushed for a node: its new operands. -/
theorem FlatPlain.children {id : NodeId} (member : id ∈ perNode.map (·.node))
    (visits : NodeId → Visit) :
    (g.node id).inputs.filterMap (flatChild (g := g) perNode owner visits) =
      ((operandNodes perNode g id).filter fun input => decide (visits input = .new)).map
        (⟨·, false⟩) := by
  have each : ∀ refs : List NodeRef, (∀ input, some input ∈ refs → isCallValueProj g input = false) →
      refs.filterMap (flatChild (g := g) perNode owner visits) =
        (((refs.filterMap g.inRange).filter fun input => (instrOf perNode input).isSome).filter
          fun input => decide (visits input = .new)).map (⟨·, false⟩) := by
    intro refs noResult
    induction refs with
    | nil => rfl
    | cons ref refs ih =>
        have rest := ih fun input later => noResult input (List.mem_cons_of_mem _ later)
        cases found : g.inRange ref with
        | none =>
            have nothing : flatChild (g := g) perNode owner visits ref = none := by
              rw [flatChild, found]
            rw [List.filterMap_cons_none nothing, List.filterMap_cons_none found, rest]
        | some input =>
            obtain ⟨rfl, -⟩ := (g.inRange_some).mp found
            have follow : followCall g input = input := by
              rw [followCall, noResult input List.mem_cons_self]
              rfl
            rw [List.filterMap_cons_some found, List.filterMap_cons]
            have child : flatChild (g := g) perNode owner visits (some input) =
                if (instrOf perNode input).isSome ∧ visits input = .new then
                  some ⟨input, false⟩ else none := by
              rw [flatChild, found]
              simp only [follow, ite_self, isOwned, plain.unowned]
              cases instrOf perNode input <;> simp
            rw [child, rest]
            cases collected : instrOf perNode input with
            | none => simp [collected]
            | some mi =>
                by_cases fresh : visits input = .new <;> simp [collected, fresh]
  exact each _ (plain.noResult id member)

end Operands

section Walk

open Postorder

variable {g : Graph} {perNode : List NodeInstr} {owner : Owners}

/-- The scheduling loop as a depth-first walk. -/
def walkState (stack : List Frame) (visits : NodeId → Visit) (out : List NodeId) :
    Postorder.State NodeId where
  stack := stack.map fun frame => (frame.node, frame.expanded)
  started := fun id => decide (visits id ≠ .new)
  out := out

/-- The finished nodes are marked, and their instructions are emitted. -/
structure Emitted (perNode : List NodeInstr) (visits : NodeId → Visit) (out : List NodeId)
    (s : EmitState g) : Prop where
  done : ∀ id, visits id = .done ↔ id ∈ out
  instrs : s.instrs = out.filterMap (instrOf perNode)

/-- The invariant of the scheduling loop. -/
abbrev WalkInv (g : Graph) (perNode : List NodeInstr) (rank : NodeId → Nat)
    (s : Postorder.State NodeId) : Prop :=
  Postorder.Inv (operandNodes perNode g) rank (perNode.map (·.node)) s

abbrev walkWeight (g : Graph) (perNode : List NodeInstr) (s : Postorder.State NodeId) : Nat :=
  Postorder.weight (operandNodes perNode g) (perNode.map (·.node)) s

theorem run_emitCollected {α : Type} {id : NodeId} {mi : MachineInstr}
    (found : instrOf perNode id = some mi) (next : EmitM g α) (s : EmitState g) :
    (emitCollected perNode id >>= fun _ => next) s =
      next { s with instrs := s.instrs ++ [mi] } := by
  rw [emitCollected, found]
  rfl

theorem Emitted.finish {visits : NodeId → Visit} {out : List NodeId} {s : EmitState g}
    (emitted : Emitted perNode visits out s) {id : NodeId} {mi : MachineInstr}
    (found : instrOf perNode id = some mi) :
    Emitted perNode (Function.update visits id .done) (out ++ [id])
      { s with instrs := s.instrs ++ [mi] } where
  done other := by
    rw [List.mem_append, List.mem_singleton, ← emitted.done other]
    by_cases same : other = id
    · simp [same]
    · simp [same]
  instrs := by
    rw [List.filterMap_append, ← emitted.instrs]
    simp [found]

/-- Marking a started node as done starts nothing. -/
theorem walkState_done {stack : List Frame} {visits : NodeId → Visit} {out : List NodeId}
    {id : NodeId} (started : visits id ≠ .new) :
    walkState stack (Function.update visits id .done) out = walkState stack visits out := by
  rw [walkState, walkState]
  congr 1
  funext other
  by_cases same : other = id
  · subst same
    simp [started]
  · rw [Function.update_of_ne same]

variable {rank : NodeId → Nat}

theorem walk_finish {id : NodeId} {rest : List Frame} {visits : NodeId → Visit}
    {out : List NodeId} (inv : WalkInv g perNode rank (walkState (⟨id, true⟩ :: rest) visits out)) :
    Step (operandNodes perNode g) (walkState (⟨id, true⟩ :: rest) visits out)
      (walkState rest (Function.update visits id .done) (out ++ [id])) := by
  have started : visits id ≠ .new := by
    have known := (inv.started id).mpr (Or.inr List.mem_cons_self)
    exact of_decide_eq_true known
  rw [walkState_done started]
  exact .finish

variable (plain : FlatPlain perNode g owner)

include plain in
theorem walk_expand {id : NodeId} {rest : List Frame} {visits : NodeId → Visit}
    {out : List NodeId} (member : id ∈ perNode.map (·.node)) (fresh : id ∉ out) :
    Step (operandNodes perNode g) (walkState (⟨id, false⟩ :: rest) visits out)
      (walkState ((g.node id).inputs.filterMap (flatChild (g := g) perNode owner
        (Function.update visits id .onStack)) ++ ⟨id, true⟩ :: rest)
        (Function.update visits id .onStack) out) := by
  let new := (operandNodes perNode g id).filter fun input =>
    decide (Function.update visits id .onStack input = .new)
  have target : walkState ((g.node id).inputs.filterMap (flatChild (g := g) perNode owner
        (Function.update visits id .onStack)) ++ ⟨id, true⟩ :: rest)
        (Function.update visits id .onStack) out =
      ⟨new.map (·, false) ++ (id, true) :: rest.map fun frame => (frame.node, frame.expanded),
        fun other => decide (visits other ≠ .new) || decide (other = id), out⟩ := by
    rw [plain.children member, walkState]
    congr 1
    · simp [new, Function.comp_def]
    · funext other
      by_cases same : other = id
      · simp [same]
      · simp [same]
  rw [target]
  refine .expand fresh (fun input => ?_) (List.length_filter_le ..)
  rw [List.mem_filter]
  apply and_congr_right'
  by_cases same : input = id
  · simp [same]
  · simp [same]

/-- A run of the scheduler from here finishes everything on the stack, and leaves what
was finished. -/
def Finishes (perNode : List NodeInstr) (rank : NodeId → Nat) (start : Postorder.State NodeId)
    (result : Option ((NodeId → Visit) × EmitState g)) : Prop :=
  ∃ visits out s, result = some (visits, s) ∧ WalkInv g perNode rank (walkState [] visits out) ∧
    Emitted perNode visits out s ∧
    ∀ id, id ∈ start.out ∨ (∃ flag, (id, flag) ∈ start.stack) → id ∈ out

theorem Finishes.step {first second : Postorder.State NodeId}
    {result : Option ((NodeId → Visit) × EmitState g)}
    (finishes : Finishes perNode rank second result)
    (step : Step (operandNodes perNode g) first second) :
    Finishes perNode rank first result := by
  obtain ⟨visits, out, s, ran, inv, emitted, all⟩ := finishes
  exact ⟨visits, out, s, ran, inv, emitted, fun id known => all id (step.keeps known)⟩

variable (lower : ∀ id ∈ perNode.map (·.node), ∀ input ∈ operandNodes perNode g id,
  rank input < rank id)

include lower in
theorem walk_inv {first second : Postorder.State NodeId}
    (step : Step (operandNodes perNode g) first second) (inv : WalkInv g perNode rank first) :
    WalkInv g perNode rank second := by
  refine step.inv lower (fun id _ input operand => ?_) inv
  rw [← instrOf_isSome_iff]
  exact ((mem_operandNodes perNode).mp operand).2.2

include plain lower in
/-- With enough fuel, the scheduling loop finishes its stack. -/
theorem flatLoop_finishes (fuel : Nat) (stack : List Frame) (visits : NodeId → Visit)
    (out : List NodeId) (s : EmitState g)
    (inv : WalkInv g perNode rank (walkState stack visits out))
    (emitted : Emitted perNode visits out s)
    (enough : walkWeight g perNode (walkState stack visits out) < fuel) :
    Finishes perNode rank (walkState stack visits out)
      (flatLoop perNode owner fuel stack visits s) := by
  induction fuel generalizing stack visits out s with
  | zero => exact absurd enough (Nat.not_lt_zero _)
  | succ fuel ih =>
      have go {stack' : List Frame} {visits' : NodeId → Visit} {out' : List NodeId}
          {s' : EmitState g} (step : Step (operandNodes perNode g) (walkState stack visits out)
            (walkState stack' visits' out')) (emitted' : Emitted perNode visits' out' s') :
          Finishes perNode rank (walkState stack visits out)
            (flatLoop perNode owner fuel stack' visits' s') := by
        have less := step.weight_lt inv
        have fits := Nat.lt_of_lt_of_le less (Nat.le_of_lt_succ enough)
        exact (ih stack' visits' out' s' (walk_inv lower step inv) emitted' fits).step step
      cases stack with
      | nil =>
          refine ⟨visits, out, s, rfl, inv, emitted, fun id known => ?_⟩
          rcases known with finished | ⟨flag, stacked⟩
          · exact finished
          · cases stacked
      | cons frame rest =>
          obtain ⟨id, expanded⟩ := frame
          have member : id ∈ perNode.map (·.node) := inv.stacked (id, expanded) List.mem_cons_self
          obtain ⟨mi, found⟩ := Option.isSome_iff_exists.mp ((instrOf_isSome_iff perNode).mpr member)
          rw [flatLoop, if_neg (by rw [plain.noSelect id member]; exact Bool.false_ne_true)]
          cases expanded with
          | true =>
              rw [if_pos rfl, run_emitCollected found]
              exact go (walk_finish inv) (emitted.finish found)
          | false =>
              rw [if_neg Bool.false_ne_true]
              by_cases done : visits id = .done
              · rw [if_pos done]
                exact go (.drop ((emitted.done id).mp done)) emitted
              · rw [if_neg done]
                have fresh : id ∉ out := fun finished => done ((emitted.done id).mpr finished)
                have step : Step (operandNodes perNode g) (walkState (⟨id, false⟩ :: rest) visits out)
                    (walkState ((g.node id).inputs.filterMap (flatChild (g := g) perNode owner
                      (Function.update visits id .onStack)) ++ ⟨id, true⟩ :: rest)
                      (Function.update visits id .onStack) out) := walk_expand plain member fresh
                have opened : Emitted perNode (Function.update visits id .onStack) out s := by
                  refine ⟨fun other => ?_, emitted.instrs⟩
                  rw [← emitted.done other]
                  by_cases same : other = id
                  · subst same
                    simp [done]
                  · rw [Function.update_of_ne same]
                cases children : (g.node id).inputs.filterMap (flatChild (g := g) perNode owner
                    (Function.update visits id .onStack)) with
                | nil =>
                    -- A leaf is opened and finished at once.
                    rw [children, List.nil_append] at step
                    have inv' := walk_inv lower step inv
                    have last := walk_finish inv'
                    have less := Nat.lt_trans (last.weight_lt inv') (step.weight_lt inv)
                    have finishes := (ih rest _ _ _ (walk_inv lower last inv')
                      (opened.finish found)
                      (Nat.lt_of_lt_of_le less (Nat.le_of_lt_succ enough))).step last
                    change Finishes _ _ _ ((emitCollected perNode id >>= fun _ => flatLoop
                      perNode owner fuel rest (Function.update _ id .done)) s)
                    rw [run_emitCollected found]
                    exact finishes.step step
                | cons child more =>
                    rw [children] at step
                    exact go step opened

/-- Enough fuel for each walk of the scheduler: every node is pushed once for each slot
that reads it. -/
def scheduleFuel (g : Graph) (perNode : List NodeInstr) : Nat :=
  (perNode.map fun ni => (g.node ni.node).inputs.length + 2).sum + 2

theorem walkWeight_lt (id : NodeId) (visits : NodeId → Visit) (out : List NodeId) :
    walkWeight g perNode (walkState [⟨id, false⟩] visits out) < scheduleFuel g perNode := by
  have fewer (node : NodeId) :
      (operandNodes perNode g node).length + 2 ≤ (g.node node).inputs.length + 2 := by
    apply Nat.add_le_add_right
    exact (List.length_filter_le ..).trans (List.length_filterMap_le ..)
  have some : walkWeight g perNode (walkState [⟨id, false⟩] visits out) ≤
      1 + ((perNode.map (·.node)).map fun node => (g.node node).inputs.length + 2).sum := by
    apply Nat.add_le_add_left
    apply le_trans ((List.filter_sublist.map _).sum_le_sum fun _ _ => Nat.zero_le _)
    exact List.sum_le_sum fun node _ => fewer node
  rw [List.map_map] at some
  have total : scheduleFuel g perNode =
      (perNode.map ((fun node => (g.node node).inputs.length + 2) ∘ (·.node))).sum + 2 := rfl
  omega

include plain lower in
/-- The schedule finishes every node it goes through. -/
theorem flatSchedule_finishes {fuel : Nat} (enough : scheduleFuel g perNode ≤ fuel)
    (nodes : List NodeInstr) (known : ∀ ni ∈ nodes, ni ∈ perNode) (visits : NodeId → Visit)
    (out : List NodeId) (s : EmitState g) (inv : WalkInv g perNode rank (walkState [] visits out))
    (emitted : Emitted perNode visits out s) :
    Finishes perNode rank ⟨nodes.map fun ni => (ni.node, false), fun _ => false, out⟩
      (flatSchedule perNode owner fuel nodes visits s) := by
  induction nodes generalizing visits out s with
  | nil =>
      refine ⟨visits, out, s, rfl, inv, emitted, fun id known => ?_⟩
      rcases known with finished | ⟨flag, stacked⟩
      · exact finished
      · cases stacked
  | cons ni nodes ih =>
      have member : ni.node ∈ perNode.map (·.node) :=
        List.mem_map_of_mem (known ni List.mem_cons_self)
      have others := ih fun other later => known other (List.mem_cons_of_mem _ later)
      rw [flatSchedule]
      split
      case isTrue skipped =>
        have started : visits ni.node ≠ .new := by
          rcases skipped with started | owned
          · exact started
          · simp [isOwned, plain.unowned] at owned
        have finished : ni.node ∈ out := by
          have known := (inv.started ni.node).mp (decide_eq_true started)
          exact known.resolve_right List.not_mem_nil
        obtain ⟨visits', out', s', ran, inv', emitted', all⟩ := others visits out s inv emitted
        refine ⟨visits', out', s', ran, inv', emitted', fun id known => ?_⟩
        rcases known with old | ⟨flag, stacked⟩
        · exact all id (Or.inl old)
        · rcases List.mem_cons.mp stacked with top | stacked
          · cases top
            exact all _ (Or.inl finished)
          · exact all id (Or.inr ⟨flag, stacked⟩)
      case isFalse =>
        obtain ⟨visits₁, out₁, s₁, ran₁, inv₁, emitted₁, all₁⟩ :=
          flatLoop_finishes plain lower fuel [⟨ni.node, false⟩] visits out s (inv.push member)
            emitted (Nat.lt_of_lt_of_le (walkWeight_lt ni.node visits out) enough)
        obtain ⟨visits₂, out₂, s₂, ran₂, inv₂, emitted₂, all₂⟩ :=
          others visits₁ out₁ s₁ inv₁ emitted₁
        refine ⟨visits₂, out₂, s₂, ?_, inv₂, emitted₂, fun id known => ?_⟩
        · simp only [Bind.bind, StateT.bind, ran₁]
          exact ran₂
        · rcases known with old | ⟨flag, stacked⟩
          · exact all₂ id (Or.inl (all₁ id (Or.inl old)))
          · rcases List.mem_cons.mp stacked with top | stacked
            · cases top
              exact all₂ _ (Or.inl (all₁ _ (Or.inr ⟨false, List.mem_cons_self⟩)))
            · exact all₂ id (Or.inr ⟨flag, stacked⟩)

end Walk

section Whole

variable {g : Graph}

/-- Nothing is owned when nothing collected is a select. -/
theorem selectGlobalOwner_none {perNode : List NodeInstr}
    (noSelect : ∀ ni ∈ perNode, isSelectPhi g ni.node = false) (id : NodeId) :
    selectGlobalOwner g perNode id = none := by
  have nothing (nodes : List NodeInstr) (owner : Owners)
      (noSelect : ∀ ni ∈ nodes, isSelectPhi g ni.node = false) :
      claimAll g perNode nodes owner = [] := by
    induction nodes with
    | nil => rfl
    | cons ni nodes ih =>
        rw [claimAll, if_neg (by rw [noSelect ni List.mem_cons_self]; exact Bool.false_ne_true)]
        exact ih fun other later => noSelect other (List.mem_cons_of_mem _ later)
  rw [selectGlobalOwner, nothing perNode _ noSelect, validate_eq]
  rfl

/-- A graph of straight-line code, as the selector walks it. -/
structure FlatGraph (g : Graph) (rank : NodeId → Nat) : Prop where
  plain : ∀ id, (g.node id).isDead = false → IsPlain g id
  noLoop : liveLoops g = []
  reads : ∀ id, (g.node id).isDead = false → ∀ input, some input ∈ (g.node id).inputs →
    (g.node input).isDead = false
  descends : ∀ id ∈ (collect g).perNode.map (·.node),
    ∀ input ∈ operandNodes (collect g).perNode g id, rank input < rank id

theorem FlatGraph.live {rank : NodeId → Nat} (flat : FlatGraph g rank) {id : NodeId}
    (member : id ∈ (collect g).perNode.map (·.node)) : (g.node id).isDead = false := by
  rw [(collect_recipes flat.plain).nodes] at member
  have collected := (List.mem_filter.mp member).2
  cases dead : (g.node id).isDead with
  | false => rfl
  | true => simp [recipe, dead] at collected

/-- The selected function consists of the collected instructions, each behind those of
its operands, without the dead ones. -/
theorem FlatGraph.lower_eq {rank : NodeId → Nat} (flat : FlatGraph g rank) {fuel : Nat}
    (enough : scheduleFuel g (collect g).perNode ≤ fuel) (name : String) :
    ∃ out, Postorder.Ordered (operandNodes (collect g).perNode g) out ∧ out.Nodup ∧
      (∀ id, id ∈ out ↔ id ∈ (collect g).perNode.map (·.node)) ∧
      lower fuel g name =
        .ok { name, instrs := sweepDead (out.filterMap (instrOf (collect g).perNode)) } := by
  let perNode := (collect g).perNode
  have noSelect : ∀ id ∈ perNode.map (·.node), isSelectPhi g id = false :=
    fun id member => (flat.plain id (flat.live member)).noSelect
  have plain : FlatPlain perNode g (selectGlobalOwner g perNode) := by
    refine ⟨?_, noSelect, fun id member input operand => ?_⟩
    · exact selectGlobalOwner_none fun ni member => noSelect _ (List.mem_map_of_mem member)
    · exact (flat.plain input (flat.reads id (flat.live member) input operand)).noResult
  have inv : WalkInv g perNode rank (walkState [] (fun _ => .new) []) := by
    refine ⟨Postorder.Ordered.nil, List.nodup_nil, fun id => ?_, fun above id below split => ?_,
      fun entry stacked => ?_, fun id member => ?_⟩
    · simp [walkState]
    · exact absurd split (by simp [walkState])
    · cases stacked
    · cases member
  have emitted : Emitted perNode (fun _ => Visit.new) []
      ({ table := (collect g).table } : EmitState g) := by
    refine ⟨fun id => ?_, rfl⟩
    simp
  obtain ⟨visits, out, s, ran, inv', emitted', all⟩ := flatSchedule_finishes plain flat.descends
    enough perNode (fun _ member => member) _ _ _ inv emitted
  have finished : ∀ id, id ∈ perNode.map (·.node) → id ∈ out := by
    intro id member
    obtain ⟨ni, known, rfl⟩ := List.mem_map.mp member
    exact all ni.node (Or.inr ⟨false, List.mem_map_of_mem known⟩)
  refine ⟨out, inv'.ordered, inv'.nodup, fun id => ⟨inv'.finished id, finished id⟩, ?_⟩
  have scheduled : unscheduled perNode visits = none := by
    rw [unscheduled, Option.map_eq_none_iff, List.find?_eq_none]
    intro ni member
    have done := (emitted'.done ni.node).mpr (finished _ (List.mem_map_of_mem member))
    simp [done]
  have whole : flatSchedule (collect g).perNode (selectGlobalOwner g (collect g).perNode) fuel
      (collect g).perNode (fun _ => .new) { table := (collect g).table } = some (visits, s) := ran
  simp only [lower, flat.noLoop, ne_eq, not_true_eq_false, if_false, whole, scheduled,
    emitted'.instrs, perNode]

end Whole

end InstrSel

end Aegis
