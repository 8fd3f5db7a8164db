import AegisCompiler.InstrSelParams

/-!
# What is collected for straight-line code

Without calls, memory and merges, the collecting walk makes one instruction of a node.
The recipe of a node says which; the table adds the registers.
-/

namespace Aegis

namespace InstrSel

/-- The opcode, the operand slots and the immediate that a node is selected to. -/
structure Recipe where
  op : MachineOp
  operands : List NodeRef := []
  imm : Option Int := none

/-- What the selector makes of a node of straight-line code. -/
def recipe (g : Graph) (id : NodeId) : Option Recipe :=
  let n := g.node id
  if n.isDead then none
  else
    match n.kind with
    | .constant => some { op := .movImm, imm := some n.payload.toInt }
    | .parameter => some { op := .param, imm := some (paramsBelow g id) }
    | .returnNode =>
        some { op := .ret
               operands :=
                if kReturnInputs ≤ n.inputs.length then [n.inputs.getD kReturnValIndex none]
                else [] }
    | kind =>
        match unaryOpFor kind with
        | some op => some { op, operands := n.dataIns.take 1 }
        | none =>
            (opFor kind).map fun op =>
              match shiftAmount g n with
              | some amount => { op, operands := n.dataIns.take 1, imm := some amount }
              | none => { op, operands := n.dataIns.take 2 }

/-- The node neither calls nor touches memory nor merges. -/
structure IsPlain (g : Graph) (id : NodeId) : Prop where
  kind : (g.node id).kind.isCall = false ∧ (g.node id).kind ≠ .load ∧ (g.node id).kind ≠ .store
  noResult : isCallValueProj g id = false
  noSelect : isSelectPhi g id = false

section Tables

variable {g : Graph}

theorem VRegTable.getOrAssignAll_spec (refs : List NodeRef) (table : VRegTable g) :
    (table.getOrAssignAll refs).1 =
        refs.map (fun ref => ref.bind (table.getOrAssignAll refs).2.vregOf) ∧
      ∀ id, some id ∈ refs → ((table.getOrAssignAll refs).2.vregOf id).isSome = true := by
  induction refs generalizing table with
  | nil => exact ⟨rfl, fun id member => absurd member List.not_mem_nil⟩
  | cons ref refs ih =>
      rw [getOrAssignAll]
      obtain ⟨later, known⟩ := ih (table.getOrAssignRef ref).2
      cases ref with
      | none =>
          refine ⟨congrArg (none :: ·) later, fun id member => ?_⟩
          rcases List.mem_cons.mp member with same | member
          · cases same
          · exact known id member
      | some first =>
          have assigned := (table.getOrAssign_spec first).2
          have kept := getOrAssignAll_extends refs (table.getOrAssign first).2 first _ assigned
          constructor
          · simp only [List.map_cons, Option.bind_some]
            rw [List.cons.injEq]
            exact ⟨kept.symm, later⟩
          · intro id member
            rcases List.mem_cons.mp member with same | member
            · cases same
              change ((getOrAssignAll (table.getOrAssign first).2 refs).2.vregOf first).isSome = true
              rw [kept]
              rfl
            · exact known id member

/-- The instruction follows the recipe, with the registers of the table. -/
structure Fits (table : VRegTable g) (id : NodeId) (r : Recipe) (mi : MachineInstr) :
    Prop where
  instr : mi =
    { op := r.op, result := if r.op = .ret then none else table.vregOf id
      uses := r.operands.map fun ref => ref.bind table.vregOf, imm := r.imm }
  result : (table.vregOf id).isSome = true ∨ r.op = .ret
  operands : ∀ operand, some operand ∈ r.operands → (table.vregOf operand).isSome = true

theorem VRegTable.Extends.eq_of_isSome {early late : VRegTable g} (extended : early.Extends late)
    {id : NodeId} (known : (early.vregOf id).isSome = true) :
    late.vregOf id = early.vregOf id := by
  obtain ⟨v, same⟩ := Option.isSome_iff_exists.mp known
  rw [same, extended id v same]

theorem Fits.later {early late : VRegTable g} {id : NodeId} {r : Recipe} {mi : MachineInstr}
    (fits : Fits early id r mi) (extended : early.Extends late) : Fits late id r mi where
  instr := by
    have result : (if r.op = .ret then none else late.vregOf id) =
        if r.op = .ret then none else early.vregOf id := by
      by_cases isRet : r.op = .ret
      · rw [if_pos isRet, if_pos isRet]
      · rw [if_neg isRet, if_neg isRet, extended.eq_of_isSome (fits.result.resolve_right isRet)]
    have uses : r.operands.map (fun ref => ref.bind late.vregOf) =
        r.operands.map fun ref => ref.bind early.vregOf := by
      apply List.map_congr_left
      intro ref member
      cases ref with
      | none => rfl
      | some operand => exact extended.eq_of_isSome (fits.operands operand member)
    rw [result, uses]
    exact fits.instr
  result := fits.result.imp_left fun known => by rwa [extended.eq_of_isSome known]
  operands operand member := by
    have known := fits.operands operand member
    rwa [extended.eq_of_isSome known]

/-- The step collects what the recipe says. -/
structure Collects (c : Collected g) (id : NodeId) (r : Recipe) (d : Collected g) : Prop where
  extended : c.table.Extends d.table
  pushed : ∃ mi, d.perNode = c.perNode ++ [⟨id, mi⟩] ∧ Fits d.table id r mi

theorem Collects.value (c : Collected g) (id : NodeId) {r : Recipe} (value : r.op ≠ .ret) :
    Collects c id r (c.pushValue id r.op r.operands r.imm) := by
  have result := c.table.getOrAssign_spec id
  have later := VRegTable.getOrAssignAll_extends r.operands (c.table.getOrAssign id).2
  obtain ⟨uses, known⟩ := VRegTable.getOrAssignAll_spec r.operands (c.table.getOrAssign id).2
  have kept := later id _ result.2
  refine ⟨result.1.trans later, _, rfl, ?_, Or.inl ?_, known⟩
  · rw [if_neg value]
    rw [Collected.pushValue, Collected.push, kept, uses]
  · rw [Collected.pushValue, Collected.push, kept]
    rfl

theorem Collects.effect (c : Collected g) (id : NodeId) {r : Recipe} (isRet : r.op = .ret)
    (noImm : r.imm = none) : Collects c id r (c.pushEffect id .ret r.operands) := by
  obtain ⟨uses, known⟩ := VRegTable.getOrAssignAll_spec r.operands c.table
  refine ⟨VRegTable.getOrAssignAll_extends r.operands c.table, _, rfl, ?_, Or.inr isRet, known⟩
  rw [if_pos isRet, isRet, noImm]
  rw [Collected.pushEffect, Collected.push]
  exact congrArg (fun uses => ({ op := .ret, uses } : MachineInstr)) uses

/-- Collect what a recipe says. -/
def Recipe.collect (r : Recipe) (c : Collected g) (id : NodeId) : Collected g :=
  if r.op = .ret then c.pushEffect id .ret r.operands
  else c.pushValue id r.op r.operands r.imm

theorem opFor_ne_ret (kind : NodeKind) : opFor kind ≠ some .ret := by
  cases kind <;> simp [opFor]

theorem unaryOpFor_ne_ret (kind : NodeKind) : unaryOpFor kind ≠ some .ret := by
  cases kind <;> simp [unaryOpFor]

/-- One step makes the instruction of the recipe. -/
theorem collectNode_recipe {id : NodeId} (plain : IsPlain g id) {c : Collected g}
    (count : c.paramCount = paramsBelow g id) :
    (collectNode g c id).table = ((recipe g id).elim c fun r => r.collect c id).table ∧
      (collectNode g c id).perNode =
        ((recipe g id).elim c fun r => r.collect c id).perNode := by
  have noCond : selectCond g id = none := by simp [selectCond, plain.noSelect]
  obtain ⟨noCall, noLoad, noStore⟩ := plain.kind
  cases dead : (g.node id).isDead with
  | true => simp [collectNode, recipe, dead]
  | false =>
      cases kind : (g.node id).kind
      case callPure | callAltered | callCrowded => simp [kind, NodeKind.isCall] at noCall
      case load => exact absurd kind noLoad
      case store => exact absurd kind noStore
      case constant | neg | not | bitNot =>
        simp [collectNode, recipe, dead, kind, Recipe.collect, unaryOpFor, Collected.pushMapped]
      case parameter => simp [collectNode, recipe, dead, kind, Recipe.collect, count]
      case returnNode =>
        by_cases shape : kReturnInputs ≤ (g.node id).inputs.length <;>
          simp [collectNode, recipe, dead, kind, Recipe.collect, shape]
      case proj => simp [collectNode, recipe, dead, kind, plain.noResult, unaryOpFor, opFor]
      case phi => simp [collectNode, recipe, dead, kind, noCond, unaryOpFor, opFor]
      case add | sub | mul | div | udiv | mod | umod | and | or | xor | shl | shr | lshr
          | cmpEq | cmpNe | cmpLt | cmpLe | cmpGt | cmpGe =>
        cases amount : shiftAmount g (g.node id) <;>
          simp [collectNode, recipe, dead, kind, Recipe.collect, unaryOpFor, opFor,
            Collected.pushMapped, amount]
      all_goals simp [collectNode, recipe, dead, kind, unaryOpFor, opFor]

/-- The recipes: of a constant, a parameter, a return, and of unary and binary nodes. -/
inductive RecipeCases (g : Graph) (id : NodeId) : Recipe → Prop where
  | constant (kind : (g.node id).kind = .constant) :
      RecipeCases g id { op := .movImm, imm := some (g.node id).payload.toInt }
  | parameter (kind : (g.node id).kind = .parameter) :
      RecipeCases g id { op := .param, imm := some (paramsBelow g id) }
  | returns {operands} (kind : (g.node id).kind = .returnNode)
      (slots : operands = if kReturnInputs ≤ (g.node id).inputs.length then
        [(g.node id).inputs.getD kReturnValIndex none] else []) :
      RecipeCases g id { op := .ret, operands }
  | unary {op} (mapped : unaryOpFor (g.node id).kind = some op) :
      RecipeCases g id { op, operands := (g.node id).dataIns.take 1 }
  | immediate {op amount} (mapped : opFor (g.node id).kind = some op)
      (shift : shiftAmount g (g.node id) = some amount) :
      RecipeCases g id { op, operands := (g.node id).dataIns.take 1, imm := some amount }
  | binary {op} (mapped : opFor (g.node id).kind = some op)
      (noShift : shiftAmount g (g.node id) = none) :
      RecipeCases g id { op, operands := (g.node id).dataIns.take 2 }

theorem recipe_cases {id : NodeId} {r : Recipe} (found : recipe g id = some r) :
    (g.node id).isDead = false ∧ RecipeCases g id r := by
  unfold recipe at found
  simp only at found
  split at found
  case isTrue => cases found
  case isFalse alive =>
    refine ⟨by simpa using alive, ?_⟩
    split at found
    case h_1 kind => cases found; exact .constant kind
    case h_2 kind => cases found; exact .parameter kind
    case h_3 kind => cases found; exact .returns kind rfl
    case h_4 =>
      split at found
      case h_1 op mapped => cases found; exact .unary mapped
      case h_2 =>
        obtain ⟨op, mapped, rfl⟩ := Option.map_eq_some_iff.mp found
        split
        case h_1 amount shift => exact .immediate mapped shift
        case h_2 noShift => exact .binary mapped noShift

theorem RecipeCases.ret {id : NodeId} {r : Recipe} (shape : RecipeCases g id r)
    (isRet : r.op = .ret) : (g.node id).kind = .returnNode ∧ r.imm = none := by
  cases shape with
  | constant => cases isRet
  | parameter => cases isRet
  | returns kind => exact ⟨kind, rfl⟩
  | unary mapped =>
      dsimp only at isRet
      rw [isRet] at mapped
      exact absurd mapped (unaryOpFor_ne_ret _)
  | immediate mapped =>
      dsimp only at isRet
      rw [isRet] at mapped
      exact absurd mapped (opFor_ne_ret _)
  | binary mapped =>
      dsimp only at isRet
      rw [isRet] at mapped
      exact absurd mapped (opFor_ne_ret _)

theorem Collects.collect (c : Collected g) {id : NodeId} {r : Recipe}
    (found : recipe g id = some r) : Collects c id r (r.collect c id) := by
  rw [Recipe.collect]
  split
  case isTrue isRet => exact .effect c id isRet ((recipe_cases found).2.ret isRet).2
  case isFalse value => exact .value c id value

/-- After the nodes below `bound`, exactly those with a recipe are collected, in id
order. -/
structure RecipesCollected (bound : Nat) (c : Collected g) : Prop where
  params : ParamsCollected bound c
  nodes : c.perNode.map (·.node) = (List.range bound).filter fun id => (recipe g id).isSome
  fits : ∀ ni ∈ c.perNode, ∃ r, recipe g ni.node = some r ∧ Fits c.table ni.node r ni.mi

theorem collectNode_dead {id : NodeId} (dead : (g.node id).isDead = true) (c : Collected g) :
    collectNode g c id = c := by
  simp [collectNode, dead]

theorem RecipesCollected.step {bound : Nat} {c : Collected g}
    (collected : RecipesCollected bound c)
    (plain : (g.node bound).isDead = false → IsPlain g bound) :
    RecipesCollected (bound + 1) (collectNode g c bound) := by
  have nodes := collected.nodes
  have same : (collectNode g c bound).table =
      ((recipe g bound).elim c fun r => r.collect c bound).table ∧
      (collectNode g c bound).perNode =
        ((recipe g bound).elim c fun r => r.collect c bound).perNode := by
    cases dead : (g.node bound).isDead with
    | true => simp [collectNode_dead dead, recipe, dead]
    | false => exact collectNode_recipe (plain dead) collected.params.count
  obtain ⟨table, perNode⟩ := same
  cases found : recipe g bound with
  | none =>
      rw [found, Option.elim_none] at table perNode
      refine ⟨collected.params.step, ?_, ?_⟩
      · rw [perNode, nodes, List.range_succ, List.filter_append]
        simp [found]
      · rw [perNode, table]
        exact collected.fits
  | some r =>
      rw [found, Option.elim_some] at table perNode
      obtain ⟨extended, mi, pushed, fits⟩ := Collects.collect c found
      refine ⟨collected.params.step, ?_, fun ni member => ?_⟩
      · rw [perNode, pushed, List.map_append, nodes, List.range_succ, List.filter_append]
        simp [found]
      · rw [perNode, pushed] at member
        rw [table]
        rcases List.mem_append.mp member with earlier | last
        · obtain ⟨old, known, before⟩ := collected.fits ni earlier
          exact ⟨old, known, before.later extended⟩
        · rw [List.mem_singleton.mp last]
          exact ⟨r, found, fits⟩

/-- The collected instructions of straight-line code. -/
theorem collect_recipes (plain : ∀ id, (g.node id).isDead = false → IsPlain g id) :
    RecipesCollected g.size (collect g) := by
  have upTo (bound : Nat) : RecipesCollected bound
      ((List.range bound).foldl (collectNode g) { table := .empty g }) := by
    induction bound with
    | zero =>
        refine ⟨⟨rfl, ?_, ?_, ?_⟩, rfl, ?_⟩
        · intro ni member
          cases member
        · intro id below
          exact absurd below (Nat.not_lt_zero id)
        · intro ni member
          cases member
        · intro ni member
          cases member
    | succ bound ih =>
        rw [List.range_succ, List.foldl_append]
        exact ih.step (plain bound)
  exact upTo g.size

end Tables

section Found

variable {g : Graph} {c : Collected g} (collected : RecipesCollected g.size c)

include collected in
theorem RecipesCollected.instrOf_eq {id : NodeId} {mi : MachineInstr}
    (found : instrOf c.perNode id = some mi) :
    id < g.size ∧ ∃ r, recipe g id = some r ∧ Fits c.table id r mi := by
  obtain ⟨ni, member, rfl, rfl⟩ := mem_of_instrOf found
  exact ⟨collected.params.below ni member, collected.fits ni member⟩

include collected in
theorem RecipesCollected.instrOf_isSome {id : NodeId} :
    (instrOf c.perNode id).isSome = true ↔ id < g.size ∧ (recipe g id).isSome = true := by
  constructor
  · intro some
    obtain ⟨mi, found⟩ := Option.isSome_iff_exists.mp some
    obtain ⟨inside, r, known, -⟩ := collected.instrOf_eq found
    exact ⟨inside, by rw [known]; rfl⟩
  · rintro ⟨inside, known⟩
    have among : id ∈ c.perNode.map (·.node) := by
      rw [collected.nodes]
      exact List.mem_filter.mpr ⟨List.mem_range.mpr inside, known⟩
    obtain ⟨ni, member, rfl⟩ := List.mem_map.mp among
    rw [instrOf, Option.isSome_map, List.find?_isSome]
    exact ⟨ni, member, by simp⟩

end Found

end InstrSel

end Aegis
