import AegisCompiler.InstrSelInduction

/-!
# The index of a parameter

The selector numbers the parameters it meets: the immediate of a `param`
instruction is the number of live parameter nodes with a smaller id.
-/

namespace Aegis

namespace InstrSel

variable {g : Graph}

/-- The node is a live parameter. -/
def liveParam (g : Graph) (id : NodeId) : Bool :=
  !(g.node id).isDead && decide ((g.node id).kind = .parameter)

/-- The number of live parameters with smaller ids. -/
def paramsBelow (g : Graph) (bound : Nat) : Nat :=
  (List.range bound).countP (liveParam g)

theorem paramsBelow_succ (bound : Nat) :
    paramsBelow g (bound + 1) =
      paramsBelow g bound + if liveParam g bound then 1 else 0 := by
  rw [paramsBelow, List.range_succ, List.countP_append, List.countP_singleton,
    paramsBelow]

/-- The `param` instruction of a live parameter. -/
def paramInstr (g : Graph) (id : NodeId) (v : VRegId) : MachineInstr :=
  { op := .param, result := some v, imm := some (paramsBelow g id) }

/-- Later tables keep the registers of all nodes that are no call results. -/
def VRegTable.Keeps (early late : VRegTable g) : Prop :=
  ∀ id v, isCallValueProj g id = false → early.vregOf id = some v →
    late.vregOf id = some v

theorem VRegTable.Keeps.refl (table : VRegTable g) : table.Keeps table :=
  fun _ _ _ known => known

theorem VRegTable.Keeps.trans {first second third : VRegTable g}
    (left : first.Keeps second) (right : second.Keeps third) :
    first.Keeps third :=
  fun id v other known => right id v other (left id v other known)

theorem VRegTable.Extends.keeps {early late : VRegTable g}
    (extended : early.Extends late) : early.Keeps late :=
  fun id v _ known => extended id v known

theorem VRegTable.shareWith_keeps (table : VRegTable g) {id base : NodeId}
    (shares : registerSource g id = registerSource g base)
    (isProj : isCallValueProj g id = true) :
    table.Keeps (table.shareWith id base shares) := by
  intro other v notProj known
  have differs : other ≠ id := by
    rintro rfl
    rw [isProj] at notProj
    cases notProj
  exact (Function.update_of_ne differs ..).trans known

/-- A collecting step at a node that is no live parameter. -/
structure OtherStep (id : NodeId) (c d : Collected g) : Prop where
  paramCount : d.paramCount = c.paramCount
  regs : c.table.Keeps d.table
  perNode : d.perNode = c.perNode ∨
    ∃ mi : MachineInstr, mi.op ≠ .param ∧
      d.perNode = c.perNode ++ [⟨id, mi⟩]

theorem OtherStep.refl (id : NodeId) (c : Collected g) : OtherStep id c c :=
  ⟨rfl, VRegTable.Keeps.refl _, Or.inl rfl⟩

theorem OtherStep.pushValue (c : Collected g) (id : NodeId) {op : MachineOp}
    (other : op ≠ .param) (operands : List NodeRef) (imm : Option Int) :
    OtherStep id c (c.pushValue id op operands imm) where
  paramCount := rfl
  regs := ((c.table.getOrAssign_spec id).1.trans
    (VRegTable.getOrAssignAll_extends operands _)).keeps
  perNode := Or.inr ⟨_, other, rfl⟩

theorem OtherStep.pushEffect (c : Collected g) (id : NodeId) {op : MachineOp}
    (other : op ≠ .param) (operands : List NodeRef) :
    OtherStep id c (c.pushEffect id op operands) where
  paramCount := rfl
  regs := (VRegTable.getOrAssignAll_extends operands _).keeps
  perNode := Or.inr ⟨_, other, rfl⟩

theorem opFor_ne_param (kind : NodeKind) : opFor kind ≠ some .param := by
  cases kind <;> simp [opFor]

theorem unaryOpFor_ne_param (kind : NodeKind) :
    unaryOpFor kind ≠ some .param := by
  cases kind <;> simp [unaryOpFor]

theorem OtherStep.pushMapped (c : Collected g) (id : NodeId)
    {op : Option MachineOp} (other : op ≠ some .param)
    (operands : List NodeRef) (imm : Option Int) :
    OtherStep id c (c.pushMapped id op operands imm) := by
  cases op with
  | none => exact OtherStep.refl id c
  | some op =>
      exact OtherStep.pushValue c id (fun same => other (same ▸ rfl)) _ _

/-- A live parameter gets the next index. -/
theorem collectNode_param (c : Collected g) {id : NodeId}
    (live : liveParam g id = true) :
    collectNode g c id =
      { c.pushValue id .param [] (some c.paramCount) with
        paramCount := c.paramCount + 1 } := by
  simp only [liveParam, Bool.and_eq_true, Bool.not_eq_true',
    decide_eq_true_eq] at live
  simp only [collectNode, live.1, live.2, Bool.false_eq_true, if_false]

/-- Any other node leaves the numbering alone. -/
theorem collectNode_other (c : Collected g) {id : NodeId}
    (other : liveParam g id = false) : OtherStep id c (collectNode g c id) := by
  have pushed {op : MachineOp} (notParam : op ≠ .param)
      (operands : List NodeRef) (imm : Option Int) :=
    OtherStep.pushValue c id notParam operands imm
  have read {op : MachineOp} (notParam : op ≠ .param)
      (operands : List NodeRef) :=
    OtherStep.pushEffect c id notParam operands
  have unary (operands : List NodeRef) (imm : Option Int) :=
    OtherStep.pushMapped c id (unaryOpFor_ne_param (g.node id).kind) operands
      imm
  have binary (operands : List NodeRef) (imm : Option Int) :=
    OtherStep.pushMapped c id (opFor_ne_param (g.node id).kind) operands imm
  have call : OtherStep id c
      (if kMaxUsesPerInstr < (g.node id).dataIns.length then c
        else c.pushValue id .call (g.node id).dataIns
          (some (g.node id).payload.sym.toNat)) := by
    split
    · exact OtherStep.refl id c
    · exact pushed (by decide) _ _
  simp only [collectNode]
  split
  case isTrue => exact OtherStep.refl id c
  case isFalse alive =>
    split
    case h_1 => exact pushed (by decide) _ _
    case h_24 => exact pushed (by decide) _ _
    case h_25 => exact read (by decide) _
    case h_29 =>
      split
      case isFalse => exact OtherStep.refl id c
      case isTrue isProj =>
        split
        case h_1 => exact OtherStep.refl id c
        case h_2 base found =>
          exact ⟨rfl, VRegTable.shareWith_keeps _
            (isCallValueProj_base found isProj) isProj, Or.inl rfl⟩
    case h_30 =>
      split
      · exact OtherStep.refl id c
      · exact pushed (by decide) _ _
    case h_31 isParam =>
      simp [liveParam, alive, isParam] at other
    case h_32 =>
      split
      · exact read (by decide) _
      · exact read (by decide) _
    case h_33 => exact OtherStep.refl id c
    case h_2 | h_3 | h_4 => exact unary _ _
    case h_26 | h_27 | h_28 => exact call
    all_goals
      split
      · exact binary _ _
      · exact binary _ _

theorem instrOf_append_of_some {earlier later : List NodeInstr} {id : NodeId}
    {mi : MachineInstr} (found : instrOf earlier id = some mi) :
    instrOf (earlier ++ later) id = some mi := by
  simp only [instrOf, Option.map_eq_some_iff, List.find?_append] at found ⊢
  obtain ⟨ni, first, rfl⟩ := found
  exact ⟨ni, by simp [first], rfl⟩

theorem instrOf_append_new {earlier : List NodeInstr} {id : NodeId}
    (unused : ∀ ni ∈ earlier, ni.node ≠ id) (mi : MachineInstr) :
    instrOf (earlier ++ [⟨id, mi⟩]) id = some mi := by
  have missing : earlier.find? (fun ni => decide (ni.node = id)) = none := by
    rw [List.find?_eq_none]
    intro ni member
    simpa using unused ni member
  simp [instrOf, List.find?_append, missing]

/-- After the nodes below `bound`, the live parameters among them are numbered
in id order, and nothing else is a `param`. -/
structure ParamsCollected (bound : Nat) (c : Collected g) : Prop where
  count : c.paramCount = paramsBelow g bound
  below : ∀ ni ∈ c.perNode, ni.node < bound
  found : ∀ id : Nat, id < bound → liveParam g id = true →
    ∃ v, c.table.vregOf id = some v ∧
      instrOf c.perNode id = some (paramInstr g id v)
  only : ∀ ni ∈ c.perNode, ni.mi.op = .param →
    liveParam g ni.node = true ∧ instrOf c.perNode ni.node = some ni.mi

theorem liveParam_not_callProj {id : NodeId} (live : liveParam g id = true) :
    isCallValueProj g id = false := by
  simp only [liveParam, Bool.and_eq_true, decide_eq_true_eq] at live
  simp [isCallValueProj, live.2]

theorem ParamsCollected.step {bound : Nat} {c : Collected g}
    (collected : ParamsCollected bound c) :
    ParamsCollected (bound + 1) (collectNode g c bound) := by
  have unused : ∀ ni ∈ c.perNode, ni.node ≠ bound :=
    fun ni member => Nat.ne_of_lt (collected.below ni member)
  by_cases live : liveParam g bound = true
  · rw [collectNode_param c live]
    have assigned := c.table.getOrAssign_spec bound
    refine ⟨?_, ?_, ?_, ?_⟩
    · rw [paramsBelow_succ, if_pos live, collected.count]
    · intro ni member
      rcases List.mem_append.mp member with earlier | last
      · exact Nat.lt_succ_of_lt (collected.below ni earlier)
      · rw [List.mem_singleton.mp last]
        exact Nat.lt_succ_self bound
    · intro id inside isParam
      by_cases same : id = bound
      · subst same
        refine ⟨_, assigned.2, ?_⟩
        rw [paramInstr, ← collected.count]
        exact instrOf_append_new unused _
      · obtain ⟨v, known, found⟩ :=
          collected.found id (by omega) isParam
        exact ⟨v, assigned.1 id v known, instrOf_append_of_some found⟩
    · intro ni member isParam
      rcases List.mem_append.mp member with earlier | last
      · obtain ⟨alive, found⟩ := collected.only ni earlier isParam
        exact ⟨alive, instrOf_append_of_some found⟩
      · rw [List.mem_singleton.mp last]
        exact ⟨live, instrOf_append_new unused _⟩
  · rw [Bool.not_eq_true] at live
    obtain ⟨paramCount, regs, perNode⟩ := collectNode_other c live
    have keep (id : NodeId) (inside : id < bound + 1)
        (isParam : liveParam g id = true) : id < bound := by
      refine Nat.lt_of_le_of_ne (Nat.le_of_lt_succ inside) ?_
      rintro rfl
      rw [live] at isParam
      cases isParam
    have kept (id : NodeId) (mi : MachineInstr)
        (found : instrOf c.perNode id = some mi) :
        instrOf (collectNode g c bound).perNode id = some mi := by
      rcases perNode with same | ⟨_, _, appended⟩
      · rwa [same]
      · rw [appended]
        exact instrOf_append_of_some found
    refine ⟨?_, ?_, ?_, ?_⟩
    · rw [paramCount, collected.count, paramsBelow_succ, live]
      rfl
    · intro ni member
      rcases perNode with same | ⟨mi, _, appended⟩
      · rw [same] at member
        exact Nat.lt_succ_of_lt (collected.below ni member)
      · rw [appended] at member
        rcases List.mem_append.mp member with earlier | last
        · exact Nat.lt_succ_of_lt (collected.below ni earlier)
        · rw [List.mem_singleton.mp last]
          exact Nat.lt_succ_self bound
    · intro id inside isParam
      obtain ⟨v, known, found⟩ :=
        collected.found id (keep id inside isParam) isParam
      exact ⟨v, regs id v (liveParam_not_callProj isParam) known,
        kept id _ found⟩
    · intro ni member isParam
      have earlier : ni ∈ c.perNode := by
        rcases perNode with same | ⟨mi, notParam, appended⟩
        · rwa [same] at member
        · rw [appended] at member
          rcases List.mem_append.mp member with earlier | last
          · exact earlier
          · rw [List.mem_singleton.mp last] at isParam
            exact absurd isParam notParam
      obtain ⟨alive, found⟩ := collected.only ni earlier isParam
      exact ⟨alive, kept _ _ found⟩

/-- The numbering of the whole graph. -/
theorem collect_params (g : Graph) : ParamsCollected g.size (collect g) := by
  have upTo (bound : Nat) : ParamsCollected bound
      ((List.range bound).foldl (collectNode g) { table := .empty g }) := by
    induction bound with
    | zero =>
        constructor
        case count => rfl
        case below => exact fun ni listed => absurd listed List.not_mem_nil
        case found => exact fun id below => absurd below (Nat.not_lt_zero id)
        case only => exact fun ni listed => absurd listed List.not_mem_nil
    | succ bound ih =>
        rw [List.range_succ, List.foldl_append]
        exact ih.step
  exact upTo g.size

/-- A `param` in a selected function is the instruction of a live parameter
node. -/
theorem lower_param {fuel : Nat} {name : String} {mf : MachineFunction}
    (selected : lower fuel g name = .ok mf) {mi : MachineInstr}
    (member : mi ∈ mf.instrs) (isParam : mi.op = .param) :
    ∃ id v, id < g.size ∧ liveParam g id = true ∧
      (collect g).table.vregOf id = some v ∧ mi = paramInstr g id v := by
  have collected := collect_params g
  rcases lower_emittable selected mi member with ⟨ni, known, rfl⟩ | frames
  · obtain ⟨live, own⟩ := collected.only ni known isParam
    have inside := collected.below ni known
    obtain ⟨v, register, found⟩ := collected.found ni.node inside live
    rw [own, Option.some.injEq] at found
    exact ⟨ni.node, v, inside, live, register, found⟩
  · rw [isParam] at frames
    simp at frames

end InstrSel

end Aegis
