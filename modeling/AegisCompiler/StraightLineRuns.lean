import AegisCompiler.StraightLineCode

/-!
# Running the selected code

The instructions of a straight-line graph are run in the order in which they are emitted.
Every register holds the value of its node from the instruction of that node on, and the
return reads the register of the returned node.
-/

namespace Aegis

namespace InstrSel

open CallWalk (HasValue)

theorem Fits.result_eq {g : Graph} {table : VRegTable g} {id : NodeId} {r : Recipe}
    {mi : MachineInstr} (fits : Fits table id r mi) (value : r.op ≠ .ret) :
    mi.result = table.vregOf id := by
  rw [fits.instr, if_neg value]

/-- The registers read are those of the operands. -/
theorem Fits.mem_reads {g : Graph} {table : VRegTable g} {id : NodeId} {r : Recipe}
    {mi : MachineInstr} (fits : Fits table id r mi) {v : VRegId} :
    v ∈ mi.reads ↔ ∃ operand, some operand ∈ r.operands ∧ table.vregOf operand = some v := by
  rw [MachineInstr.reads, fits.instr, List.mem_filterMap]
  constructor
  · rintro ⟨use, slot, rfl⟩
    obtain ⟨ref, read, register⟩ := List.mem_map.mp slot
    obtain ⟨operand, rfl, known⟩ := Option.bind_eq_some_iff.mp register
    exact ⟨operand, read, known⟩
  · rintro ⟨operand, read, register⟩
    exact ⟨some v, List.mem_map.mpr ⟨some operand, read, register⟩, rfl⟩

section Stream

variable {g : Graph} {ret value : NodeId}
variable (straight : StraightLine g ret value) (mapped : ReadsMapped g value)

include straight in
theorem StraightLine.flat : ∃ rank, FlatGraph g rank := by
  obtain ⟨rank, lower⟩ := straight.acyclic
  have plain (id : NodeId) (live : (g.node id).isDead = false) := straight.plain live
  refine ⟨rank, plain, ?_, fun id live input member => (straight.reads live member).2,
    fun id member input operand => ?_⟩
  · rw [liveLoops, List.filter_eq_nil_iff]
    intro id _ live
    simp only [Bool.and_eq_true, Bool.not_eq_true', decide_eq_true_eq] at live
    have kind := straight.straight id live.1
    rw [live.2] at kind
    cases kind
  · rw [(collect_recipes plain).nodes] at member
    obtain ⟨r, found⟩ := Option.isSome_iff_exists.mp (List.mem_filter.mp member).2
    exact lower id (recipe_cases found).1 input ((mem_operandNodes _).mp operand).1

include straight mapped in
/-- What an instruction reads is an input with an instruction. -/
theorem StraightLine.operand {id operand : NodeId} {r : Recipe} (found : recipe g id = some r)
    (read : some operand ∈ r.operands) :
    some operand ∈ (g.node id).inputs ∧ isMapped (g.node operand).kind = true := by
  obtain ⟨live, shape⟩ := recipe_cases found
  have taken {n : Nat} (known : isMapped (g.node id).kind = true)
      (slots : some operand ∈ (g.node id).dataIns.take n) :
      some operand ∈ (g.node id).inputs ∧ isMapped (g.node operand).kind = true := by
    have member := List.mem_of_mem_take slots
    rw [straight.dataIns (isMapped_pure known)] at member
    exact ⟨member, mapped.operands id live known operand member⟩
  cases shape with
  | constant => cases read
  | parameter => cases read
  | returns kind slots =>
      change some operand ∈ _ at read
      rw [slots] at read
      split at read
      case isTrue =>
        have here := (List.mem_singleton.mp read).symm
        refine ⟨mem_of_getD here, ?_⟩
        rw [straight.onlyReturn id live kind, straight.returned] at here
        exact Option.some.inj here ▸ mapped.returned
      case isFalse => cases read
  | unary unary => exact taken (by simp [isMapped, unary]) read
  | immediate binary => exact taken (by simp [isMapped, binary]) read
  | binary binary => exact taken (by simp [isMapped, binary]) read

include straight mapped in
/-- The operands of an instruction are walked before the instruction is emitted. -/
theorem StraightLine.operand_walked {id operand : NodeId} {r : Recipe}
    (found : recipe g id = some r) (read : some operand ∈ r.operands) :
    operand ∈ operandNodes (collect g).perNode g id := by
  obtain ⟨member, known⟩ := straight.operand mapped found read
  obtain ⟨inside, live⟩ := straight.reads (recipe_cases found).1 member
  have collected := collect_recipes fun id live => straight.plain live
  have some := Option.isSome_iff_exists.mpr (recipe_of_mapped live known)
  exact (mem_operandNodes _).mpr ⟨member, inside, collected.instrOf_isSome.mpr ⟨inside, some⟩⟩

/-- The instructions of the nodes, before the sweep. -/
def emittedInstrs (g : Graph) (out : List NodeId) : List MachineInstr :=
  out.filterMap (instrOf (collect g).perNode)

/-- The nodes whose instructions survive the sweep. -/
def keptNodes (g : Graph) (out : List NodeId) : List NodeId :=
  out.filter fun id => (instrOf (collect g).perNode id).any (survives (emittedInstrs g out))

theorem sweepDead_emitted (out : List NodeId) :
    sweepDead (emittedInstrs g out) = emittedInstrs g (keptNodes g out) := by
  have kept (instrs : List MachineInstr) :
      (out.filterMap (instrOf (collect g).perNode)).filter (survives instrs) =
        (out.filter fun id => (instrOf (collect g).perNode id).any (survives instrs)).filterMap
          (instrOf (collect g).perNode) := by
    rw [List.filter_filterMap, List.filterMap_filter]
    congr 1
    funext id
    cases instrOf (collect g).perNode id with
    | none => simp
    | some mi => simp [Option.filter]
  exact kept (emittedInstrs g out)

/-- The nodes in the order in which they are emitted. -/
structure Stream (g : Graph) (out : List NodeId) : Prop where
  ordered : Postorder.Ordered (operandNodes (collect g).perNode g) out
  nodup : out.Nodup
  all : ∀ id, id ∈ out ↔ id ∈ (collect g).perNode.map (·.node)

variable {out : List NodeId} (stream : Stream g out)

include straight stream in
/-- Every node of the stream has its instruction. -/
theorem Stream.instr {id : NodeId} (member : id ∈ out) :
    id < g.size ∧ ∃ mi r, instrOf (collect g).perNode id = some mi ∧ recipe g id = some r ∧
      Fits (collect g).table id r mi := by
  have collected := collect_recipes fun id live => straight.plain live
  obtain ⟨mi, found⟩ := Option.isSome_iff_exists.mp
    ((instrOf_isSome_iff _).mpr ((stream.all id).mp member))
  obtain ⟨inside, r, known, fits⟩ := collected.instrOf_eq found
  exact ⟨inside, mi, r, found, known, fits⟩

include straight mapped stream in
/-- The sweep keeps the operands of what it keeps, in front of it. -/
theorem Stream.kept_reads {before after : List NodeId} {id : NodeId}
    (split : keptNodes g out = before ++ id :: after) {r : Recipe}
    (found : recipe g id = some r) {operand : NodeId} (read : some operand ∈ r.operands) :
    operand ∈ before ∧ operand ≠ ret := by
  obtain ⟨first, rest, whole, rfl, later⟩ := List.filter_eq_append_iff.mp split
  obtain ⟨dropped, last, rfl, none, kept, -⟩ := List.filter_eq_cons_iff.mp later
  have walked := straight.operand_walked mapped found read
  rw [← List.append_assoc] at whole
  have earlier := stream.ordered (first ++ dropped) id last whole operand walked
  have member : id ∈ out := by
    rw [whole]
    exact List.mem_append_right _ List.mem_cons_self
  have earlierMember : operand ∈ out := by
    rw [whole]
    exact List.mem_append_left _ earlier
  obtain ⟨-, mi, r', instr, same, fits⟩ := stream.instr straight member
  rw [found] at same
  cases same
  obtain ⟨-, operandInstr, operandRecipe, known, itsRecipe, itsFits⟩ :=
    stream.instr straight earlierMember
  have isMapped := (straight.operand mapped found read).2
  have notReturn : (g.node operand).kind ≠ .returnNode := by
    intro kind
    rw [kind] at isMapped
    cases isMapped
  have value : operandRecipe.op ≠ .ret := fun isRet =>
    notReturn ((recipe_cases itsRecipe).2.ret isRet).1
  obtain ⟨v, register⟩ := Option.isSome_iff_exists.mp (itsFits.result.resolve_right value)
  have isResult : operandInstr.result = some v := (itsFits.result_eq value).trans register
  have reads : v ∈ mi.reads := fits.mem_reads.mpr ⟨operand, read, register⟩
  have survives : survives (emittedInstrs g out) operandInstr = true := by
    have read : isRead (emittedInstrs g out) v = true := by
      rw [isRead, List.any_eq_true]
      exact ⟨mi, List.mem_filterMap.mpr ⟨id, member, instr⟩, List.contains_iff_mem.mpr reads⟩
    simp [InstrSel.survives, isResult, read]
  have keeps : (instrOf (collect g).perNode operand).any
      (InstrSel.survives (emittedInstrs g out)) = true := by
    rw [known]
    exact survives
  constructor
  · rcases List.mem_append.mp earlier with here | dropped
    · exact List.mem_filter.mpr ⟨here, keeps⟩
    · exact absurd keeps (none operand dropped)
  · rintro rfl
    exact notReturn straight.isReturn.2

variable {args : List Word} (noTrap : NoTrap g args) (inOrder : ParamsInOrder g)

include straight in
theorem StraightLine.registerSource {id : NodeId} (live : (g.node id).isDead = false) :
    registerSource g id = id := by
  rw [InstrSel.registerSource, (straight.plain live).noResult]
  rfl

include straight stream in
theorem Stream.live {before after : List NodeId} (split : keptNodes g out = before ++ after)
    {id : NodeId} (member : id ∈ before) : (g.node id).isDead = false := by
  have kept : id ∈ keptNodes g out := split ▸ List.mem_append_left after member
  obtain ⟨-, _, _, -, found, -⟩ := stream.instr straight (List.mem_filter.mp kept).1
  exact (recipe_cases found).1

include straight in
/-- The return reads the returned node. -/
theorem StraightLine.ret_recipe : recipe g ret = some { op := .ret, operands := [some value] } := by
  have long : kReturnInputs ≤ (g.node ret).inputs.length := by
    have found := straight.returned
    rw [List.getD_eq_getElem?_getD] at found
    by_contra short
    rw [List.getElem?_eq_none (by simp only [kReturnInputs, kReturnValIndex] at short ⊢; omega)]
      at found
    cases found
  rw [recipe]
  simp only [straight.isReturn.1, straight.isReturn.2, if_pos long, straight.returned]
  rfl

theorem stepInstr_ret {env : MachineEnv} {instrs : List MachineInstr} {s : MachineState}
    {mi : MachineInstr} {reg : VRegId} (isRet : mi.op = .ret) (uses : mi.uses = [some reg]) :
    stepInstr env instrs s mi = .returned (s.regs reg) s.calls := by
  simp [stepInstr, isRet, MachineInstr.operands, uses]

theorem step_at {env : MachineEnv} {before after : List MachineInstr} {mi : MachineInstr}
    {s : MachineState} (here : s.pc = before.length) :
    step env (before ++ mi :: after) s = stepInstr env (before ++ mi :: after) s mi := by
  simp [step, here]

include straight mapped stream noTrap inOrder in
/-- From any position in front of the return, the code returns the value. -/
theorem Stream.runs {callResult : List CallEvent → Word} {before after : List NodeId}
    (split : keptNodes g out = before ++ after) (later : ret ∈ after) {regs : Regs}
    (each : ∀ id ∈ before, Holds g args (collect g).table regs id) :
    ∃ v, HasValue g args noneHeld value v ∧
      Returns (argEnv args callResult) (emittedInstrs g (keptNodes g out))
        ⟨(emittedInstrs g before).length, regs, []⟩ v [] := by
  induction after generalizing before regs with
  | nil => cases later
  | cons id after ih =>
      have kept : id ∈ keptNodes g out := by
        rw [split]
        exact List.mem_append_right _ List.mem_cons_self
      obtain ⟨inside, mi, r, instr, found, fits⟩ :=
        stream.instr straight (List.mem_filter.mp kept).1
      have operands (operand : NodeId) (read : some operand ∈ r.operands) :
          Holds g args (collect g).table regs operand :=
        each operand (stream.kept_reads straight mapped split found read).1
      have code : emittedInstrs g (keptNodes g out) =
          emittedInstrs g before ++ mi :: emittedInstrs g after := by
        rw [split, emittedInstrs, List.filterMap_append, List.filterMap_cons, instr]
        rfl
      by_cases isRet : r.op = .ret
      · obtain rfl : id = ret :=
          straight.onlyReturn id (recipe_cases found).1 ((recipe_cases found).2.ret isRet).1
        rw [straight.ret_recipe] at found
        cases found
        obtain ⟨reg, register, hasValue⟩ := operands value List.mem_cons_self
        refine ⟨_, hasValue, .done ?_⟩
        rw [code, step_at rfl]
        refine stepInstr_ret (by rw [fits.instr]) ?_
        rw [fits.instr]
        simp [register]
      · obtain ⟨result, w, register, hasValue, next⟩ := straight.step noTrap inOrder found isRet
          fits (s := ⟨(emittedInstrs g before).length, regs, []⟩) operands callResult
          (emittedInstrs g (keptNodes g out))
        have notReturn : id ≠ ret := by
          rintro rfl
          rw [straight.ret_recipe] at found
          cases found
          exact isRet rfl
        have later : ret ∈ after :=
          (List.mem_cons.mp later).resolve_left fun same => notReturn same.symm
        have whole : keptNodes g out = (before ++ [id]) ++ after := by
          rw [split, List.append_assoc]
          rfl
        have distinct : id ∉ before := by
          have nodup := stream.nodup.filter fun id =>
            (instrOf (collect g).perNode id).any (survives (emittedInstrs g out))
          rw [← keptNodes, split] at nodup
          intro earlier
          exact (List.disjoint_of_nodup_append nodup) earlier List.mem_cons_self
        have holds (other : NodeId) (member : other ∈ before ++ [id]) :
            Holds g args (collect g).table (Function.update regs result w) other := by
          rcases List.mem_append.mp member with earlier | last
          · apply (each other earlier).update register
            rw [straight.registerSource (stream.live straight split earlier),
              straight.registerSource (recipe_cases found).1]
            rintro rfl
            exact distinct earlier
          · rw [List.mem_singleton.mp last]
            refine ⟨result, register, ?_⟩
            rwa [Function.update_self]
        have position : (emittedInstrs g (before ++ [id])).length =
            (emittedInstrs g before).length + 1 := by
          rw [emittedInstrs, List.filterMap_append, List.length_append]
          simp [emittedInstrs, instr]
        obtain ⟨v, returned, rest⟩ := ih whole later holds
        refine ⟨v, returned, .next ?_ (position ▸ rest)⟩
        rw [← next, code]
        exact step_at rfl

include straight stream in
/-- The return is emitted, and the sweep keeps it. -/
theorem Stream.ret_kept : ret ∈ keptNodes g out := by
  have inside : ret < g.size := by
    by_contra outside
    have found := straight.returned
    rw [g.node_of_size_le (Nat.le_of_not_lt outside), Node.default_inputs] at found
    cases found
  have collected := collect_recipes fun id live => straight.plain live
  have member : ret ∈ out := by
    rw [stream.all, collected.nodes, List.mem_filter, straight.ret_recipe]
    exact ⟨List.mem_range.mpr inside, rfl⟩
  obtain ⟨-, mi, r, instr, found, fits⟩ := stream.instr straight member
  rw [straight.ret_recipe] at found
  cases found
  rw [keptNodes, List.mem_filter, instr, fits.instr]
  exact ⟨member, by simp [survives]⟩

/-- Every register that is read was written before. -/
def DefinedBeforeUse (instrs : List MachineInstr) : Prop :=
  ∀ before mi after, instrs = before ++ mi :: after →
    ∀ v ∈ mi.reads, ∃ earlier ∈ before, earlier.result = some v

/-- Every collected instruction is there whose result an instruction reads. -/
def KeepsNeeded (g : Graph) (instrs : List MachineInstr) : Prop :=
  ∀ ni ∈ (collect g).perNode, ∀ mi ∈ instrs, ∀ v ∈ mi.reads, ni.mi.result = some v →
    ni.mi ∈ instrs

include straight mapped stream in
theorem Stream.defined : DefinedBeforeUse (emittedInstrs g (keptNodes g out)) := by
  intro before mi after split v read
  obtain ⟨first, rest, whole, rfl, later⟩ := List.filterMap_eq_append_iff.mp split
  obtain ⟨skipped, id, last, rfl, none, instr, -⟩ := List.filterMap_eq_cons_iff.mp later
  rw [← List.append_assoc] at whole
  have collected := collect_recipes fun id live => straight.plain live
  obtain ⟨-, r, found, fits⟩ := collected.instrOf_eq instr
  obtain ⟨operand, slot, register⟩ := fits.mem_reads.mp read
  obtain ⟨earlier, notReturn⟩ := stream.kept_reads straight mapped whole found slot
  have kept : operand ∈ keptNodes g out := whole ▸ List.mem_append_left _ earlier
  obtain ⟨-, operandInstr, r', known, its, itsFits⟩ :=
    stream.instr straight (List.mem_filter.mp kept).1
  have value : r'.op ≠ .ret := fun isRet => notReturn
    (straight.onlyReturn operand (recipe_cases its).1 ((recipe_cases its).2.ret isRet).1)
  refine ⟨operandInstr, ?_, (itsFits.result_eq value).trans register⟩
  rcases List.mem_append.mp earlier with here | there
  · exact List.mem_filterMap.mpr ⟨operand, here, known⟩
  · rw [none operand there] at known
    cases known

include straight stream in
theorem Stream.keepsNeeded : KeepsNeeded g (emittedInstrs g (keptNodes g out)) := by
  intro ni collected mi kept v read result
  rw [← sweepDead_emitted] at kept ⊢
  have isRead : isRead (emittedInstrs g out) v = true := by
    rw [isRead, List.any_eq_true]
    exact ⟨mi, (List.mem_filter.mp kept).1, List.contains_iff_mem.mpr read⟩
  refine List.mem_filter.mpr ⟨?_, by simp [survives, result, isRead]⟩
  have member : ni.node ∈ out := (stream.all _).mpr (List.mem_map_of_mem collected)
  obtain ⟨-, mi', r, instr, found, fits⟩ := stream.instr straight member
  obtain ⟨r', found', fits'⟩ :=
    (collect_recipes fun id live => straight.plain live).fits ni collected
  rw [found] at found'
  cases found'
  rw [fits'.instr, ← fits.instr]
  exact List.mem_filterMap.mpr ⟨ni.node, member, instr⟩

end Stream

/-- The code returns the value of the node, defines what it reads, and misses no needed
instruction. -/
structure SelectedFor (g : Graph) (value : NodeId) (instrs : List MachineInstr) : Prop where
  returns : ∀ args, NoTrap g args → ∃ v, HasValue g args noneHeld value v ∧
    ∀ regs callResult, Returns (argEnv args callResult) instrs { regs } v []
  defined : DefinedBeforeUse instrs
  kept : KeepsNeeded g instrs

/-- A straight-line graph whose read nodes have instructions is selected to code for the
returned value. -/
theorem lower_selects {g : Graph} {ret value : NodeId} (straight : StraightLine g ret value)
    (mapped : ReadsMapped g value) (inOrder : ParamsInOrder g) {fuel : Nat}
    (enough : scheduleFuel g (collect g).perNode ≤ fuel) (name : String) :
    ∃ mf, lower fuel g name = .ok mf ∧ SelectedFor g value mf.instrs := by
  obtain ⟨rank, flat⟩ := straight.flat
  obtain ⟨out, ordered, nodup, all, lowered⟩ := flat.lower_eq enough name
  have stream : Stream g out := ⟨ordered, nodup, all⟩
  have code : sweepDead (out.filterMap (instrOf (collect g).perNode)) =
      emittedInstrs g (keptNodes g out) := sweepDead_emitted out
  rw [code] at lowered
  refine ⟨_, lowered, fun args noTrap => ?_, stream.defined straight mapped,
    stream.keepsNeeded straight⟩
  obtain ⟨v, hasValue⟩ := straight.hasValue mapped noTrap
    (straight.reads straight.isReturn.1 (mem_of_getD straight.returned)).2 mapped.returned
  refine ⟨v, hasValue, fun regs callResult => ?_⟩
  have start : keptNodes g out = [] ++ keptNodes g out := rfl
  have nothing : ∀ id ∈ ([] : List NodeId), Holds g args (collect g).table regs id :=
    fun id member => absurd member List.not_mem_nil
  obtain ⟨w, same, returned⟩ :=
    stream.runs straight mapped noTrap inOrder start (stream.ret_kept straight) nothing
  rw [hasValue.unique same]
  exact returned

/-- The conditions on a live node of straight-line code. -/
def isStraightNode (g : Graph) (ret : NodeId) (rank : NodeId → Nat) (id : NodeId) : Bool :=
  let n := g.node id
  let full (slots : Nat) := decide (n.inputs.length = slots) && n.inputs.all (·.isSome)
  isStraight n.kind && (!n.kind.isUnop || full 1) && (!n.kind.isBinop || full 2) &&
    n.inputs.all (fun ref => ref.all fun input => decide (rank input < rank id)) &&
    (decide (n.kind ≠ .returnNode) || decide (id = ret))

/-- Checking the nodes of a graph makes it a graph of straight-line code. -/
theorem straightLine_of_nodes {g : Graph} {ret value : NodeId} (rank : NodeId → Nat)
    (verified : g.verify = none)
    (effects : ∀ id < g.size, (g.node id).effect = effectClassOf (g.node id).kind)
    (nodes : ∀ id < g.size, (g.node id).isDead = false → isStraightNode g ret rank id = true)
    (isReturn : (g.node ret).isDead = false ∧ (g.node ret).kind = .returnNode)
    (returned : (g.node ret).inputs.getD kReturnValIndex none = some value) :
    StraightLine g ret value := by
  have everywhere (id : NodeId) (live : (g.node id).isDead = false) :
      isStraightNode g ret rank id = true := by
    by_cases inside : id < g.size
    · exact nodes id inside live
    · rw [isStraightNode, g.node_of_size_le (Nat.le_of_not_lt inside)]
      rfl
  simp only [isStraightNode, Bool.and_eq_true, Bool.or_eq_true, Bool.not_eq_true',
    decide_eq_true_eq, List.all_eq_true] at everywhere
  refine ⟨verified, fun id => ?_, fun id live => (everywhere id live).1.1.1.1, ?_, ?_,
    ⟨rank, fun id live input member => ?_⟩, isReturn, ?_, returned⟩
  · by_cases inside : id < g.size
    · exact effects id inside
    · rw [g.node_of_size_le (Nat.le_of_not_lt inside)]
      rfl
  · intro id live isUnop
    obtain ⟨-, notUnop | ⟨one, full⟩⟩ := (everywhere id live).1.1.1
    · rw [isUnop] at notUnop
      cases notUnop
    · obtain ⟨ref, inputs⟩ := List.length_eq_one_iff.mp one
      obtain ⟨operand, rfl⟩ :=
        Option.isSome_iff_exists.mp (full ref (inputs ▸ List.mem_cons_self))
      exact ⟨operand, inputs⟩
  · intro id live isBinop
    obtain ⟨-, notBinop | ⟨two, full⟩⟩ := (everywhere id live).1.1
    · rw [isBinop] at notBinop
      cases notBinop
    · obtain ⟨left, right, inputs⟩ := List.length_eq_two.mp two
      obtain ⟨lhs, rfl⟩ := Option.isSome_iff_exists.mp (full left (inputs ▸ List.mem_cons_self))
      obtain ⟨rhs, rfl⟩ := Option.isSome_iff_exists.mp
        (full right (inputs ▸ List.mem_cons_of_mem _ List.mem_cons_self))
      exact ⟨lhs, rhs, inputs⟩
  · simpa using (everywhere id live).1.2 (some input) member
  · intro id live kind
    exact (everywhere id live).2.resolve_left (fun other => other kind)

/-- The parameter shifted by a constant plus a constant; both constants are appended after
their users. -/
def shifted : Graph :=
  let (x, g) := Graph.fresh.pushNode { kind := .parameter }
  let (lhs, g) := g.makeBinop .shl (some x) (some x) 0
  let (sum, g) := g.makeBinop .add (some lhs) (some lhs) 0
  let g := (g.makeReturn (some kStartNodeId) (some kStartNodeId) (some sum)).2
  let (count, g) := g.makeConstant 3 0
  let (start, g) := g.makeConstant 1 0
  (g.setInput lhs 1 (some count)).setInput sum 1 (some start)

theorem shifted_straight : StraightLine shifted 4 3 := by
  apply straightLine_of_nodes fun id => [0, 0, 1, 2, 3, 0, 0].getD id 0
  case verified => decide
  case effects => decide
  case nodes => decide
  case isReturn => decide
  case returned => decide

theorem shifted_node (id : NodeId) : id < 7 ∨ shifted.node id = default := by
  rcases Nat.lt_or_ge id 7 with inside | outside
  · exact Or.inl inside
  · exact Or.inr (shifted.node_of_size_le outside)

theorem shifted_mapped : ReadsMapped shifted 3 := by
  refine ⟨fun id live known input member => ?_, by decide⟩
  rcases shifted_node id with inside | outside
  · have reads : ∀ id < 7, isMapped (shifted.node id).kind = true →
        ∀ ref ∈ (shifted.node id).inputs,
          ref.all fun input => isMapped (shifted.node input).kind := by decide
    exact reads id inside known (some input) member
  · rw [outside] at member
    cases member

theorem shifted_inOrder : ParamsInOrder shifted := by
  intro id earlier live before kind
  rcases shifted_node earlier with inside | outside
  · have alive : ∀ id < 7, (shifted.node id).isDead = false := by decide
    exact alive earlier inside
  · rw [outside]
    rfl

theorem shifted_noTrap (args : List Word) : NoTrap shifted args := by
  intro id lhs rhs a b live isBinop inputs left right
  have kinds : (shifted.node id).kind = .shl ∨ (shifted.node id).kind = .add := by
    rcases shifted_node id with inside | outside
    · have binary : ∀ id < 7, (shifted.node id).kind.isBinop = true →
          (shifted.node id).kind = .shl ∨ (shifted.node id).kind = .add := by decide
      exact binary id inside isBinop
    · rw [outside] at isBinop
      cases isBinop
  rcases kinds with shl | add
  · rw [shl]
    rfl
  · rw [add]
    rfl

/-- The code shifts the first argument by three and adds one. -/
theorem shifted_selected : ∃ mf, lower 21 shifted "shifted" = .ok mf ∧
    ∀ args, ∃ v, HasValue shifted args noneHeld 3 v ∧
      ∀ regs callResult, Returns (argEnv args callResult) mf.instrs { regs } v [] := by
  have enough : scheduleFuel shifted (collect shifted).perNode ≤ 21 := by decide
  obtain ⟨mf, lowered, selected⟩ :=
    lower_selects shifted_straight shifted_mapped shifted_inOrder enough "shifted"
  exact ⟨mf, lowered, fun args => selected.returns args (shifted_noTrap args)⟩

/-- The unsigned comparison of the parameter with itself. -/
def comparedUnsigned : Graph :=
  let (x, g) := Graph.fresh.pushNode { kind := .parameter }
  let (less, g) := g.makeCmp .cmpUlt (some x) (some x)
  (g.makeReturn (some kStartNodeId) (some kStartNodeId) (some less)).2

theorem comparedUnsigned_straight : StraightLine comparedUnsigned 3 2 := by
  apply straightLine_of_nodes id
  case verified => decide
  case effects => decide
  case nodes => decide
  case isReturn => decide
  case returned => decide

/-- The comparison has no instruction, and the return reads a register that nothing wrote. -/
theorem comparedUnsigned_misselected : StraightLine comparedUnsigned 3 2 ∧
    scheduleFuel comparedUnsigned (collect comparedUnsigned).perNode ≤ 20 ∧
    ∃ mf, lower 20 comparedUnsigned "compared" = .ok mf ∧ ¬ DefinedBeforeUse mf.instrs ∧
      NoTrap comparedUnsigned [] ∧ HasValue comparedUnsigned [] noneHeld 2 0 ∧
      ∀ callResult, Returns (argEnv [] callResult) mf.instrs { regs := fun _ => 1 } 1 [] := by
  let ret : MachineInstr := { op := .ret, uses := [some 1] }
  have lowered : lower 20 comparedUnsigned "compared" =
      .ok { name := "compared", instrs := [ret] } := by decide
  refine ⟨comparedUnsigned_straight, by decide, _, lowered, fun defined => ?_,
    fun id lhs rhs a b live isBinop inputs left right => ?_, ⟨3, by decide⟩,
    fun callResult => .done rfl⟩
  · obtain ⟨earlier, member, -⟩ := defined [] ret [] rfl 1 (by decide)
    cases member
  · have kind : (comparedUnsigned.node id).kind = .cmpUlt := by
      rcases Nat.lt_or_ge id comparedUnsigned.size with inside | outside
      · have binary : ∀ id < 4, (comparedUnsigned.node id).kind.isBinop = true →
            (comparedUnsigned.node id).kind = .cmpUlt := by decide
        exact binary id inside isBinop
      · rw [comparedUnsigned.node_of_size_le outside] at isBinop
        cases isBinop
    rw [kind]
    rfl

end InstrSel

end Aegis
