import AegisCompiler.ExecutedModules
import AegisCompiler.ScheduledParameters

/-!
# From a straight-line graph to its image

Selection gives straight-line graphs code that the encoder can rely on, so that the
linked image returns the value of the graph.
-/

namespace Aegis

namespace ExecEncoder

open InstrSel (ParamsThenRest)
open LinearScan LiveIntervals FlowSpans
open X86 (Reg Image Machine)

/-- A stream without jumps, in which registers are written once, before they are read. -/
structure StraightStream (instrs : List MachineInstr) : Prop where
  ops : ∀ mi ∈ instrs, mi.op = .ret ∨ mi.op = .param ∨ InstrSel.computes mi.op = true
  slots : ∀ mi ∈ instrs, mi.uses.length ≤ kMaxUsesPerInstr
  single : ∀ mi ∈ instrs, mi.moreResults = []
  defined : InstrSel.DefinedBeforeUse instrs
  distinct : instrs.Pairwise fun a b => ∀ v, a.result = some v → b.result ≠ some v
  params : ParamsThenRest instrs
  used : ∀ mi ∈ instrs, mi.op = .param → ∀ v, mi.result = some v →
    ∃ reader ∈ instrs, v ∈ reader.reads
  silent : ∀ mi ∈ instrs, mi.op = .param → mi.reads = []

section Streams

variable {instrs : List MachineInstr}

theorem plainAt_of_op {p : Nat} {mi : MachineInstr} (found : instrs[p]? = some mi)
    (op : mi.op = .ret ∨ mi.op = .param ∨ InstrSel.computes mi.op = true) :
    PlainAt instrs p := by
  refine ⟨mi, found, ?_, ?_, ?_⟩ <;>
    · intro other
      rw [other] at op
      revert op
      decide

theorem block_of_plain (plain : ∀ p < instrs.length, PlainAt instrs p) (n p : Nat)
    (inside : p + n = instrs.length) : LiveIntervals.Block instrs p instrs.length := by
  induction n generalizing p with
  | zero =>
      obtain rfl : p = instrs.length := inside
      exact .done
  | succ n ih => exact .plain (plain p (by omega)) (ih (p + 1) (by omega))

variable (stream : StraightStream instrs)

include stream

theorem StraightStream.plain {p : Nat} (inside : p < instrs.length) : PlainAt instrs p :=
  plainAt_of_op (List.getElem?_eq_getElem inside) (stream.ops _ (List.getElem_mem inside))

theorem StraightStream.defines_iff {p : Nat} {mi : MachineInstr} (found : instrs[p]? = some mi)
    {v : VRegId} : Defines instrs p v ↔ mi.result = some v := by
  have defs : mi.defs = mi.result.toList := by
    rw [MachineInstr.defs, stream.single mi (List.mem_of_getElem? found)]
    cases mi.result <;> rfl
  constructor
  · rintro ⟨other, found', isDef⟩
    cases found.symm.trans found'
    rw [defs] at isDef
    simpa using isDef
  · intro result
    exact ⟨mi, found, by rw [defs, result]; exact List.mem_singleton_self v⟩

/-- A register is written at one place. -/
theorem StraightStream.defines_unique {p q : Nat} {v : VRegId} (first : Defines instrs p v)
    (second : Defines instrs q v) : p = q := by
  obtain ⟨a, aFound, -⟩ := id first
  obtain ⟨b, bFound, -⟩ := id second
  have aResult := (stream.defines_iff aFound).mp first
  have bResult := (stream.defines_iff bFound).mp second
  obtain ⟨aInside, rfl⟩ := List.getElem?_eq_some_iff.mp aFound
  obtain ⟨bInside, rfl⟩ := List.getElem?_eq_some_iff.mp bFound
  have distinct := List.pairwise_iff_getElem.mp stream.distinct
  rcases Nat.lt_trichotomy p q with less | same | greater
  · exact absurd bResult (distinct p q aInside bInside less v aResult)
  · exact same
  · exact absurd aResult (distinct q p bInside aInside greater v bResult)

/-- What is read was written at an earlier place. -/
theorem StraightStream.defines_earlier {p : Nat} {v : VRegId}
    (reads : LiveIntervals.Reads instrs p v) : ∃ q, q < p ∧ Defines instrs q v := by
  obtain ⟨mi, found, isRead⟩ := reads
  obtain ⟨inside, rfl⟩ := List.getElem?_eq_some_iff.mp found
  have split : instrs = instrs.take p ++ instrs[p] :: instrs.drop (p + 1) := by
    rw [← List.drop_eq_getElem_cons inside, List.take_append_drop]
  obtain ⟨earlier, member, result⟩ := stream.defined _ _ _ split v isRead
  obtain ⟨q, within, rfl⟩ := List.getElem_of_mem member
  have below : q < p := by
    rw [List.length_take] at within
    omega
  have here : instrs[q]? = some (instrs.take p)[q] := by
    rw [List.getElem_take]
    exact List.getElem?_eq_getElem (below.trans inside)
  exact ⟨q, below, (stream.defines_iff here).mpr result⟩

theorem StraightStream.flow (name : String) : WellFormedFlow ⟨name, instrs⟩ where
  structured := by
    refine ⟨block_of_plain (fun p inside => stream.plain inside) instrs.length 0
      (Nat.zero_add _), ?_⟩
    rintro label p q ⟨mi, found, isLabel, -⟩ -
    obtain ⟨other, same, notLabel, -⟩ :=
      stream.plain (List.getElem?_eq_some_iff.mp found).1
    cases found.symm.trans same
    exact absurd isLabel notLabel
  wellDefined := by
    intro p v reads reaches
    obtain ⟨q, before, isDef⟩ := stream.defines_earlier reads
    have noJump : ∀ a b, a < q → Jumps instrs a b → b ≤ q := by
      intro a b _ jumps
      obtain ⟨mi, label, found, -⟩ := id jumps
      exact absurd jumps (stream.plain (List.getElem?_eq_some_iff.mp found).1).not_jumps
    exact absurd (reaches_le isDef noJump reaches) (Nat.not_le.mpr before)

theorem StraightStream.instr {p : Nat} {mi : MachineInstr} (found : instrs[p]? = some mi) :
    WellFormedInstr mi where
  slots := stream.slots mi (List.mem_of_getElem? found)
  single := stream.single mi (List.mem_of_getElem? found)
  silent branch := by
    rcases stream.ops mi (List.mem_of_getElem? found) with op | op | op
    · rw [op] at branch
      exact absurd branch (by decide)
    · rw [op] at branch
      exact absurd branch (by decide)
    · simp only [List.mem_cons, List.not_mem_nil, or_false] at branch
      rcases branch with other | other | other <;> rw [other] at op <;> cases op
  late slot v _ used result := by
    obtain ⟨q, before, isDef⟩ := stream.defines_earlier ⟨mi, found, read_of_useAt used⟩
    have same := stream.defines_unique isDef ((stream.defines_iff found).mpr result)
    exact Nat.lt_irrefl _ (same ▸ before)

/-- The allocation of a straight stream suits the encoder. -/
theorem StraightStream.compiled {name : String} {ra : ScanState}
    (allocated : Allocated ⟨name, instrs⟩ ra) : Compiled ⟨name, instrs⟩ ra := by
  refine ⟨allocated, stream.flow name, fun mi member => ?_, ?_⟩
  · obtain ⟨p, inside, rfl⟩ := List.getElem_of_mem member
    exact stream.instr (List.getElem?_eq_getElem inside)
  · obtain ⟨params, rest, split, allParams, noParams⟩ := stream.params
    have first : ParamsFirst instrs params.length := by
      intro p mi found
      rw [split, List.getElem?_append] at found
      split at found
      case isTrue below =>
        exact iff_of_true (allParams mi (List.mem_of_getElem? found)) below
      case isFalse above =>
        exact iff_of_false (noParams mi (List.mem_of_getElem? found)) above
    refine ⟨params.length, paramsApart_of_used allocated first
      (fun p q v _ _ one other => stream.defines_unique one other) fun p v below isDef => ?_⟩
    obtain ⟨mi, found, -⟩ := id isDef
    have isParam := (first p mi found).mpr below
    obtain ⟨reader, member, isRead⟩ := stream.used mi (List.mem_of_getElem? found) isParam v
      ((stream.defines_iff found).mp isDef)
    obtain ⟨q, inside, rfl⟩ := List.getElem_of_mem member
    have here := List.getElem?_eq_getElem inside
    refine ⟨q, Nat.not_lt.mp fun early => ?_, _, here, isRead⟩
    rw [stream.silent _ member ((first q _ here).mpr early)] at isRead
    cases isRead

end Streams

/-- Besides the return, an instruction that reads something is read by another one. -/
def NothingUnread (g : Graph) (ret : NodeId) : Prop :=
  ∀ id r, InstrSel.recipe g id = some r → r.operands ≠ [] → id ≠ ret →
    ∃ reader r', InstrSel.recipe g reader = some r' ∧ some id ∈ r'.operands

section Selected

open InstrSel (collect emittedInstrs instrOf keptNodes recipe recipe_cases liveParam Recipe
  RecipeCases StraightLine ReadsMapped ParamsLead)

variable {g : Graph} {ret value : NodeId}

/-- The shape of a selected instruction. -/
theorem recipe_shape {id : NodeId} {r : Recipe} (shape : RecipeCases g id r) :
    (r.op = .ret ∨ r.op = .param ∨ InstrSel.computes r.op = true) ∧
      r.operands.length ≤ kMaxUsesPerInstr ∧ (r.op = .param → r.operands = []) := by
  have short (refs : List NodeRef) {n : Nat} (small : n ≤ kMaxUsesPerInstr) :
      (refs.take n).length ≤ kMaxUsesPerInstr := (List.length_take_le n refs).trans small
  cases shape with
  | constant => exact ⟨.inr (.inr rfl), Nat.zero_le _, fun _ => rfl⟩
  | parameter => exact ⟨.inr (.inl rfl), Nat.zero_le _, fun _ => rfl⟩
  | returns kind slots =>
      refine ⟨.inl rfl, ?_, fun isParam => by cases isParam⟩
      rw [slots]
      split
      · exact (by decide : 1 ≤ kMaxUsesPerInstr)
      · exact Nat.zero_le _
  | unary mapped =>
      refine ⟨.inr (.inr (InstrSel.computes_of_unaryOpFor mapped)), short _ (by decide), ?_⟩
      rintro rfl
      exact absurd mapped (InstrSel.unaryOpFor_ne_param _)
  | immediate mapped | binary mapped =>
      refine ⟨.inr (.inr (InstrSel.computes_of_opFor mapped)), short _ (by decide), ?_⟩
      rintro rfl
      exact absurd mapped (InstrSel.opFor_ne_param _)

variable (straight : StraightLine g ret value) (mapped : ReadsMapped g value)
variable (lead : ParamsLead g) (unread : NothingUnread g ret)

include straight in
/-- Every emitted instruction follows the recipe of its node. -/
theorem shaped_of_stream {out : List NodeId} (stream : InstrSel.Stream g out)
    {nodes : List NodeId} (inside : nodes ⊆ out) : ∀ mi ∈ emittedInstrs g nodes,
      ∃ id ∈ nodes, ∃ r, instrOf (collect g).perNode id = some mi ∧ recipe g id = some r ∧
        InstrSel.Fits (collect g).table id r mi := by
  intro mi member
  obtain ⟨id, among, instr⟩ := List.mem_filterMap.mp member
  obtain ⟨-, mi', r, instr', found, fits⟩ := stream.instr straight (inside among)
  cases instr.symm.trans instr'
  exact ⟨id, among, r, instr, found, fits⟩

include straight unread in
/-- The sweep keeps every instruction that reads something. -/
theorem survives_of_unread {out : List NodeId} (stream : InstrSel.Stream g out) {id : NodeId}
    {r : Recipe} {mi : MachineInstr} (found : recipe g id = some r)
    (fits : InstrSel.Fits (collect g).table id r mi) (readsSome : r.operands ≠ []) :
    InstrSel.survives (emittedInstrs g out) mi = true := by
  have collected := InstrSel.collect_recipes fun id live => straight.plain live
  by_cases isRet : r.op = .ret
  · simp [InstrSel.survives, fits.instr, isRet]
  · have notRet : id ≠ ret := by
      rintro rfl
      rw [straight.ret_recipe] at found
      cases found
      exact isRet rfl
    obtain ⟨reader, r', known, reads⟩ := unread id r found readsSome notRet
    have inside : reader < g.size := by
      by_contra outside
      have dead : recipe g reader = none := by
        rw [recipe, g.node_of_size_le (Nat.le_of_not_lt outside)]
        rfl
      cases known.symm.trans dead
    have among : reader ∈ out := by
      rw [stream.all, collected.nodes, List.mem_filter, known]
      exact ⟨List.mem_range.mpr inside, rfl⟩
    obtain ⟨-, other, r'', otherInstr, known', fits'⟩ := stream.instr straight among
    cases known.symm.trans known'
    obtain ⟨v, register⟩ := Option.isSome_iff_exists.mp (fits.result.resolve_right isRet)
    have result := (fits.result_eq isRet).trans register
    have isRead : InstrSel.isRead (emittedInstrs g out) v = true := by
      rw [InstrSel.isRead, List.any_eq_true]
      exact ⟨other, List.mem_filterMap.mpr ⟨reader, among, otherInstr⟩,
        List.contains_iff_mem.mpr (fits'.mem_reads.mpr ⟨id, reads, register⟩)⟩
    simp [InstrSel.survives, result, isRead]

include straight mapped lead unread

/-- The selected stream of a straight-line graph is straight. -/
theorem straightStream_of_lower {fuel : Nat}
    (enough : InstrSel.scheduleFuel g (collect g).perNode ≤ fuel) {name : String}
    {mf : MachineFunction} (lowered : InstrSel.lower fuel g name = .ok mf) :
    StraightStream mf.instrs := by
  have params := InstrSel.lower_params straight lead enough lowered
  have collected := InstrSel.collect_recipes fun id live => straight.plain live
  obtain ⟨rank, flat⟩ := straight.flat
  obtain ⟨out, ordered, nodup, all, lowered'⟩ := flat.lower_eq enough name
  have stream : InstrSel.Stream g out := ⟨ordered, nodup, all⟩
  have kept : mf.instrs = emittedInstrs g (keptNodes g out) := by
    cases lowered.symm.trans lowered'
    exact InstrSel.sweepDead_emitted out
  have shaped {nodes : List NodeId} (inside : nodes ⊆ out) :=
    shaped_of_stream straight stream inside
  have keptOut : keptNodes g out ⊆ out := List.filter_subset_self out
  rw [kept] at params ⊢
  refine ⟨fun mi member => ?_, fun mi member => ?_, fun mi member => ?_,
    stream.defined straight mapped, stream.results_distinct straight, params, ?_,
    fun mi member isParam => ?_⟩
  · obtain ⟨id, -, r, -, found, fits⟩ := shaped keptOut mi member
    have op := (recipe_shape (recipe_cases found).2).1
    rwa [fits.instr]
  · obtain ⟨id, -, r, -, found, fits⟩ := shaped keptOut mi member
    rw [fits.instr, List.length_map]
    exact (recipe_shape (recipe_cases found).2).2.1
  · obtain ⟨id, -, r, -, -, fits⟩ := shaped keptOut mi member
    rw [fits.instr]
  · intro mi member isParam v result
    obtain ⟨id, among, r, instr, found, fits⟩ := shaped keptOut mi member
    have kept := (List.mem_filter.mp among).2
    rw [instr, Option.any_some, InstrSel.survives, result, isParam] at kept
    obtain ⟨reader, inside, reads⟩ := List.any_eq_true.mp (show
      InstrSel.isRead (emittedInstrs g out) v = true by simpa using kept)
    obtain ⟨node, known, r', instr', found', fits'⟩ := shaped (List.Subset.refl out) reader inside
    have isRead := List.contains_iff_mem.mp reads
    obtain ⟨operand, slot, -⟩ := fits'.mem_reads.mp isRead
    refine ⟨reader, List.mem_filterMap.mpr ⟨node, List.mem_filter.mpr ⟨known, ?_⟩, instr'⟩,
      isRead⟩
    rw [instr', Option.any_some]
    exact survives_of_unread straight unread stream found' fits' (List.ne_nil_of_mem slot)
  · obtain ⟨id, -, r, -, found, fits⟩ := shaped keptOut mi member
    rw [fits.instr] at isParam
    rw [MachineInstr.reads, fits.instr, (recipe_shape (recipe_cases found).2).2.2 isParam]
    rfl

omit lead unread in
/-- The selected stream returns the value of the graph. -/
theorem returns_of_lower (inOrder : InstrSel.ParamsInOrder g) {fuel : Nat}
    (enough : InstrSel.scheduleFuel g (collect g).perNode ≤ fuel) {name : String}
    {mf : MachineFunction} (lowered : InstrSel.lower fuel g name = .ok mf) {args : List Word}
    (noTrap : InstrSel.NoTrap g args) :
    ∃ v, CallWalk.HasValue g args InstrSel.noneHeld value v ∧ ∀ callResult,
      Returns (InstrSel.argEnv args callResult) mf.instrs { regs := fun _ => 0 } v [] := by
  obtain ⟨rank, flat⟩ := straight.flat
  obtain ⟨out, ordered, nodup, all, lowered'⟩ := flat.lower_eq enough name
  have stream : InstrSel.Stream g out := ⟨ordered, nodup, all⟩
  have kept : mf.instrs = emittedInstrs g (keptNodes g out) := by
    cases lowered.symm.trans lowered'
    exact InstrSel.sweepDead_emitted out
  have nothing : ∀ id ∈ ([] : List NodeId),
      InstrSel.Holds g args (collect g).table (fun _ => 0) id :=
    fun id member => absurd member List.not_mem_nil
  have whole : keptNodes g out = [] ++ keptNodes g out := rfl
  have start (callResult : List CallEvent → Word) :
      ∃ v, CallWalk.HasValue g args InstrSel.noneHeld value v ∧
        Returns (InstrSel.argEnv args callResult) (emittedInstrs g (keptNodes g out))
          { regs := fun _ => 0 } v [] :=
    stream.runs straight mapped noTrap inOrder whole (stream.ret_kept straight) nothing
  obtain ⟨v, hasValue, -⟩ := start fun _ => 0
  refine ⟨v, hasValue, fun callResult => ?_⟩
  obtain ⟨w, same, returned⟩ := start callResult
  rw [hasValue.unique same, kept]
  exact returned

omit mapped lead unread in
/-- The selected stream takes the arguments that the parameters of the graph stand for. -/
theorem takes_of_lower {fuel : Nat}
    (enough : InstrSel.scheduleFuel g (collect g).perNode ≤ fuel) {name : String}
    {mf : MachineFunction} (lowered : InstrSel.lower fuel g name = .ok mf) {args : List Word}
    (counted : ∀ id, liveParam g id = true → InstrSel.paramsBelow g id < args.length)
    (callResult : List CallEvent → Word) :
    TakesArgs mf (InstrSel.argEnv args callResult) args := by
  obtain ⟨rank, flat⟩ := straight.flat
  obtain ⟨out, ordered, nodup, all, lowered'⟩ := flat.lower_eq enough name
  have stream : InstrSel.Stream g out := ⟨ordered, nodup, all⟩
  have kept : mf.instrs = emittedInstrs g (keptNodes g out) := by
    cases lowered.symm.trans lowered'
    exact InstrSel.sweepDead_emitted out
  intro mi member isParam i imm
  rw [kept] at member
  obtain ⟨id, -, r, -, found, fits⟩ :=
    shaped_of_stream straight stream (List.filter_subset_self out) mi member
  obtain ⟨live, shape⟩ := recipe_cases found
  rw [fits.instr] at isParam imm
  have param : (g.node id).kind = .parameter ∧ r.imm = some (InstrSel.paramsBelow g id : Int) := by
    cases shape with
    | parameter kind => exact ⟨kind, rfl⟩
    | constant | returns => cases isParam
    | unary mapped =>
        obtain rfl : _ = MachineOp.param := isParam
        exact absurd mapped (InstrSel.unaryOpFor_ne_param _)
    | immediate mapped | binary mapped =>
        obtain rfl : _ = MachineOp.param := isParam
        exact absurd mapped (InstrSel.opFor_ne_param _)
  obtain rfl : InstrSel.paramsBelow g id = i :=
    Int.ofNat.inj (Option.some.inj (param.2.symm.trans imm))
  have inside := counted id (by simp [liveParam, live, param.1])
  have known := List.getElem?_eq_getElem inside
  change args[InstrSel.paramsBelow g id]? = some (args.getD (InstrSel.paramsBelow g id) 0)
  rw [List.getD_eq_getElem?_getD, known, Option.getD_some]

end Selected

/-- The function was selected from the graph, and its registers were allocated without
spills. -/
structure SelectedFrom (f : ModuleFunction) (g : Graph) (value : NodeId) : Prop where
  graph : ∃ ret, InstrSel.StraightLine g ret value ∧ NothingUnread g ret
  mapped : InstrSel.ReadsMapped g value
  inOrder : InstrSel.ParamsInOrder g
  lead : InstrSel.ParamsLead g
  lowered : ∃ fuel name mf ra, InstrSel.scheduleFuel g (InstrSel.collect g).perNode ≤ fuel ∧
    InstrSel.lower fuel g name = .ok mf ∧ f.mf = some mf ∧ f.ra = some ra ∧ Allocated mf ra

section Image

theorem SelectedFrom.stream {f : ModuleFunction} {g : Graph} {value : NodeId}
    (selected : SelectedFrom f g value) : ∃ mf ra, f.mf = some mf ∧ f.ra = some ra ∧
    Allocated mf ra ∧ StraightStream mf.instrs := by
  obtain ⟨ret, straight, unread⟩ := selected.graph
  obtain ⟨fuel, name, mf, ra, enough, lowered, given, given', allocated⟩ := selected.lowered
  exact ⟨mf, ra, given, given', allocated,
    straightStream_of_lower straight selected.mapped selected.lead unread enough lowered⟩

/-- Functions that were selected from straight-line graphs have no displacements. -/
theorem near_of_selected {fns : List ModuleFunction}
    (selected : ∀ f ∈ fns, ∃ g value, SelectedFrom f g value) : Near fns := by
  intro f member mf ra given _
  obtain ⟨g, value, from_graph⟩ := selected f member
  obtain ⟨mf', ra', given', -, -, stream⟩ := from_graph.stream
  cases given.symm.trans given'
  have straight (op : MachineOp) (known : op ∈ jumpOps ++ callOps) (j : Nat) (target : Int) :
      ¬ LiveIntervals.JumpAt mf.instrs op target j := by
    rintro ⟨mi, found, rfl, -⟩
    rcases stream.ops mi (List.mem_of_getElem? found) with op | op | op
    · rw [op] at known
      exact absurd known (by decide)
    · rw [op] at known
      exact absurd known (by decide)
    · simp only [jumpOps, callOps, List.cons_append, List.nil_append, List.mem_cons,
        List.not_mem_nil, or_false] at known
      rcases known with other | other | other <;> rw [other] at op <;> cases op
  constructor
  · intro op known j label pos jump _
    exact absurd jump (straight op (List.mem_append_left _ known) j label)
  · intro j callee pos call _
    exact absurd call (straight .call (by decide) j callee)

section Entered

variable {img : Image} {fns : List ModuleFunction} {entries : List Nat} {n entry : Nat}
variable {f : ModuleFunction} {g : Graph} {value : NodeId} {args : List Word}
variable {lowest bottom ret : Word} {words : List Word} {m : Machine}

/-- A selected function that was entered returns the value of its graph. -/
theorem SelectedFrom.returns (selected : SelectedFrom f g value) (near : Near fns)
    (encoded : encodeModule fns = .ok (img.bytes, entries)) (found : fns[n]? = some f)
    (stands : entries[n]? = some entry) (noTrap : InstrSel.NoTrap g args)
    (counted : ∀ id, InstrSel.liveParam g id = true → InstrSel.paramsBelow g id < args.length)
    (room : lowest.toNat + 56 + 8 * words.length ≤ bottom.toNat)
    (enters : Enters img entry args bottom (ret :: words) m) :
    ∃ v, CallWalk.HasValue g args InstrSel.noneHeld value v ∧
      ∃ m', Machine.Steps img lowest m m' ∧ HasLeft v m.cpu.regs bottom ret words m' := by
  obtain ⟨graphRet, straight, unread⟩ := selected.graph
  obtain ⟨fuel, name, mf, ra, enough, lowered, given, given', allocated⟩ := selected.lowered
  have stream :=
    straightStream_of_lower straight selected.mapped selected.lead unread enough lowered
  obtain ⟨v, hasValue, returns⟩ :=
    returns_of_lower straight selected.mapped selected.inOrder enough lowered noTrap
  have placed : Placed img fns entries mf ra entry :=
    ⟨near, linked_of_linkable near.linkable encoded, n, f, found, given, given', stands⟩
  have saved : calleeSavedHomes.length = 6 := rfl
  refine ⟨v, hasValue, placed.function_returns lowest (stream.compiled allocated) enters
    (by omega) (takes_of_lower straight enough lowered counted fun _ => 0) (returns _) ?_⟩
  intro before event after split
  cases before <;> cases split

/-- The linked image of functions that were selected from straight-line graphs returns the
value of the graph for the arguments. -/
theorem image_evaluates (selected : ∀ f ∈ fns, ∃ g value, SelectedFrom f g value)
    (encoded : encodeModule fns = .ok (img.bytes, entries)) (found : fns[n]? = some f)
    (from_graph : SelectedFrom f g value) (stands : entries[n]? = some entry)
    (noTrap : InstrSel.NoTrap g args)
    (counted : ∀ id, InstrSel.liveParam g id = true → InstrSel.paramsBelow g id < args.length)
    (room : lowest.toNat + 56 + 8 * words.length ≤ bottom.toNat)
    (enters : Enters img entry args bottom (ret :: words) m) :
    ∃ v, CallWalk.HasValue g args InstrSel.noneHeld value v ∧
      ∃ m', Machine.Steps img lowest m m' ∧ HasLeft v m.cpu.regs bottom ret words m' :=
  from_graph.returns (near_of_selected selected) encoded found stands noTrap counted room enters

end Entered

end Image

theorem shifted_lead : InstrSel.ParamsLead InstrSel.shifted := by
  constructor
  · intro id other isParam _ known
    rcases InstrSel.shifted_node id with inside | outside
    · rcases InstrSel.shifted_node other with inside' | outside'
      · have leads : ∀ id < 7, ∀ other < 7, InstrSel.liveParam InstrSel.shifted id = true →
            InstrSel.liveParam InstrSel.shifted other = false →
              (InstrSel.recipe InstrSel.shifted other).isSome = true → id < other := by
          decide
        exact leads id inside other inside' isParam ‹_› known
      · have dead : InstrSel.recipe InstrSel.shifted other = none := by
          rw [InstrSel.recipe, outside']
          rfl
        rw [dead] at known
        cases known
    · rw [InstrSel.liveParam, outside] at isParam
      cases isParam
  · intro id isParam
    rcases InstrSel.shifted_node id with inside | outside
    · have leaves : ∀ id < 7, InstrSel.liveParam InstrSel.shifted id = true →
          (InstrSel.shifted.node id).inputs = [] := by decide
      exact leaves id inside isParam
    · rw [outside]
      rfl

theorem shifted_unread : NothingUnread InstrSel.shifted 4 := by
  intro id r known reads notRet
  rcases InstrSel.shifted_node id with inside | outside
  · have read : ∀ id < 7, ((InstrSel.recipe InstrSel.shifted id).all fun r =>
        r.operands.isEmpty || id == 4 || (List.range 7).any fun reader =>
          (InstrSel.recipe InstrSel.shifted reader).any fun r' =>
            r'.operands.contains (some id)) = true := by
      decide
    have here := read id inside
    rw [known, Option.all_some] at here
    simp only [Bool.or_eq_true, List.isEmpty_iff, beq_iff_eq, List.any_eq_true,
      Option.any_eq_true, List.contains_iff_mem] at here
    rcases here with (empty | isRet) | ⟨reader, -, r', known', member⟩
    · exact absurd empty reads
    · exact absurd isRet notRet
    · exact ⟨reader, r', known', member⟩
  · rw [InstrSel.recipe, outside] at known
    cases known

/-- The code of the shift and the addition. -/
def shiftedCode : MachineFunction where
  name := "shifted"
  instrs := [
    { op := .param, result := some 0, imm := some 0 },
    { op := .shl, result := some 1, uses := [some 0], imm := some 3 },
    { op := .movImm, result := some 3, imm := some 1 },
    { op := .add, result := some 2, uses := [some 1, some 3] },
    { op := .ret, uses := [some 2] }]

/-- The module of the shift and the addition. -/
def shiftedModule : List ModuleFunction :=
  [⟨0, some shiftedCode, some (run execRegisters .inserted shiftedCode)⟩]

theorem shifted_from {f : ModuleFunction} (member : f ∈ shiftedModule) :
    SelectedFrom f InstrSel.shifted 3 := by
  obtain rfl := List.mem_singleton.mp member
  exact ⟨⟨4, InstrSel.shifted_straight, shifted_unread⟩, InstrSel.shifted_mapped,
    InstrSel.shifted_inOrder, shifted_lead, 21, "shifted", shiftedCode, _, by decide,
    by decide, rfl, rfl, ⟨execRegisters, .inserted, rfl, by decide⟩, by decide⟩

/-- The image of the shift and the addition returns eight times its argument plus one. -/
theorem image_evaluates_shifted : ∃ (img : Image) (entries : List Nat),
    encodeModule shiftedModule = .ok (img.bytes, entries) ∧
      ∃ m m', Machine.Steps img 0 m m' ∧ m.rip = img.address 0 ∧ m.cpu.regs 7 = 5 ∧
        m'.cpu.regs kRegRax = 41 := by
  have sizes : ((encodeModule shiftedModule).toOption.map fun r =>
      (decide (r.1.length < 2 ^ 32), r.2)) = some (true, [0]) := by
    decide
  obtain ⟨⟨bytes, entries⟩, encoded, same⟩ := Option.map_eq_some_iff.mp sizes
  obtain ⟨length, rfl⟩ := Prod.mk.inj same
  let img : Image := ⟨0, bytes, (of_decide_eq_true length).trans (by decide)⟩
  let m : Machine := {
    cpu := { regs := fun r => if r = 7 then 5 else if r = .rsp then 0x1000 else 0 }
    rip := img.address 0
    memory := fun _ => 0 }
  have encoded : encodeModule shiftedModule = .ok (img.bytes, [0]) :=
    toOption_eq_some.mp encoded
  have enters : Enters img 0 [5] 0x1008 [0] m := by
    have zeros (address : Word) : X86.Memory.load (fun _ => 0) address = 0 := by
      unfold X86.Memory.load
      beta_reduce
      decide
    refine ⟨rfl, ?_, rfl, zeros m.rsp, trivial⟩
    intro i r argument value given
    cases i with
    | zero =>
        cases argument
        cases given
        rfl
    | succ i => cases given
  have counted : ∀ id, InstrSel.liveParam InstrSel.shifted id = true →
      InstrSel.paramsBelow InstrSel.shifted id < [(5 : Word)].length := by
    intro id isParam
    rcases InstrSel.shifted_node id with inside | outside
    · have first : ∀ id < 7, InstrSel.liveParam InstrSel.shifted id = true →
          InstrSel.paramsBelow InstrSel.shifted id < 1 := by decide
      exact first id inside isParam
    · rw [InstrSel.liveParam, outside] at isParam
      cases isParam
  have found : shiftedModule[0]? = some shiftedModule[0] := rfl
  obtain ⟨v, hasValue, m', steps, left⟩ := image_evaluates
    (fun f member => ⟨_, _, shifted_from member⟩) encoded found
    (shifted_from (List.mem_singleton.mpr rfl)) rfl (InstrSel.shifted_noTrap [5]) counted
    (by decide : (0 : Word).toNat + 56 + 8 * ([] : List Word).length ≤ (0x1008 : Word).toNat)
    enters
  refine ⟨img, _, encoded, m, m', steps, rfl, rfl, ?_⟩
  rw [left.result]
  exact hasValue.unique ⟨4, by decide⟩

end ExecEncoder

end Aegis
