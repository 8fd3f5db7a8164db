import AegisCompiler.InstrSelEmit
import AegisCompiler.Lowering
import AegisCompiler.MachineExec
import AegisCompiler.SequentialMoves

/-!
# Back edges of emitted loops

Between the exit check and the jump to the head, a loop region moves the back
value of every header phi into the register of the phi, one phi after another
in user order.
-/

namespace Aegis

namespace InstrSel

variable {g : Graph}

/-- The register of an input slot, according to a table. -/
def VRegTable.refReg (table : VRegTable g) (ref : NodeRef) : Option VRegId :=
  (g.inRange ref).bind table.vregOf

theorem VRegTable.Extends.refReg {early late : VRegTable g}
    (extends_ : early.Extends late) {ref : NodeRef} {v : VRegId}
    (known : early.refReg ref = some v) : late.refReg ref = some v := by
  simp only [VRegTable.refReg, Option.bind_eq_some_iff] at known ⊢
  obtain ⟨id, named, known⟩ := known
  exact ⟨id, named, extends_ id v known⟩

/-- Naming the register of a node only extends the table. -/
theorem vregOfNode_spec {ref : NodeRef} {s final : EmitState g}
    {v : Option VRegId} (run : vregOfNode ref s = some (v, final)) :
    final.instrs = s.instrs ∧ s.table.Extends final.table ∧
      v = final.table.refReg ref ∧
      (v = none → g.inRange ref = none) := by
  simp only [vregOfNode] at run
  cases named : g.inRange ref with
  | none =>
      simp only [named] at run
      cases run
      exact ⟨rfl, VRegTable.Extends.refl _, by simp [VRegTable.refReg, named],
        fun _ => rfl⟩
  | some id =>
      simp only [named] at run
      cases run
      obtain ⟨extends_, assigned⟩ := s.table.getOrAssign_spec id
      exact ⟨rfl, extends_, by simp [VRegTable.refReg, named, assigned],
        fun absent => by cases absent⟩

theorem bind_some {α β : Type} {first : EmitM g α} {next : α → EmitM g β}
    {s final : EmitState g} {result : β} :
    (first >>= next) s = some (result, final) ↔
      ∃ value middle, first s = some (value, middle) ∧
        next value middle = some (result, final) := by
  simp only [bind, StateT.bind]
  cases first s with
  | none => simp
  | some pair =>
      obtain ⟨value, middle⟩ := pair
      simp

/-- The move into the register of a node, in the registers of a table. -/
def moveInto (table : VRegTable g) (target : NodeId) (value : NodeRef) :
    MachineInstr :=
  { op := .mov, result := table.refReg (some target),
    uses := [table.refReg value] }

/-- The move of a header phi. -/
def backEdgeMove (table : VRegTable g) (phi : NodeId) : MachineInstr :=
  moveInto table phi ((g.node phi).inputs.getD 2 none)

theorem emitMov_spec {target : NodeId} {value : NodeRef}
    {s final : EmitState g}
    (run : emitMov target value s = some ((), final)) :
    s.table.Extends final.table ∧
      final.instrs = s.instrs ++ [moveInto final.table target value] ∧
      (final.table.refReg (some target) = none →
        g.inRange (some target) = none) ∧
      (final.table.refReg value = none → g.inRange value = none) := by
  simp only [emitMov, bind_some] at run
  obtain ⟨result, middle, first, source, last, second, emitted⟩ := run
  cases emitted
  obtain ⟨firstInstrs, firstTable, firstReg, firstNone⟩ :=
    vregOfNode_spec first
  obtain ⟨secondInstrs, secondTable, secondReg, secondNone⟩ :=
    vregOfNode_spec second
  have kept : result = last.table.refReg (some target) := by
    cases result with
    | none =>
        have outside := firstNone rfl
        simp [VRegTable.refReg, outside]
    | some v => exact (secondTable.refReg firstReg.symm).symm
  refine ⟨firstTable.trans secondTable, ?_, ?_, ?_⟩
  · simp [moveInto, firstInstrs, secondInstrs, ← kept, ← secondReg]
  · intro absent
    exact firstNone (kept.trans absent)
  · intro absent
    exact secondNone (secondReg.trans absent)

/-- A table that has a register for the phi and for its back value keeps the
move when it is extended. -/
theorem backEdgeMove_extends {early late : VRegTable g}
    (extends_ : early.Extends late) {phi : NodeId}
    (phiKnown : early.refReg (some phi) = none → g.inRange (some phi) = none)
    (backKnown : early.refReg ((g.node phi).inputs.getD 2 none) = none →
      g.inRange ((g.node phi).inputs.getD 2 none) = none) :
    backEdgeMove early phi = backEdgeMove late phi := by
  have keep {ref : NodeRef}
      (known : early.refReg ref = none → g.inRange ref = none) :
      early.refReg ref = late.refReg ref := by
    cases found : early.refReg ref with
    | none => simp [VRegTable.refReg, known found]
    | some v => exact (extends_.refReg found).symm
  simp only [backEdgeMove, moveInto, keep phiKnown, keep backKnown]

/-- A register found by naming a node survives every extension, so a missing
one means that there is no node. -/
theorem VRegTable.Extends.unnamed {early late : VRegTable g}
    (extends_ : early.Extends late) {ref : NodeRef}
    (known : early.refReg ref = none → g.inRange ref = none)
    (absent : late.refReg ref = none) : g.inRange ref = none := by
  refine known ?_
  cases found : early.refReg ref with
  | none => rfl
  | some v =>
      rw [extends_.refReg found] at absent
      cases absent

/-- The back edges are one move for each phi, in order. -/
theorem emitBackEdges_spec {phis : List NodeId} {s final : EmitState g}
    (run : emitBackEdges phis s = some ((), final)) :
    s.table.Extends final.table ∧
      final.instrs = s.instrs ++ phis.map (backEdgeMove final.table) ∧
      ∀ phi ∈ phis,
        (final.table.refReg (some phi) = none →
          g.inRange (some phi) = none) ∧
        (final.table.refReg ((g.node phi).inputs.getD 2 none) = none →
          g.inRange ((g.node phi).inputs.getD 2 none) = none) := by
  induction phis generalizing s with
  | nil =>
      cases run
      exact ⟨VRegTable.Extends.refl _, by simp, by simp⟩
  | cons phi phis ih =>
      rw [emitBackEdges, List.forM_eq_forM, List.forM_cons, bind_some] at run
      obtain ⟨⟨⟩, middle, first, rest⟩ := run
      obtain ⟨firstTable, firstInstrs, phiKnown, backKnown⟩ :=
        emitMov_spec first
      obtain ⟨restTable, restInstrs, known⟩ := ih rest
      refine ⟨firstTable.trans restTable, ?_, ?_⟩
      · have same : backEdgeMove middle.table phi =
            backEdgeMove final.table phi :=
          backEdgeMove_extends restTable phiKnown backKnown
        rw [restInstrs, firstInstrs, List.map_cons, ← same]
        simp [backEdgeMove]
      · intro other member
        rcases List.mem_cons.mp member with rfl | later
        · exact ⟨restTable.unnamed phiKnown, restTable.unnamed backKnown⟩
        · exact known other later

/-- The node behind the back edge of a phi. -/
def backNode (g : Graph) (phi : NodeId) : Option NodeId :=
  inputNode g phi 2

instance : Nontrivial Word := ⟨0, 1, by decide⟩

/-- Every phi takes the value its back value has now, all at once. -/
def simultaneousUpdate (table : VRegTable g) (phis : List NodeId)
    (regs : Regs) : Regs := fun v =>
  match phis.find? fun phi => table.refReg (some phi) = some v with
  | none => regs v
  | some phi =>
      match (backNode g phi).bind table.vregOf with
      | none => regs v
      | some source => regs source

/-- Rounds of a loop: the body, and then the moves. -/
def runRounds (body : Regs → Regs) (moves : List MachineInstr) :
    Nat → Regs → Option Regs
  | 0, regs => some regs
  | rounds + 1, regs =>
      match runBlock moves (body regs) with
      | none => none
      | some regs => runRounds body moves rounds regs

/-- The moves update all phis at once, in one round and in any number of
rounds with any body between them. -/
structure ParallelBackEdges (table : VRegTable g) (phis : List NodeId)
    (moves : List MachineInstr) : Prop where
  once : ∀ regs, runBlock moves regs =
    some (simultaneousUpdate table phis regs)
  rounds : ∀ body rounds regs, runRounds body moves rounds regs =
    some ((simultaneousUpdate table phis ∘ body)^[rounds] regs)

/-- Every header phi has a back value, and whenever that is an earlier header
phi, the earlier one keeps its value. -/
def BackEdgesOrdered (g : Graph) (loop : NodeId) : Prop :=
  (∀ phi ∈ headerPhis g loop, (backNode g phi).isSome = true) ∧
    (headerPhis g loop).Pairwise fun early late =>
      backNode g late = some early → backNode g early = some early

theorem runRounds_of_runBlock {moves : List MachineInstr}
    {update : Regs → Regs} (once : ∀ regs, runBlock moves regs =
      some (update regs)) (body : Regs → Regs) (rounds : Nat) (regs : Regs) :
    runRounds body moves rounds regs = some ((update ∘ body)^[rounds] regs) := by
  induction rounds generalizing regs with
  | zero => rfl
  | succ rounds ih => simp [runRounds, once, ih]

/-- A phi shares its register with no other node. -/
theorem VRegTable.phi_register (table : VRegTable g) {phi other : NodeId}
    {v : VRegId} (isPhi : (g.node phi).kind = .phi)
    (phiReg : table.vregOf phi = some v)
    (otherReg : table.vregOf other = some v) : other = phi := by
  have source := table.distinct phi other v phiReg otherReg
  have phiSource : registerSource g phi = phi := by
    simp [registerSource, isCallValueProj, isPhi]
  rw [phiSource] at source
  by_cases isProj : isCallValueProj g other = true
  · have shares := isProj
    simp only [isCallValueProj, inputHas, Bool.and_eq_true] at shares
    cases found : inputNode g other 0 with
    | none => simp [found] at shares
    | some base =>
        simp only [registerSource, isProj, if_true, found, Option.getD_some]
          at source
        rw [found, ← source] at shares
        simp [isPhi, NodeKind.isCall] at shares
  · simp only [registerSource, isProj, Bool.false_eq_true, if_false] at source
    exact source.symm

theorem headerPhis_spec {loop phi : NodeId} (member : phi ∈ headerPhis g loop) :
    phi < g.size ∧ (g.node phi).kind = .phi := by
  simp only [headerPhis, loopPhis, List.mem_filter, Bool.and_eq_true,
    decide_eq_true_eq] at member
  exact ⟨member.1.2.1.1.1, member.1.2.1.2⟩

/-- The registers of a phi and of its back value. -/
def backEdgePair (table : VRegTable g) (phi : NodeId) : VRegId × VRegId :=
  ((table.refReg (some phi)).getD 0,
    ((backNode g phi).bind table.vregOf).getD 0)

section Moves

variable {table : VRegTable g} {phis : List NodeId}

theorem execData_backEdgeMove {phi : NodeId} {target : VRegId}
    (known : table.refReg (some phi) = some target) (regs : Regs) :
    (backEdgeMove table phi).execData regs =
      ((backNode g phi).bind table.vregOf).map fun source =>
        Function.update regs target (regs source) := by
  have back : table.refReg ((g.node phi).inputs.getD 2 none) =
      (backNode g phi).bind table.vregOf := rfl
  simp only [backEdgeMove, moveInto, MachineInstr.execData, known,
    MachineInstr.operands, back, bind, Option.bind_some]
  cases (backNode g phi).bind table.vregOf with
  | none => simp [List.mapM_cons]
  | some source => simp [List.mapM_cons]

/-- With all registers known, the moves are sequential moves. -/
theorem runBlock_backEdges
    (phiRegs : ∀ phi ∈ phis, (table.refReg (some phi)).isSome = true)
    (backRegs : ∀ phi ∈ phis,
      ((backNode g phi).bind table.vregOf).isSome = true) (regs : Regs) :
    runBlock (phis.map (backEdgeMove table)) regs =
      some (SequentialMoves.run (phis.map (backEdgePair table)) regs) := by
  induction phis generalizing regs with
  | nil => rfl
  | cons phi phis ih =>
      obtain ⟨target, phiReg⟩ := Option.isSome_iff_exists.mp
        (phiRegs phi (by simp))
      obtain ⟨source, backReg⟩ := Option.isSome_iff_exists.mp
        (backRegs phi (by simp))
      rw [List.map_cons, runBlock, execData_backEdgeMove phiReg, backReg,
        List.map_cons, SequentialMoves.run]
      simp only [Option.map_some, backEdgePair, phiReg, backReg,
        Option.getD_some]
      exact ih (fun other member => phiRegs other (by simp [member]))
        (fun other member => backRegs other (by simp [member])) _

/-- If the moves run, every back value has a register. -/
theorem backRegs_of_runBlock
    (phiRegs : ∀ phi ∈ phis, (table.refReg (some phi)).isSome = true)
    {regs final : Regs}
    (runs : runBlock (phis.map (backEdgeMove table)) regs = some final) :
    ∀ phi ∈ phis, ((backNode g phi).bind table.vregOf).isSome = true := by
  induction phis generalizing regs with
  | nil => simp
  | cons phi phis ih =>
      obtain ⟨target, phiReg⟩ := Option.isSome_iff_exists.mp
        (phiRegs phi (by simp))
      rw [List.map_cons, runBlock, execData_backEdgeMove phiReg] at runs
      cases backReg : (backNode g phi).bind table.vregOf with
      | none => simp [backReg] at runs
      | some source =>
          simp only [backReg, Option.map_some] at runs
          have rest := ih (fun other member =>
            phiRegs other (by simp [member])) runs
          intro other member
          rcases List.mem_cons.mp member with rfl | later
          · simp [backReg]
          · exact rest other later

end Moves

section Header

variable {table : VRegTable g} {loop : NodeId}
  (phiRegs : ∀ phi ∈ headerPhis g loop,
    (table.refReg (some phi)).isSome = true)
  (backRegs : ∀ phi ∈ headerPhis g loop,
    (backNode g phi).isSome = true →
      ((backNode g phi).bind table.vregOf).isSome = true)

include phiRegs in
theorem header_register {phi : NodeId} (member : phi ∈ headerPhis g loop) :
    ∃ v, table.refReg (some phi) = some v ∧ table.vregOf phi = some v := by
  obtain ⟨v, known⟩ := Option.isSome_iff_exists.mp (phiRegs phi member)
  have inside := (headerPhis_spec member).1
  refine ⟨v, known, ?_⟩
  simpa [VRegTable.refReg, Graph.inRange, inside] using known

include phiRegs in
/-- Different header phis have different registers. -/
theorem header_distinct {phi other : NodeId}
    (member : phi ∈ headerPhis g loop) (v : VRegId)
    (known : table.vregOf other = some v)
    (same : table.refReg (some phi) = some v) : other = phi := by
  obtain ⟨held, reg, held_⟩ := header_register phiRegs member
  rw [same] at reg
  cases reg
  exact table.phi_register (headerPhis_spec member).2 held_ known

include phiRegs in
/-- The simultaneous update writes the old value of the back value. -/
theorem simultaneousUpdate_phi {phi : NodeId}
    (member : phi ∈ headerPhis g loop) {v source : VRegId}
    (known : table.refReg (some phi) = some v)
    (back : (backNode g phi).bind table.vregOf = some source) (regs : Regs) :
    simultaneousUpdate table (headerPhis g loop) regs v = regs source := by
  cases found : (headerPhis g loop).find? fun phi =>
      table.refReg (some phi) = some v with
  | none =>
      rw [List.find?_eq_none] at found
      exact absurd known (by simpa using found phi member)
  | some other =>
      have otherKnown : table.refReg (some other) = some v := by
        simpa using List.find?_some found
      have otherMember := List.mem_of_find?_eq_some found
      obtain ⟨held, reg, holds⟩ := header_register phiRegs otherMember
      rw [otherKnown] at reg
      cases reg
      have same := header_distinct phiRegs member v holds known
      subst same
      simp [simultaneousUpdate, found, back]

theorem simultaneousUpdate_other {phis : List NodeId} {v : VRegId}
    (untouched : ∀ phi ∈ phis, table.refReg (some phi) ≠ some v)
    (regs : Regs) : simultaneousUpdate table phis regs v = regs v := by
  have absent : phis.find? (fun phi => table.refReg (some phi) = some v) =
      none := by
    simpa [List.find?_eq_none] using untouched
  simp [simultaneousUpdate, absent]

include phiRegs backRegs in
/-- Sequential moves that act simultaneously are the simultaneous update. -/
theorem simultaneous_iff_update
    (valid : ∀ phi ∈ headerPhis g loop, (backNode g phi).isSome = true) :
    SequentialMoves.Simultaneous Word
        ((headerPhis g loop).map (backEdgePair table)) ↔
      ∀ regs, SequentialMoves.run
        ((headerPhis g loop).map (backEdgePair table)) regs =
          simultaneousUpdate table (headerPhis g loop) regs := by
  have pairOf {phi : NodeId} (member : phi ∈ headerPhis g loop) :
      ∃ v source, table.refReg (some phi) = some v ∧
        (backNode g phi).bind table.vregOf = some source ∧
        backEdgePair table phi = (v, source) := by
    obtain ⟨v, known⟩ := Option.isSome_iff_exists.mp (phiRegs phi member)
    obtain ⟨source, back⟩ := Option.isSome_iff_exists.mp
      (backRegs phi member (valid phi member))
    exact ⟨v, source, known, back, by simp [backEdgePair, known, back]⟩
  constructor
  · intro simultaneous regs
    funext v
    by_cases written : ∃ phi ∈ headerPhis g loop,
        table.refReg (some phi) = some v
    · obtain ⟨phi, member, known⟩ := written
      obtain ⟨held, source, reg, back, pair⟩ := pairOf member
      rw [known] at reg
      cases reg
      rw [simultaneousUpdate_phi phiRegs member known back]
      have moved := simultaneous regs (v, source)
        (List.mem_map.mpr ⟨phi, member, pair⟩)
      exact moved
    · push Not at written
      rw [simultaneousUpdate_other written]
      apply SequentialMoves.run_other
      intro move member
      obtain ⟨phi, phiMember, pair⟩ := List.mem_map.mp member
      obtain ⟨held, source, reg, -, shape⟩ := pairOf phiMember
      rw [← pair, shape]
      rintro rfl
      exact written phi phiMember reg
  · intro update regs move member
    obtain ⟨phi, phiMember, pair⟩ := List.mem_map.mp member
    obtain ⟨held, source, reg, back, shape⟩ := pairOf phiMember
    rw [update regs, ← pair, shape]
    exact simultaneousUpdate_phi phiRegs phiMember reg back regs

include phiRegs backRegs in
/-- In registers or in nodes, the order condition is the same. -/
theorem readsOld_iff_ordered
    (valid : ∀ phi ∈ headerPhis g loop, (backNode g phi).isSome = true) :
    SequentialMoves.ReadsOld
        ((headerPhis g loop).map (backEdgePair table)) ↔
      (headerPhis g loop).Pairwise fun early late =>
        backNode g late = some early → backNode g early = some early := by
  -- A back value has the register of a header phi only if it is that phi.
  have shared {phi target : NodeId} (member : phi ∈ headerPhis g loop)
      (targetMember : target ∈ headerPhis g loop) :
      (backEdgePair table phi).2 = (backEdgePair table target).1 ↔
        backNode g phi = some target := by
    obtain ⟨back, backEq⟩ := Option.isSome_iff_exists.mp (valid phi member)
    obtain ⟨source, sourceEq⟩ := Option.isSome_iff_exists.mp
      (backRegs phi member (valid phi member))
    obtain ⟨v, reg, known⟩ := header_register phiRegs targetMember
    simp only [backEdgePair, sourceEq, reg, Option.getD_some]
    rw [backEq, Option.bind_some] at sourceEq
    constructor
    · rintro rfl
      rw [backEq, header_distinct phiRegs targetMember source sourceEq reg]
    · intro same
      rw [same] at backEq
      cases backEq
      rw [sourceEq] at known
      exact Option.some.inj known
  rw [SequentialMoves.ReadsOld, List.pairwise_map]
  constructor <;> intro ordered <;>
    refine ordered.imp_of_mem fun {early late} earlyMember lateMember holds => ?_
  · intro back
    exact (shared earlyMember earlyMember).mp
      (holds ((shared lateMember earlyMember).mpr back))
  · intro back
    exact (shared earlyMember earlyMember).mpr
      (holds ((shared lateMember earlyMember).mp back))

include phiRegs in
theorem consistent_backEdges : SequentialMoves.Consistent
    ((headerPhis g loop).map (backEdgePair table)) := by
  intro first firstMember second secondMember same
  obtain ⟨phi, member, rfl⟩ := List.mem_map.mp firstMember
  obtain ⟨other, otherMember, rfl⟩ := List.mem_map.mp secondMember
  obtain ⟨v, reg, known⟩ := header_register phiRegs member
  obtain ⟨held, otherReg, otherKnown⟩ := header_register phiRegs otherMember
  simp only [backEdgePair, reg, otherReg, Option.getD_some] at same
  subst same
  rw [header_distinct phiRegs member v otherKnown reg]

include phiRegs backRegs in
/-- The moves of a header are a parallel assignment exactly when its back
edges are ordered. -/
theorem parallel_iff_ordered :
    ParallelBackEdges table (headerPhis g loop)
        ((headerPhis g loop).map (backEdgeMove table)) ↔
      BackEdgesOrdered g loop := by
  have sequential (valid : ∀ phi ∈ headerPhis g loop,
      (backNode g phi).isSome = true) (regs : Regs) :=
    runBlock_backEdges phiRegs
      (fun phi member => backRegs phi member (valid phi member)) regs
  constructor
  · intro parallel
    have valid : ∀ phi ∈ headerPhis g loop,
        (backNode g phi).isSome = true := by
      intro phi member
      have known := backRegs_of_runBlock phiRegs
        (parallel.once fun _ => 0) phi member
      cases back : backNode g phi with
      | none => simp [back] at known
      | some node => rfl
    have simultaneous := (simultaneous_iff_update phiRegs backRegs valid).mpr
      fun regs => Option.some.inj
        ((sequential valid regs).symm.trans (parallel.once regs))
    exact ⟨valid, (readsOld_iff_ordered phiRegs backRegs valid).mp
      (SequentialMoves.simultaneous_iff.mp simultaneous).2⟩
  · rintro ⟨valid, ordered⟩
    have simultaneous : SequentialMoves.Simultaneous Word
        ((headerPhis g loop).map (backEdgePair table)) :=
      SequentialMoves.simultaneous_iff.mpr ⟨consistent_backEdges phiRegs,
        (readsOld_iff_ordered phiRegs backRegs valid).mpr ordered⟩
    have once (regs : Regs) :
        runBlock ((headerPhis g loop).map (backEdgeMove table)) regs =
          some (simultaneousUpdate table (headerPhis g loop) regs) := by
      rw [sequential valid regs,
        (simultaneous_iff_update phiRegs backRegs valid).mp simultaneous]
    exact ⟨once, runRounds_of_runBlock once⟩

end Header

/-- The instructions of a loop region end with the exit check, one block of
moves, the jump to the head and the exit label. -/
structure LoopTail (instrs : List MachineInstr) (moves : List MachineInstr) :
    Prop where
  shape : ∃ before cond headLabel exitLabel, instrs =
    before ++ { op := .jz, uses := [cond], imm := some exitLabel } :: moves ++
      [{ op := .jmp, imm := some headLabel },
        { op := .label, imm := some exitLabel }]
  moves_only : ∀ mi ∈ moves, mi.op = .mov

theorem emitInstr_spec {mi : MachineInstr} {s final : EmitState g} {u : Unit}
    (run : emitInstr mi s = some (u, final)) :
    final.table = s.table ∧ final.instrs = s.instrs ++ [mi] := by
  cases run
  exact ⟨rfl, rfl⟩

/-- A loop region ends with its moves, in the registers of the final table. -/
theorem emitLoopRegion_tail {perNode : List NodeInstr} {fuel : Nat}
    {loop : NodeId} {s final : EmitState g}
    (inside : loop < g.size) (first : s.loopEmitted loop = false)
    (run : emitLoopRegion perNode fuel loop s = some ((), final)) :
    LoopTail final.instrs
        ((headerPhis g loop).map (backEdgeMove final.table)) ∧
      ∀ phi ∈ headerPhis g loop,
        (final.table.refReg (some phi)).isSome = true ∧
        ((backNode g phi).isSome = true →
          ((backNode g phi).bind final.table.vregOf).isSome = true) := by
  cases fuel with
  | zero => simp [emitLoopRegion, outOfFuel] at run
  | succ fuel =>
      simp only [emitLoopRegion, bind_some] at run
      obtain ⟨state, s₁, got, run⟩ := run
      cases got
      simp only [Nat.not_le.mpr inside, first, Bool.false_eq_true, or_self,
        if_false, bind_some] at run
      obtain ⟨⟨⟩, s₂, -, labels, s₃, -, ⟨⟩, s₄, -, ⟨⟩, s₅, -, ⟨⟩, s₆, -, ⟨⟩,
        s₇, -, ⟨⟩, s₈, -, ⟨⟩, s₉, check, ⟨⟩, s₁₀, moves, ⟨⟩, s₁₁, jump,
        last⟩ := run
      simp only [emitJz, bind_some] at check
      obtain ⟨cond, s₁₂, named, check⟩ := check
      obtain ⟨checkTable, checkInstrs⟩ := emitInstr_spec check
      obtain ⟨-, moveInstrs, known⟩ := emitBackEdges_spec moves
      obtain ⟨jumpTable, jumpInstrs⟩ := emitInstr_spec jump
      obtain ⟨lastTable, lastInstrs⟩ := emitInstr_spec last
      have table : final.table = s₁₀.table := lastTable.trans jumpTable
      rw [table]
      refine ⟨⟨⟨s₁₂.instrs, cond, labels.1, labels.2, ?_⟩, ?_⟩, ?_⟩
      · simp [lastInstrs, jumpInstrs, moveInstrs, checkInstrs]
      · intro mi member
        obtain ⟨phi, -, rfl⟩ := List.mem_map.mp member
        rfl
      · intro phi member
        obtain ⟨phiKnown, backKnown⟩ := known phi member
        constructor
        · by_contra absent
          have outside := phiKnown (by simpa using absent)
          simp [Graph.inRange, (headerPhis_spec member).1] at outside
        · intro valid
          by_contra absent
          have outside := backKnown (by
            simpa only [backNode, inputNode, VRegTable.refReg,
              Option.not_isSome_iff_eq_none] using absent)
          simp only [backNode, inputNode, outside] at valid
          cases valid

/-- The block of moves of an emitted loop updates all header phis at once
exactly when the back edges are ordered. -/
theorem emitLoopRegion_parallel_iff {perNode : List NodeInstr} {fuel : Nat}
    {loop : NodeId} {s final : EmitState g}
    (inside : loop < g.size) (first : s.loopEmitted loop = false)
    (run : emitLoopRegion perNode fuel loop s = some ((), final)) :
    ∃ moves, LoopTail final.instrs moves ∧
      (ParallelBackEdges final.table (headerPhis g loop) moves ↔
        BackEdgesOrdered g loop) := by
  obtain ⟨tail, known⟩ := emitLoopRegion_tail inside first run
  exact ⟨_, tail, parallel_iff_ordered
    (fun phi member => (known phi member).1)
    (fun phi member => (known phi member).2)⟩

/-- The program
`fn fib(n) { var a = 0; var b = 1; for i in 0..n { let t = a + b; a = b; b = t; } return a; }`,
with the names numbered from 10. -/
def fibonacci : Ast :=
  .fnDecl 1 [.param 10 (.ident 0) false] none (.block [
    .letStmt 11 none (some (.intLit 0)) true,
    .letStmt 12 none (some (.intLit 1)) true,
    .forStmt 13 (.rangeExpr (.intLit 0) (.ident 10)) (.block [
      .letStmt 14 none
        (some (.binaryExpr .plus (.ident 11) (.ident 12))) false,
      .assignExpr .eq (.ident 11) (.ident 12),
      .assignExpr .eq (.ident 12) (.ident 14)]),
    .returnStmt (some (.ident 11))]) false

/-- The graph of the program; its loop is node 7. -/
def fibonacciGraph : Graph :=
  Lowerer.loweredGraph .asListed fibonacci

/-- Emit the loop of the program into an empty function. -/
def emitFibonacciLoop : Option (Unit × EmitState fibonacciGraph) :=
  emitLoopRegion (collect fibonacciGraph).perNode 40 7
    { table := (collect fibonacciGraph).table }

theorem fibonacciGraph_loop : 7 < fibonacciGraph.size ∧
    headerPhis fibonacciGraph 7 = [8, 9, 10] ∧ backNode fibonacciGraph 10 = some 9 ∧
      backNode fibonacciGraph 9 ≠ some 9 ∧ emitFibonacciLoop.isSome = true := by
  decide +kernel

/-- Its header phis are those of `i`, `b` and `a`, and the back value of `a`
is the phi of `b`, which has been overwritten by then. -/
theorem fibonacci_not_ordered : ¬ BackEdgesOrdered fibonacciGraph 7 := by
  rintro ⟨-, ordered⟩
  obtain ⟨-, phis, reads, changes, -⟩ := fibonacciGraph_loop
  rw [phis] at ordered
  simp only [List.pairwise_cons, List.mem_cons] at ordered
  exact changes (ordered.2.1 10 (by simp) reads)

theorem emitLoopRegion_parallel_iff_fibonacci :
    ∃ final : EmitState fibonacciGraph, emitFibonacciLoop = some ((), final) ∧
      ∃ moves, LoopTail final.instrs moves ∧
        (ParallelBackEdges final.table (headerPhis fibonacciGraph 7) moves ↔
          BackEdgesOrdered fibonacciGraph 7) := by
  obtain ⟨inside, -, -, -, emits⟩ := fibonacciGraph_loop
  obtain ⟨⟨⟨⟩, final⟩, run⟩ := Option.isSome_iff_exists.mp emits
  exact ⟨final, run, emitLoopRegion_parallel_iff inside rfl run⟩

/-- The moves of the loop of `fib` are no simultaneous update. -/
theorem fibonacci_not_parallel :
    ∃ final : EmitState fibonacciGraph, emitFibonacciLoop = some ((), final) ∧
      ∃ moves, LoopTail final.instrs moves ∧
        ¬ ParallelBackEdges final.table (headerPhis fibonacciGraph 7)
          moves := by
  obtain ⟨inside, -, -, -, emits⟩ := fibonacciGraph_loop
  obtain ⟨⟨⟨⟩, final⟩, run⟩ := Option.isSome_iff_exists.mp emits
  obtain ⟨tail, known⟩ := emitLoopRegion_tail inside rfl run
  refine ⟨final, run, _, tail, fun parallel => fibonacci_not_ordered ?_⟩
  exact (parallel_iff_ordered (fun phi member => (known phi member).1)
    (fun phi member => (known phi member).2)).mp parallel

end InstrSel

end Aegis
