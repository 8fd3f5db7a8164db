import AegisCompiler.InstrSelParams
import AegisCompiler.LoweringParams
import AegisCompiler.PassEdits

/-!
# The signature position of a parameter

The selector does not know the signature; it counts live parameter nodes.  So
a parameter is read from its own argument register exactly as long as all
parameters in front of it are alive.
-/

namespace Aegis

namespace InstrSel

open Lowerer

/-- Every live declared parameter is selected, and emitted, with its position
in the signature. -/
structure ParamsKeepIndex (fn : Ast) (h : Graph) : Prop where
  selected : ∀ position < (declaredParams fn).length,
    liveParam h (declaredNode position) = true →
    ∃ v, instrOf (collect h).perNode (declaredNode position) =
      some { op := .param, result := some v, imm := some (position : Int) }
  emitted : ∀ position < (declaredParams fn).length,
    liveParam h (declaredNode position) = true →
    ∀ fuel name mf, lower fuel h name = .ok mf → ∀ mi ∈ mf.instrs,
      mi.op = .param →
      mi.result = (collect h).table.vregOf (declaredNode position) →
      mi.imm = some (position : Int)

/-- All parameters in front of a live declared parameter are live. -/
def NoGaps (fn : Ast) (h : Graph) : Prop :=
  ∀ position < (declaredParams fn).length,
    liveParam h (declaredNode position) = true →
    ∀ earlier < position, liveParam h (declaredNode earlier) = true

/-- Counting below a declared parameter is counting in the signature. -/
theorem paramsBelow_declared {h : Graph}
    (before : ∀ id : Nat, id < 3 → liveParam h id = false) (position : Nat) :
    paramsBelow h (declaredNode position) =
      (List.range position).countP
        fun earlier => liveParam h (declaredNode earlier) := by
  have none : (List.range 3).countP (liveParam h) = 0 := by
    rw [List.countP_eq_zero]
    intro id member
    simp [before id (List.mem_range.mp member)]
  rw [paramsBelow, declaredNode, List.range_add, List.countP_append, none,
    List.countP_map, Nat.zero_add]
  rfl

/-- The count is the position exactly if nothing in front is missing. -/
theorem paramsBelow_eq_position_iff {h : Graph}
    (before : ∀ id : Nat, id < 3 → liveParam h id = false) (position : Nat) :
    paramsBelow h (declaredNode position) = position ↔
      ∀ earlier < position, liveParam h (declaredNode earlier) = true := by
  have full := List.countP_eq_length (l := List.range position)
    (p := fun earlier => liveParam h (declaredNode earlier))
  rw [List.length_range] at full
  rw [paramsBelow_declared before, full]
  simp only [List.mem_range]

/-- Passes leave the nodes in front of the parameters as non-parameters, and
the parameters in the graph. -/
theorem declared_after_passes {order : TableOrder} {fn : Ast} {g h : Graph}
    (lowered : lowerFresh order fn = .ok g) (passes : PassRun g h)
    {position : Nat} (inside : position < (declaredParams fn).length) :
    declaredNode position < h.size ∧
      ∀ id : Nat, id < 3 → liveParam h id = false := by
  have kept := passes.keepsParameters
  obtain ⟨within, -, -, -, before⟩ := lowerFresh_params lowered position inside
  refine ⟨Nat.lt_of_lt_of_le within kept.size, fun id low => ?_⟩
  have old : id < g.size :=
    Nat.lt_of_lt_of_le low (Nat.le_trans (Nat.le_add_right 3 position)
      (Nat.le_of_lt within))
  have notParam := (kept.parameter id old).not.mpr (before id low)
  simp [liveParam, notParam]

/-- The registers of two parameters differ. -/
theorem param_register_injective {h : Graph} {first second : NodeId}
    {v : VRegId} (firstLive : liveParam h first = true)
    (secondLive : liveParam h second = true)
    (firstReg : (collect h).table.vregOf first = some v)
    (secondReg : (collect h).table.vregOf second = some v) :
    first = second := by
  have same := (collect h).table.distinct first second v firstReg secondReg
  simpa [registerSource, liveParam_not_callProj firstLive,
    liveParam_not_callProj secondLive] using same

/-- After any sequence of passes, every declared parameter keeps its index
exactly if no live parameter has a dead one in front of it. -/
theorem paramsKeepIndex_iff {order : TableOrder} {fn : Ast} {g h : Graph}
    (lowered : lowerFresh order fn = .ok g) (passes : PassRun g h) :
    ParamsKeepIndex fn h ↔ NoGaps fn h := by
  have collected := collect_params h
  have numbered {position : Nat} (inside : position < (declaredParams fn).length)
      (live : liveParam h (declaredNode position) = true) :
      ∃ v, instrOf (collect h).perNode (declaredNode position) =
        some (paramInstr h (declaredNode position) v) := by
    obtain ⟨within, -⟩ := declared_after_passes lowered passes inside
    obtain ⟨v, -, found⟩ := collected.found _ within live
    exact ⟨v, found⟩
  constructor
  · intro keeps position inside live
    obtain ⟨-, before⟩ := declared_after_passes lowered passes inside
    obtain ⟨v, found⟩ := numbered inside live
    obtain ⟨w, expected⟩ := keeps.selected position inside live
    rw [found, Option.some.injEq] at expected
    have imm := Option.some.inj (congrArg MachineInstr.imm expected)
    rw [← paramsBelow_eq_position_iff before]
    exact_mod_cast imm
  · intro noGaps
    have rank {position : Nat}
        (inside : position < (declaredParams fn).length)
        (live : liveParam h (declaredNode position) = true) :
        paramsBelow h (declaredNode position) = position :=
      (paramsBelow_eq_position_iff
        (declared_after_passes lowered passes inside).2 position).mpr
        (noGaps position inside live)
    constructor
    · intro position inside live
      obtain ⟨v, found⟩ := numbered inside live
      refine ⟨v, ?_⟩
      rw [found, paramInstr, rank inside live]
    · intro position inside live fuel name mf emitted mi member isParam result
      obtain ⟨id, v, -, alive, register, rfl⟩ :=
        lower_param emitted member isParam
      have same : id = declaredNode position :=
        param_register_injective alive live register result.symm
      rw [same, paramInstr, rank inside live]

/-- `fn f(a, b) { return b; }` -/
def ignoresFirst : Ast :=
  .fnDecl 0 [.param 1 (.ident 9) false, .param 2 (.ident 9) false] none
    (.block [.returnStmt (some (.ident 2))]) false

/-- Its graph after dead code elimination. -/
def ignoresFirstSwept : Graph :=
  (Edce.run (loweredGraph .asListed ignoresFirst)).1

theorem lowerFresh_ignoresFirst : lowerFresh .asListed ignoresFirst =
    .ok (loweredGraph .asListed ignoresFirst) := by
  rfl

theorem paramsKeepIndex_iff_ignoresFirst :
    lowerFresh .asListed ignoresFirst =
        .ok (loweredGraph .asListed ignoresFirst) ∧
      PassRun (loweredGraph .asListed ignoresFirst) ignoresFirstSwept ∧
      (ParamsKeepIndex ignoresFirst ignoresFirstSwept ↔
        NoGaps ignoresFirst ignoresFirstSwept) :=
  ⟨lowerFresh_ignoresFirst, Edce.run_passRun _,
    paramsKeepIndex_iff lowerFresh_ignoresFirst (Edce.run_passRun _)⟩

/-- The second parameter of `ignoresFirst` is selected with index 0. -/
theorem ignoresFirst_not_keepsIndex :
    PassRun (loweredGraph .asListed ignoresFirst) ignoresFirstSwept ∧
      ¬ ParamsKeepIndex ignoresFirst ignoresFirstSwept := by
  refine ⟨Edce.run_passRun _, fun keeps => ?_⟩
  obtain ⟨v, expected⟩ := keeps.selected 1 (by decide) (by decide)
  have actual : (instrOf (collect ignoresFirstSwept).perNode
      (declaredNode 1)).map (·.imm) = some (some 0) := by
    decide
  rw [expected] at actual
  cases actual

end InstrSel

end Aegis
