import AegisCompiler.EdceExact
import AegisCompiler.SelectedImages
import AegisCompiler.StraightCode

/-!
# Selecting straight-line code

Straight-line code whose dead nodes are swept has the shape that the selector and the encoder
rely on, and the values of its nodes are the only solution of their equations.
-/

namespace Aegis

open InstrSel (isMapped)
open Lowerer (declaredNode firstValue)

namespace Edce

/-- Every live node besides the start node and the return is read by a live node. -/
def AllRead (g : Graph) (ret : NodeId) : Prop :=
  ∀ id < g.size, (g.node id).isDead = false → id ≠ kStartNodeId → id ≠ ret →
    ∃ user, (g.node user).isDead = false ∧ some id ∈ (g.node user).inputs

section Straight

variable {g : Graph} {params : Nat} {ret result : NodeId}
variable (code : StraightCode g params ret result)

include code

theorem needed_ret : Needed g ret := by
  refine .root code.ret_inside ?_
  rw [isRoot, code.returned.live, code.returned.kind]
  simp

/-- What a needed node reads is needed. -/
theorem needed_input {id input : NodeId} (needed : Needed g id)
    (member : some input ∈ (g.node id).inputs) : Needed g input :=
  needed.input ⟨member, code.inside id input member, code.live_input needed.live member⟩

theorem eq_ret_of_isRoot {id : NodeId} (root : isRoot g id = true) : id = ret := by
  simp only [isRoot, Node.isCrowded, code.effects, Bool.and_eq_true, Bool.not_eq_true',
    Bool.or_eq_true, decide_eq_true_eq] at root
  obtain ⟨live, root⟩ := root
  rcases code.kinds live with kind | kind | mapped | ⟨same, -⟩
  · rw [kind] at root
    simp [effectClassOf] at root
  · rw [kind] at root
    simp [effectClassOf] at root
  · cases kind : (g.node id).kind <;> rw [kind] at mapped root <;>
      first | (cases mapped; done) | simp [effectClassOf] at root
  · exact same

theorem run_allRead : AllRead (run g).1 ret := by
  intro id inside live notStart notRet
  rw [run_fst_size] at inside
  have needed := ((run_alive_iff inside notStart).mp live).2
  cases needed with
  | root _ root => exact absurd (eq_ret_of_isRoot code root) notRet
  | input needed reads =>
      obtain ⟨flags, same⟩ := run_fst_same g _
      exact ⟨_, needed.survives, same ▸ reads.1⟩

/-- The sweep keeps straight-line code. -/
theorem run_code : StraightCode (run g).1 params ret result := by
  have fields (id : NodeId) : ∃ flags, (run g).1.node id = { g.node id with flags } ∧
      flags.has .isPgoSpeculated = (g.node id).flags.has .isPgoSpeculated := by
    rw [(run_swept g).node]
    split
    · rw [flagged]
      split
      · exact ⟨_, rfl, rfl⟩
      · refine ⟨_, rfl, (NodeFlags.has_set _ _ _).trans ?_⟩
        split
        · exact Bool.or_false _
        · exact Bool.or_false _
    · exact ⟨_, rfl, rfl⟩
  have survives {id input : NodeId} (needed : Needed g id)
      (member : some input ∈ (g.node id).inputs) :
      ((run g).1.node input).isDead = false :=
    (needed_input code needed member).survives
  have value {id input : NodeId} (needed : Needed g id)
      (member : some input ∈ (g.node id).inputs) (isValue : IsValue g input) :
      IsValue (run g).1 input := by
    obtain ⟨flags, same, -⟩ := fields input
    exact ⟨survives needed member, same ▸ isValue.mapped⟩
  have returns : (g.node ret).inputs = [some 1, some 2, some result] := code.returned.inputs
  refine ⟨?_, ?_, ?_, ?_, ?_, ?_, ?_, code.declared, ?_⟩
  · intro user input
    obtain ⟨flags, same, -⟩ := fields user
    rw [Graph.usersSnapshot, (run_swept g).outputs, same]
    exact code.paired user input
  · intro id
    obtain ⟨flags, same, -⟩ := fields id
    rw [same]
    exact code.effects id
  · intro id input member
    obtain ⟨flags, same, -⟩ := fields id
    rw [run_fst_size]
    rw [same] at member
    exact code.inside id input member
  · intro id
    obtain ⟨flags, same, kept⟩ := fields id
    rw [same, kept]
    exact code.unguarded id
  · intro id early
    obtain ⟨⟨flags, node⟩, live⟩ := code.before id early
    obtain ⟨flags', same, -⟩ := fields id
    refine ⟨⟨flags', by rw [same, node]⟩, ?_⟩
    by_cases isStart : id = kStartNodeId
    · rw [run_fst_node g (early.trans (code.before_ret.trans_lt code.ret_inside)), flagged,
        if_pos (.inl isStart)]
      exact live
    · have early : id < 3 := early
      have cases : id = 1 ∨ id = 2 := by
        simp only [kStartNodeId] at isStart
        omega
      rcases cases with rfl | rfl
      · exact survives (needed_ret code) (by simp [returns])
      · exact survives (needed_ret code) (by simp [returns])
  · intro id late inside live notRet
    rw [run_fst_size] at inside
    have notStart : id ≠ kStartNodeId := Nat.ne_of_gt (Nat.lt_of_lt_of_le (by decide) late)
    obtain ⟨alive, needed⟩ := (run_alive_iff inside notStart).mp live
    obtain ⟨flags, same, -⟩ := fields id
    rw [same]
    have placed := code.placed id late inside alive notRet
    have moved : Placed (run g).1 (g.node id) :=
      placed.mono fun input member isValue => value needed member isValue
    cases moved with
    | projection kind inputs => exact .projection kind inputs
    | leaf kind inputs => exact .leaf kind inputs
    | unary kind inputs operand => exact .unary kind inputs operand
    | binary kind mapped inputs left right => exact .binary kind mapped inputs left right
  · intro id
    obtain ⟨flags, same, -⟩ := fields id
    rw [same]
    exact code.isParam id
  · obtain ⟨flags, same, -⟩ := fields ret
    refine ⟨(needed_ret code).survives, ?_, ?_, value (needed_ret code) (by simp [returns])
      code.returned.value⟩
    · rw [same]
      exact code.returned.kind
    · rw [same]
      exact returns

/-- Dead code elimination keeps what straight-line code returns. -/
theorem run_carries : Carries params ret g result (run g).1 result := by
  have alive {id : NodeId} (live : ((run g).1.node id).isDead = false) :
      (g.node id).isDead = false := by
    by_cases inside : id < g.size
    · exact alive_before inside live
    · rw [g.node_of_size_le (Nat.not_lt.mp inside)]
      rfl
  refine ⟨run_code code, (run_fst_size g).ge, ?_, fun args v computes => ⟨v, ?_, rfl⟩⟩
  · rintro ⟨rank, ranked⟩
    refine ⟨rank, fun id live input member => ?_⟩
    obtain ⟨flags, same⟩ := run_fst_same g id
    rw [same] at member
    exact ranked id (alive live) input member
  · refine ⟨fun id live kind => ?_, fun id live kind => ?_, fun id operand live kind inputs => ?_,
      fun id lhs rhs live kind inputs => ?_⟩
    all_goals obtain ⟨flags, same⟩ := run_fst_same g id
    · rw [same] at kind ⊢
      exact computes.constant id (alive live) kind
    · have ranks : ControlWalk.paramRank (run g).1 id = ControlWalk.paramRank g id := by
        apply List.countP_congr
        intro p _
        obtain ⟨flags, same⟩ := run_fst_same g p
        rw [same]
      rw [same] at kind
      rw [ranks]
      exact computes.parameter id (alive live) kind
    · rw [same] at kind inputs ⊢
      exact computes.unary id operand (alive live) kind inputs
    · rw [same] at kind inputs ⊢
      exact computes.binary id lhs rhs (alive live) kind inputs

end Straight

end Edce

section Selection

open InstrSel (liveParam paramsBelow recipe recipe_cases Recipe)

variable {g : Graph} {params : Nat} {ret result : NodeId}
variable (code : StraightCode g params ret result)

include code

theorem StraightCode.straightLine (acyclic : Acyclic g) : InstrSel.StraightLine g ret result where
  verified := code.verified
  effects := code.effects
  straight id live := by
    rcases code.kinds live with kind | kind | mapped | ⟨-, kind⟩
    · rw [kind]
      rfl
    · rw [kind]
      rfl
    · cases kind : (g.node id).kind <;> rw [kind] at mapped <;>
        first | (cases mapped; done) | rfl
    · rw [kind]
      rfl
  unary id live isUnop := by
    obtain ⟨-, operand, inputs, -⟩ := code.isValue_unop live isUnop
    exact ⟨operand, inputs⟩
  binary id live isBinop := by
    obtain ⟨-, lhs, rhs, inputs, -⟩ := code.isValue_binop live isBinop
    exact ⟨lhs, rhs, inputs⟩
  acyclic := acyclic
  isReturn := ⟨code.returned.live, code.returned.kind⟩
  onlyReturn id live isReturn := by
    rcases code.kinds live with kind | kind | mapped | ⟨same, -⟩
    · cases kind.symm.trans isReturn
    · cases kind.symm.trans isReturn
    · rw [isReturn] at mapped
      cases mapped
    · exact same
  returned := by
    rw [code.returned.inputs]
    rfl

theorem StraightCode.readsMapped : InstrSel.ReadsMapped g result where
  operands _ live mapped _ member := (code.isValue_input ⟨live, mapped⟩ member).mapped
  returned := code.returned.value.mapped

theorem StraightCode.liveParam_place {id : NodeId} (isParam : liveParam g id = true) :
    (g.node id).isDead = false ∧ (g.node id).kind = .parameter ∧ firstValue ≤ id ∧
      id < declaredNode params := by
  obtain ⟨live, kind⟩ : (g.node id).isDead = false ∧ (g.node id).kind = .parameter := by
    simpa [liveParam] using isParam
  exact ⟨live, kind, (code.isParam id).mp kind⟩

/-- Only values and the return are selected. -/
theorem StraightCode.selected_place {id : NodeId} {r : Recipe} (found : recipe g id = some r) :
    isMapped (g.node id).kind = true ∨ id = ret := by
  obtain ⟨live, shape⟩ := recipe_cases found
  by_cases isRet : r.op = .ret
  · have isReturn := (shape.ret isRet).1
    rcases code.kinds live with kind | kind | mapped | ⟨same, -⟩
    · cases kind.symm.trans isReturn
    · cases kind.symm.trans isReturn
    · exact .inl mapped
    · exact .inr same
  · exact .inl (shape.mapped isRet)

/-- The parameters stand in front. -/
theorem StraightCode.paramsLead : InstrSel.ParamsLead g where
  leads id other isParam notParam selected := by
    obtain ⟨-, -, -, small⟩ := code.liveParam_place isParam
    apply Nat.lt_of_lt_of_le small
    by_contra below
    rw [Nat.not_le] at below
    obtain ⟨r, found⟩ := Option.isSome_iff_exists.mp selected
    obtain ⟨live, -⟩ := recipe_cases found
    rcases code.selected_place found with mapped | rfl
    · have kind := (code.isParam other).mpr ⟨(code.place mapped).1, below⟩
      simp [liveParam, live, kind] at notParam
    · exact absurd code.declared (Nat.not_le.mpr below)
  leaves id isParam := by
    obtain ⟨live, kind, -⟩ := code.liveParam_place isParam
    exact code.leaf_inputs live (.inr kind)

/-- The index of a parameter is smaller than the number of parameters. -/
theorem StraightCode.paramsBelow_lt {id : NodeId} (isParam : liveParam g id = true) :
    paramsBelow g id < params := by
  have few (k : Nat) : paramsBelow g (firstValue + k) ≤ k := by
    induction k with
    | zero =>
        refine Nat.le_of_eq (List.countP_eq_zero.mpr fun other member isParam => ?_)
        obtain ⟨-, -, late, -⟩ := code.liveParam_place isParam
        exact absurd (List.mem_range.mp member) (Nat.not_lt.mpr late)
    | succ k ih =>
        rw [← Nat.add_assoc, InstrSel.paramsBelow_succ]
        split <;> omega
  obtain ⟨-, -, value, small⟩ := code.liveParam_place isParam
  obtain ⟨k, rfl⟩ := Nat.exists_eq_add_of_le value
  exact Nat.lt_of_le_of_lt (few k) (Nat.add_lt_add_iff_left.mp small)

/-- What is computed is read by the instruction of its reader; the amount of a shift, which
is not, is a constant. -/
theorem StraightCode.recipe_reads (acyclic : Acyclic g) {user id : NodeId}
    (live : (g.node user).isDead = false) (member : some id ∈ (g.node user).inputs)
    (mapped : isMapped (g.node id).kind = true) (computed : (g.node id).kind ≠ .constant) :
    ∃ r, recipe g user = some r ∧ some id ∈ r.operands := by
  have straight := code.straightLine acyclic
  have late := (code.place mapped).1
  have notStart (kind : (g.node user).kind = .start ∨ (g.node user).kind = .proj) : False :=
    absurd (code.reads_start live kind member ▸ late) (by decide)
  rcases code.kinds live with kind | kind | known | ⟨rfl, -⟩
  · exact (notStart (.inl kind)).elim
  · exact (notStart (.inr kind)).elim
  · obtain ⟨r, found⟩ := InstrSel.recipe_of_mapped live known
    refine ⟨r, found, ?_⟩
    have reads := straight.dataIns (InstrSel.isMapped_pure known)
    cases (recipe_cases found).2 with
    | constant kind | parameter kind =>
        rw [code.leaf_inputs live (by simp [kind])] at member
        cases member
    | returns kind =>
        rw [kind] at known
        cases known
    | unary mapped =>
        obtain ⟨operand, inputs⟩ := straight.unary user live
          (InstrSel.isUnop_iff.mpr (Option.isSome_iff_exists.mpr ⟨_, mapped⟩))
        rw [inputs] at member
        rw [reads, inputs]
        exact member
    | immediate mapped shift =>
        obtain ⟨lhs, rhs, inputs⟩ :=
          straight.binary user live (InstrSel.isBinop_of_opFor mapped)
        obtain ⟨first, count, rest, ins, isConstant, -⟩ := InstrSel.shiftAmount_some shift
        rw [reads, inputs] at ins
        rw [inputs] at member
        rw [reads, inputs]
        cases ins
        rcases List.mem_pair.mp member with same | same <;> cases same
        · exact List.mem_singleton_self _
        · exact absurd isConstant computed
    | binary mapped =>
        obtain ⟨lhs, rhs, inputs⟩ :=
          straight.binary user live (InstrSel.isBinop_of_opFor mapped)
        rw [inputs] at member
        rw [reads, inputs]
        exact member
  · refine ⟨_, straight.ret_recipe, ?_⟩
    rw [code.returned.inputs] at member
    simp only [List.mem_cons, Option.some.injEq, List.not_mem_nil, or_false] at member
    rcases member with rfl | rfl | rfl
    · exact absurd late (by decide)
    · exact absurd late (by decide)
    · exact List.mem_singleton_self _

/-- Behind dead code elimination nothing is unread. -/
theorem StraightCode.nothingUnread (acyclic : Acyclic g) (allRead : Edce.AllRead g ret) :
    ExecEncoder.NothingUnread g ret := by
  intro id r found reads notRet
  obtain ⟨live, -⟩ := recipe_cases found
  have mapped := (code.selected_place found).resolve_right notRet
  have value : IsValue g id := ⟨live, mapped⟩
  have notStart : id ≠ kStartNodeId :=
    Nat.ne_of_gt (Nat.lt_of_lt_of_le (by decide) (code.place mapped).1)
  obtain ⟨user, alive, member⟩ := allRead id value.inside live notStart notRet
  have computed : (g.node id).kind ≠ .constant := by
    intro kind
    simp only [recipe, live, kind, Bool.false_eq_true, if_false, Option.some.injEq] at found
    exact reads (found ▸ rfl)
  obtain ⟨r', found', reads'⟩ := code.recipe_reads acyclic alive member mapped computed
  exact ⟨user, r', found', reads'⟩

end Selection

section Values

open CallWalk (HasValue)
open InstrSel (noneHeld)

variable {g : Graph} {params : Nat} {ret result : NodeId}
variable (code : StraightCode g params ret result)

include code

/-- The equations of the nodes have one solution. -/
theorem StraightCode.hasValue_iff (acyclic : Acyclic g) {args : List Word} {v : NodeId → Word}
    (computes : Computes g args v) {id : NodeId} (value : IsValue g id) {w : Word} :
    HasValue g args noneHeld id w ↔ w = v id := by
  obtain ⟨rank, ranked⟩ := acyclic
  induction height : rank id using Nat.strong_induction_on generalizing id w with
  | _ height ih =>
      subst height
      have operand {input : NodeId} (member : some input ∈ (g.node id).inputs) (w : Word) :
          HasValue g args noneHeld input w ↔ w = v input :=
        ih (rank input) (ranked id value.live input member) (code.isValue_input value member) rfl
      cases code.placed_value value with
      | projection kind _ =>
          have mapped := value.mapped
          rw [kind] at mapped
          cases mapped
      | leaf kind _ =>
          rcases kind with kind | kind
          · rw [CallWalk.hasValue_constant kind, computes.constant id value.live kind]
          · rw [CallWalk.hasValue_parameter kind, computes.parameter id value.live kind]
      | unary kind inputs _ =>
          have computed := computes.unary id _ value.live kind inputs
          rw [CallWalk.hasValue_unop kind inputs]
          simp only [operand (inputs ▸ List.mem_cons_self), exists_eq_left, computed,
            Option.some.injEq, eq_comm]
      | binary kind _ inputs _ _ =>
          have computed := InstrSel.evalBinop_of_machineBinop
            (computes.binary id _ _ value.live kind inputs)
          rw [CallWalk.hasValue_binop kind inputs]
          simp only [operand (inputs ▸ List.mem_cons_self),
            operand (inputs ▸ List.mem_cons_of_mem _ List.mem_cons_self), exists_and_left,
            exists_eq_left, computed, Option.some.injEq, eq_comm]

theorem StraightCode.noTrap (acyclic : Acyclic g) {args : List Word} {v : NodeId → Word}
    (computes : Computes g args v) : InstrSel.NoTrap g args := by
  intro id lhs rhs a b live isBinop inputs left right
  obtain ⟨-, first, second, read, isLeft, isRight⟩ := code.isValue_binop live isBinop
  cases read.symm.trans inputs
  rw [(code.hasValue_iff acyclic computes isLeft).mp left,
    (code.hasValue_iff acyclic computes isRight).mp right,
    computes.binary id lhs rhs live isBinop inputs]
  rfl

end Values

end Aegis
