import AegisCompiler.DataInstructions
import AegisCompiler.MoveCycles
import AegisCompiler.RegisterHomes

/-!
# Arguments and parameters on the machine

The moves in front of a call put its arguments into the argument registers.  The
moves at the first parameter put all parameters into their homes.
-/

namespace Aegis

namespace ExecEncoder

open LinearScan LiveIntervals
open X86 (Byte Reg Cpu)

theorem Runs.unique {code : List Byte} {cpu first second : Cpu} (one : Runs code cpu first)
    (other : Runs code cpu second) : first = second :=
  Option.some.inj (one.runBytes.symm.trans other.runBytes)

theorem emitMoves_others {moves : List Move} {order : List Nat}
    (found : safeOrder moves = some order) {cpu after : Cpu}
    (runs : Runs (emitMoves moves order) cpu after) {r : Reg}
    (untouched : ∀ move ∈ moves, move.dst ≠ r) : after.regs r = cpu.regs r := by
  rw [runs.unique (emitMoves_runs moves order cpu)]
  apply SequentialMoves.run_other
  intro pair member
  have listed := (inOrder_perm (safeOrder_perm found)).subset member
  obtain ⟨move, inside, rfl⟩ := List.mem_map.mp listed
  exact untouched move inside

theorem parallelMove_others {moves : List Move} {code : List Byte}
    (emitted : parallelMove moves = some code) {cpu after : Cpu}
    (runs : Runs code cpu after) {r : Reg} (untouched : ∀ move ∈ moves, move.dst ≠ r)
    (notRax : r ≠ kRegRax) : after.regs r = cpu.regs r := by
  unfold parallelMove at emitted
  split at emitted
  case h_1 order found =>
    cases emitted
    exact emitMoves_others found runs untouched
  case h_2 =>
    cases moves with
    | nil => cases emitted
    | cons first rest =>
        obtain ⟨order, found, rfl⟩ := Option.map_eq_some_iff.mp emitted
        let staged := cpu.set kRegRax (cpu.regs first.src)
        have stage : Runs (movRR kRegRax first.src) cpu staged :=
          .of_decodes (movRR_decodes kRegRax first.src) rfl
        have moved := emitMoves_runs ({ first with src := kRegRax } :: rest) order staged
        rw [runs.unique (stage.append moved), emitMoves_others found moved]
        · exact Cpu.set_other _ notRax _
        · intro move member
          rcases List.mem_cons.mp member with rfl | later
          · exact untouched first List.mem_cons_self
          · exact untouched move (List.mem_cons_of_mem _ later)

theorem mapM_mem {α β ε : Type} {f : α → Except ε β} {xs : List α} {ys : List β}
    (mapped : xs.mapM f = .ok ys) {x : α} (member : x ∈ xs) : ∃ y ∈ ys, f x = .ok y := by
  induction xs generalizing ys with
  | nil => cases member
  | cons first xs ih =>
      rw [List.mapM_cons] at mapped
      obtain ⟨y, here, mapped⟩ := except_bind_ok.mp mapped
      obtain ⟨rest, later, same⟩ := except_bind_ok.mp mapped
      cases same
      rcases List.mem_cons.mp member with rfl | member
      · exact ⟨y, List.mem_cons_self, here⟩
      · obtain ⟨z, inside, found⟩ := ih later member
        exact ⟨z, List.mem_cons_of_mem _ inside, found⟩

theorem mapM_pairwise {α β ε : Type} {f : α → Except ε β} {R : α → α → Prop}
    {S : β → β → Prop} (keeps : ∀ x y a b, f x = .ok a → f y = .ok b → R x y → S a b)
    {xs : List α} {ys : List β} (mapped : xs.mapM f = .ok ys) (pairwise : xs.Pairwise R) :
    ys.Pairwise S := by
  induction xs generalizing ys with
  | nil =>
      cases mapped
      exact .nil
  | cons x xs ih =>
      rw [List.mapM_cons] at mapped
      obtain ⟨y, here, mapped⟩ := except_bind_ok.mp mapped
      obtain ⟨rest, later, same⟩ := except_bind_ok.mp mapped
      cases same
      obtain ⟨first, pairwise⟩ := List.pairwise_cons.mp pairwise
      refine List.pairwise_cons.mpr ⟨fun z member => ?_, ih later pairwise⟩
      obtain ⟨w, inside, found⟩ := mem_of_mapM later member
      exact keeps x w y z here found (first w inside)

theorem takeWhile_slots {α : Type} (xs : List α) {n : Nat} (enough : xs.length ≤ n) :
    ((List.range n).map fun i => xs[i]?).takeWhile (·.isSome) = xs.map some := by
  induction xs generalizing n with
  | nil =>
      cases n with
      | zero => rfl
      | succ n => simp [List.range_succ_eq_map]
  | cons x xs ih =>
      cases n with
      | zero => simp at enough
      | succ n =>
          rw [List.range_succ_eq_map, List.map_cons, List.map_map]
          have rest := ih (Nat.le_of_succ_le_succ enough)
          simpa [Function.comp_def] using rest

/-- A call whose slots are set has its operands as arguments. -/
theorem argUses_eq {mi : MachineInstr} (full : mi.uses = mi.reads.map some)
    (slots : mi.uses.length ≤ kMaxUsesPerInstr) : argUses mi = mi.reads.map some := by
  have same : useAt mi = fun i => mi.reads[i]? := funext (useAt_eq full)
  rw [full, List.length_map] at slots
  rw [argUses, same, takeWhile_slots _ slots]

section Calls

variable {ra : ScanState} {ctx : String} {mi : MachineInstr} {moves : List Move}

theorem argMoves_loads (found : argMoves ra ctx mi = .ok moves)
    (full : mi.uses = mi.reads.map some) (slots : mi.uses.length ≤ kMaxUsesPerInstr)
    {i : Nat} {v : VRegId} (here : mi.reads[i]? = some v) {r : Reg}
    (argument : kAbiArgRegs[i]? = some r) :
    ∃ src, homeOf ra (some v) ctx = .ok src ∧ (⟨src, r⟩ : Move) ∈ moves := by
  have member : (some v, r) ∈ (argUses mi).zip kAbiArgRegs := by
    rw [argUses_eq full slots]
    apply List.mem_of_getElem? (i := i)
    rw [List.getElem?_zip_eq_some]
    exact ⟨by rw [List.getElem?_map, here]; rfl, argument⟩
  obtain ⟨move, inside, made⟩ := mapM_mem found member
  obtain ⟨src, homed, same⟩ := except_bind_ok.mp made
  cases same
  exact ⟨src, homed, inside⟩

/-- The arguments are in their registers, and what is no argument register stays. -/
theorem argMoves_run (found : argMoves ra ctx mi = .ok moves) {code : List Byte}
    (emitted : parallelMove moves = some code) (full : mi.uses = mi.reads.map some)
    (slots : mi.uses.length ≤ kMaxUsesPerInstr) {regs : Regs} {cpu : Cpu}
    (holds : HoldsOperands ra mi regs cpu) :
    ∃ after, Runs code cpu after ∧
      (∀ (i : Nat) (r : Reg), kAbiArgRegs[i]? = some r →
        ∀ value, (mi.reads.map regs)[i]? = some value → after.regs r = value) ∧
        ∀ r, r ∉ kAbiArgRegs → r ≠ kRegRax → after.regs r = cpu.regs r := by
  obtain ⟨after, runs, assigned⟩ := argMoves_assigns found emitted cpu
  refine ⟨after, runs, fun i r argument value known => ?_, fun r outside notRax => ?_⟩
  · rw [List.getElem?_map] at known
    obtain ⟨v, here, rfl⟩ := Option.map_eq_some_iff.mp known
    obtain ⟨src, homed, member⟩ := argMoves_loads found full slots here argument
    rw [assigned _ member]
    exact holds v (List.mem_of_getElem? here) ctx src homed
  · refine parallelMove_others emitted runs (fun move member same => outside ?_) notRax
    obtain ⟨n, -, dsts⟩ := argMoves_dst found
    have listed : move.dst ∈ kAbiArgRegs.take n := dsts ▸ List.mem_map_of_mem member
    exact same ▸ List.mem_of_mem_take listed

end Calls

/-- The first instructions are the parameters. -/
def ParamsFirst (instrs : List MachineInstr) (n : Nat) : Prop :=
  ∀ p mi, instrs[p]? = some mi → (mi.op = .param ↔ p < n)

/-- The parameters come first, and no two share a home. -/
structure ParamsApart (ra : ScanState) (instrs : List MachineInstr) (n : Nat) : Prop where
  first : ParamsFirst instrs n
  apart : ∀ p q v w, p < n → q < n → p ≠ q → Defines instrs p v → Defines instrs q w →
    home ra v ≠ home ra w

section Params

variable {mf : MachineFunction} {ra : ScanState} {moves : List Move}

theorem paramMoves_loads (found : paramMoves ra mf.instrs = .ok moves) {mi : MachineInstr}
    (member : mi ∈ mf.instrs) (isParam : mi.op = .param) :
    ∃ (i : Nat) (r dst : Reg), mi.imm = some (i : Int) ∧ kAbiArgRegs[i]? = some r ∧
      homeOf ra mi.result "" = .ok dst ∧ (⟨r, dst⟩ : Move) ∈ moves := by
  have listed : mi ∈ mf.instrs.filter fun mi => decide (mi.op = .param) :=
    List.mem_filter.mpr ⟨member, decide_eq_true isParam⟩
  obtain ⟨move, inside, made⟩ := mapM_mem found listed
  simp only at made
  split at made
  case isTrue => cases made
  case isFalse inRange =>
    obtain ⟨dst, homed, same⟩ := except_bind_ok.mp made
    cases same
    push Not at inRange
    obtain ⟨given, nonneg, small⟩ := inRange
    cases imm : mi.imm with
    | none => exact absurd imm given
    | some index =>
        rw [imm, Option.getD_some] at nonneg small
        obtain ⟨i, rfl⟩ := Int.eq_ofNat_of_zero_le nonneg
        have short : i < kAbiArgRegs.length := by
          have bound : (i : Int) < 6 := small
          have length : kAbiArgRegs.length = 6 := rfl
          omega
        refine ⟨i, kAbiArgRegs[i], dst, rfl, List.getElem?_eq_getElem short,
          homeOf_ctx homed "", ?_⟩
        have source : kAbiArgRegs.getD (mi.imm.getD 0).toNat kRegRax = kAbiArgRegs[i] := by
          rw [imm, Option.getD_some, Int.toNat_natCast, List.getD_eq_getElem?_getD,
            List.getElem?_eq_getElem short, Option.getD_some]
        rwa [source] at inside

variable {n : Nat}

/-- Parameters that are all read have different homes; one that is not read may share
its home with a later one. -/
theorem paramsApart_of_used (allocated : Allocated mf ra) (first : ParamsFirst mf.instrs n)
    (distinct : ∀ p q v, p < n → q < n → Defines mf.instrs p v → Defines mf.instrs q v → p = q)
    (used : ∀ p v, p < n → Defines mf.instrs p v →
      ∃ q, n ≤ q ∧ LiveIntervals.Reads mf.instrs q v) : ParamsApart ra mf.instrs n := by
  have ordered (p q : Nat) (v w : VRegId) (less : p < q) (qFirst : q < n)
      (pDefines : Defines mf.instrs p v) (qDefines : Defines mf.instrs q w) :
      home ra v ≠ home ra w := by
    obtain ⟨r, behind, reads⟩ := used p v (less.trans qFirst) pDefines
    obtain ⟨r', behind', reads'⟩ := used q w qFirst qDefines
    have vw : v ≠ w := by
      rintro rfl
      have same := distinct p q v (less.trans qFirst) qFirst pDefines qDefines
      omega
    exact allocated.home_ne_of_mentions vw (p := q) (Or.inl pDefines) (Or.inr reads)
      (Or.inl qDefines) (Or.inr reads') ⟨by omega, le_rfl⟩ ⟨by omega, by omega⟩
  refine ⟨first, fun p q v w pFirst qFirst differ pDefines qDefines => ?_⟩
  rcases Nat.lt_or_gt_of_ne differ with less | greater
  · exact ordered p q v w less qFirst pDefines qDefines
  · exact (ordered q p w v greater pFirst qDefines pDefines).symm

theorem paramMoves_apart (params : ParamsApart ra mf.instrs n)
    (found : paramMoves ra mf.instrs = .ok moves) :
    moves.Pairwise fun a b => a.dst ≠ b.dst := by
  let differ (a b : MachineInstr) : Prop := ∀ v w, a.op = .param → b.op = .param →
    a.result = some v → b.result = some w → home ra v ≠ home ra w
  have apart : mf.instrs.Pairwise differ := by
    rw [List.pairwise_iff_getElem]
    intro p q pInside qInside less v w pParam qParam pResult qResult
    have pFound := List.getElem?_eq_getElem pInside
    have qFound := List.getElem?_eq_getElem qInside
    exact params.apart p q v w ((params.first p _ pFound).mp pParam)
      ((params.first q _ qFound).mp qParam) (Nat.ne_of_lt less)
      ⟨_, pFound, by simp [MachineInstr.defs, pResult]⟩
      ⟨_, qFound, by simp [MachineInstr.defs, qResult]⟩
  have both : (mf.instrs.filter fun mi => decide (mi.op = .param)).Pairwise fun a b =>
      a.op = .param ∧ b.op = .param ∧ differ a b := by
    refine (List.Pairwise.and_mem.mp (apart.filter _)).imp ?_
    rintro a b ⟨aMember, bMember, differs⟩
    exact ⟨of_decide_eq_true (List.mem_filter.mp aMember).2,
      of_decide_eq_true (List.mem_filter.mp bMember).2, differs⟩
  refine mapM_pairwise ?_ found both
  rintro a b x y made made' ⟨aParam, bParam, differs⟩
  have dst {mi : MachineInstr} {move : Move}
      (made : (if mi.imm = none ∨ mi.imm.getD 0 < 0 ∨ kAbiMaxArgs ≤ mi.imm.getD 0 then
        failWith ("param imm=" ++ toString (mi.imm.getD 0) ++
          ": param index out of SysV range [0,6)")
        else do
          return ⟨kAbiArgRegs.getD (mi.imm.getD 0).toNat kRegRax,
            ← homeOf ra mi.result ("param imm=" ++ toString (mi.imm.getD 0))⟩ :
              Except EncodeError Move) = .ok move) :
      ∃ v, mi.result = some v ∧ move.dst = home ra v := by
    split at made
    case isTrue => cases made
    case isFalse =>
      obtain ⟨r, homed, same⟩ := except_bind_ok.mp made
      cases same
      cases result : mi.result with
      | none =>
          rw [result] at homed
          cases homed
      | some v =>
          refine ⟨v, rfl, ?_⟩
          rw [result] at homed
          simp only [homeOf] at homed
          split_ifs at homed
          cases homed
          rfl
  obtain ⟨v, aResult, xDst⟩ := dst made
  obtain ⟨w, bResult, yDst⟩ := dst made'
  rw [xDst, yDst]
  exact differs v w aParam bParam aResult bResult

end Params

end ExecEncoder

end Aegis
