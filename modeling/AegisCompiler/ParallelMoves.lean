import AegisCompiler.EncodedShape
import AegisCompiler.SequentialMoves

/-!
# Parallel moves

The encoder searches for an order in which no move reads what an earlier one has
overwritten, if need be after one source was copied to RAX.  The moves that it emits
act as one simultaneous assignment.
-/

namespace Aegis

namespace ExecEncoder

open X86 (Byte Reg Cpu)

/-- The destination and the source of a move. -/
def Move.asPair (move : Move) : SequentialMoves.Move Reg := (move.dst, move.src)

/-- The moves in an order. -/
def inOrder (moves : List Move) (order : List Nat) : List (SequentialMoves.Move Reg) :=
  order.map fun i => (moves.getD i default).asPair

/-- The emitted bytes execute the moves of the order one after another. -/
theorem emitMoves_runs (moves : List Move) (order : List Nat) (cpu : Cpu) :
    Runs (emitMoves moves order) cpu
      { cpu with regs := SequentialMoves.run (inOrder moves order) cpu.regs } := by
  induction order generalizing cpu with
  | nil => exact ⟨[], .nil, rfl⟩
  | cons i order ih =>
      let move := moves.getD i default
      have first : Runs (movRR move.dst move.src) cpu
          (cpu.set move.dst (cpu.regs move.src)) :=
        .of_decodes (movRR_decodes move.dst move.src) rfl
      exact first.append (ih _)

theorem ordersOf_perm {n : Nat} {indices order : List Nat} (length : indices.length = n)
    (member : order ∈ ordersOf n indices) : order.Perm indices := by
  induction n generalizing indices order with
  | zero =>
      rw [ordersOf, List.mem_singleton] at member
      rw [member, List.length_eq_zero_iff.mp length]
  | succ n ih =>
      rw [ordersOf, List.mem_flatMap] at member
      obtain ⟨i, inside, member⟩ := member
      obtain ⟨rest, found, rfl⟩ := List.mem_map.mp member
      have shorter : (indices.erase i).length = n := by
        rw [List.length_erase_of_mem inside, length, Nat.add_sub_cancel]
      exact ((ih shorter found).cons i).trans (List.perm_cons_erase inside).symm

theorem safeOrder_perm {moves : List Move} {order : List Nat}
    (found : safeOrder moves = some order) : order.Perm (List.range moves.length) :=
  ordersOf_perm List.length_range (List.mem_of_find?_eq_some found)

theorem safeOrder_isSafe {moves : List Move} {order : List Nat}
    (found : safeOrder moves = some order) : isSafe moves order = true :=
  List.find?_some found

/-- In a safe order no move reads what an earlier one has changed. -/
theorem readsOld_of_isSafe {moves : List Move} {order : List Nat}
    (apart : (inOrder moves order).Pairwise fun early late => early.1 ≠ late.1)
    (safe : isSafe moves order = true) :
    SequentialMoves.ReadsOld (inOrder moves order) := by
  rw [SequentialMoves.ReadsOld, List.pairwise_iff_getElem]
  intro j i insideJ insideI before reads
  have different := List.pairwise_iff_getElem.mp apart j i insideJ insideI before
  simp only [inOrder, List.length_map] at insideI insideJ
  simp only [inOrder, List.getElem_map] at reads different ⊢
  simp only [isSafe, List.all_eq_true, List.mem_range] at safe
  have at_ {k : Nat} (inside : k < order.length) : order.getD k 0 = order[k] := by
    rw [List.getD_eq_getElem?_getD, List.getElem?_eq_getElem inside, Option.getD_some]
  have here := safe i insideI j before
  simp only [Move.asPair] at reads different ⊢
  -- The later move reads an earlier destination, so it would have to be a self-move.
  rw [at_ insideI, at_ insideJ, ← reads] at here
  simp only [decide_true, Bool.true_and, ne_eq, decide_not, Bool.not_not,
    decide_eq_true_eq] at here
  exact absurd (reads.symm.trans here) different

theorem inOrder_perm {moves : List Move} {order : List Nat}
    (perm : order.Perm (List.range moves.length)) :
    (inOrder moves order).Perm (moves.map Move.asPair) := by
  have all : inOrder moves (List.range moves.length) = moves.map Move.asPair := by
    apply List.ext_getElem
    · simp [inOrder]
    · intro i _ inside
      rw [List.length_map] at inside
      simp [inOrder, List.getD_eq_getElem?_getD, inside]
  rw [← all]
  exact perm.map _

/-- The moves in a safe order act at once. -/
theorem emitMoves_destination {moves : List Move}
    (apart : moves.Pairwise fun first second => first.dst ≠ second.dst) {order : List Nat}
    (found : safeOrder moves = some order) (cpu : Cpu) :
    ∃ after, Runs (emitMoves moves order) cpu after ∧
      ∀ move ∈ moves, after.regs move.dst = cpu.regs move.src := by
  have perm := inOrder_perm (safeOrder_perm found)
  have distinct : (inOrder moves order).Pairwise fun early late => early.1 ≠ late.1 := by
    apply (perm.pairwise_iff fun differ => Ne.symm differ).mpr
    rw [List.pairwise_map]
    exact apart
  have consistent : SequentialMoves.Consistent (inOrder moves order) := by
    intro first firstMember second secondMember same
    have nodup : ((inOrder moves order).map Prod.fst).Nodup := List.pairwise_map.mpr distinct
    rw [List.inj_on_of_nodup_map nodup firstMember secondMember same]
  refine ⟨_, emitMoves_runs moves order cpu, fun move member => ?_⟩
  exact SequentialMoves.run_destination consistent
    (readsOld_of_isSafe distinct (safeOrder_isSafe found)) cpu.regs move.asPair
    (perm.mem_iff.mpr (List.mem_map_of_mem member))

theorem parallelMove_destination {moves : List Move}
    (apart : moves.Pairwise fun first second => first.dst ≠ second.dst)
    (dstRax : ∀ move ∈ moves, move.dst ≠ kRegRax)
    (srcRax : safeOrder moves = none → ∀ move ∈ moves, move.src ≠ kRegRax)
    {code : List Byte} (emitted : parallelMove moves = some code) (cpu : Cpu) :
    ∃ after, Runs code cpu after ∧
      ∀ move ∈ moves, after.regs move.dst = cpu.regs move.src := by
  unfold parallelMove at emitted
  split at emitted
  case h_1 order found =>
    cases emitted
    exact emitMoves_destination apart found cpu
  case h_2 none =>
    cases moves with
    | nil => cases emitted
    | cons first rest =>
        obtain ⟨order, found, rfl⟩ := Option.map_eq_some_iff.mp emitted
        have stage : Runs (movRR kRegRax first.src) cpu
            (cpu.set kRegRax (cpu.regs first.src)) :=
          .of_decodes (movRR_decodes kRegRax first.src) rfl
        have stagedApart :
            ({ first with src := kRegRax } :: rest).Pairwise
              fun first second => first.dst ≠ second.dst := by
          rw [List.pairwise_cons] at apart ⊢
          exact apart
        obtain ⟨after, runs, assigned⟩ := emitMoves_destination stagedApart found
          (cpu.set kRegRax (cpu.regs first.src))
        refine ⟨after, stage.append runs, fun move member => ?_⟩
        rcases List.mem_cons.mp member with rfl | later
        · have here := assigned _ List.mem_cons_self
          rw [Cpu.set_same] at here
          exact here
        · rw [assigned move (List.mem_cons_of_mem _ later),
            Cpu.set_other _ (srcRax none move member)]

theorem paramMoves_rax {ra : LinearScan.ScanState} {instrs : List MachineInstr}
    {moves : List Move} (found : paramMoves ra instrs = .ok moves) :
    ∀ move ∈ moves, move.dst ≠ kRegRax ∧ move.src ≠ kRegRax := by
  intro move member
  obtain ⟨mi, -, made⟩ := mem_of_mapM found member
  simp only at made
  split at made
  case isTrue => cases made
  case isFalse inRange =>
    obtain ⟨home, found, same⟩ := except_bind_ok.mp made
    cases same
    refine ⟨(home_apart found).2.1, ?_⟩
    have all : ∀ i < 6, kAbiArgRegs.getD i kRegRax ≠ kRegRax := by decide
    push Not at inRange
    apply all
    have small : mi.imm.getD 0 < 6 := inRange.2.2
    omega

theorem argMoves_rax {ra : LinearScan.ScanState} {ctx : String} {mi : MachineInstr}
    {moves : List Move} (found : argMoves ra ctx mi = .ok moves) :
    ∀ move ∈ moves, move.dst ≠ kRegRax ∧ move.src ≠ kRegRax := by
  intro move member
  obtain ⟨⟨use, reg⟩, inside, made⟩ := mem_of_mapM found member
  obtain ⟨home, found, same⟩ := except_bind_ok.mp made
  cases same
  refine ⟨?_, (home_apart found).2.1⟩
  have all : ∀ r ∈ kAbiArgRegs, r ≠ kRegRax := by decide
  exact all reg (List.of_mem_zip inside).2

/-- The parameters reach their homes, when the homes are different. -/
theorem paramMoves_assigns {ra : LinearScan.ScanState} {instrs : List MachineInstr}
    {moves : List Move} (found : paramMoves ra instrs = .ok moves)
    (apart : moves.Pairwise fun first second => first.dst ≠ second.dst)
    {code : List Byte} (emitted : parallelMove moves = some code) (cpu : Cpu) :
    ∃ after, Runs code cpu after ∧
      ∀ move ∈ moves, after.regs move.dst = cpu.regs move.src :=
  parallelMove_destination apart (fun move member => (paramMoves_rax found move member).1)
    (fun _ move member => (paramMoves_rax found move member).2) emitted cpu

theorem map_of_mapM {α β γ ε : Type} {f : α → Except ε β} {key : β → γ} {name : α → γ}
    (keeps : ∀ x y, f x = .ok y → key y = name x) {xs : List α} {ys : List β}
    (mapped : xs.mapM f = .ok ys) : ys.map key = xs.map name := by
  induction xs generalizing ys with
  | nil =>
      cases mapped
      rfl
  | cons x xs ih =>
      rw [List.mapM_cons] at mapped
      obtain ⟨first, here, mapped⟩ := except_bind_ok.mp mapped
      obtain ⟨rest, later, same⟩ := except_bind_ok.mp mapped
      cases same
      rw [List.map_cons, List.map_cons, keeps x first here, ih later]

theorem map_snd_zip_sublist {α β : Type} (xs : List α) (ys : List β) :
    ((xs.zip ys).map Prod.snd).Sublist ys := by
  induction xs generalizing ys with
  | nil => simp
  | cons x xs ih =>
      cases ys with
      | nil => simp
      | cons y ys => exact (ih ys).cons_cons y

/-- The arguments of a call go to different registers. -/
theorem argMoves_apart {ra : LinearScan.ScanState} {ctx : String} {mi : MachineInstr}
    {moves : List Move} (found : argMoves ra ctx mi = .ok moves) :
    moves.Pairwise fun first second => first.dst ≠ second.dst := by
  have regs : moves.map Move.dst = ((((List.range kMaxUsesPerInstr).map (useAt mi)).takeWhile
      (·.isSome)).zip kAbiArgRegs).map Prod.snd := map_of_mapM (by
    rintro ⟨use, reg⟩ move made
    obtain ⟨home, -, same⟩ := except_bind_ok.mp made
    cases same
    rfl) found
  have nodup : (moves.map Move.dst).Nodup := by
    rw [regs]
    exact List.Nodup.sublist (map_snd_zip_sublist _ _) (by decide)
  exact List.pairwise_map.mp nodup

/-- The arguments of a call reach their registers. -/
theorem argMoves_assigns {ra : LinearScan.ScanState} {ctx : String} {mi : MachineInstr}
    {moves : List Move} (found : argMoves ra ctx mi = .ok moves)
    {code : List Byte} (emitted : parallelMove moves = some code) (cpu : Cpu) :
    ∃ after, Runs code cpu after ∧
      ∀ move ∈ moves, after.regs move.dst = cpu.regs move.src :=
  parallelMove_destination (argMoves_apart found)
    (fun move member => (argMoves_rax found move member).1)
    (fun _ move member => (argMoves_rax found move member).2) emitted cpu

/-- The lists of moves that the encoder builds. -/
def Built (moves : List Move) : Prop :=
  (∃ ra instrs, paramMoves ra instrs = .ok moves) ∨ ∃ ra ctx mi, argMoves ra ctx mi = .ok moves

/-- The moves of parameters or arguments with destinations apart, executed as emitted: each
destination receives the old value of its source. -/
theorem parallelMove_assigns {moves : List Move} (built : Built moves)
    (apart : moves.Pairwise fun first second => first.dst ≠ second.dst)
    {code : List Byte} (emitted : parallelMove moves = some code) (cpu : Cpu) :
    ∃ after, X86.runBytes code cpu = some after ∧
      ∀ move ∈ moves, after.regs move.dst = cpu.regs move.src := by
  rcases built with ⟨ra, instrs, found⟩ | ⟨ra, ctx, mi, found⟩
  · obtain ⟨after, runs, assigned⟩ := paramMoves_assigns found apart emitted cpu
    exact ⟨after, runs.runBytes, assigned⟩
  · obtain ⟨after, runs, assigned⟩ := argMoves_assigns found emitted cpu
    exact ⟨after, runs.runBytes, assigned⟩

/-- Two parameters exchange their registers through RAX, behind a third one. -/
theorem parallelMove_assigns_exchange :
    let cpu : Cpu := { regs := fun r => r.setWidth 64 }
    ∃ moves code after, paramMoves { assignment := fun v => v }
        [{ op := .param, result := some 2, imm := some 1 },
          { op := .param, result := some 1, imm := some 0 },
          { op := .param, result := some 0, imm := some 2 }] = .ok moves ∧
      moves = [⟨6, 7⟩, ⟨7, 6⟩, ⟨2, 1⟩] ∧ safeOrder moves = none ∧
        parallelMove moves = some code ∧ X86.runBytes code cpu = some after ∧
          ∀ move ∈ moves, after.regs move.dst = cpu.regs move.src := by
  intro cpu
  let moves : List Move := [⟨6, 7⟩, ⟨7, 6⟩, ⟨2, 1⟩]
  have found : paramMoves { assignment := fun v => v }
      [{ op := .param, result := some 2, imm := some 1 },
        { op := .param, result := some 1, imm := some 0 },
        { op := .param, result := some 0, imm := some 2 }] = .ok moves := by
    decide
  obtain ⟨code, emitted⟩ : ∃ code, parallelMove moves = some code :=
    Option.isSome_iff_exists.mp (by decide)
  obtain ⟨after, runs, assigned⟩ :=
    parallelMove_assigns (Or.inl ⟨_, _, found⟩) (by decide) emitted cpu
  exact ⟨moves, code, after, found, rfl, by decide, emitted, runs, assigned⟩

end ExecEncoder

end Aegis
