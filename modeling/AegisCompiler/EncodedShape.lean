import AegisCompiler.CodeLayout

/-!
# The shape of encoded functions

Every function is the prologue followed by a body: instructions that leave the
stack pointer alone, labels, branches, and epilogues that end in a return.
-/

namespace Aegis

namespace ExecEncoder

open X86 (Byte Reg Instr Decodes)

theorem except_bind_ok {ε α β : Type} {first : Except ε α} {next : α → Except ε β}
    {result : β} :
    (first >>= next) = .ok result ↔ ∃ a, first = .ok a ∧ next a = .ok result := by
  cases first with
  | error => exact ⟨nofun, nofun⟩
  | ok a => exact ⟨fun same => ⟨a, rfl, same⟩, fun ⟨_, same, rest⟩ => by cases same; exact rest⟩

/-- The instruction only computes, and leaves the stack pointer alone. -/
def IsPlain (instr : Instr) : Prop :=
  instr.isStraight = true ∧ instr.target ≠ some .rsp

theorem isPlain_of_target {instr : Instr} {dst : Reg}
    (straight : instr.isStraight = true) (target : instr.target = some dst)
    (dstRsp : dst ≠ .rsp) : IsPlain instr :=
  ⟨straight, fun same => dstRsp (Option.some.inj (target.symm.trans same))⟩

theorem isPlain_of_none {instr : Instr} (straight : instr.isStraight = true)
    (target : instr.target = none) : IsPlain instr := by
  refine ⟨straight, ?_⟩
  rw [target]
  exact Option.some_ne_none Reg.rsp |>.symm

def prologueItems : List Item := calleeSavedHomes.map fun r => .instr (pushReg r) (.push r)

def epilogueItems : List Item :=
  calleeSavedHomes.reverse.map (fun r => .instr (popReg r) (.pop r)) ++
    [.instr [kOpRet] .ret]

/-- The items of the body of a function. -/
inductive Body : List Item → Prop where
  | nil : Body []
  | plain {bytes : List Byte} {instr : Instr} {items : List Item} :
      Decodes bytes instr → IsPlain instr → Body items →
        Body (.instr bytes instr :: items)
  | label (id : Int) {items : List Item} : Body items → Body (.label id :: items)
  | branch (kind : BranchKind) (target : Int) {items : List Item} :
      Body items → Body (.branch kind target :: items)
  | leave {items : List Item} : Body items → Body (epilogueItems ++ items)

theorem Body.append {items more : List Item} (first : Body items) (second : Body more) :
    Body (items ++ more) := by
  induction first with
  | nil => exact second
  | plain decodes plain _ ih => exact .plain decodes plain ih
  | label id _ ih => exact .label id ih
  | branch kind target _ ih => exact .branch kind target ih
  | leave _ ih =>
      rw [List.append_assoc]
      exact .leave ih

/-- The code is that of items without branches and labels. -/
structure Block (code : List Byte) (items : List Item) : Prop where
  body : Body items
  bytes : ∀ filling pos, fill filling pos items = code
  fixups : ∀ calls pos, fixups calls pos items = []
  labels : ∀ pos, labels pos items = []

theorem Block.nil : Block [] [] :=
  ⟨.nil, fun _ _ => rfl, fun _ _ => rfl, fun _ => rfl⟩

theorem Block.append {code more : List Byte} {items others : List Item}
    (first : Block code items) (second : Block more others) :
    Block (code ++ more) (items ++ others) where
  body := first.body.append second.body
  bytes filling pos := by rw [fill_append, first.bytes, second.bytes]
  fixups calls pos := by rw [fixups_append, first.fixups, second.fixups]; rfl
  labels pos := by rw [labels_append, first.labels, second.labels]; rfl

theorem Block.of_items {items : List Item} (body : Body items)
    (fixed : ∀ item ∈ items, ∃ bytes instr, item = .instr bytes instr) :
    Block (fill (fun _ => 0) 0 items) items := by
  have all (pos : Nat) (filling : Filling) :
      fill filling pos items = fill (fun _ => 0) 0 items ∧
        (∀ calls, ExecEncoder.fixups calls pos items = []) ∧
          ExecEncoder.labels pos items = [] := by
    clear body
    induction items generalizing pos filling with
    | nil => exact ⟨rfl, fun _ => rfl, rfl⟩
    | cons item items ih =>
        obtain ⟨bytes, instr, rfl⟩ := fixed item List.mem_cons_self
        have rest := ih fun other member => fixed other (List.mem_cons_of_mem _ member)
        refine ⟨?_, fun calls => ?_, ?_⟩
        · rw [fill, fill, (rest (pos + _) filling).1,
            (rest (0 + (Item.instr bytes instr).size) fun _ => 0).1]
          rfl
        · rw [ExecEncoder.fixups, (rest _ filling).2.1]
          rfl
        · rw [ExecEncoder.labels, (rest _ filling).2.2]
          rfl
  exact ⟨body, fun filling pos => (all pos filling).1,
    fun calls pos => (all pos fun _ => 0).2.1 calls, fun pos => (all pos fun _ => 0).2.2⟩

/-- The code is straight. -/
def Straight (code : List Byte) : Prop := ∃ items, Block code items

theorem Straight.append {code more : List Byte} (first : Straight code)
    (second : Straight more) : Straight (code ++ more) := by
  obtain ⟨items, block⟩ := first
  obtain ⟨others, block'⟩ := second
  exact ⟨items ++ others, block.append block'⟩

theorem Straight.of_decodes {code : List Byte} {instr : Instr}
    (decodes : Decodes code instr) (plain : IsPlain instr) : Straight code := by
  refine ⟨[.instr code instr], .plain decodes plain .nil, fun filling pos => ?_,
    fun _ _ => rfl, fun _ => rfl⟩
  exact List.append_nil _

theorem straight_movRR {dst : Reg} (dstRsp : dst ≠ .rsp) (src : Reg) :
    Straight (movRR dst src) :=
  .of_decodes (movRR_decodes dst src) (isPlain_of_target rfl rfl dstRsp)

theorem straight_copyTo {dst : Reg} (dstRsp : dst ≠ .rsp) (a : Reg) :
    Straight (copyTo dst a) := by
  unfold copyTo
  split
  · exact straight_movRR dstRsp a
  · exact ⟨[], .nil⟩

theorem straight_setcc (op : MachineOp) {dst : Reg} (dstRsp : dst ≠ .rsp) :
    Straight (setccAl (setccOf op) ++ movzxRaxAl dst) :=
  .append (.of_decodes (setcc_decodes op) (isPlain_of_target rfl rfl (by decide)))
    (.of_decodes (movzx_decodes dst) (isPlain_of_target rfl rfl dstRsp))

theorem home_rsp {ra : LinearScan.ScanState} {v : Option VRegId} {ctx : String}
    {r : Reg} (found : homeOf ra v ctx = .ok r) : r ≠ .rsp := by
  have all : ∀ r ∈ kHomeRegs, r ≠ Reg.rsp := by decide
  exact all r (home_apart found).1

theorem straight_shift {op : MachineOp} (dst a : Reg) (dstRsp : dst ≠ .rsp) (imm : Int) :
    Straight (encodeShift op dst a imm) := by
  have plain (shift : X86.ShiftOp) : IsPlain (.shift shift dst (BitVec.ofInt 8 imm)) :=
    isPlain_of_target rfl rfl dstRsp
  refine .append (straight_copyTo dstRsp a) ?_
  have logical : Straight (grpC1Imm kGrpShr dst (BitVec.ofInt 8 imm)) :=
    .of_decodes (grpC1_decodes dst _ rfl (by decide)) (plain .shr)
  cases op
  case shl => exact .of_decodes (grpC1_decodes dst _ rfl (by decide)) (plain .shl)
  case sar => exact .of_decodes (grpC1_decodes dst _ rfl (by decide)) (plain .sar)
  all_goals exact logical

theorem straight_division (op : MachineOp) (dst a b : Reg) (dstRsp : dst ≠ .rsp) :
    Straight (encodeDivision op dst a b) := by
  refine .append (.append (straight_movRR (by decide) a) ?_) (straight_movRR dstRsp _)
  split
  · exact .append (.of_decodes xorEdx_decodes (isPlain_of_target rfl rfl (by decide)))
      (.of_decodes (grpF7_decodes b rfl (by decide)) (isPlain_of_none rfl rfl))
  · exact .append (.of_decodes cqo_decodes (isPlain_of_target rfl rfl (by decide)))
      (.of_decodes (grpF7_decodes b rfl (by decide)) (isPlain_of_none rfl rfl))

theorem straight_unary (op : MachineOp) (dst a : Reg) (dstRsp : dst ≠ .rsp) :
    Straight (encodeUnary op dst a) := by
  refine .append (straight_copyTo dstRsp a) ?_
  split
  · exact .of_decodes (grpF7_decodes dst rfl (by decide))
      (isPlain_of_target rfl rfl dstRsp)
  · exact .of_decodes (grpF7_decodes dst rfl (by decide))
      (isPlain_of_target rfl rfl dstRsp)

/-- The bytes of instructions that only compute are straight. -/
theorem encodeData_straight {ra : LinearScan.ScanState} {ctx : String}
    {mi : MachineInstr} {code : List Byte} (encoded : encodeData ra ctx mi = .ok code) :
    Straight code := by
  cases op : mi.op <;> simp only [encodeData, op, except_bind_ok] at encoded
  case movImm =>
    split at encoded
    case h_1 => cases encoded
    case h_2 imm given =>
      obtain ⟨dst, home, encoded⟩ := except_bind_ok.mp encoded
      cases encoded
      exact .of_decodes (movImm_decodes dst imm) (isPlain_of_target rfl rfl (home_rsp home))
  case mov =>
    obtain ⟨dst, home, a, -, encoded⟩ := encoded
    cases encoded
    exact straight_movRR (home_rsp home) a
  case neg | bnot =>
    obtain ⟨dst, home, a, -, encoded⟩ := encoded
    cases encoded
    exact straight_unary _ dst a (home_rsp home)
  case lnot =>
    obtain ⟨dst, home, a, -, encoded⟩ := encoded
    cases encoded
    rw [encodeLnot, List.append_assoc]
    exact .append (.of_decodes (test_decodes a a) (isPlain_of_none rfl rfl))
      (straight_setcc .cmpEq (home_rsp home))
  case add | sub | and | or | xor =>
    obtain ⟨dst, home, a, -, b, -, encoded⟩ := encoded
    cases encoded
    exact .append (straight_copyTo (home_rsp home) a)
      (.of_decodes (alu_decodes _ dst b) (isPlain_of_target rfl rfl (home_rsp home)))
  case mul =>
    obtain ⟨dst, home, a, -, b, -, encoded⟩ := encoded
    cases encoded
    exact .append (straight_copyTo (home_rsp home) a)
      (.of_decodes (imul_decodes dst b) (isPlain_of_target rfl rfl (home_rsp home)))
  case div | mod | udiv | umod =>
    obtain ⟨dst, home, a, -, b, -, encoded⟩ := encoded
    cases encoded
    exact straight_division _ dst a b (home_rsp home)
  case shl | sar | shr =>
    split at encoded
    case isTrue => cases encoded
    case isFalse =>
      split at encoded
      case h_1 => cases encoded
      case h_2 imm given =>
        split at encoded
        case isTrue => cases encoded
        case isFalse =>
          obtain ⟨dst, home, encoded⟩ := except_bind_ok.mp encoded
          obtain ⟨a, -, encoded⟩ := except_bind_ok.mp encoded
          cases encoded
          exact straight_shift dst a (home_rsp home) imm
  case cmpEq | cmpNe | cmpLt | cmpLe | cmpGt | cmpGe =>
    obtain ⟨dst, home, a, -, b, -, encoded⟩ := encoded
    cases encoded
    rw [encodeCmp, List.append_assoc]
    exact .append (.of_decodes (cmp_decodes a b) (isPlain_of_none rfl rfl))
      (straight_setcc _ (home_rsp home))
  case select =>
    obtain ⟨dst, home, cond, -, tv, -, fv, -, encoded⟩ := encoded
    cases encoded
    exact .append (.append (straight_movRR (home_rsp home) fv)
      (.of_decodes (test_decodes cond cond) (isPlain_of_none rfl rfl)))
        (.of_decodes (cmovne_decodes dst tv) (isPlain_of_target rfl rfl (home_rsp home)))
  case other name =>
    split at encoded
    · obtain ⟨_, _, encoded⟩ := except_bind_ok.mp encoded
      obtain ⟨_, _, encoded⟩ := except_bind_ok.mp encoded
      obtain ⟨_, _, encoded⟩ := except_bind_ok.mp encoded
      cases encoded
    · cases encoded
  all_goals cases encoded

/-- Moves to registers other than the stack pointer are straight. -/
theorem emitMoves_straight {moves : List Move} (notRsp : ∀ move ∈ moves, move.dst ≠ .rsp)
    (order : List Nat) : Straight (emitMoves moves order) := by
  unfold emitMoves
  induction order with
  | nil => exact ⟨[], .nil⟩
  | cons i order ih =>
      refine .append (straight_movRR ?_ _) ih
      rw [List.getD_eq_getElem?_getD]
      cases found : moves[i]? with
      | none => decide
      | some move => exact notRsp move (List.mem_of_getElem? found)

theorem parallelMove_straight {moves : List Move} {code : List Byte}
    (notRsp : ∀ move ∈ moves, move.dst ≠ .rsp) (found : parallelMove moves = some code) :
    Straight code := by
  unfold parallelMove at found
  split at found
  case h_1 order safe =>
    cases found
    exact emitMoves_straight notRsp order
  case h_2 =>
    cases moves with
    | nil => cases found
    | cons first rest =>
      obtain ⟨order, -, rfl⟩ := Option.map_eq_some_iff.mp found
      refine .append (straight_movRR (by decide) _) (emitMoves_straight ?_ order)
      intro move member
      rcases List.mem_cons.mp member with rfl | later
      · exact notRsp first List.mem_cons_self
      · exact notRsp move (List.mem_cons_of_mem _ later)

/-- Each result of a successful `mapM` comes from an element. -/
theorem mem_of_mapM {α β ε : Type} {f : α → Except ε β} {xs : List α} {ys : List β}
    (mapped : xs.mapM f = .ok ys) {y : β} (member : y ∈ ys) : ∃ x ∈ xs, f x = .ok y := by
  induction xs generalizing ys with
  | nil =>
      cases mapped
      cases member
  | cons x xs ih =>
      rw [List.mapM_cons] at mapped
      obtain ⟨first, here, mapped⟩ := except_bind_ok.mp mapped
      obtain ⟨rest, later, same⟩ := except_bind_ok.mp mapped
      cases same
      rcases List.mem_cons.mp member with rfl | member
      · exact ⟨x, List.mem_cons_self, here⟩
      · obtain ⟨x, inside, same⟩ := ih later member
        exact ⟨x, List.mem_cons_of_mem _ inside, same⟩

theorem paramMoves_rsp {ra : LinearScan.ScanState} {instrs : List MachineInstr}
    {moves : List Move} (found : paramMoves ra instrs = .ok moves) :
    ∀ move ∈ moves, move.dst ≠ .rsp := by
  intro move member
  obtain ⟨mi, -, made⟩ := mem_of_mapM found member
  simp only at made
  split at made
  case isTrue => cases made
  case isFalse =>
    obtain ⟨home, found, same⟩ := except_bind_ok.mp made
    cases same
    exact home_rsp found

theorem argMoves_rsp {ra : LinearScan.ScanState} {ctx : String} {mi : MachineInstr}
    {moves : List Move} (found : argMoves ra ctx mi = .ok moves) :
    ∀ move ∈ moves, move.dst ≠ .rsp := by
  intro move member
  obtain ⟨⟨use, reg⟩, inside, made⟩ := mem_of_mapM found member
  obtain ⟨home, -, same⟩ := except_bind_ok.mp made
  cases same
  have all : ∀ r ∈ kAbiArgRegs, r ≠ Reg.rsp := by decide
  exact all reg (List.of_mem_zip inside).2

end ExecEncoder

end Aegis
