import Mathlib.Data.BitVec

/-!
# Decoding x86-64 instructions

A decoder for the instructions with register operands that integer code needs,
in 64-bit mode: an optional REX prefix, one or two opcode bytes, a ModRM byte,
and an immediate in little-endian order.  Other byte sequences do not decode.
-/

namespace X86

abbrev Byte := BitVec 8

/-- The number of a general-purpose register. -/
abbrev Reg := BitVec 4

namespace Reg

abbrev rax : Reg := 0
abbrev rdx : Reg := 2
abbrev rbx : Reg := 3
abbrev rsp : Reg := 4
abbrev rbp : Reg := 5

end Reg

/-- The two-operand operations with one opcode scheme. -/
inductive AluOp where
  | add | or | and | sub | xor
  deriving DecidableEq, Repr

inductive ShiftOp where
  | shl | shr | sar
  deriving DecidableEq, Repr

/-- The conditions of signed comparisons. -/
inductive Cond where
  | e | ne | l | ge | le | g
  deriving DecidableEq, Repr

/-- An instruction with its register numbers and immediates. -/
inductive Instr where
  | movRR (dst src : Reg)
  | movImm (dst : Reg) (imm : BitVec 64)
  /-- On 64 bits when wide, else on 32 bits. -/
  | alu (op : AluOp) (wide : Bool) (dst src : Reg)
  | cmp (a b : Reg)
  | test (a b : Reg)
  | imul (dst src : Reg)
  | cqo
  | not (r : Reg)
  | neg (r : Reg)
  | div (divisor : Reg)
  | idiv (divisor : Reg)
  | shift (op : ShiftOp) (r : Reg) (count : Byte)
  | setcc (cond : Cond) (r : Reg)
  | movzx (dst src : Reg)
  | cmovcc (cond : Cond) (dst src : Reg)
  | push (r : Reg)
  | pop (r : Reg)
  | ret
  | jmp (rel : BitVec 32)
  | jz (rel : BitVec 32)
  | call (rel : BitVec 32)
  deriving DecidableEq, Repr

/-- The bits of a REX prefix. -/
structure Rex where
  w : Bool := false
  r : Bool := false
  x : Bool := false
  b : Bool := false
  deriving DecidableEq, Repr

/-- Read a REX prefix: the high nibble is 4. -/
def rexOf (byte : Byte) : Option Rex :=
  if byte.extractLsb' 4 4 = 4#4 then
    some ⟨byte.getLsbD 3, byte.getLsbD 2, byte.getLsbD 1, byte.getLsbD 0⟩
  else none

/-- A register number from its prefix bit and the three bits of its field. -/
def regOf (high : Bool) (field : BitVec 3) : Reg := BitVec.cons high field

/-- The fields of a ModRM byte with a register operand. -/
structure ModRM where
  reg : BitVec 3
  rm : BitVec 3
  deriving DecidableEq, Repr

def modRMOf (byte : Byte) : Option ModRM :=
  if byte.extractLsb' 6 2 = 3#2 then
    some ⟨byte.extractLsb' 3 3, byte.extractLsb' 0 3⟩
  else none

/-- A number of `n` bytes in little-endian order. -/
def littleEndian : (n : Nat) → List Byte → Option (BitVec (8 * n) × List Byte)
  | 0, bytes => some (0, bytes)
  | _ + 1, [] => none
  | n + 1, byte :: bytes =>
      (littleEndian n bytes).map fun (high, rest) =>
        ((high ++ byte).cast (by omega), rest)

/-- The bytes of a number in little-endian order. -/
def toLittleEndian (n : Nat) {width : Nat} (value : BitVec width) : List Byte :=
  (List.range n).map fun i => (value >>> (8 * i)).setWidth 8

theorem littleEndian_toLittleEndian (n : Nat) (value : BitVec (8 * n))
    (rest : List Byte) :
    littleEndian n (toLittleEndian n value ++ rest) = some (value, rest) := by
  induction n with
  | zero =>
      have empty : value = 0 := BitVec.eq_of_getLsbD_eq (by simp)
      rw [empty]
      rfl
  | succ n ih =>
      let high : BitVec (8 * n) := (value >>> 8).setWidth (8 * n)
      have later : (List.range n).map (fun i => (value >>> (8 * (i + 1))).setWidth 8) =
          toLittleEndian n high := by
        apply List.map_congr_left
        intro i member
        have inside : i < n := List.mem_range.mp member
        apply BitVec.eq_of_getLsbD_eq
        intro bit below
        simp only [high, BitVec.getLsbD_setWidth, BitVec.getLsbD_ushiftRight]
        have reach : 8 * i + bit < 8 * n := by omega
        have same : 8 * (i + 1) + bit = 8 + (8 * i + bit) := by omega
        simp [below, reach, same]
      have first : toLittleEndian (n + 1) value =
          value.setWidth 8 :: toLittleEndian n high := by
        rw [← later, toLittleEndian, List.range_succ_eq_map, List.map_cons, List.map_map]
        simp [Function.comp_def]
      rw [first, List.cons_append, littleEndian, ih, Option.map_some]
      refine congrArg some (Prod.ext ?_ rfl)
      apply BitVec.eq_of_getLsbD_eq
      intro bit below
      simp only [high, BitVec.getLsbD_cast, BitVec.getLsbD_append,
        BitVec.getLsbD_setWidth, BitVec.getLsbD_ushiftRight]
      by_cases low : bit < 8
      · simp [low]
      · have inside : bit - 8 < 8 * n := by omega
        have same : 8 + (bit - 8) = bit := by omega
        simp [low, inside, same]

def aluOpOf (opcode : Byte) : Option AluOp :=
  if opcode = 0x01 then some .add
  else if opcode = 0x09 then some .or
  else if opcode = 0x21 then some .and
  else if opcode = 0x29 then some .sub
  else if opcode = 0x31 then some .xor
  else none

def condOf (code : BitVec 4) : Option Cond :=
  if code = 0x4 then some .e
  else if code = 0x5 then some .ne
  else if code = 0xC then some .l
  else if code = 0xD then some .ge
  else if code = 0xE then some .le
  else if code = 0xF then some .g
  else none

/-- The one-operand group F7. -/
def group3 (field : BitVec 3) (r : Reg) : Option Instr :=
  if field = 2 then some (.not r)
  else if field = 3 then some (.neg r)
  else if field = 6 then some (.div r)
  else if field = 7 then some (.idiv r)
  else none

/-- The shift group C1. -/
def shiftOpOf (field : BitVec 3) : Option ShiftOp :=
  if field = 4 then some .shl
  else if field = 5 then some .shr
  else if field = 7 then some .sar
  else none

/-- An instruction whose last byte is a ModRM byte. -/
def withModRM (build : ModRM → Option Instr) :
    List Byte → Option (Instr × List Byte)
  | [] => none
  | byte :: rest => ((modRMOf byte).bind build).map fun instr => (instr, rest)

/-- An instruction that ends in a 32-bit displacement. -/
def withRel32 (build : BitVec 32 → Instr) (bytes : List Byte) :
    Option (Instr × List Byte) :=
  (littleEndian 4 bytes).map fun (rel, rest) => (build rel, rest)

/-- Instructions with a 64-bit operand size. -/
def decodeWide (rex : Rex) (opcode : Byte) (bytes : List Byte) :
    Option (Instr × List Byte) :=
  let reg (m : ModRM) := regOf rex.r m.reg
  let rm (m : ModRM) := regOf rex.b m.rm
  if opcode = 0x89 then withModRM (fun m => some (.movRR (rm m) (reg m))) bytes
  else if opcode = 0x3B then withModRM (fun m => some (.cmp (reg m) (rm m))) bytes
  else if opcode = 0x85 then withModRM (fun m => some (.test (rm m) (reg m))) bytes
  else if opcode = 0xF7 then withModRM (fun m => group3 m.reg (rm m)) bytes
  else if opcode = 0x99 then some (.cqo, bytes)
  else if opcode = 0xC1 then
    match bytes with
    | byte :: count :: rest =>
        ((modRMOf byte).bind fun m =>
          (shiftOpOf m.reg).map fun op => .shift op (rm m) count).map
            fun instr => (instr, rest)
    | _ => none
  else if opcode.extractLsb' 3 5 = 0b10111#5 then
    (littleEndian 8 bytes).map fun (imm, rest) =>
      (.movImm (regOf rex.b (opcode.extractLsb' 0 3)) imm, rest)
  else none

/-- Instructions after the escape byte. -/
def decodeEscape (rex : Rex) (opcode : Byte) (bytes : List Byte) :
    Option (Instr × List Byte) :=
  let reg (m : ModRM) := regOf rex.r m.reg
  let rm (m : ModRM) := regOf rex.b m.rm
  if opcode = 0x84 then withRel32 .jz bytes
  else if opcode.extractLsb' 4 4 = 0x9#4 then
    -- Without a prefix, the byte registers above 3 are not the low bytes.
    withModRM (fun m =>
      if m.rm < 4 then (condOf (opcode.extractLsb' 0 4)).map (.setcc · (rm m))
      else none) bytes
  else if rex.w = false then none
  else if opcode.extractLsb' 4 4 = 0x4#4 then
    withModRM (fun m =>
      (condOf (opcode.extractLsb' 0 4)).map (.cmovcc · (reg m) (rm m))) bytes
  else if opcode = 0xAF then withModRM (fun m => some (.imul (reg m) (rm m))) bytes
  else if opcode = 0xB6 then withModRM (fun m => some (.movzx (reg m) (rm m))) bytes
  else none

/-- Instructions after the prefix. -/
def decodeOpcode (rex : Rex) (opcode : Byte) (bytes : List Byte) :
    Option (Instr × List Byte) :=
  if opcode = 0x0F then
    match bytes with
    | [] => none
    | second :: rest => decodeEscape rex second rest
  else if opcode = 0xC3 then some (.ret, bytes)
  else if opcode = 0xE9 then withRel32 .jmp bytes
  else if opcode = 0xE8 then withRel32 .call bytes
  else if opcode.extractLsb' 3 5 = 0b01010#5 then
    some (.push (regOf rex.b (opcode.extractLsb' 0 3)), bytes)
  else if opcode.extractLsb' 3 5 = 0b01011#5 then
    some (.pop (regOf rex.b (opcode.extractLsb' 0 3)), bytes)
  else
    match aluOpOf opcode with
    | some op =>
        withModRM (fun m =>
          some (.alu op rex.w (regOf rex.b m.rm) (regOf rex.r m.reg))) bytes
    | none => if rex.w then decodeWide rex opcode bytes else none

/-- Decode the first instruction; the rest of the bytes follows it. -/
def decode : List Byte → Option (Instr × List Byte)
  | [] => none
  | byte :: bytes =>
      match rexOf byte with
      | none => decodeOpcode {} byte bytes
      | some rex =>
          match bytes with
          | [] => none
          | opcode :: rest => decodeOpcode rex opcode rest

/-- Decode all of the bytes, with fuel. -/
def decodeAll : Nat → List Byte → Option (List Instr)
  | _, [] => some []
  | 0, _ => none
  | fuel + 1, bytes =>
      (decode bytes).bind fun (instr, rest) =>
        (decodeAll fuel rest).map fun instrs => instr :: instrs

/-- The bytes are the code of the instruction, whatever follows them. -/
def Decodes (bytes : List Byte) (instr : Instr) : Prop :=
  ∀ rest, decode (bytes ++ rest) = some (instr, rest)

/-- The bytes are the codes of these instructions. -/
inductive DecodesAll : List Byte → List Instr → Prop where
  | nil : DecodesAll [] []
  | cons {bytes more : List Byte} {instr : Instr} {instrs : List Instr} :
      Decodes bytes instr → DecodesAll more instrs →
        DecodesAll (bytes ++ more) (instr :: instrs)

theorem Decodes.all {bytes : List Byte} {instr : Instr}
    (decodes : Decodes bytes instr) : DecodesAll bytes [instr] := by
  have single := DecodesAll.cons decodes .nil
  rwa [List.append_nil] at single

theorem DecodesAll.append {bytes more : List Byte} {instrs others : List Instr}
    (first : DecodesAll bytes instrs) (second : DecodesAll more others) :
    DecodesAll (bytes ++ more) (instrs ++ others) := by
  induction first with
  | nil => exact second
  | cons decodes _ ih =>
      rw [List.append_assoc]
      exact .cons decodes ih

theorem Decodes.length_pos {bytes : List Byte} {instr : Instr}
    (decodes : Decodes bytes instr) : 0 < bytes.length := by
  apply List.length_pos_iff.mpr
  rintro rfl
  have impossible := decodes []
  cases impossible

theorem DecodesAll.decodeAll {bytes : List Byte} {instrs : List Instr}
    (decodes : DecodesAll bytes instrs) {fuel : Nat} (enough : bytes.length ≤ fuel) :
    decodeAll fuel bytes = some instrs := by
  induction decodes generalizing fuel with
  | nil => cases fuel <;> rfl
  | @cons bytes more instr instrs head _ ih =>
      have positive := head.length_pos
      rw [List.length_append] at enough
      obtain ⟨fuel, rfl⟩ : ∃ less, fuel = less + 1 := ⟨fuel - 1, by omega⟩
      have nonempty : bytes ++ more ≠ [] := by
        intro empty
        rw [(List.append_eq_nil_iff.mp empty).1] at positive
        cases positive
      have least : more.length ≤ fuel := by omega
      rw [X86.decodeAll, head more, Option.bind_some]
      · exact congrArg (Option.map fun instrs => instr :: instrs) (ih least)
      · exact nonempty

end X86
