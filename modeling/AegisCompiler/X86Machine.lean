import AegisCompiler.X86Decoder
import Mathlib.Logic.Relation

/-!
# An x86-64 machine

The registers, the flags that signed comparisons read, a byte-addressed memory
and the instruction pointer.  The code is an image apart from the memory, which
programs cannot write.  A flag that an instruction leaves undefined is `none`,
and reading it is a fault.
-/

namespace X86

abbrev Word := BitVec 64

structure Flags where
  zero : Option Bool := none
  sign : Option Bool := none
  overflow : Option Bool := none
  deriving DecidableEq, Repr

/-- The registers and the flags. -/
structure Cpu where
  regs : Reg → Word
  flags : Flags := {}

namespace Cpu

/-- Write a register. -/
def set (cpu : Cpu) (r : Reg) (value : Word) : Cpu :=
  { cpu with regs := Function.update cpu.regs r value }

@[simp]
theorem set_same (cpu : Cpu) (r : Reg) (value : Word) :
    (cpu.set r value).regs r = value := by
  simp [set]

@[simp]
theorem set_other (cpu : Cpu) {r other : Reg} (apart : other ≠ r) (value : Word) :
    (cpu.set r value).regs other = cpu.regs other := by
  simp [set, apart]

@[simp]
theorem set_flags (cpu : Cpu) (r : Reg) (value : Word) :
    (cpu.set r value).flags = cpu.flags := rfl

end Cpu

/-- The flags of a result. -/
def flagsOf {width : Nat} (result : BitVec width) (overflow : Option Bool) : Flags :=
  ⟨some (result == 0), some result.msb, overflow⟩

def AluOp.result {width : Nat} (op : AluOp) (a b : BitVec width) : BitVec width :=
  match op with
  | .add => a + b
  | .or => a ||| b
  | .and => a &&& b
  | .sub => a - b
  | .xor => a ^^^ b

def AluOp.overflow {width : Nat} (op : AluOp) (a b : BitVec width) : Bool :=
  match op with
  | .add => a.saddOverflow b
  | .sub => a.ssubOverflow b
  | _ => false

def ShiftOp.result (op : ShiftOp) (a : Word) (count : Nat) : Word :=
  match op with
  | .shl => a <<< count
  | .shr => a >>> count
  | .sar => a.sshiftRight count

/-- The overflow flag of a shift, defined for a count of one. -/
def ShiftOp.overflow (op : ShiftOp) (a : Word) (count : Nat) : Option Bool :=
  if count = 1 then
    match op with
    | .shl => some ((a <<< 1).msb ^^ a.msb)
    | .shr => some a.msb
    | .sar => some false
  else none

/-- Whether a condition holds, unless it reads an undefined flag. -/
def Cond.holds (cond : Cond) (flags : Flags) : Option Bool :=
  match cond with
  | .e => flags.zero
  | .ne => flags.zero.map (!·)
  | .l => do return (← flags.sign) != (← flags.overflow)
  | .ge => do return (← flags.sign) == (← flags.overflow)
  | .le => do return (← flags.zero) || (← flags.sign) != (← flags.overflow)
  | .g => do return !(← flags.zero) && (← flags.sign) == (← flags.overflow)

/-- Unsigned division of a double word; a quotient that does not fit faults. -/
def unsignedDivide (high low divisor : Word) : Option (Word × Word) :=
  let dividend := (high ++ low).toNat
  if divisor = 0 then none
  else if dividend / divisor.toNat < 2 ^ 64 then
    some (BitVec.ofNat 64 (dividend / divisor.toNat),
      BitVec.ofNat 64 (dividend % divisor.toNat))
  else none

/-- Signed division of a double word, which truncates the quotient. -/
def signedDivide (high low divisor : Word) : Option (Word × Word) :=
  let dividend := (high ++ low).toInt
  let quotient := dividend.tdiv divisor.toInt
  if divisor = 0 then none
  else if -2 ^ 63 ≤ quotient ∧ quotient < 2 ^ 63 then
    some (BitVec.ofInt 64 quotient, BitVec.ofInt 64 (dividend.tmod divisor.toInt))
  else none

/-- The quotient and the remainder in their registers. -/
def Cpu.divided (cpu : Cpu) (results : Word × Word) : Cpu :=
  { (cpu.set Reg.rax results.1).set Reg.rdx results.2 with flags := {} }

theorem Cpu.divided_rax (cpu : Cpu) (results : Word × Word) :
    (cpu.divided results).regs .rax = results.1 := by
  change ((cpu.set .rax results.1).set .rdx results.2).regs .rax = _
  rw [Cpu.set_other _ (by decide), Cpu.set_same]

theorem Cpu.divided_rdx (cpu : Cpu) (results : Word × Word) :
    (cpu.divided results).regs .rdx = results.2 := by
  change ((cpu.set .rax results.1).set .rdx results.2).regs .rdx = _
  exact Cpu.set_same _ _ _

theorem Cpu.divided_other (cpu : Cpu) (results : Word × Word) {r : Reg}
    (notRax : r ≠ .rax) (notRdx : r ≠ .rdx) :
    (cpu.divided results).regs r = cpu.regs r := by
  change ((cpu.set .rax results.1).set .rdx results.2).regs r = _
  rw [Cpu.set_other _ notRdx, Cpu.set_other _ notRax]

/-- Execute an instruction that only changes registers and flags; none on a
fault, and for instructions of other kinds. -/
def Instr.exec (cpu : Cpu) : Instr → Option Cpu
  | .movRR dst src => some (cpu.set dst (cpu.regs src))
  | .movImm dst imm => some (cpu.set dst imm)
  | .alu op wide dst src =>
      if wide then
        let (a, b) := (cpu.regs dst, cpu.regs src)
        some { cpu.set dst (op.result a b) with
          flags := flagsOf (op.result a b) (some (op.overflow a b)) }
      else
        let (a, b) := ((cpu.regs dst).setWidth 32, (cpu.regs src).setWidth 32)
        some { cpu.set dst ((op.result a b).setWidth 64) with
          flags := flagsOf (op.result a b) (some (op.overflow a b)) }
  | .cmp a b =>
      let (a, b) := (cpu.regs a, cpu.regs b)
      some { cpu with flags := flagsOf (a - b) (some (a.ssubOverflow b)) }
  | .test a b =>
      some { cpu with flags := flagsOf (cpu.regs a &&& cpu.regs b) (some false) }
  | .imul dst src =>
      let (a, b) := (cpu.regs dst, cpu.regs src)
      some { cpu.set dst (a * b) with
        flags := ⟨none, none, some (a.smulOverflow b)⟩ }
  | .cqo =>
      some (cpu.set .rdx (if (cpu.regs .rax).msb then BitVec.allOnes 64 else 0))
  | .not r => some (cpu.set r (~~~cpu.regs r))
  | .neg r =>
      let a := cpu.regs r
      some { cpu.set r (-a) with flags := flagsOf (-a) (some (BitVec.negOverflow a)) }
  | .div divisor =>
      (unsignedDivide (cpu.regs .rdx) (cpu.regs .rax) (cpu.regs divisor)).map
        cpu.divided
  | .idiv divisor =>
      (signedDivide (cpu.regs .rdx) (cpu.regs .rax) (cpu.regs divisor)).map
        cpu.divided
  | .shift op r count =>
      let (a, count) := (cpu.regs r, count.toNat % 64)
      if count = 0 then some cpu
      else some { cpu.set r (op.result a count) with
        flags := flagsOf (op.result a count) (op.overflow a count) }
  | .setcc cond r =>
      (cond.holds cpu.flags).map fun holds =>
        cpu.set r ((cpu.regs r).extractLsb' 8 56 ++ (if holds then 1#8 else 0#8))
  | .movzx dst src => some (cpu.set dst (((cpu.regs src).setWidth 8).setWidth 64))
  | .cmovcc cond dst src =>
      (cond.holds cpu.flags).map fun holds =>
        cpu.set dst (cpu.regs (if holds then src else dst))
  | _ => none

theorem exec_shift {op : ShiftOp} {r : Reg} {count : Byte} {cpu : Cpu}
    (nonzero : count.toNat % 64 ≠ 0) :
    ∃ flags, (Instr.shift op r count).exec cpu =
      some { cpu.set r (op.result (cpu.regs r) (count.toNat % 64)) with flags } :=
  ⟨_, if_neg nonzero⟩

/-- The register that an instruction without control writes, besides RAX and RDX
in divisions. -/
def Instr.target : Instr → Option Reg
  | .movRR dst _ | .movImm dst _ | .alu _ _ dst _ | .imul dst _ | .movzx dst _
  | .cmovcc _ dst _ => some dst
  | .not r | .neg r | .shift _ r _ | .setcc _ r => some r
  | .cqo => some .rdx
  | _ => none

/-- The instruction only changes registers and flags. -/
def Instr.isStraight : Instr → Bool
  | .push _ | .pop _ | .ret | .jmp _ | .jz _ | .call _ => false
  | _ => true

/-- An instruction leaves the registers alone that it does not write. -/
theorem Instr.exec_other {instr : Instr} {cpu after : Cpu} {r : Reg}
    (notTarget : instr.target ≠ some r) (notRax : r ≠ .rax) (notRdx : r ≠ .rdx)
    (executed : instr.exec cpu = some after) : after.regs r = cpu.regs r := by
  have apart {target : Reg} (differs : some target ≠ some r) : r ≠ target :=
    fun same => differs (congrArg some same.symm)
  cases instr with
  | movRR | movImm | imul | cqo | not | neg | movzx =>
      cases executed
      exact Cpu.set_other _ (apart notTarget) _
  | alu op wide dst src =>
      cases wide <;> cases executed <;> exact Cpu.set_other _ (apart notTarget) _
  | cmp | test =>
      cases executed
      rfl
  | div | idiv =>
      obtain ⟨results, -, rfl⟩ := Option.map_eq_some_iff.mp executed
      exact Cpu.divided_other _ _ notRax notRdx
  | shift op target count =>
      change (if count.toNat % 64 = 0 then some cpu else some _) = some after at executed
      split at executed <;> cases executed
      · rfl
      · exact Cpu.set_other _ (apart notTarget) _
  | setcc | cmovcc =>
      obtain ⟨holds, -, rfl⟩ := Option.map_eq_some_iff.mp executed
      exact Cpu.set_other _ (apart notTarget) _
  | push | pop | ret | jmp | jz | call => cases executed

/-- Execute instructions one after the other. -/
def execAll : List Instr → Cpu → Option Cpu
  | [], cpu => some cpu
  | instr :: instrs, cpu => (instr.exec cpu).bind (execAll instrs)

theorem execAll_append (first second : List Instr) (cpu : Cpu) :
    execAll (first ++ second) cpu = (execAll first cpu).bind (execAll second) := by
  induction first generalizing cpu with
  | nil => rfl
  | cons instr instrs ih =>
      rw [List.cons_append, execAll, execAll, Option.bind_assoc]
      exact congrArg _ (funext ih)

/-- Decode all of these bytes and execute them. -/
def runBytes (bytes : List Byte) (cpu : Cpu) : Option Cpu :=
  (decodeAll bytes.length bytes).bind (execAll · cpu)

theorem DecodesAll.runBytes {bytes : List Byte} {instrs : List Instr}
    (decodes : DecodesAll bytes instrs) (cpu : Cpu) :
    runBytes bytes cpu = execAll instrs cpu := by
  rw [X86.runBytes, decodes.decodeAll le_rfl, Option.bind_some]

abbrev Memory := Word → Byte

namespace Memory

/-- Read eight bytes in little-endian order. -/
def load (memory : Memory) (address : Word) : Word :=
  memory (address + 7) ++ memory (address + 6) ++ memory (address + 5) ++
    memory (address + 4) ++ memory (address + 3) ++ memory (address + 2) ++
      memory (address + 1) ++ memory address

/-- Write eight bytes in little-endian order. -/
def store (memory : Memory) (address value : Word) : Memory := fun other =>
  let offset := (other - address).toNat
  if offset < 8 then value.extractLsb' (8 * offset) 8 else memory other

end Memory

/-- Code bytes mapped at an address. -/
structure Image where
  base : Word
  bytes : List Byte
  fits : bytes.length < 2 ^ 64

/-- The instruction at an address, and the address of the next one. -/
def Image.fetch (image : Image) (address : Word) : Option (Instr × Word) :=
  let bytes := image.bytes.drop (address - image.base).toNat
  (decode bytes).map fun (instr, rest) =>
    (instr, address + BitVec.ofNat 64 (bytes.length - rest.length))

/-- The address of a position of the code. -/
def Image.address (image : Image) (pos : Nat) : Word := image.base + BitVec.ofNat 64 pos

/-- An instruction is fetched at its place in the code. -/
theorem Image.fetch_decodes {image : Image} {front code back : List Byte} {instr : Instr}
    (bytes : image.bytes = front ++ (code ++ back)) (decodes : Decodes code instr) :
    image.fetch (image.address front.length) =
      some (instr, image.address (front.length + code.length)) := by
  have small : front.length < 2 ^ 64 := by
    apply Nat.lt_of_le_of_lt _ image.fits
    rw [bytes, List.length_append]
    exact Nat.le_add_right _ _
  have offset : (image.address front.length - image.base).toNat = front.length := by
    rw [address, BitVec.add_comm, BitVec.add_sub_cancel, BitVec.toNat_ofNat,
      Nat.mod_eq_of_lt small]
  have size : (code ++ back).length - back.length = code.length := by simp
  have next : image.address front.length + BitVec.ofNat 64 code.length =
      image.address (front.length + code.length) := by
    rw [address, address, BitVec.ofNat_add, BitVec.add_assoc]
  rw [fetch, offset, bytes, List.drop_left, decodes back, Option.map_some]
  simp only [size, next]

/-- Nothing is fetched behind the code. -/
theorem Image.fetch_end (image : Image) :
    image.fetch (image.address image.bytes.length) = none := by
  have offset :
      (image.address image.bytes.length - image.base).toNat = image.bytes.length := by
    rw [address, BitVec.add_comm, BitVec.add_sub_cancel, BitVec.toNat_ofNat,
      Nat.mod_eq_of_lt image.fits]
  rw [fetch, offset, List.drop_length]
  rfl

structure Machine where
  cpu : Cpu
  rip : Word
  memory : Memory

namespace Machine

/-- The stack pointer. -/
def rsp (m : Machine) : Word := m.cpu.regs .rsp

/-- Push a word, which faults below the lowest address of the stack. -/
def push (lowest : Word) (m : Machine) (value : Word) : Option Machine :=
  if lowest.toNat + 8 ≤ m.rsp.toNat then
    some { m with
      cpu := m.cpu.set .rsp (m.rsp - 8)
      memory := m.memory.store (m.rsp - 8) value }
  else none

/-- The word on top of the stack, and the machine without it. -/
def pop (m : Machine) : Word × Machine :=
  (m.memory.load m.rsp, { m with cpu := m.cpu.set .rsp (m.rsp + 8) })

/-- Execute an instruction, given the address of the next one. -/
def execute (lowest : Word) (m : Machine) (next : Word) : Instr → Option Machine
  | .push r => (m.push lowest (m.cpu.regs r)).map ({ · with rip := next })
  | .pop r =>
      let (value, m) := m.pop
      some { m with cpu := m.cpu.set r value, rip := next }
  | .ret =>
      let (target, m) := m.pop
      some { m with rip := target }
  | .call rel =>
      (m.push lowest next).map ({ · with rip := next + rel.signExtend 64 })
  | .jmp rel => some { m with rip := next + rel.signExtend 64 }
  | .jz rel =>
      m.cpu.flags.zero.map fun zero =>
        { m with rip := if zero then next + rel.signExtend 64 else next }
  | instr => (instr.exec m.cpu).map fun cpu => { m with cpu, rip := next }

/-- One step; none when the machine faults. -/
def step (image : Image) (lowest : Word) (m : Machine) : Option Machine :=
  (image.fetch m.rip).bind fun (instr, next) => m.execute lowest next instr

end Machine

end X86
