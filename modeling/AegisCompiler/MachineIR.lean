import AegisCompiler.SeaOfNodesGraph

/-!
# Machine instructions over virtual registers

One record for all instructions: an opcode, result registers, operand registers,
a register class and an immediate.  The selector only ever fills the first
result slot and leaves the class general; an unset slot is `none`.
-/

namespace Aegis

/-- The index of a virtual register. -/
abbrev VRegId := Nat

/-- The opcodes; the source spells them as strings, and any other string is one too. -/
inductive MachineOp where
  | movImm | mov | neg | lnot | bnot
  | add | sub | mul | div | udiv | mod | umod
  | and | or | xor | shl | sar | shr
  | cmpEq | cmpNe | cmpLt | cmpLe | cmpGt | cmpGe
  | load | store | call | select | param | ret
  | label | jmp | jz
  | other (name : String)
  deriving DecidableEq, Repr

inductive RegClass where
  | general | float | vector
  deriving DecidableEq, Repr

/-- One machine instruction. -/
structure MachineInstr where
  op : MachineOp
  result : Option VRegId := none
  uses : List (Option VRegId) := []
  imm : Option Int := none
  /-- The result slots after the first. -/
  moreResults : List (Option VRegId) := []
  rc : RegClass := .general
  deriving DecidableEq, Repr

namespace MachineInstr

/-- The registers an instruction writes. -/
def defs (mi : MachineInstr) : List VRegId :=
  (mi.result :: mi.moreResults).filterMap id

/-- The registers an instruction reads. -/
def reads (mi : MachineInstr) : List VRegId := mi.uses.filterMap id

end MachineInstr

/-- The number of operand slots of an instruction. -/
def kMaxUsesPerInstr : Nat := 4

/-- A selected function. -/
structure MachineFunction where
  name : String := ""
  instrs : List MachineInstr := []
  deriving DecidableEq, Repr

end Aegis
