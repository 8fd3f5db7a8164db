import AegisCompiler.MachineIR
import AegisCompiler.WordArithmetic

/-!
# Executing machine instructions

A machine state holds the position in the stream, the virtual registers and
the calls made so far.  Registers start with arbitrary contents.  Arguments
and call results come from outside.
-/

namespace Aegis

/-- The contents of the virtual registers. -/
abbrev Regs := VRegId → Word

/-- An executed call: the callee symbol and the argument values. -/
structure CallEvent where
  callee : Int
  args : List Word
  deriving DecidableEq, Repr

/-- What a function finds outside itself: its arguments, and the result of
each call as a function of the calls so far. -/
structure MachineEnv where
  arg : Int → Word
  callResult : List CallEvent → Word

structure MachineState where
  pc : Nat := 0
  regs : Regs
  calls : List CallEvent := []

/-- The binary kind an opcode computes. -/
def MachineOp.binopKind (op : MachineOp) : Option NodeKind :=
  match op with
  | .add => some .add
  | .sub => some .sub
  | .mul => some .mul
  | .div => some .div
  | .udiv => some .udiv
  | .mod => some .mod
  | .umod => some .umod
  | .and => some .and
  | .or => some .or
  | .xor => some .xor
  | .shl => some .shl
  | .sar => some .shr
  | .shr => some .lshr
  | .cmpEq => some .cmpEq
  | .cmpNe => some .cmpNe
  | .cmpLt => some .cmpLt
  | .cmpLe => some .cmpLe
  | .cmpGt => some .cmpGt
  | .cmpGe => some .cmpGe
  | _ => none

/-- A signed division whose quotient does not fit; the machine traps on it as
on a zero divisor. -/
def divOverflows (kind : NodeKind) (a b : Word) : Bool :=
  (decide (kind = .div) || decide (kind = .mod)) &&
    decide (a = BitVec.intMin 64) && decide (b = -1)

/-- The result of a binary kind on the machine, `none` if it traps. -/
def machineBinop (kind : NodeKind) (a b : Word) : Option Word :=
  if divOverflows kind a b then none else evalBinop kind a b

/-- The value an instruction computes from its operands and its immediate. -/
def evalOp (op : MachineOp) (imm : Option Int) (operands : List Word) :
    Option Word :=
  match op, operands with
  | .movImm, [] => imm.map (BitVec.ofInt 64)
  | .mov, [a] => some a
  | .neg, [a] => some (-a)
  | .lnot, [a] => some (ofTruth (a == 0))
  | .bnot, [a] => some (~~~a)
  | .select, [cond, a, b] => some (if cond ≠ 0 then a else b)
  | op, [a] =>
      -- A shift with its amount in the immediate.
      match op.binopKind, imm with
      | some kind, some amount => machineBinop kind a (BitVec.ofInt 64 amount)
      | _, _ => none
  | op, [a, b] =>
      match op.binopKind, imm with
      | some kind, none => machineBinop kind a b
      | _, _ => none
  | _, _ => none

@[simp]
theorem evalOp_mov (a : Word) : evalOp .mov none [a] = some a := rfl

namespace MachineInstr

/-- The values in the operand registers, `none` if a slot is unset. -/
def operands (mi : MachineInstr) (regs : Regs) : Option (List Word) :=
  mi.uses.mapM fun use => use.map regs

/-- Execute an instruction that only computes a register. -/
def execData (mi : MachineInstr) (regs : Regs) : Option Regs := do
  let result ← mi.result
  let values ← mi.operands regs
  let value ← evalOp mi.op mi.imm values
  return Function.update regs result value

end MachineInstr

/-- Execute a block of computing instructions. -/
def runBlock : List MachineInstr → Regs → Option Regs
  | [], regs => some regs
  | mi :: rest, regs =>
      match mi.execData regs with
      | none => none
      | some regs => runBlock rest regs

/-- What one step leads to. -/
inductive Outcome where
  | next (state : MachineState)
  | returned (value : Word) (calls : List CallEvent)
  | stuck

/-- The position of a label. -/
def labelPos (instrs : List MachineInstr) (target : Int) : Option Nat :=
  instrs.findIdx? fun mi => mi.op = .label && mi.imm = some target

/-- Continue at a label. -/
def jumpTo (instrs : List MachineInstr) (s : MachineState)
    (target : Option Int) : Outcome :=
  match target.bind (labelPos instrs) with
  | none => .stuck
  | some pc => .next { s with pc }

/-- Execute one instruction. -/
def stepInstr (env : MachineEnv) (instrs : List MachineInstr)
    (s : MachineState) (mi : MachineInstr) : Outcome :=
  match mi.op with
  | .label => .next { s with pc := s.pc + 1 }
  | .jmp => jumpTo instrs s mi.imm
  | .jz =>
      match mi.operands s.regs with
      | some [cond] =>
          if cond = 0 then jumpTo instrs s mi.imm
          else .next { s with pc := s.pc + 1 }
      | _ => .stuck
  | .ret =>
      match mi.operands s.regs with
      | some [value] => .returned value s.calls
      | _ => .stuck
  | .param =>
      match mi.result, mi.imm with
      | some result, some index =>
          .next { s with pc := s.pc + 1, regs :=
            Function.update s.regs result (env.arg index) }
      | _, _ => .stuck
  | .call =>
      match mi.result, mi.imm, mi.operands s.regs with
      | some result, some callee, some args =>
          let calls := s.calls ++ [⟨callee, args⟩]
          .next { pc := s.pc + 1, calls, regs :=
            Function.update s.regs result (env.callResult calls) }
      | _, _, _ => .stuck
  | _ =>
      match mi.execData s.regs with
      | some regs => .next { s with pc := s.pc + 1, regs }
      | none => .stuck

/-- One step of the machine. -/
def step (env : MachineEnv) (instrs : List MachineInstr) (s : MachineState) :
    Outcome :=
  match instrs[s.pc]? with
  | none => .stuck
  | some mi => stepInstr env instrs s mi

/-- The machine returns a value, with the given calls made on the way. -/
inductive Returns (env : MachineEnv) (instrs : List MachineInstr) :
    MachineState → Word → List CallEvent → Prop
  | done {s value calls} : step env instrs s = .returned value calls →
      Returns env instrs s value calls
  | next {s next value calls} : step env instrs s = .next next →
      Returns env instrs next value calls →
      Returns env instrs s value calls

theorem Returns.unique {env : MachineEnv} {instrs : List MachineInstr}
    {s : MachineState} {first second : Word} {left right : List CallEvent}
    (one : Returns env instrs s first left)
    (other : Returns env instrs s second right) :
    first = second ∧ left = right := by
  induction one with
  | done here =>
      cases other with
      | done there =>
          rw [here] at there
          cases there
          exact ⟨rfl, rfl⟩
      | next there => rw [here] at there; cases there
  | next here _ ih =>
      cases other with
      | done there => rw [here] at there; cases there
      | next there rest =>
          rw [here] at there
          cases there
          exact ih rest

end Aegis
