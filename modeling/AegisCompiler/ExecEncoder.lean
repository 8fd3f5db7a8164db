import AegisCompiler.LinearScan
import AegisCompiler.X86Decoder

/-!
# The executable encoder

Machine instructions become bytes in one pass over the function.  Labels are
recorded at their positions, and jumps and calls leave a displacement of zero
that is patched afterwards: jumps at the end of the function, calls when the
module is linked.
-/

namespace Aegis

namespace ExecEncoder

open X86 (Byte Reg)

def kRexW : Byte := 0x48
def kRexR : Byte := 0x44
def kRexB : Byte := 0x41
def kModrmRegReg : Byte := 0xC0
def kModrmRegShift : Nat := 3
def kRegIdxMask : Byte := 0x07

def kOpRet : Byte := 0xC3
def kOpPush : Byte := 0x50
def kOpPop : Byte := 0x58
def kOpMovRmR : Byte := 0x89
def kOpCmpRmR : Byte := 0x3B
def kOpAddRR : Byte := 0x01
def kOpOrRR : Byte := 0x09
def kOpAndRR : Byte := 0x21
def kOpSubRR : Byte := 0x29
def kOpXorRR : Byte := 0x31
def kOpTestRR : Byte := 0x85
def kOpGrpF7 : Byte := 0xF7
def kOpGrpC1 : Byte := 0xC1
def kOpMovImm : Byte := 0xB8
def kOpCqo : Byte := 0x99
def kOpEscape2Byte : Byte := 0x0F
def kOpImulRR : Byte := 0xAF
def kOpMovzxR64R8 : Byte := 0xB6
def kOpCmovNe : Byte := 0x45
def kOpJmpRel32 : Byte := 0xE9
def kOpCallRel32 : Byte := 0xE8
def kOpJzRel32 : Byte := 0x84
def kRel32DispBytes : Nat := 4

def kGrpNot : Byte := 2
def kGrpNeg : Byte := 3
def kGrpDiv : Byte := 6
def kGrpIDiv : Byte := 7
def kGrpShl : Byte := 4
def kGrpShr : Byte := 5
def kGrpSar : Byte := 7

def kSetccEq : Byte := 0x94
def kSetccNe : Byte := 0x95
def kSetccLt : Byte := 0x9C
def kSetccGe : Byte := 0x9D
def kSetccLe : Byte := 0x9E
def kSetccGt : Byte := 0x9F
def kModrmAl : Byte := 0xC0
def kModrmXorEdxEax : Byte := 0xD2

def kRegRax : Reg := 0
def kRegRcx : Reg := 1
def kRegRdx : Reg := 2
def kRegRsi : Reg := 6
def kRegR8 : Reg := 8

def kExecHomeRegCount : Nat := 13

/-- The homes of virtual registers: RCX, RSI, RDI, R8 to R11, RBX, RBP and R12
to R15. -/
def kHomeRegs : List Reg := [1, 6, 7, 8, 9, 10, 11, 3, 5, 12, 13, 14, 15]

def kFirstCalleeSavedHome : Nat := 7

/-- The argument registers: RDI, RSI, RDX, RCX, R8 and R9. -/
def kAbiArgRegs : List Reg := [7, 6, 2, 1, 8, 9]

def kAbiMaxArgs : Int := 6

/-- The bytes of a little-endian number. -/
def putU64 (value : Word) : List Byte :=
  (List.range 8).map fun i => (value >>> (8 * i)).setWidth 8

/-- A REX.W prefix, extended for registers from R8 on. -/
def rex (regHi rmHi : Bool) : Byte :=
  let r := kRexW
  let r := if regHi then r ||| kRexR else r
  if rmHi then r ||| kRexB else r

/-- The register is one that needs a prefix bit. -/
def isHi (r : Reg) : Bool := decide (kRegR8 ≤ r)

/-- The three bits of a register that fit in a field. -/
def regIdx (r : Reg) : Byte := r.setWidth 8 &&& kRegIdxMask

def modrm (reg rm : Reg) : Byte :=
  kModrmRegReg ||| (regIdx reg <<< kModrmRegShift) ||| regIdx rm

def opRmR (opcode : Byte) (dst src : Reg) : List Byte :=
  [rex (isHi src) (isHi dst), opcode, modrm src dst]

def movRR (dst src : Reg) : List Byte := opRmR kOpMovRmR dst src

def pushReg (r : Reg) : List Byte :=
  (if isHi r then [kRexB] else []) ++ [kOpPush ||| regIdx r]

def popReg (r : Reg) : List Byte :=
  (if isHi r then [kRexB] else []) ++ [kOpPop ||| regIdx r]

def movImm (dst : Reg) (imm : Int) : List Byte :=
  [rex false (isHi dst), kOpMovImm ||| regIdx dst] ++ putU64 (BitVec.ofInt 64 imm)

def grpF7 (selector : Byte) (rm : Reg) : List Byte :=
  [rex false (isHi rm), kOpGrpF7,
    kModrmRegReg ||| (selector <<< kModrmRegShift) ||| regIdx rm]

def grpC1Imm (selector : Byte) (rm : Reg) (count : Byte) : List Byte :=
  [rex false (isHi rm), kOpGrpC1,
    kModrmRegReg ||| (selector <<< kModrmRegShift) ||| regIdx rm, count]

def setccAl (setccLow : Byte) : List Byte := [kOpEscape2Byte, setccLow, kModrmAl]

def movzxRaxAl (dst : Reg) : List Byte :=
  [rex (isHi dst) false, kOpEscape2Byte, kOpMovzxR64R8,
    kModrmRegReg ||| (regIdx dst <<< kModrmRegShift)]

/-- Copy the first operand, unless it is in place. -/
def copyTo (dst a : Reg) : List Byte := if dst ≠ a then movRR dst a else []

/-- Why nothing was encoded.  The encoder holds a copy of the caller's error string,
and some texts are written to the copy only. -/
structure EncodeError where
  text : String
  inCopy : Bool := false
  deriving DecidableEq, Repr

abbrev failWith {α : Type} (text : String) : Except EncodeError α := .error { text }

abbrev failInCopy {α : Type} (text : String) : Except EncodeError α :=
  .error { text, inCopy := true }

/-- The caller's error string after a call. -/
def reported {α : Type} (err : String) : Except EncodeError α → String
  | .ok _ => err
  | .error failure => if failure.inCopy then err else failure.text

/-- The spelling of an opcode. -/
def opName : MachineOp → String
  | .movImm => "mov_imm" | .mov => "mov" | .neg => "neg" | .lnot => "lnot"
  | .bnot => "bnot" | .add => "add" | .sub => "sub" | .mul => "mul" | .div => "div"
  | .udiv => "udiv" | .mod => "mod" | .umod => "umod" | .and => "and" | .or => "or"
  | .xor => "xor" | .shl => "shl" | .sar => "sar" | .shr => "shr"
  | .cmpEq => "cmp_eq" | .cmpNe => "cmp_ne" | .cmpLt => "cmp_lt"
  | .cmpLe => "cmp_le" | .cmpGt => "cmp_gt" | .cmpGe => "cmp_ge"
  | .load => "load" | .store => "store" | .call => "call" | .select => "select"
  | .param => "param" | .ret => "ret" | .label => "label" | .jmp => "jmp"
  | .jz => "jz" | .other name => name

/-- The register of a virtual register. -/
def homeOf (ra : LinearScan.ScanState) (v : Option VRegId) (ctx : String) :
    Except EncodeError Reg :=
  match v with
  | none => failInCopy (ctx ++ ": missing operand vreg")
  | some v =>
      if ra.spilled v then
        failInCopy (ctx ++ ": vreg " ++ toString v ++
          " is spilled — executable path requires zero spills")
      else
        let preg := ra.assignment v
        if preg = LinearScan.kNoPReg ∨ kExecHomeRegCount ≤ preg then
          failInCopy (ctx ++ ": vreg " ++ toString v ++
            " has no executable home (preg=" ++ toString preg ++ ")")
        else .ok (kHomeRegs.getD preg kRegRax)

/-- An operand slot of an instruction. -/
def useAt (mi : MachineInstr) (slot : Nat) : Option VRegId := mi.uses.getD slot none

def aluOpcode : MachineOp → Byte
  | .add => kOpAddRR
  | .sub => kOpSubRR
  | .and => kOpAndRR
  | .or => kOpOrRR
  | _ => kOpXorRR

def setccOf : MachineOp → Byte
  | .cmpEq => kSetccEq
  | .cmpNe => kSetccNe
  | .cmpLt => kSetccLt
  | .cmpLe => kSetccLe
  | .cmpGt => kSetccGt
  | _ => kSetccGe

def encodeAlu (op : MachineOp) (dst a b : Reg) : List Byte :=
  copyTo dst a ++ opRmR (aluOpcode op) dst b

def encodeMul (dst a b : Reg) : List Byte :=
  copyTo dst a ++
    [rex (isHi dst) (isHi b), kOpEscape2Byte, kOpImulRR, modrm dst b]

/-- Divisions go through RAX and RDX. -/
def encodeDivision (op : MachineOp) (dst a b : Reg) : List Byte :=
  movRR kRegRax a ++
    (if op = .udiv ∨ op = .umod then
      [kOpXorRR, kModrmXorEdxEax] ++ grpF7 kGrpDiv b
    else [kRexW, kOpCqo] ++ grpF7 kGrpIDiv b) ++
      movRR dst (if op = .div ∨ op = .udiv then kRegRax else kRegRdx)

def encodeShift (op : MachineOp) (dst a : Reg) (imm : Int) : List Byte :=
  let selector := match op with
    | .shl => kGrpShl
    | .sar => kGrpSar
    | _ => kGrpShr
  copyTo dst a ++ grpC1Imm selector dst (BitVec.ofInt 8 imm)

def encodeUnary (op : MachineOp) (dst a : Reg) : List Byte :=
  copyTo dst a ++ grpF7 (if op = .neg then kGrpNeg else kGrpNot) dst

def encodeLnot (dst a : Reg) : List Byte :=
  opRmR kOpTestRR a a ++ setccAl kSetccEq ++ movzxRaxAl dst

def encodeCmp (op : MachineOp) (dst a b : Reg) : List Byte :=
  [rex (isHi a) (isHi b), kOpCmpRmR, modrm a b] ++ setccAl (setccOf op) ++
    movzxRaxAl dst

def encodeSelect (dst cond tv fv : Reg) : List Byte :=
  movRR dst fv ++ opRmR kOpTestRR cond cond ++
    [rex (isHi dst) (isHi tv), kOpEscape2Byte, kOpCmovNe, modrm dst tv]

/-- The bytes of an instruction that only computes a register. -/
def encodeData (ra : LinearScan.ScanState) (ctx : String) (mi : MachineInstr) :
    Except EncodeError (List Byte) :=
  let dst := homeOf ra mi.result ctx
  let use (slot : Nat) := homeOf ra (useAt mi slot) ctx
  match mi.op with
  | .movImm =>
      match mi.imm with
      | none => failWith (ctx ++ ": mov_imm without immediate")
      | some imm => do return movImm (← dst) imm
  | .add | .sub | .and | .or | .xor => do
      return encodeAlu mi.op (← dst) (← use 0) (← use 1)
  | .mul => do return encodeMul (← dst) (← use 0) (← use 1)
  | .div | .mod | .udiv | .umod => do
      return encodeDivision mi.op (← dst) (← use 0) (← use 1)
  | .shl | .sar | .shr =>
      if useAt mi 1 ≠ none then
        failWith (ctx ++ ": shift-by-register unsupported (constant " ++
          "shift amounts only)")
      else match mi.imm with
        | none => failWith (ctx ++ ": shift without immediate count")
        | some imm =>
            if imm < 0 then failWith (ctx ++ ": shift without immediate count")
            else do return encodeShift mi.op (← dst) (← use 0) imm
  | .neg | .bnot => do return encodeUnary mi.op (← dst) (← use 0)
  | .lnot => do return encodeLnot (← dst) (← use 0)
  | .cmpEq | .cmpNe | .cmpLt | .cmpLe | .cmpGt | .cmpGe => do
      return encodeCmp mi.op (← dst) (← use 0) (← use 1)
  | .mov => do return movRR (← dst) (← use 0)
  | .select => do return encodeSelect (← dst) (← use 0) (← use 1) (← use 2)
  | .load | .store =>
      failWith (ctx ++ ": memory operations are not supported in the " ++
        "executable path (straight-line integer code only)")
  | .other name =>
      if name.startsWith "cmp_" then do
        let _ ← dst
        let _ ← use 0
        let _ ← use 1
        failWith (ctx ++ ": unsigned compare forms are not emitted " ++
          "by instruction selection yet")
      else failWith (ctx ++ ": unknown machine op")
  | _ => failWith (ctx ++ ": unknown machine op")

structure Move where
  src : Reg
  dst : Reg
  deriving DecidableEq, Repr, Inhabited

/-- All orders of some indices, in lexicographic order. -/
def ordersOf : Nat → List Nat → List (List Nat)
  | 0, _ => [[]]
  | n + 1, indices =>
      indices.flatMap fun i => (ordersOf n (indices.erase i)).map (i :: ·)

/-- No move of this order reads what an earlier one has overwritten. -/
def isSafe (moves : List Move) (order : List Nat) : Bool :=
  (List.range order.length).all fun i =>
    (List.range i).all fun j =>
      let move := moves.getD (order.getD i 0) default
      let earlier := moves.getD (order.getD j 0) default
      !(decide (earlier.dst = move.src) && decide (move.src ≠ move.dst))

def safeOrder (moves : List Move) : Option (List Nat) :=
  (ordersOf moves.length (List.range moves.length)).find? (isSafe moves)

def emitMoves (moves : List Move) (order : List Nat) : List Byte :=
  order.flatMap fun i =>
    let move := moves.getD i default
    movRR move.dst move.src

/-- The moves in a safe order; when there is none, the first source goes
through RAX. -/
def parallelMove (moves : List Move) : Option (List Byte) :=
  match safeOrder moves with
  | some order => some (emitMoves moves order)
  | none =>
      match moves with
      | [] => none
      | first :: rest =>
          let staged := { first with src := kRegRax } :: rest
          (safeOrder staged).map fun order =>
            movRR kRegRax first.src ++ emitMoves staged order

/-- The bytes so far, the positions of labels (the latest first), the jumps and
calls to patch, with positions of 32 bits, and what the pass has seen. -/
structure Encoder where
  buf : List Byte := []
  labelPos : List (Int × Nat) := []
  jumpFixups : List (Nat × Int) := []
  callFixups : List (Nat × Int) := []
  paramBlockEmitted : Bool := false
  sawRet : Bool := false
  deriving DecidableEq, Repr

namespace Encoder

def put (enc : Encoder) (bytes : List Byte) : Encoder :=
  { enc with buf := enc.buf ++ bytes }

def defineLabel (enc : Encoder) (id : Int) : Encoder :=
  if id < 0 then enc
  else { enc with labelPos := (id, enc.buf.length) :: enc.labelPos }

def addFixup (enc : Encoder) (label : Int) : Encoder :=
  { enc with jumpFixups := enc.jumpFixups ++ [(enc.buf.length % 2 ^ 32, label)] }

def addCall (enc : Encoder) (callee : Int) : Encoder :=
  { enc with callFixups := enc.callFixups ++ [(enc.buf.length % 2 ^ 32, callee)] }

/-- The position of a label that was defined. -/
def labelPosition (enc : Encoder) (id : Int) : Option Nat := enc.labelPos.lookup id

end Encoder

/-- The bytes of a displacement that is patched later. -/
def blankRel32 : List Byte := List.replicate kRel32DispBytes 0

/-- The callee-saved homes. -/
def calleeSavedHomes : List Reg := kHomeRegs.drop kFirstCalleeSavedHome

def prologue : List Byte := calleeSavedHomes.flatMap pushReg

def epilogue : List Byte := calleeSavedHomes.reverse.flatMap popReg

/-- The moves of all parameters to their homes. -/
def paramMoves (ra : LinearScan.ScanState) (instrs : List MachineInstr) :
    Except EncodeError (List Move) :=
  (instrs.filter fun mi => decide (mi.op = .param)).mapM fun mi =>
    let imm := mi.imm.getD 0
    let ctx := "param imm=" ++ toString imm
    if mi.imm = none ∨ imm < 0 ∨ kAbiMaxArgs ≤ imm then
      failWith (ctx ++ ": param index out of SysV range [0,6)")
    else do return ⟨kAbiArgRegs.getD imm.toNat kRegRax, ← homeOf ra mi.result ctx⟩

/-- The moves of the arguments of a call, up to the first unset slot. -/
def argMoves (ra : LinearScan.ScanState) (ctx : String) (mi : MachineInstr) :
    Except EncodeError (List Move) :=
  let args := (((List.range kMaxUsesPerInstr).map (useAt mi)).takeWhile
    (·.isSome)).zip kAbiArgRegs
  args.mapM fun (use, reg) => do return ⟨← homeOf ra use ctx, reg⟩

/-- Encode one instruction. -/
def encodeInstr (ra : LinearScan.ScanState) (pmoves : List Move) (enc : Encoder)
    (entry : MachineInstr × Nat) : Except EncodeError Encoder :=
  let (mi, idx) := entry
  let ctx := "instr " ++ toString idx ++ " (" ++ opName mi.op ++ ")"
  match mi.op with
  | .param =>
      if enc.paramBlockEmitted then .ok enc
      else match parallelMove pmoves with
        | none => failWith "param parallel move: unresolvable cycle"
        | some bytes => .ok { enc.put bytes with paramBlockEmitted := true }
  | .ret => do
      let src ← homeOf ra (useAt mi 0) ctx
      return { enc.put (movRR kRegRax src ++ epilogue ++ [kOpRet]) with sawRet := true }
  | .call =>
      match mi.imm with
      | none => failWith (ctx ++ ": call without callee")
      | some callee => do
          let moves ← argMoves ra ctx mi
          match parallelMove moves with
          | none => failWith (ctx ++ ": call argument move cycle unresolvable")
          | some bytes => do
              let enc := ((enc.put (bytes ++ [kOpCallRel32])).addCall callee).put
                blankRel32
              return enc.put (movRR (← homeOf ra mi.result ctx) kRegRax)
  | .label =>
      match mi.imm with
      | none => failWith (ctx ++ ": label without id")
      | some id => .ok (enc.defineLabel id)
  | .jmp =>
      match mi.imm with
      | none => failWith (ctx ++ ": jmp without target")
      | some target =>
          .ok (((enc.put [kOpJmpRel32]).addFixup target).put blankRel32)
  | .jz =>
      match mi.imm with
      | none => failWith (ctx ++ ": jz without target")
      | some target => do
          let cond ← homeOf ra (useAt mi 0) ctx
          return ((enc.put (opRmR kOpTestRR cond cond ++
            [kOpEscape2Byte, kOpJzRel32])).addFixup target).put blankRel32
  | _ => do return enc.put (← encodeData ra ctx mi)

/-- The displacement from the end of a field to a target, if it fits. -/
def rel32 (dispPos target : Nat) : Option (BitVec 32) :=
  let rel : Int := target - (dispPos + kRel32DispBytes)
  if rel < -2 ^ 31 ∨ 2 ^ 31 - 1 < rel then none else some (BitVec.ofInt 32 rel)

/-- Write the bytes of a displacement to their places. -/
def patchAt (place : Nat → Nat) (out : List Byte) (rel : BitVec 32) : List Byte :=
  (List.range kRel32DispBytes).foldl
    (fun out i => out.set (place i) ((rel >>> (8 * i)).setWidth 8)) out

/-- Write the displacement of a call; positions in the image have 64 bits. -/
def patch (out : List Byte) (dispPos : Nat) (rel : BitVec 32) : List Byte :=
  patchAt (fun i => dispPos + i) out rel

/-- Write the displacement of a jump; positions in a function have 32 bits and wrap. -/
def patchJump (out : List Byte) (dispPos : Nat) (rel : BitVec 32) : List Byte :=
  patchAt (fun i => (dispPos + i) % 2 ^ 32) out rel

/-- Patch one jump. -/
def resolveJump (enc : Encoder) (out : List Byte) (fixup : Nat × Int) :
    Except EncodeError (List Byte) :=
  match enc.labelPosition fixup.2 with
  | none => failWith ("jump to undefined label " ++ toString fixup.2)
  | some target =>
      match rel32 fixup.1 target with
      | none => failWith "jump displacement out of rel32 range"
      | some rel => .ok (patchJump out fixup.1 rel)

/-- The bytes of a function, and its calls: the position of the displacement
and the callee. -/
def encodeOne (fn : MachineFunction) (ra : LinearScan.ScanState) :
    Except EncodeError (List Byte × List (Nat × Int)) := do
  let pmoves ← paramMoves ra fn.instrs
  let enc ← fn.instrs.zipIdx.foldlM (encodeInstr ra pmoves) { buf := prologue }
  if enc.sawRet = false then
    failWith ("machine function '" ++ fn.name ++ "' has no return")
  else return (← enc.jumpFixups.foldlM (resolveJump enc) enc.buf, enc.callFixups)

/-- One function on its own cannot contain calls. -/
def encodeExecutable (fn : MachineFunction) (ra : LinearScan.ScanState) :
    Except EncodeError (List Byte) := do
  let (out, calls) ← encodeOne fn ra
  if calls ≠ [] then failWith "call requires module linking (encode_module)"
  else return out

/-- A function of a module, with its symbol; the pointers may be null. -/
structure ModuleFunction where
  symbol : SymbolId
  mf : Option MachineFunction
  ra : Option LinearScan.ScanState

/-- An encoded function in the image. -/
structure Emitted where
  offset : Nat
  calls : List (Nat × Int)
  deriving DecidableEq, Repr

/-- Append one function to the image. -/
def emitFunction (state : List Byte × List Emitted) (f : ModuleFunction) :
    Except EncodeError (List Byte × List Emitted) :=
  match f.mf, f.ra with
  | some mf, some ra => do
      let (buf, calls) ← encodeOne mf ra
      return (state.1 ++ buf, state.2 ++ [⟨state.1.length, calls⟩])
  | _, _ => failWith "module: null function/allocator entry"

/-- The offset of the first function with the symbol. -/
def entryOf (fns : List ModuleFunction) (emitted : List Emitted) (callee : Int) :
    Option Nat :=
  ((fns.zip emitted).find? fun entry => decide ((entry.1.symbol.toNat : Int) = callee)).map
    fun entry => entry.2.offset

/-- Patch one call. -/
def resolveCall (fns : List ModuleFunction) (emitted : List Emitted) (offset : Nat)
    (out : List Byte) (call : Nat × Int) : Except EncodeError (List Byte) :=
  match entryOf fns emitted call.2 with
  | none =>
      failWith ("module: call to unknown function symbol " ++ toString call.2)
  | some target =>
      match rel32 (offset + call.1) target with
      | none => failWith "module: call displacement out of rel32 range"
      | some rel => .ok (patch out (offset + call.1) rel)

/-- The image of a module, and the offset of each function. -/
def encodeModule (fns : List ModuleFunction) :
    Except EncodeError (List Byte × List Nat) :=
  if fns = [] then failWith "module: no functions"
  else do
    let (out, emitted) ← fns.foldlM emitFunction ([], [])
    let out ← emitted.foldlM (fun out e =>
      e.calls.foldlM (resolveCall fns emitted e.offset) out) out
    return (out, emitted.map (·.offset))

end ExecEncoder

end Aegis
