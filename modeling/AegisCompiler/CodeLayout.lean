import AegisCompiler.EncodedInstructions

/-!
# The layout of encoded functions

A function is a list of items: instructions with fixed bytes, branches whose
displacement is filled in later, and labels.  Patching a displacement changes
the filling of one branch and no other byte.
-/

namespace Aegis

namespace ExecEncoder

open X86 (Byte Reg Instr Decodes)

inductive BranchKind where
  | jmp | jz | call
  deriving DecidableEq, Repr

namespace BranchKind

def opcode : BranchKind → List Byte
  | jmp => [kOpJmpRel32]
  | jz => [kOpEscape2Byte, kOpJzRel32]
  | call => [kOpCallRel32]

def instr : BranchKind → BitVec 32 → Instr
  | jmp => .jmp
  | jz => .jz
  | call => .call

def isCall (kind : BranchKind) : Bool := decide (kind = .call)

end BranchKind

/-- A piece of a function. -/
inductive Item where
  | instr (bytes : List Byte) (instr : Instr)
  | branch (kind : BranchKind) (target : Int)
  | label (id : Int)

/-- The displacement at each position. -/
abbrev Filling := Nat → BitVec 32

namespace Item

def size : Item → Nat
  | instr bytes _ => bytes.length
  | branch kind _ => kind.opcode.length + kRel32DispBytes
  | label _ => 0

/-- The bytes of an item at a position. -/
def bytes (filling : Filling) (pos : Nat) : Item → List Byte
  | instr bytes _ => bytes
  | branch kind _ =>
      kind.opcode ++ X86.toLittleEndian 4 (filling (pos + kind.opcode.length))
  | label _ => []

/-- The displacement of a call, or of a jump, with its target. -/
def fixups (calls : Bool) (pos : Nat) : Item → List (Nat × Int)
  | instr _ _ | label _ => []
  | branch kind target =>
      if kind.isCall = calls then [(pos + kind.opcode.length, target)] else []

/-- The position of a label; labels below zero are never found. -/
def labels (pos : Nat) : Item → List (Int × Nat)
  | label id => if id < 0 then [] else [(id, pos)]
  | instr _ _ | branch _ _ => []

end Item

/-- The bytes of items from a position on. -/
def fill (filling : Filling) : Nat → List Item → List Byte
  | _, [] => []
  | pos, item :: items => item.bytes filling pos ++ fill filling (pos + item.size) items

def sizeOf (items : List Item) : Nat := (items.map Item.size).sum

/-- The displacements of the calls, or of the jumps, with their targets. -/
def fixups (calls : Bool) : Nat → List Item → List (Nat × Int)
  | _, [] => []
  | pos, item :: items => item.fixups calls pos ++ fixups calls (pos + item.size) items

/-- The positions of the labels, the latest first. -/
def labels : Nat → List Item → List (Int × Nat)
  | _, [] => []
  | pos, item :: items => labels (pos + item.size) items ++ item.labels pos

@[simp]
theorem sizeOf_nil : sizeOf [] = 0 := rfl

@[simp]
theorem sizeOf_cons (item : Item) (items : List Item) :
    sizeOf (item :: items) = item.size + sizeOf items := by
  simp [sizeOf]

@[simp]
theorem sizeOf_append (items more : List Item) :
    sizeOf (items ++ more) = sizeOf items + sizeOf more := by
  simp [sizeOf]

@[simp]
theorem toLittleEndian_length (n : Nat) {width : Nat} (value : BitVec width) :
    (X86.toLittleEndian n value).length = n := by
  simp [X86.toLittleEndian]

@[simp]
theorem Item.bytes_length (filling : Filling) (pos : Nat) (item : Item) :
    (item.bytes filling pos).length = item.size := by
  cases item <;> simp [bytes, size, kRel32DispBytes]

@[simp]
theorem fill_length (filling : Filling) (pos : Nat) (items : List Item) :
    (fill filling pos items).length = sizeOf items := by
  induction items generalizing pos with
  | nil => rfl
  | cons item items ih => simp [fill, ih]

theorem fill_append (filling : Filling) (pos : Nat) (items more : List Item) :
    fill filling pos (items ++ more) =
      fill filling pos items ++ fill filling (pos + sizeOf items) more := by
  induction items generalizing pos with
  | nil => simp [fill]
  | cons item items ih => simp [fill, ih, Nat.add_assoc]

theorem fixups_append (calls : Bool) (pos : Nat) (items more : List Item) :
    fixups calls pos (items ++ more) =
      fixups calls pos items ++ fixups calls (pos + sizeOf items) more := by
  induction items generalizing pos with
  | nil => simp [fixups]
  | cons item items ih => simp [fixups, ih, Nat.add_assoc]

theorem labels_append (pos : Nat) (items more : List Item) :
    labels pos (items ++ more) =
      labels (pos + sizeOf items) more ++ labels pos items := by
  induction items generalizing pos with
  | nil => simp [labels]
  | cons item items ih => simp [labels, ih, Nat.add_assoc]

/-- A filling matters only at the positions of the items. -/
theorem fill_congr {filling other : Filling} {pos : Nat} {items : List Item}
    (agree : ∀ q, pos ≤ q → q < pos + sizeOf items → filling q = other q) :
    fill filling pos items = fill other pos items := by
  induction items generalizing pos with
  | nil => rfl
  | cons item items ih =>
      rw [sizeOf_cons] at agree
      have rest : fill filling (pos + item.size) items =
          fill other (pos + item.size) items :=
        ih fun q low high => agree q (by omega) (by omega)
      have first : item.bytes filling pos = item.bytes other pos := by
        cases item with
        | instr | label => rfl
        | branch kind target =>
            have same := agree (pos + kind.opcode.length) (by omega)
              (by simp only [Item.size, kRel32DispBytes]; omega)
            rw [Item.bytes, Item.bytes, same]
      rw [fill, fill, rest, first]

/-- Patching four bytes replaces them. -/
theorem patch_bytes (front old back : List Byte) (four : old.length = 4)
    (rel : BitVec 32) :
    patch (front ++ old ++ back) front.length rel =
      front ++ X86.toLittleEndian 4 rel ++ back := by
  obtain ⟨a, b, c, d, rfl⟩ : ∃ a b c d, old = [a, b, c, d] := by
    match old, four with
    | [a, b, c, d], _ => exact ⟨a, b, c, d, rfl⟩
  simp [patch, patchAt, kRel32DispBytes, X86.toLittleEndian, List.range_succ]

/-- In front of 2^32 no position wraps. -/
theorem patchJump_eq {dispPos : Nat} (low : dispPos + kRel32DispBytes ≤ 2 ^ 32)
    (out : List Byte) (rel : BitVec 32) : patchJump out dispPos rel = patch out dispPos rel := by
  have place : ∀ i ∈ List.range kRel32DispBytes, (dispPos + i) % 2 ^ 32 = dispPos + i := by
    intro i member
    have inside := List.mem_range.mp member
    exact Nat.mod_eq_of_lt (by omega)
  unfold patchJump patch patchAt
  apply List.foldl_ext
  intro written i member
  exact congrArg (fun pos => written.set pos _) (place i member)

theorem mem_fixups {calls : Bool} {pos q : Nat} {target : Int} {items : List Item}
    (member : (q, target) ∈ fixups calls pos items) :
    ∃ front kind back, items = front ++ .branch kind target :: back ∧
      kind.isCall = calls ∧ q = pos + sizeOf front + kind.opcode.length := by
  induction items generalizing pos with
  | nil => cases member
  | cons item items ih =>
      rw [fixups, List.mem_append] at member
      rcases member with here | later
      · cases item with
        | instr | label => cases here
        | branch kind other =>
            rw [Item.fixups] at here
            split at here
            case isFalse => cases here
            case isTrue same =>
              rw [List.mem_singleton, Prod.mk.injEq] at here
              obtain ⟨rfl, rfl⟩ := here
              exact ⟨[], kind, items, rfl, same, by simp⟩
      · obtain ⟨front, kind, back, rfl, same, rfl⟩ := ih later
        refine ⟨item :: front, kind, back, rfl, same, ?_⟩
        rw [sizeOf_cons]
        omega

/-- Patching a branch fills in its displacement. -/
theorem patch_fill {calls : Bool} {pos q : Nat} {target : Int} {items : List Item}
    (member : (q, target) ∈ fixups calls pos items) (filling : Filling)
    (rel : BitVec 32) :
    patch (fill filling pos items) (q - pos) rel =
      fill (Function.update filling q rel) pos items := by
  obtain ⟨front, kind, back, rfl, -, rfl⟩ := mem_fixups member
  let q := pos + sizeOf front + kind.opcode.length
  have place : q - pos = (fill filling pos front ++ kind.opcode).length := by
    simp [q]
    omega
  have before : fill filling pos front = fill (Function.update filling q rel) pos front := by
    apply fill_congr
    intro other _ high
    rw [Function.update_of_ne]
    have positive : 0 < kind.opcode.length := by cases kind <;> decide
    omega
  have after : fill filling (pos + sizeOf front + (Item.branch kind target).size) back =
      fill (Function.update filling q rel)
        (pos + sizeOf front + (Item.branch kind target).size) back := by
    apply fill_congr
    intro other low _
    rw [Function.update_of_ne]
    simp only [Item.size, kRel32DispBytes] at low
    omega
  have split (filling : Filling) :
      fill filling pos (front ++ .branch kind target :: back) =
        (fill filling pos front ++ kind.opcode) ++
          X86.toLittleEndian 4 (filling q) ++
            fill filling (pos + sizeOf front + (Item.branch kind target).size) back := by
    rw [fill_append, fill, Item.bytes]
    simp only [List.append_assoc]
    rfl
  rw [split filling, place, patch_bytes _ _ _ (toLittleEndian_length 4 _), split, before,
    after, Function.update_self]

end ExecEncoder

end Aegis
