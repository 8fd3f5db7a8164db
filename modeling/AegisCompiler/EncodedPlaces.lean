import AegisCompiler.LinkedModules

/-!
# Where control is in an image

Every place that control reaches is before an item of a function: in the
prologue, in the body, or in an epilogue.  What the machine fetches there is the
instruction of the item.
-/

namespace Aegis

namespace ExecEncoder

open X86 (Byte Reg Instr Decodes Image)

theorem branch_decodes (kind : BranchKind) (rel : BitVec 32) :
    Decodes (kind.opcode ++ X86.toLittleEndian 4 rel) (kind.instr rel) := by
  intro rest
  have displacement (build : BitVec 32 → Instr) :
      X86.withRel32 build (X86.toLittleEndian 4 rel ++ rest) = some (build rel, rest) := by
    rw [X86.withRel32, X86.littleEndian_toLittleEndian 4, Option.map_some]
  cases kind <;> exact displacement _

theorem push_decodes {r : Reg} (saved : r ∈ calleeSavedHomes) :
    Decodes (pushReg r) (.push r) := by
  simp only [calleeSavedHomes, kHomeRegs, kFirstCalleeSavedHome, List.drop_succ_cons,
    List.drop_zero, List.mem_cons, List.not_mem_nil, or_false] at saved
  rcases saved with rfl | rfl | rfl | rfl | rfl | rfl <;> exact fun _ => rfl

theorem pop_decodes {r : Reg} (saved : r ∈ calleeSavedHomes) :
    Decodes (popReg r) (.pop r) := by
  simp only [calleeSavedHomes, kHomeRegs, kFirstCalleeSavedHome, List.drop_succ_cons,
    List.drop_zero, List.mem_cons, List.not_mem_nil, or_false] at saved
  rcases saved with rfl | rfl | rfl | rfl | rfl | rfl <;> exact fun _ => rfl

theorem ret_decodes : Decodes [kOpRet] .ret := fun _ => rfl

/-- The function that holds the position has these items left. -/
def Located (functions : List (List Item)) (pos : Nat) (rest : List Item) : Prop :=
  ∃ before front after, functions = before ++ (front ++ rest) :: after ∧
    pos = sizeOf before.flatten + sizeOf front

theorem Located.next {functions : List (List Item)} {pos : Nat} {item : Item}
    {rest : List Item} (located : Located functions pos (item :: rest)) :
    Located functions (pos + item.size) rest := by
  obtain ⟨before, front, after, rfl, rfl⟩ := located
  refine ⟨before, front ++ [item], after, ?_, ?_⟩
  · rw [List.append_assoc]
    rfl
  · simp [Nat.add_assoc]

/-- The machine fetches the item at its place. -/
theorem Located.fetch {img : Image} {functions : List (List Item)} {filling : Filling}
    (layout : Layout img.bytes functions filling) {pos : Nat} {item : Item}
    {rest : List Item} (located : Located functions pos (item :: rest)) {instr : Instr}
    (decodes : Decodes (item.bytes filling pos) instr) :
    img.fetch (img.address pos) = some (instr, img.address (pos + item.size)) := by
  obtain ⟨before, front, after, rfl, rfl⟩ := located
  have split : (before ++ (front ++ item :: rest) :: after).flatten =
      (before.flatten ++ front) ++ (item :: (rest ++ after.flatten)) := by
    simp
  have bytes := layout.bytes
  rw [split, fill_append, fill, Nat.zero_add, sizeOf_append] at bytes
  have fetched := Image.fetch_decodes bytes decodes
  rwa [fill_length, sizeOf_append, Item.bytes_length] at fetched

theorem signExtend_ofInt {distance : Int} (low : -2 ^ 31 ≤ distance)
    (high : distance < 2 ^ 31) :
    (BitVec.ofInt 32 distance).signExtend 64 = BitVec.ofInt 64 distance := by
  have inside : (BitVec.ofInt 32 distance).toInt = distance := by
    rw [BitVec.toInt_ofInt]
    exact Int.bmod_eq_of_le (by omega) (by omega)
  rw [BitVec.signExtend, inside]

/-- A displacement leads to its target. -/
theorem address_of_rel32 {img : Image} {dispPos target : Nat} {rel : BitVec 32}
    (found : rel32 dispPos target = some rel) :
    img.address (dispPos + kRel32DispBytes) + rel.signExtend 64 =
      img.address target := by
  simp only [rel32] at found
  split at found
  case isTrue => cases found
  case isFalse range =>
    cases found
    rw [signExtend_ofInt (by omega) (by omega), Image.address, Image.address,
      BitVec.add_assoc]
    apply congrArg (img.base + ·)
    have split : (target : Int) =
        (dispPos + kRel32DispBytes : Nat) + (target - (dispPos + kRel32DispBytes)) := by
      omega
    rw [← BitVec.ofInt_natCast, ← BitVec.ofInt_add, ← BitVec.ofInt_natCast 64 target]
    exact congrArg _ split.symm

/-- A part without the element ends before it. -/
theorem split_after {α : Type} {first second front back : List α} {x : α}
    (absent : x ∉ first) (same : first ++ second = front ++ x :: back) :
    ∃ more, front = first ++ more ∧ second = more ++ x :: back := by
  rcases List.append_eq_append_iff.mp same with ⟨more, frontEq, backEq⟩ | ⟨more, firstEq, backEq⟩
  · exact ⟨more, frontEq, backEq⟩
  · cases more with
    | nil =>
        rw [List.append_nil] at firstEq
        exact ⟨[], by rw [firstEq, List.append_nil], backEq.symm⟩
    | cons other more =>
        cases backEq
        exact absurd (firstEq ▸ List.mem_append_right _ List.mem_cons_self) absent

/-- The code behind a label of a body is a body. -/
theorem Body.behind_label {items front back : List Item} {id : Int} (body : Body items)
    (split : items = front ++ .label id :: back) : Body back := by
  induction body generalizing front with
  | nil => cases List.append_ne_nil_of_right_ne_nil front (List.cons_ne_nil _ _) split.symm
  | plain _ _ _ ih | branch _ _ _ ih =>
      cases front with
      | nil => cases split
      | cons item front => exact ih (List.cons.inj split).2
  | label other rest ih =>
      cases front with
      | nil =>
          cases split
          exact rest
      | cons item front => exact ih (List.cons.inj split).2
  | leave _ ih =>
      have absent : Item.label id ∉ epilogueItems := by simp [epilogueItems]
      obtain ⟨more, -, later⟩ := split_after absent split
      exact ih later

theorem mem_labels {pos target : Nat} {id : Int} {items : List Item}
    (member : (id, target) ∈ labels pos items) :
    ∃ front back, items = front ++ .label id :: back ∧ target = pos + sizeOf front := by
  induction items generalizing pos with
  | nil => cases member
  | cons item items ih =>
      rw [labels, List.mem_append] at member
      rcases member with later | here
      · obtain ⟨front, back, rfl, rfl⟩ := ih later
        refine ⟨item :: front, back, rfl, ?_⟩
        rw [sizeOf_cons, Nat.add_assoc]
      · cases item with
        | instr | branch => cases here
        | label other =>
            rw [Item.labels] at here
            split at here
            case isTrue => cases here
            case isFalse =>
              rw [List.mem_singleton, Prod.mk.injEq] at here
              obtain ⟨rfl, rfl⟩ := here
              exact ⟨[], items, rfl, rfl⟩

/-- Saving registers, with these to go, or leaving, with these to restore.
Inside a function, there is nothing left to save. -/
inductive Phase where
  | entering (todo : List Reg)
  | leaving (todo : List Reg)

/-- The items left in the phase. -/
def Phase.items : Phase → List Item
  | entering todo => todo.map fun r => .instr (pushReg r) (.push r)
  | leaving todo =>
      todo.map (fun r => .instr (popReg r) (.pop r)) ++ [.instr [kOpRet] .ret]

/-- The registers left to save or to restore. -/
def Phase.todo : Phase → List Reg
  | entering todo | leaving todo => todo

/-- Control is in this phase of a function, with a body ahead. -/
def InPhase (functions : List (List Item)) (pos : Nat) (phase : Phase) : Prop :=
  ∃ rest, Body rest ∧ Located functions pos (phase.items ++ rest)

/-- Control is inside a function. -/
abbrev Inside (functions : List (List Item)) (pos : Nat) : Prop :=
  InPhase functions pos (.entering [])

theorem mem_entriesOf {functions : List (List Item)} {pos : Nat} :
    pos ∈ entriesOf functions ↔
      ∃ before items after, functions = before ++ items :: after ∧
        pos = sizeOf before.flatten := by
  have general (start : Nat) : pos ∈ (emittedOf start functions).map (·.offset) ↔
      ∃ before items after, functions = before ++ items :: after ∧
        pos = start + sizeOf before.flatten := by
    induction functions generalizing start with
    | nil => simp [emittedOf]
    | cons first functions ih =>
        rw [emittedOf, List.map_cons, List.mem_cons, ih]
        constructor
        · rintro (rfl | ⟨before, items, after, rfl, rfl⟩)
          · exact ⟨[], first, functions, rfl, rfl⟩
          · exact ⟨first :: before, items, after, rfl, by simp [Nat.add_assoc]⟩
        · rintro ⟨_ | ⟨other, before⟩, items, after, split, rfl⟩
          · exact .inl rfl
          · obtain ⟨rfl, rfl⟩ := List.cons.inj split
            exact .inr ⟨before, items, after, rfl, by simp [Nat.add_assoc]⟩
  simpa [entriesOf] using general 0

/-- Control enters a function at its prologue. -/
theorem inPhase_of_entry {functions : List (List Item)}
    (shaped : ∀ items ∈ functions, IsFunction items) {pos : Nat}
    (entry : pos ∈ entriesOf functions) :
    InPhase functions pos (.entering calleeSavedHomes) := by
  obtain ⟨before, items, after, rfl, rfl⟩ := mem_entriesOf.mp entry
  obtain ⟨body, isBody, rfl⟩ := shaped items (by simp)
  exact ⟨body, isBody, before, [], after, rfl, rfl⟩

/-- The end of a function is the entry of the next, or the end of the image. -/
theorem located_end {functions : List (List Item)} {pos : Nat}
    (located : Located functions pos []) :
    pos ∈ entriesOf functions ∨ pos = sizeOf functions.flatten := by
  obtain ⟨before, front, after, rfl, rfl⟩ := located
  rw [List.append_nil]
  cases after with
  | nil => exact .inr (by simp)
  | cons items after =>
      exact .inl (mem_entriesOf.mpr ⟨before ++ [front], items, after, by simp, by simp⟩)

theorem AllResolved.resolved {filling : Filling} {start : Nat}
    {before after : List (List Item)} {items : List Item}
    (all : AllResolved filling start (before ++ items :: after)) :
    Resolved filling (start + sizeOf before.flatten) items := by
  induction before generalizing start with
  | nil => exact all.1
  | cons first before ih =>
      have later := ih all.2
      rwa [List.flatten_cons, sizeOf_append, ← Nat.add_assoc]

/-- A branch is one of the displacements. -/
theorem branch_mem_fixups (pos : Nat) (front back : List Item) (kind : BranchKind)
    (target : Int) :
    (pos + sizeOf front + kind.opcode.length, target) ∈
      fixups kind.isCall pos (front ++ .branch kind target :: back) := by
  rw [fixups_append, fixups, Item.fixups, if_pos rfl]
  exact List.mem_append_right _ (List.mem_append_left _ (List.mem_singleton.mpr rfl))

/-- A jump leads to a place inside its function. -/
theorem jump_inside {img : Image} {functions : List (List Item)} {filling : Filling}
    (layout : Layout img.bytes functions filling) {pos : Nat} {kind : BranchKind}
    (isJump : kind.isCall = false) {target : Int} {rest : List Item}
    (located : Located functions pos (.branch kind target :: rest)) :
    ∃ pos', Inside functions pos' ∧
      rel32 (pos + kind.opcode.length) pos' = some (filling (pos + kind.opcode.length)) := by
  obtain ⟨before, front, after, rfl, rfl⟩ := located
  have member := branch_mem_fixups (sizeOf before.flatten) front rest kind target
  rw [isJump] at member
  have resolved := layout.jumps.resolved
  rw [Nat.zero_add] at resolved
  obtain ⟨pos', found, fits⟩ := resolved _ member
  refine ⟨pos', ?_, fits⟩
  have found : (target, pos') ∈ labels (sizeOf before.flatten) (front ++ .branch kind target :: rest) := by
    obtain ⟨earlier, later, entries, -⟩ := List.lookup_eq_some_iff.mp found
    rw [entries]
    exact List.mem_append_right _ List.mem_cons_self
  obtain ⟨lead, back, split, rfl⟩ := mem_labels found
  obtain ⟨body, isBody, same⟩ := layout.shaped (front ++ .branch kind target :: rest) (by simp)
  have absent : Item.label target ∉ prologueItems := by simp [prologueItems]
  obtain ⟨more, rfl, bodyEq⟩ := split_after absent (same.symm.trans split)
  refine ⟨.label target :: back, .label target (isBody.behind_label bodyEq), before,
    prologueItems ++ more, after, ?_, rfl⟩
  rw [split]
  rfl

/-- A call leads to the entry of a function. -/
theorem call_entry {img : Image} {functions : List (List Item)} {filling : Filling}
    (layout : Layout img.bytes functions filling) {pos : Nat} {target : Int}
    {rest : List Item} (located : Located functions pos (.branch .call target :: rest)) :
    ∃ pos' ∈ entriesOf functions, rel32 (pos + BranchKind.call.opcode.length) pos' =
      some (filling (pos + BranchKind.call.opcode.length)) := by
  obtain ⟨before, front, after, rfl, rfl⟩ := located
  have split : (before ++ (front ++ .branch .call target :: rest) :: after).flatten =
      (before.flatten ++ front) ++ .branch .call target :: (rest ++ after.flatten) := by
    simp
  have member := branch_mem_fixups 0 (before.flatten ++ front) (rest ++ after.flatten)
    .call target
  rw [Nat.zero_add, sizeOf_append, ← split] at member
  have entry := layout.calls _ member
  exact entry

/-- The instruction in a phase of a function, and the address of the next one. -/
inductive Flow (img : Image) (functions : List (List Item)) : Phase → Instr → Word → Prop
  | push {r : Reg} {todo : List Reg} {pos : Nat} :
      InPhase functions pos (.entering todo) →
        Flow img functions (.entering (r :: todo)) (.push r) (img.address pos)
  | plain {instr : Instr} {pos : Nat} : IsPlain instr → Inside functions pos →
      Flow img functions (.entering []) instr (img.address pos)
  | jmp {rel : BitVec 32} {pos target : Nat} : Inside functions target →
      img.address pos + rel.signExtend 64 = img.address target →
        Flow img functions (.entering []) (.jmp rel) (img.address pos)
  | jz {rel : BitVec 32} {pos target : Nat} : Inside functions pos →
      Inside functions target →
        img.address pos + rel.signExtend 64 = img.address target →
          Flow img functions (.entering []) (.jz rel) (img.address pos)
  | call {rel : BitVec 32} {pos target : Nat} : Inside functions pos →
      target ∈ entriesOf functions →
        img.address pos + rel.signExtend 64 = img.address target →
          Flow img functions (.entering []) (.call rel) (img.address pos)
  | pop {r : Reg} {todo : List Reg} {pos : Nat} :
      InPhase functions pos (.leaving todo) →
        Flow img functions (.leaving (r :: todo)) (.pop r) (img.address pos)
  | ret {next : Word} : Flow img functions (.leaving []) .ret next

/-- A function starts to leave from inside. -/
inductive Phase.Starts : Phase → Phase → Prop
  | same (phase : Phase) : Starts phase phase
  | leaving : Starts (.entering []) (.leaving calleeSavedHomes.reverse)

section

variable {img : Image} {functions : List (List Item)} {filling : Filling}
  (layout : Layout img.bytes functions filling) {pos : Nat}

include layout

theorem branch_flow {kind : BranchKind} {target : Int} {rest : List Item}
    (body : Body rest)
    (located : Located functions pos (.branch kind target :: rest)) :
    ∃ instr next, img.fetch (img.address pos) = some (instr, next) ∧
      Flow img functions (.entering []) instr next := by
  have fetched := located.fetch layout (branch_decodes kind _)
  refine ⟨_, _, fetched, ?_⟩
  have behind : Inside functions (pos + (Item.branch kind target).size) :=
    ⟨rest, body, located.next⟩
  have size : pos + (Item.branch kind target).size =
      pos + kind.opcode.length + kRel32DispBytes := by
    rw [Item.size, Nat.add_assoc]
  rw [size] at behind ⊢
  cases kind with
  | jmp =>
      obtain ⟨pos', inside, fits⟩ := jump_inside layout rfl located
      exact .jmp inside (address_of_rel32 fits)
  | jz =>
      obtain ⟨pos', inside, fits⟩ := jump_inside layout rfl located
      exact .jz behind inside (address_of_rel32 fits)
  | call =>
      obtain ⟨pos', entry, fits⟩ := call_entry layout located
      exact .call behind entry (address_of_rel32 fits)

theorem leaving_flow {todo : List Reg} (saved : ∀ r ∈ todo, r ∈ calleeSavedHomes)
    (inPhase : InPhase functions pos (.leaving todo)) :
    ∃ instr next, img.fetch (img.address pos) = some (instr, next) ∧
      Flow img functions (.leaving todo) instr next := by
  obtain ⟨rest, body, located⟩ := inPhase
  cases todo with
  | nil => exact ⟨_, _, located.fetch layout ret_decodes, .ret⟩
  | cons r todo =>
      exact ⟨_, _, located.fetch layout (pop_decodes (saved r List.mem_cons_self)),
        .pop ⟨rest, body, located.next⟩⟩

/-- Inside a function, control is at an instruction, or has run off its end. -/
theorem inside_flow (inside : Inside functions pos) :
    (pos ∈ entriesOf functions ∨ img.fetch (img.address pos) = none) ∨
      ∃ phase instr next, Phase.Starts (.entering []) phase ∧
        img.fetch (img.address pos) = some (instr, next) ∧
          Flow img functions phase instr next := by
  obtain ⟨rest, body, located⟩ := inside
  change Located functions pos rest at located
  induction body with
  | nil =>
      refine .inl ((located_end located).imp_right ?_)
      rintro rfl
      have length : img.bytes.length = sizeOf functions.flatten := by
        rw [layout.bytes, fill_length]
      rw [← length]
      exact img.fetch_end
  | plain decodes plain rest _ =>
      exact .inr ⟨_, _, _, .same _, located.fetch layout decodes,
        .plain plain ⟨_, rest, located.next⟩⟩
  | label id _ ih => exact ih located.next
  | branch kind target rest _ =>
      obtain ⟨instr, next, fetched, flow⟩ := branch_flow layout rest located
      exact .inr ⟨_, _, _, .same _, fetched, flow⟩
  | leave rest _ =>
      obtain ⟨instr, next, fetched, flow⟩ := leaving_flow layout
        (fun r member => List.mem_reverse.mp member) ⟨_, rest, located⟩
      exact .inr ⟨_, _, _, .leaving, fetched, flow⟩

/-- What the machine fetches in a phase belongs to it, unless control has run off
the end of a function. -/
theorem fetch_flow {phase : Phase} (inPhase : InPhase functions pos phase)
    (saved : ∀ r ∈ phase.todo, r ∈ calleeSavedHomes) {instr : Instr} {next : Word}
    (fetched : img.fetch (img.address pos) = some (instr, next)) :
    (phase = .entering [] ∧ pos ∈ entriesOf functions) ∨
      ∃ phase', phase.Starts phase' ∧ Flow img functions phase' instr next := by
  have here {phase' : Phase} (starts : phase.Starts phase')
      (found : ∃ instr next, img.fetch (img.address pos) = some (instr, next) ∧
        Flow img functions phase' instr next) :
      ∃ phase', phase.Starts phase' ∧ Flow img functions phase' instr next := by
    obtain ⟨_, _, found, flow⟩ := found
    cases fetched.symm.trans found
    exact ⟨phase', starts, flow⟩
  cases phase with
  | leaving todo =>
      exact .inr (here (.same _) (leaving_flow layout saved inPhase))
  | entering todo =>
      cases todo with
      | cons r todo =>
          obtain ⟨rest, body, located⟩ := inPhase
          have decodes := push_decodes (saved r List.mem_cons_self)
          exact .inr (here (.same _) ⟨_, _, located.fetch layout decodes,
            .push ⟨rest, body, located.next⟩⟩)
      | nil =>
          rcases inside_flow layout inPhase with (entry | outside) | ⟨_, _, _, starts, found⟩
          · exact .inl ⟨rfl, entry⟩
          · rw [fetched] at outside
            cases outside
          · exact .inr (here starts ⟨_, _, found⟩)

end

end ExecEncoder

end Aegis
