import AegisCompiler.EncodedShape

/-!
# What the encoder emits

The pass over a function emits the items of its prologue and its body, and notes
where their displacements and labels are.  Resolving the jumps fills in their
displacements.
-/

namespace Aegis

namespace ExecEncoder

open X86 (Byte Reg Instr Decodes)

/-- A displacement with its position as it is stored. -/
def narrow (fixup : Nat × Int) : Nat × Int := (fixup.1 % 2 ^ 32, fixup.2)

/-- The encoder has emitted these items, with empty displacements. -/
structure Emits (enc : Encoder) (items : List Item) : Prop where
  buf : enc.buf = fill (fun _ => 0) 0 items
  jumps : enc.jumpFixups = (fixups false 0 items).map narrow
  calls : enc.callFixups = (fixups true 0 items).map narrow
  labels : enc.labelPos = labels 0 items

theorem Emits.length {enc : Encoder} {items : List Item} (emits : Emits enc items) :
    enc.buf.length = sizeOf items := by
  rw [emits.buf, fill_length]

theorem Emits.put {enc : Encoder} {items more : List Item} {code : List Byte}
    (emits : Emits enc items) (block : Block code more) :
    Emits (enc.put code) (items ++ more) where
  buf := by
    rw [fill_append, block.bytes, ← emits.buf]
    rfl
  jumps := by
    rw [fixups_append, block.fixups, List.append_nil, ← emits.jumps]
    rfl
  calls := by
    rw [fixups_append, block.fixups, List.append_nil, ← emits.calls]
    rfl
  labels := by
    rw [labels_append, block.labels, List.nil_append, ← emits.labels]
    rfl

theorem Encoder.put_append (enc : Encoder) (code more : List Byte) :
    enc.put (code ++ more) = (enc.put code).put more := by
  simp [Encoder.put]

theorem Emits.jump {enc : Encoder} {items : List Item} (emits : Emits enc items)
    (kind : BranchKind) (isJump : kind.isCall = false) (target : Int) :
    Emits (((enc.put kind.opcode).addFixup target).put blankRel32)
      (items ++ [.branch kind target]) where
  buf := by
    rw [fill_append, ← emits.buf]
    simp only [fill, Item.bytes, List.append_nil, Encoder.put, Encoder.addFixup,
      List.append_assoc]
    rfl
  jumps := by
    rw [fixups_append, List.map_append, ← emits.jumps]
    simp [fixups, Item.fixups, isJump, narrow, Encoder.put, Encoder.addFixup, emits.length]
  calls := by
    rw [fixups_append, List.map_append, ← emits.calls]
    simp [fixups, Item.fixups, isJump, Encoder.put, Encoder.addFixup]
  labels := by
    rw [labels_append, ← emits.labels]
    rfl

theorem Emits.call {enc : Encoder} {items : List Item} (emits : Emits enc items)
    (callee : Int) :
    Emits (((enc.put [kOpCallRel32]).addCall callee).put blankRel32)
      (items ++ [.branch .call callee]) where
  buf := by
    rw [fill_append, ← emits.buf]
    simp only [fill, Item.bytes, List.append_nil, Encoder.put, Encoder.addCall,
      List.append_assoc]
    rfl
  jumps := by
    rw [fixups_append, List.map_append, ← emits.jumps]
    simp [fixups, Item.fixups, BranchKind.isCall, Encoder.put, Encoder.addCall]
  calls := by
    rw [fixups_append, List.map_append, ← emits.calls]
    simp [fixups, Item.fixups, BranchKind.isCall, BranchKind.opcode, narrow, Encoder.put,
      Encoder.addCall, emits.length]
  labels := by
    rw [labels_append, ← emits.labels]
    rfl

theorem Emits.label {enc : Encoder} {items : List Item} (emits : Emits enc items)
    (id : Int) : Emits (enc.defineLabel id) (items ++ [.label id]) := by
  have here : ExecEncoder.labels (0 + sizeOf items) [.label id] =
      if id < 0 then [] else [(id, sizeOf items)] := by
    simp [ExecEncoder.labels, Item.labels]
  have bytes : fill (fun _ => 0) 0 (items ++ [.label id]) = enc.buf := by
    rw [fill_append, ← emits.buf]
    exact List.append_nil _
  have others (calls : Bool) :
      fixups calls 0 (items ++ [.label id]) = fixups calls 0 items := by
    rw [fixups_append]
    exact List.append_nil _
  unfold Encoder.defineLabel
  split
  case isTrue negative =>
    rw [if_pos negative] at here
    exact ⟨bytes.symm, by rw [others, emits.jumps], by rw [others, emits.calls],
      by rw [labels_append, here, emits.labels]; rfl⟩
  case isFalse nonneg =>
    rw [if_neg nonneg] at here
    exact ⟨bytes.symm, by rw [others, emits.jumps], by rw [others, emits.calls],
      by rw [labels_append, here, emits.length, emits.labels]; rfl⟩

/-- The flags of the encoder do not matter. -/
theorem Emits.of_eq {enc other : Encoder} {items : List Item} (emits : Emits enc items)
    (buf : other.buf = enc.buf) (jumps : other.jumpFixups = enc.jumpFixups)
    (calls : other.callFixups = enc.callFixups) (labels : other.labelPos = enc.labelPos) :
    Emits other items :=
  ⟨buf.trans emits.buf, jumps.trans emits.jumps, calls.trans emits.calls,
    labels.trans emits.labels⟩

theorem block_epilogue : Block (epilogue ++ [kOpRet]) epilogueItems := by
  have body : Body epilogueItems := List.append_nil epilogueItems ▸ Body.leave .nil
  have fixed : ∀ item ∈ epilogueItems, ∃ bytes instr, item = .instr bytes instr := by
    intro item member
    rcases List.mem_append.mp member with pops | last
    · obtain ⟨r, -, rfl⟩ := List.mem_map.mp pops
      exact ⟨_, _, rfl⟩
    · rw [List.mem_singleton] at last
      exact ⟨_, _, last⟩
  exact Block.of_items body fixed

/-- The bytes behind the displacement of a branch: a call moves its result. -/
def tailLength (op : MachineOp) : Nat := if op = .call then 3 else 0

/-- The displacements that an instruction adds in front of a position. -/
def fixupsOf (ops : List MachineOp) (mi : MachineInstr) (next : Nat) : List (Nat × Int) :=
  if mi.op ∈ ops then
    mi.imm.toList.map fun target => (next - tailLength mi.op - kRel32DispBytes, target)
  else []

def jumpOps : List MachineOp := [.jmp, .jz]

def callOps : List MachineOp := [.call]

/-- The items of an instruction that stands at a position: its displacement ends where its
tail begins, and a label is at the position. -/
structure ItemsOf (mi : MachineInstr) (pos : Nat) (more : List Item) : Prop where
  body : Body more
  jumps : fixups false pos more = fixupsOf jumpOps mi (pos + sizeOf more)
  calls : fixups true pos more = fixupsOf callOps mi (pos + sizeOf more)
  labels : ∀ id place, (id, place) ∈ ExecEncoder.labels pos more →
    mi.op = .label ∧ mi.imm = some id ∧ place = pos

theorem Block.size {code : List Byte} {items : List Item} (block : Block code items) :
    sizeOf items = code.length := by
  rw [← block.bytes (fun _ => 0) 0, fill_length]

/-- An instruction without branches and labels. -/
theorem Block.itemsOf {code : List Byte} {more : List Item} (block : Block code more)
    {mi : MachineInstr} (noJump : mi.op ∉ jumpOps) (noCall : mi.op ∉ callOps) (pos : Nat) :
    ItemsOf mi pos more where
  body := block.body
  jumps := by rw [block.fixups, fixupsOf, if_neg noJump]
  calls := by rw [block.fixups, fixupsOf, if_neg noCall]
  labels := by
    rw [block.labels]
    intro id place member
    cases member

/-- A jump behind some code. -/
theorem Block.itemsOf_jump {code : List Byte} {more : List Item} (block : Block code more)
    {mi : MachineInstr} (isJump : mi.op ∈ jumpOps) {target : Int} (given : mi.imm = some target)
    {kind : BranchKind} (jumps : kind.isCall = false) (pos : Nat) :
    ItemsOf mi pos (more ++ [.branch kind target]) where
  body := block.body.append (.branch kind target .nil)
  jumps := by
    have noCall : mi.op ≠ .call := by
      rintro call
      rw [call] at isJump
      revert isJump
      decide
    have place : pos + sizeOf (more ++ [.branch kind target]) - 0 - kRel32DispBytes =
        pos + sizeOf more + kind.opcode.length := by
      simp only [sizeOf_append, sizeOf_cons, sizeOf_nil, Item.size]
      omega
    rw [fixups_append, block.fixups, List.nil_append, fixupsOf, if_pos isJump, given, tailLength,
      if_neg noCall, Option.toList_some, List.map_singleton, place]
    simp [ExecEncoder.fixups, Item.fixups, jumps]
  calls := by
    have noCall : mi.op ∉ callOps := by
      rintro call
      rw [List.mem_singleton.mp call] at isJump
      revert isJump
      decide
    rw [fixups_append, block.fixups, List.nil_append, fixupsOf, if_neg noCall]
    simp [ExecEncoder.fixups, Item.fixups, jumps]
  labels := by
    rw [labels_append, block.labels]
    intro id place member
    cases member

/-- A call between its argument moves and the move of its result. -/
theorem Block.itemsOf_call {code tail : List Byte} {first last : List Item}
    (before : Block code first) (after : Block tail last) (length : tail.length = 3)
    {mi : MachineInstr} (isCall : mi.op = .call) {callee : Int} (given : mi.imm = some callee)
    (pos : Nat) : ItemsOf mi pos (first ++ .branch .call callee :: last) where
  body := before.body.append (.branch .call callee after.body)
  jumps := by
    rw [fixups_append, before.fixups, List.nil_append, ExecEncoder.fixups, after.fixups, fixupsOf,
      if_neg (by rw [isCall]; decide)]
    rfl
  calls := by
    have place : pos + sizeOf (first ++ .branch .call callee :: last) - 3 - kRel32DispBytes =
        pos + sizeOf first + BranchKind.call.opcode.length := by
      simp only [sizeOf_append, sizeOf_cons, Item.size, after.size, length]
      omega
    rw [fixups_append, before.fixups, List.nil_append, ExecEncoder.fixups, after.fixups, fixupsOf,
      if_pos (by rw [isCall]; decide), given, tailLength, if_pos isCall, Option.toList_some,
      List.map_singleton, place]
    rfl
  labels := by
    rw [labels_append, before.labels, ExecEncoder.labels, after.labels]
    intro id place member
    cases member

theorem itemsOf_label {mi : MachineInstr} (isLabel : mi.op = .label) {id : Int}
    (given : mi.imm = some id) (pos : Nat) : ItemsOf mi pos [.label id] where
  body := .label id .nil
  jumps := by
    rw [fixupsOf, if_neg (by rw [isLabel]; decide)]
    rfl
  calls := by
    rw [fixupsOf, if_neg (by rw [isLabel]; decide)]
    rfl
  labels := by
    intro other place member
    rw [ExecEncoder.labels, ExecEncoder.labels, List.nil_append, Item.labels] at member
    split at member
    · cases member
    · obtain ⟨rfl, rfl⟩ := Prod.mk.inj (List.mem_singleton.mp member)
      exact ⟨isLabel, given, rfl⟩

/-- One instruction emits its items behind those so far. -/
theorem encodeInstr_emits {ra : LinearScan.ScanState} {pmoves : List Move}
    (notRsp : ∀ move ∈ pmoves, move.dst ≠ .rsp) {enc after : Encoder} {mi : MachineInstr}
    {idx : Nat} (encoded : encodeInstr ra pmoves enc (mi, idx) = .ok after)
    {items : List Item} (emits : Emits enc items) :
    ∃ more, ItemsOf mi (sizeOf items) more ∧ Emits after (items ++ more) := by
  have straight {code : List Byte} (noJump : mi.op ∉ jumpOps) (noCall : mi.op ∉ callOps)
      (straight : Straight code) :
      ∃ more, ItemsOf mi (sizeOf items) more ∧ Emits (enc.put code) (items ++ more) := by
    obtain ⟨more, block⟩ := straight
    exact ⟨more, block.itemsOf noJump noCall _, emits.put block⟩
  cases op : mi.op <;> simp only [encodeInstr, op] at encoded
  case param =>
    have noJump : mi.op ∉ jumpOps := by rw [op]; decide
    have noCall : mi.op ∉ callOps := by rw [op]; decide
    split at encoded
    case isTrue =>
      cases encoded
      exact ⟨[], Block.nil.itemsOf noJump noCall _, by rwa [List.append_nil]⟩
    case isFalse =>
      split at encoded
      case h_1 => cases encoded
      case h_2 bytes found =>
        cases encoded
        obtain ⟨more, its, emitted⟩ :=
          straight noJump noCall (parallelMove_straight notRsp found)
        exact ⟨more, its, emitted.of_eq rfl rfl rfl rfl⟩
  case ret =>
    obtain ⟨src, -, encoded⟩ := except_bind_ok.mp encoded
    cases encoded
    obtain ⟨more, block⟩ := straight_movRR (show kRegRax ≠ .rsp by decide) src
    rw [List.append_assoc]
    refine ⟨more ++ epilogueItems, (block.append block_epilogue).itemsOf ?_ ?_ _,
      (emits.put (block.append block_epilogue)).of_eq rfl rfl rfl rfl⟩
    · rw [op]
      decide
    · rw [op]
      decide
  case call =>
    split at encoded
    case h_1 => cases encoded
    case h_2 callee given =>
      obtain ⟨moves, args, encoded⟩ := except_bind_ok.mp encoded
      split at encoded
      case h_1 => cases encoded
      case h_2 bytes found =>
        obtain ⟨res, home, encoded⟩ := except_bind_ok.mp encoded
        cases encoded
        obtain ⟨first, before⟩ := parallelMove_straight (argMoves_rsp args) found
        obtain ⟨last, after⟩ := straight_movRR (home_rsp home) kRegRax
        refine ⟨first ++ .branch .call callee :: last,
          before.itemsOf_call after rfl op given _, ?_⟩
        have emitted := ((emits.put before).call callee).put after
        rw [Encoder.put_append]
        simpa only [List.append_assoc, List.cons_append, List.nil_append] using emitted
  case label =>
    split at encoded
    case h_1 => cases encoded
    case h_2 id given =>
      cases encoded
      exact ⟨[.label id], itemsOf_label op given _, emits.label id⟩
  case jmp =>
    split at encoded
    case h_1 => cases encoded
    case h_2 target given =>
      cases encoded
      exact ⟨[.branch .jmp target], Block.nil.itemsOf_jump (by rw [op]; decide) given rfl _,
        emits.jump .jmp rfl target⟩
  case jz =>
    split at encoded
    case h_1 => cases encoded
    case h_2 target given =>
      obtain ⟨cond, -, encoded⟩ := except_bind_ok.mp encoded
      cases encoded
      have test : Straight (opRmR kOpTestRR cond cond) :=
        .of_decodes (test_decodes cond cond) (isPlain_of_none rfl rfl)
      obtain ⟨first, before⟩ := test
      refine ⟨first ++ [.branch .jz target],
        before.itemsOf_jump (by rw [op]; decide) given rfl _, ?_⟩
      have emitted := (emits.put before).jump .jz rfl target
      rw [Encoder.put_append]
      rwa [List.append_assoc] at emitted
  all_goals
    obtain ⟨code, data, encoded⟩ := except_bind_ok.mp encoded
    cases encoded
    refine straight ?_ ?_ (encodeData_straight data)
    · rw [op]; simp [jumpOps]
    · rw [op]; simp [callOps]

/-- The displacements lie within the items. -/
theorem fixups_within {calls : Bool} {pos q : Nat} {target : Int} {items : List Item}
    (member : (q, target) ∈ fixups calls pos items) :
    pos < q ∧ q + kRel32DispBytes ≤ pos + sizeOf items := by
  obtain ⟨front, kind, back, rfl, -, rfl⟩ := mem_fixups member
  have positive : 0 < kind.opcode.length := by cases kind <;> decide
  simp only [sizeOf_append, sizeOf_cons, Item.size]
  omega

theorem fixups_ascending (calls : Bool) (pos : Nat) (items : List Item) :
    (fixups calls pos items).Pairwise fun a b => a.1 + kRel32DispBytes ≤ b.1 := by
  induction items generalizing pos with
  | nil => exact .nil
  | cons item items ih =>
      rw [fixups, List.pairwise_append]
      refine ⟨?_, ih _, fun a here b later => ?_⟩
      · cases item with
        | instr | label => exact .nil
        | branch kind target =>
            rw [Item.fixups]
            split
            · exact List.pairwise_singleton _ _
            · exact .nil
      · have first : a ∈ fixups calls pos [item] := by
          rw [fixups]
          exact List.mem_append_left _ here
        have low : pos < a.1 ∧ a.1 + kRel32DispBytes ≤ pos + sizeOf [item] := fixups_within first
        have high : pos + item.size < b.1 ∧ _ := fixups_within later
        simp only [sizeOf_cons, sizeOf_nil] at low
        omega

/-- The displacement of a jump and that of a call do not overlap. -/
theorem fixups_apart {pos : Nat} {items : List Item} {jump call : Nat × Int}
    (isJump : jump ∈ fixups false pos items) (isCall : call ∈ fixups true pos items) :
    jump.1 + kRel32DispBytes ≤ call.1 ∨ call.1 + kRel32DispBytes ≤ jump.1 := by
  induction items generalizing pos with
  | nil => cases isJump
  | cons item items ih =>
      have within {calls : Bool} {fixup : Nat × Int} (here : fixup ∈ item.fixups calls pos) :
          fixup.1 + kRel32DispBytes ≤ pos + item.size := by
        have first : fixup ∈ fixups calls pos [item] := by
          rw [fixups]
          exact List.mem_append_left _ here
        have bound : pos < fixup.1 ∧ fixup.1 + kRel32DispBytes ≤ pos + sizeOf [item] :=
          fixups_within first
        simpa using bound.2
      rw [fixups, List.mem_append] at isJump isCall
      rcases isJump with jumpHere | jumpLater <;> rcases isCall with callHere | callLater
      · cases item with
        | instr | label => cases jumpHere
        | branch kind target =>
            rw [Item.fixups] at jumpHere callHere
            cases isCall : kind.isCall <;> simp [isCall] at jumpHere callHere
      · have early := within jumpHere
        have late : pos + item.size < call.1 ∧ _ := fixups_within callLater
        omega
      · have early := within callHere
        have late : pos + item.size < jump.1 ∧ _ := fixups_within jumpLater
        omega
      · exact ih jumpLater callLater

/-- Patching a list of displacements fills them in. -/
theorem patches_fill {calls : Bool} {pos : Nat} {items : List Item}
    {step : List Byte → Nat × Int → Except EncodeError (List Byte)}
    {Fits : Nat × Int → BitVec 32 → Prop}
    {todo : List (Nat × Int)}
    (patches : ∀ fixup ∈ todo, ∀ out after, step out fixup = .ok after →
      ∃ rel, Fits fixup rel ∧ after = patch out (fixup.1 - pos) rel)
    (ascending : todo.Pairwise fun a b => a.1 + kRel32DispBytes ≤ b.1)
    (members : ∀ fixup ∈ todo, fixup ∈ fixups calls pos items) {filling : Filling}
    {out : List Byte} (patched : todo.foldlM step (fill filling pos items) = .ok out) :
    ∃ filled : Filling, out = fill filled pos items ∧
      (∀ fixup ∈ todo, Fits fixup (filled fixup.1)) ∧
        ∀ q, (∀ fixup ∈ todo, fixup.1 ≠ q) → filled q = filling q := by
  induction todo generalizing filling with
  | nil =>
      cases patched
      exact ⟨filling, rfl, nofun, fun _ _ => rfl⟩
  | cons fixup todo ih =>
      rw [List.foldlM_cons] at patched
      obtain ⟨mid, first, rest⟩ := except_bind_ok.mp patched
      obtain ⟨rel, fits, rfl⟩ := patches fixup List.mem_cons_self _ _ first
      rw [patch_fill (members fixup List.mem_cons_self)] at rest
      rw [List.pairwise_cons] at ascending
      obtain ⟨filled, rfl, fitted, others⟩ := ih
        (fun other member => patches other (List.mem_cons_of_mem _ member)) ascending.2
        (fun other member => members other (List.mem_cons_of_mem _ member)) rest
      refine ⟨filled, rfl, fun other member => ?_, fun q apart => ?_⟩
      · rcases List.mem_cons.mp member with rfl | member
        · have apart : ∀ later ∈ todo, later.1 ≠ other.1 := by
            intro later member
            have behind := ascending.1 later member
            simp only [kRel32DispBytes] at behind
            omega
          have untouched := others other.1 apart
          rw [untouched, Function.update_self]
          exact fits
        · exact fitted other member
      · rw [others q fun later member => apart later (List.mem_cons_of_mem _ member),
          Function.update_of_ne (apart fixup List.mem_cons_self).symm]

/-- Each jump goes to the position of its label. -/
def Resolved (filling : Filling) (pos : Nat) (items : List Item) : Prop :=
  ∀ fixup ∈ fixups false pos items, ∃ target,
    (labels pos items).lookup fixup.2 = some target ∧
      rel32 fixup.1 target = some (filling fixup.1)

theorem resolveJump_patch {enc : Encoder} {out after : List Byte} {fixup : Nat × Int}
    (resolved : resolveJump enc out fixup = .ok after) :
    ∃ rel, (∃ target, enc.labelPos.lookup fixup.2 = some target ∧
      rel32 fixup.1 target = some rel) ∧ after = patchJump out fixup.1 rel := by
  unfold resolveJump Encoder.labelPosition at resolved
  split at resolved
  case h_1 => cases resolved
  case h_2 target found =>
    split at resolved
    case h_1 => cases resolved
    case h_2 rel fits =>
      cases resolved
      exact ⟨rel, ⟨target, found, fits⟩, rfl⟩

theorem emits_prologue : Emits { buf := prologue } prologueItems :=
  ⟨by decide, rfl, rfl, rfl⟩

end ExecEncoder

end Aegis
