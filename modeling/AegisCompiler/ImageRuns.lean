import AegisCompiler.X86Stack

/-!
# Running the code of an image

Where an image holds the code of some instructions, the machine steps through
them.  Pushing registers and popping them again in the opposite order restores
their contents and the stack.
-/

namespace X86

open Relation (ReflTransGen)

/-- The image has the code at a position. -/
def Image.HasCode (image : Image) (pos : Nat) (code : List Byte) : Prop :=
  ∃ front back, image.bytes = front ++ (code ++ back) ∧ front.length = pos

section Code

variable {image : Image} {pos : Nat} {code more : List Byte}

theorem Image.HasCode.left (hasCode : image.HasCode pos (code ++ more)) :
    image.HasCode pos code := by
  obtain ⟨front, back, bytes, length⟩ := hasCode
  exact ⟨front, more ++ back, by rw [bytes, List.append_assoc], length⟩

theorem Image.HasCode.right (hasCode : image.HasCode pos (code ++ more)) :
    image.HasCode (pos + code.length) more := by
  obtain ⟨front, back, bytes, length⟩ := hasCode
  refine ⟨front ++ code, back, ?_, ?_⟩
  · rw [bytes, List.append_assoc, List.append_assoc]
  · rw [List.length_append, length]

theorem Image.HasCode.fetch (hasCode : image.HasCode pos code) {instr : Instr}
    (decodes : Decodes code instr) :
    image.fetch (image.address pos) =
      some (instr, image.address (pos + code.length)) := by
  obtain ⟨front, back, bytes, rfl⟩ := hasCode
  exact image.fetch_decodes bytes decodes

end Code

namespace Machine

/-- Some steps of the machine. -/
abbrev Steps (image : Image) (lowest : Word) : Machine → Machine → Prop :=
  ReflTransGen fun m after => step image lowest m = some after

section Runs

variable {image : Image} {lowest : Word} {m after : Machine} {pos : Nat}
variable {code : List Byte} {instr : Instr}

theorem steps_of_execute (hasCode : image.HasCode pos code)
    (decodes : Decodes code instr) (rip : m.rip = image.address pos)
    (executed : m.execute lowest (image.address (pos + code.length)) instr = some after) :
    Steps image lowest m after := by
  apply ReflTransGen.single
  have fetched := hasCode.fetch decodes
  rw [← rip] at fetched
  exact Option.bind_eq_some_iff.mpr ⟨_, fetched, executed⟩

/-- What only changes registers and flags goes on with the next instruction. -/
theorem execute_of_exec {cpu : Cpu} {next : Word}
    (executed : instr.exec m.cpu = some cpu) :
    m.execute lowest next instr = some { m with cpu, rip := next } := by
  have straight : instr.isStraight = true := by
    cases instr <;> first | rfl | cases executed
  rw [execute_straight lowest m next straight, executed, Option.map_some]

/-- Straight code runs to its end. -/
theorem steps_of_execAll {instrs : List Instr} (decodes : DecodesAll code instrs)
    (hasCode : image.HasCode pos code) (rip : m.rip = image.address pos) {cpu : Cpu}
    (executed : execAll instrs m.cpu = some cpu) :
    Steps image lowest m
      { m with cpu, rip := image.address (pos + code.length) } := by
  induction decodes generalizing m pos with
  | nil =>
      cases executed
      rw [List.length_nil, Nat.add_zero, ← rip]
  | @cons bytes more instr instrs decodes _ ih =>
      obtain ⟨mid, first, rest⟩ := Option.bind_eq_some_iff.mp executed
      have step : Steps image lowest m
          { m with cpu := mid, rip := image.address (pos + bytes.length) } :=
        steps_of_execute hasCode.left decodes rip (execute_of_exec first)
      have later := ih (m := { m with
        cpu := mid, rip := image.address (pos + bytes.length) }) hasCode.right rfl rest
      rw [List.length_append, ← Nat.add_assoc]
      exact step.trans later

end Runs

section Saving

variable {image : Image} {lowest : Word} {m : Machine} {pos : Nat}
variable {bottom : Word} {words : List Word}

theorem push_of_room (room : lowest.toNat + 8 ≤ m.rsp.toNat) (value : Word) :
    ∃ after, m.push lowest value = some after := by
  rw [push, if_pos room]
  exact ⟨_, rfl⟩

/-- Pushing registers saves them, the first one deepest. -/
theorem steps_of_pushes (bytes : Reg → List Byte) {regs : List Reg}
    (decodes : ∀ r ∈ regs, Decodes (bytes r) (.push r)) (apart : ∀ r ∈ regs, r ≠ .rsp)
    (hasCode : image.HasCode pos (regs.flatMap bytes)) (rip : m.rip = image.address pos)
    (stack : m.StackHolds bottom words)
    (room : lowest.toNat + 8 * regs.length ≤ m.rsp.toNat) :
    ∃ after, Steps image lowest m after ∧
      after.rip = image.address (pos + (regs.flatMap bytes).length) ∧
        after.StackHolds bottom ((regs.map m.cpu.regs).reverse ++ words) ∧
          ∀ r, r ≠ .rsp → after.cpu.regs r = m.cpu.regs r := by
  induction regs generalizing m pos words with
  | nil => exact ⟨m, .refl, rip, stack, fun _ _ => rfl⟩
  | cons r regs ih =>
      rw [List.flatMap_cons] at hasCode ⊢
      rw [List.length_cons] at room
      have space : lowest.toNat + 8 ≤ m.rsp.toNat := by omega
      obtain ⟨pushed, saved⟩ := push_of_room space (m.cpu.regs r)
      let next := image.address (pos + (bytes r).length)
      have step : Steps image lowest m { pushed with rip := next } := by
        apply steps_of_execute hasCode.left (decodes r List.mem_cons_self) rip
        change (m.push lowest (m.cpu.regs r)).map _ = _
        rw [saved, Option.map_some]
      have lower := push_rsp saved
      have kept (other : Reg) (notRsp : other ≠ .rsp) :
          pushed.cpu.regs other = m.cpu.regs other := push_other saved notRsp
      obtain ⟨after, steps, there, holds, same⟩ := ih (m := { pushed with rip := next })
        (fun other member => decodes other (List.mem_cons_of_mem _ member))
        (fun other member => apart other (List.mem_cons_of_mem _ member))
        hasCode.right rfl ((stack.push saved).of_eq rfl rfl) (by
          change lowest.toNat + 8 * regs.length ≤ pushed.rsp.toNat
          omega)
      refine ⟨after, step.trans steps, ?_, ?_, fun other notRsp => ?_⟩
      · rw [there, List.length_append, Nat.add_assoc]
      · have values : regs.map pushed.cpu.regs = regs.map m.cpu.regs :=
          List.map_congr_left fun other member =>
            kept other (apart other (List.mem_cons_of_mem _ member))
        change after.StackHolds bottom
          ((regs.map pushed.cpu.regs).reverse ++ m.cpu.regs r :: words) at holds
        rw [values] at holds
        rw [List.map_cons, List.reverse_cons, List.append_assoc]
        exact holds
      · exact (same other notRsp).trans (kept other notRsp)

/-- Popping registers takes their contents from the stack. -/
theorem steps_of_pops (lowest : Word) {bytes : Reg → List Byte} {regs : List Reg}
    (decodes : ∀ r ∈ regs, Decodes (bytes r) (.pop r)) (apart : ∀ r ∈ regs, r ≠ .rsp)
    (nodup : regs.Nodup) (hasCode : image.HasCode pos (regs.flatMap bytes))
    (rip : m.rip = image.address pos) {saved : Reg → Word}
    (stack : m.StackHolds bottom (regs.map saved ++ words)) :
    ∃ after, Steps image lowest m after ∧
      after.rip = image.address (pos + (regs.flatMap bytes).length) ∧
        after.StackHolds bottom words ∧
          (∀ r ∈ regs, after.cpu.regs r = saved r) ∧
            ∀ r, r ≠ .rsp → r ∉ regs → after.cpu.regs r = m.cpu.regs r := by
  induction regs generalizing m pos with
  | nil => exact ⟨m, .refl, rip, stack, nofun, fun _ _ _ => rfl⟩
  | cons r regs ih =>
      rw [List.flatMap_cons] at hasCode ⊢
      obtain ⟨absent, nodup⟩ := List.nodup_cons.mp nodup
      let mid : Machine := { m.pop.2 with
        cpu := m.pop.2.cpu.set r m.pop.1, rip := image.address (pos + (bytes r).length) }
      have step : Steps image lowest m mid :=
        steps_of_execute hasCode.left (decodes r List.mem_cons_self) rip rfl
      obtain ⟨value, popped⟩ := stack.pop
      have notRsp : Reg.rsp ≠ r := (apart r List.mem_cons_self).symm
      obtain ⟨after, steps, there, holds, restored, same⟩ := ih (m := mid)
        (fun other member => decodes other (List.mem_cons_of_mem _ member))
        (fun other member => apart other (List.mem_cons_of_mem _ member)) nodup
        hasCode.right rfl (popped.of_eq (Cpu.set_other _ notRsp _) rfl)
      refine ⟨after, step.trans steps, ?_, holds, fun other member => ?_, ?_⟩
      · rw [there, List.length_append, Nat.add_assoc]
      · rcases List.mem_cons.mp member with rfl | member
        · rw [same other notRsp.symm absent, ← value]
          exact Cpu.set_same _ _ _
        · exact restored other member
      · intro other otherRsp outside
        obtain ⟨differs, outside⟩ := not_or.mp (List.mem_cons.not.mp outside)
        rw [same other otherRsp outside]
        exact (Cpu.set_other _ differs _).trans (pop_other m otherRsp)

end Saving

end Machine

end X86
