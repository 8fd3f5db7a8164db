import AegisCompiler.EncodedPlaces
import AegisCompiler.X86Stack

/-!
# The stack discipline of encoded functions

Below the saved registers of an activation are its return address and, when a
function of the module called it, the saved registers of the caller.  Every
instruction of a function keeps the stack in this form, so its returns restore
the registers and pop the address that the caller pushed.
-/

namespace Aegis

namespace ExecEncoder

open X86 (Byte Reg Instr Cpu Image Machine)

/-- The registers on the stack in a phase, the latest first. -/
inductive Phase.Saved : Phase → List Reg → Prop
  | entering {todo stack : List Reg} : stack.reverse ++ todo = calleeSavedHomes →
      Saved (.entering todo) stack
  | leaving {todo : List Reg} : todo <:+ calleeSavedHomes.reverse →
      Saved (.leaving todo) todo

theorem Phase.Saved.inside {stack : List Reg} (stacked : Phase.Saved (.entering []) stack) :
    stack = calleeSavedHomes.reverse := by
  cases stacked with
  | entering split =>
      rw [List.append_nil] at split
      rw [← split, List.reverse_reverse]

theorem Phase.saved_inside : Phase.Saved (.entering []) calleeSavedHomes.reverse :=
  .entering (by simp)

theorem Phase.saved_entry : Phase.Saved (.entering calleeSavedHomes) [] := .entering rfl

/-- What a phase has left to save or to restore is callee-saved. -/
theorem Phase.Saved.todo {phase : Phase} {stack : List Reg} (stacked : phase.Saved stack) :
    ∀ r ∈ phase.todo, r ∈ calleeSavedHomes := by
  intro r member
  cases stacked with
  | entering split =>
      rw [← split]
      exact List.mem_append_right _ member
  | leaving suffix => exact List.mem_reverse.mp (suffix.subset member)

theorem Phase.Saved.starts {phase phase' : Phase} {stack : List Reg}
    (stacked : phase.Saved stack) (starts : phase.Starts phase') : phase'.Saved stack := by
  cases starts with
  | same => exact stacked
  | leaving =>
      rw [stacked.inside]
      exact .leaving (List.suffix_refl _)

theorem calleeSaved_nodup : calleeSavedHomes.Nodup := by decide

theorem calleeSaved_rsp : ∀ r ∈ calleeSavedHomes, r ≠ Reg.rsp := by decide

/-- What the outermost activation is entered with: its registers, its return
address, and the stack pointer of its caller. -/
structure Entered where
  saved : Reg → Word
  returnAddress : Word
  bottom : Word

/-- The registers that an activation has to restore, and the words below them:
its return address and the stack of its caller. -/
inductive Frames (img : Image) (functions : List (List Item)) (entered : Entered) :
    Nat → (Reg → Word) → List Word → Prop
  | outer : Frames img functions entered 0 entered.saved [entered.returnAddress]
  | called {depth pos : Nat} {saved saved' : Reg → Word} {below : List Word} :
      Frames img functions entered depth saved below → Inside functions pos →
        Frames img functions entered (depth + 1) saved'
          (img.address pos :: (calleeSavedHomes.reverse.map saved ++ below))

/-- The stack has the form of the phase, and the callee-saved registers that are
not on it hold what the activation has to restore. -/
def Holding (img : Image) (functions : List (List Item)) (entered : Entered)
    (depth : Nat) (phase : Phase) (m : Machine) : Prop :=
  ∃ stack saved below, phase.Saved stack ∧
    Frames img functions entered depth saved below ∧
      m.StackHolds entered.bottom (stack.map saved ++ below) ∧
        ∀ r ∈ calleeSavedHomes, r ∉ stack → m.cpu.regs r = saved r

section

variable {img : Image} {functions : List (List Item)} {entered : Entered}
  {depth : Nat} {phase : Phase} {m after : Machine}

theorem Holding.starts {phase' : Phase} (holding : Holding img functions entered depth phase m)
    (starts : phase.Starts phase') : Holding img functions entered depth phase' m := by
  obtain ⟨stack, saved, below, stacked, rest⟩ := holding
  exact ⟨stack, saved, below, stacked.starts starts, rest⟩

/-- The instruction pointer does not matter. -/
theorem Holding.jump (holding : Holding img functions entered depth phase m) (rip : Word) :
    Holding img functions entered depth phase { m with rip } := by
  obtain ⟨stack, saved, below, stacked, frames, holds, kept⟩ := holding
  exact ⟨stack, saved, below, stacked, frames, holds.of_eq rfl rfl, kept⟩

/-- Inside a function, all callee-saved registers are on the stack. -/
theorem Holding.plain (holding : Holding img functions entered depth (.entering []) m)
    (rsp : after.rsp = m.rsp) (memory : after.memory = m.memory) :
    Holding img functions entered depth (.entering []) after := by
  obtain ⟨stack, saved, below, stacked, frames, holds, kept⟩ := holding
  refine ⟨stack, saved, below, stacked, frames, holds.of_eq rsp memory, ?_⟩
  intro r member absent
  rw [stacked.inside] at absent
  exact absurd (List.mem_reverse.mpr member) absent

theorem Holding.push {r : Reg} {todo : List Reg} {lowest : Word}
    (holding : Holding img functions entered depth (.entering (r :: todo)) m)
    (pushed : m.push lowest (m.cpu.regs r) = some after) :
    Holding img functions entered depth (.entering todo) after := by
  obtain ⟨stack, saved, below, stacked, frames, holds, kept⟩ := holding
  cases stacked with
  | entering split =>
    have member : r ∈ calleeSavedHomes := by
      rw [← split]
      exact List.mem_append_right _ List.mem_cons_self
    have absent : r ∉ stack := by
      have nodup := calleeSaved_nodup
      rw [← split, List.nodup_append] at nodup
      intro inside
      exact nodup.2.2 r (List.mem_reverse.mpr inside) r List.mem_cons_self rfl
    have value := kept r member absent
    refine ⟨r :: stack, saved, below, .entering ?_, frames, ?_, ?_⟩
    · rw [List.reverse_cons, List.append_assoc]
      exact split
    · rw [value] at pushed
      exact holds.push pushed
    · intro other inside apart
      rw [Machine.push_other pushed (calleeSaved_rsp other inside)]
      exact kept other inside fun old => apart (List.mem_cons_of_mem _ old)

theorem Holding.call {pos : Nat} {lowest : Word}
    (holding : Holding img functions entered depth (.entering []) m)
    (inside : Inside functions pos)
    (pushed : m.push lowest (img.address pos) = some after) :
    Holding img functions entered (depth + 1) (.entering calleeSavedHomes) after := by
  obtain ⟨stack, saved, below, stacked, frames, holds, -⟩ := holding
  rw [stacked.inside] at holds
  exact ⟨[], after.cpu.regs, _, Phase.saved_entry, .called frames inside, holds.push pushed,
    fun _ _ _ => rfl⟩

theorem Holding.pop {r : Reg} {todo : List Reg}
    (holding : Holding img functions entered depth (.leaving (r :: todo)) m) :
    Holding img functions entered depth (.leaving todo)
      { m.pop.2 with cpu := m.pop.2.cpu.set r m.pop.1 } := by
  obtain ⟨stack, saved, below, stacked, frames, holds, kept⟩ := holding
  cases stacked with
  | leaving suffix =>
    obtain ⟨value, popped⟩ := holds.pop
    have member : r ∈ calleeSavedHomes :=
      List.mem_reverse.mp (suffix.subset List.mem_cons_self)
    have apart : Reg.rsp ≠ r := (calleeSaved_rsp r member).symm
    refine ⟨todo, saved, below, .leaving ((List.suffix_cons r todo).trans suffix), frames,
      popped.of_eq (Cpu.set_other _ apart _) rfl, ?_⟩
    intro other inside absent
    by_cases same : other = r
    · rw [same, value]
      exact Cpu.set_same _ _ _
    · change (m.pop.2.cpu.set r m.pop.1).regs other = saved other
      rw [Cpu.set_other _ same, Machine.pop_other m (calleeSaved_rsp other inside)]
      exact kept other inside fun old => (List.mem_cons.mp old).elim same absent

/-- The return of a called function leads back into its caller. -/
theorem Holding.ret
    (holding : Holding img functions entered (depth + 1) (.leaving []) m) :
    ∃ pos, m.pop.1 = img.address pos ∧ Inside functions pos ∧
      Holding img functions entered depth (.entering []) m.pop.2 := by
  obtain ⟨stack, saved, below, stacked, frames, holds, -⟩ := holding
  cases stacked
  cases frames with
  | @called _ pos saved _ below frames inside =>
    obtain ⟨value, popped⟩ := holds.pop
    refine ⟨pos, value, inside, _, saved, below, Phase.saved_inside, frames, popped, ?_⟩
    intro r member absent
    exact absurd (List.mem_reverse.mpr member) absent

/-- The return of the outermost activation. -/
theorem Holding.outer_ret (holding : Holding img functions entered 0 (.leaving []) m) :
    m.rsp.toNat + 8 = entered.bottom.toNat ∧ m.pop.1 = entered.returnAddress ∧
      ∀ r ∈ calleeSavedHomes, m.cpu.regs r = entered.saved r := by
  obtain ⟨stack, saved, below, stacked, frames, holds, kept⟩ := holding
  cases stacked
  cases frames
  exact ⟨holds.size, holds.pop.1, fun r member => kept r member List.not_mem_nil⟩

/-- Control is in a phase of a function, and not at its entry once it is inside. -/
def Disciplined (img : Image) (functions : List (List Item)) (entered : Entered)
    (depth : Nat) (m : Machine) : Prop :=
  ∃ pos phase, m.rip = img.address pos ∧ InPhase functions pos phase ∧
    (phase = .entering [] → pos ∉ entriesOf functions) ∧
      Holding img functions entered depth phase m

/-- Control does not arrive at the first byte of a function. -/
def StaysBehind (img : Image) (entries : List Nat) (m : Machine) : Prop :=
  ∀ entry ∈ entries, m.rip ≠ img.address entry

instance (img : Image) (entries : List Nat) : DecidablePred (StaysBehind img entries) :=
  fun m => inferInstanceAs (Decidable (∀ entry ∈ entries, m.rip ≠ img.address entry))

variable {lowest : Word}

/-- What a step inside a function does to the stack. -/
inductive Effect (lowest : Word) (m : Machine) : Machine → Phase → Phase → Prop
  | push {r : Reg} {todo : List Reg} {pushed : Machine} :
      m.push lowest (m.cpu.regs r) = some pushed → (rip : Word) →
        Effect lowest m { pushed with rip } (.entering (r :: todo)) (.entering todo)
  | pop {r : Reg} {todo : List Reg} (rip : Word) :
      Effect lowest m { m.pop.2 with cpu := m.pop.2.cpu.set r m.pop.1, rip }
        (.leaving (r :: todo)) (.leaving todo)
  | plain {after : Machine} : after.rsp = m.rsp → after.memory = m.memory →
      Effect lowest m after (.entering []) (.entering [])

/-- The instruction at a disciplined state belongs to its phase. -/
theorem Disciplined.flow {filling : Filling} (layout : Layout img.bytes functions filling)
    (disciplined : Disciplined img functions entered depth m) {instr : Instr} {next : Word}
    (fetched : img.fetch m.rip = some (instr, next)) :
    ∃ phase, Flow img functions phase instr next ∧
      Holding img functions entered depth phase m := by
  obtain ⟨pos, phase, rip, inPhase, behind, holding⟩ := disciplined
  have saved : ∀ r ∈ phase.todo, r ∈ calleeSavedHomes := by
    obtain ⟨stack, _, _, stacked, _⟩ := holding
    exact stacked.todo
  rw [rip] at fetched
  rcases fetch_flow layout inPhase saved fetched with ⟨isInside, entry⟩ | ⟨phase', starts, flow⟩
  · exact absurd entry (behind isInside)
  · exact ⟨phase', flow, holding.starts starts⟩

/-- A step inside a function goes on inside it. -/
theorem Flow.step_inside {instr : Instr} {next : Word}
    (flow : Flow img functions phase instr next)
    (notCall : ∀ rel, instr ≠ .call rel) (notRet : instr ≠ .ret)
    (executed : m.execute lowest next instr = some after) :
    ∃ pos phase', after.rip = img.address pos ∧ InPhase functions pos phase' ∧
      Effect lowest m after phase phase' := by
  cases flow with
  | @push r todo pos inPhase =>
      obtain ⟨pushed, found, rfl⟩ := Option.map_eq_some_iff.mp executed
      exact ⟨pos, _, rfl, inPhase, .push found _⟩
  | @pop r todo pos inPhase =>
      cases executed
      exact ⟨pos, _, rfl, inPhase, .pop _⟩
  | @plain _ pos plain inside =>
      rw [Machine.execute_straight lowest m _ plain.1] at executed
      obtain ⟨cpu, computed, rfl⟩ := Option.map_eq_some_iff.mp executed
      have rsp : cpu.regs .rsp = m.cpu.regs .rsp :=
        Instr.exec_other plain.2 (by decide) (by decide) computed
      exact ⟨pos, _, rfl, inside, .plain rsp rfl⟩
  | @jmp rel pos target inside leads =>
      cases executed
      exact ⟨target, _, leads, inside, .plain rfl rfl⟩
  | @jz rel pos target behind inside leads =>
      obtain ⟨zero, -, rfl⟩ := Option.map_eq_some_iff.mp executed
      cases zero with
      | false => exact ⟨pos, _, rfl, behind, .plain rfl rfl⟩
      | true => exact ⟨target, _, leads, inside, .plain rfl rfl⟩
  | call => exact absurd rfl (notCall _)
  | ret => exact absurd rfl notRet

theorem Holding.effect {phase' : Phase}
    (holding : Holding img functions entered depth phase m)
    (effect : Effect lowest m after phase phase') :
    Holding img functions entered depth phase' after := by
  cases effect with
  | push pushed rip => exact (holding.push pushed).jump rip
  | pop rip => exact holding.pop.jump rip
  | plain rsp memory => exact holding.plain rsp memory

/-- A call enters a function, with the caller suspended. -/
theorem Holding.step_call {rel : BitVec 32} {next : Word}
    (holding : Holding img functions entered depth phase m)
    (flow : Flow img functions phase (.call rel) next)
    (executed : m.execute lowest next (.call rel) = some after) :
    ∃ pos ∈ entriesOf functions, after.rip = img.address pos ∧
      Holding img functions entered (depth + 1) (.entering calleeSavedHomes) after := by
  cases flow with
  | plain plain => cases plain.1
  | call inside entry leads =>
      obtain ⟨pushed, found, rfl⟩ := Option.map_eq_some_iff.mp executed
      exact ⟨_, entry, leads, (holding.call inside found).jump _⟩

/-- A return of a called function leads into its caller. -/
theorem Holding.step_ret {next : Word}
    (holding : Holding img functions entered (depth + 1) phase m)
    (flow : Flow img functions phase .ret next)
    (executed : m.execute lowest next .ret = some after) :
    ∃ pos, after.rip = img.address pos ∧ Inside functions pos ∧
      Holding img functions entered depth (.entering []) after := by
  cases flow with
  | plain plain => cases plain.1
  | ret =>
      cases executed
      obtain ⟨pos, leads, inside, holding⟩ := holding.ret
      exact ⟨pos, leads, inside, holding.jump _⟩

/-- Every state of an activation is disciplined. -/
theorem disciplined_of_activation {filling : Filling}
    (layout : Layout img.bytes functions filling) {start : Machine}
    (entry : Disciplined img functions entered 0 start)
    (reached : Machine.Activation img lowest (StaysBehind img (entriesOf functions)) start
      depth m) : Disciplined img functions entered depth m := by
  have behind {pos : Nat} {phase : Phase} {m : Machine} (rip : m.rip = img.address pos)
      (stays : StaysBehind img (entriesOf functions) m) :
      phase = .entering [] → pos ∉ entriesOf functions :=
    fun _ isEntry => stays pos isEntry rip
  induction reached with
  | enter => exact entry
  | inside _ notCall notRet stepped stays ih =>
      obtain ⟨instr, next, fetched, executed⟩ := Machine.step_cases stepped
      obtain ⟨phase, flow, holding⟩ := ih.flow layout fetched
      obtain ⟨pos, phase', rip, inPhase, effect⟩ := flow.step_inside
        (fun rel same => notCall ⟨rel, next, same ▸ fetched⟩)
        (fun same => notRet ⟨next, same ▸ fetched⟩) executed
      exact ⟨pos, phase', rip, inPhase, behind rip stays, holding.effect effect⟩
  | call _ atCall stepped ih =>
      obtain ⟨rel, _, isCall⟩ := atCall
      obtain ⟨instr, next, fetched, executed⟩ := Machine.step_cases stepped
      cases isCall.symm.trans fetched
      obtain ⟨phase, flow, holding⟩ := ih.flow layout fetched
      obtain ⟨pos, isEntry, rip, holding⟩ := holding.step_call flow executed
      exact ⟨pos, _, rip, inPhase_of_entry layout.shaped isEntry, nofun, holding⟩
  | ret _ atRet stepped stays ih =>
      obtain ⟨_, isRet⟩ := atRet
      obtain ⟨instr, next, fetched, executed⟩ := Machine.step_cases stepped
      cases isRet.symm.trans fetched
      obtain ⟨phase, flow, holding⟩ := ih.flow layout fetched
      obtain ⟨pos, rip, inside, holding⟩ := holding.step_ret flow executed
      exact ⟨pos, _, rip, inside, behind rip stays, holding⟩

/-- A call from outside enters a function of the image. -/
theorem disciplined_of_call (shaped : ∀ items ∈ functions, IsFunction items)
    {caller : Machine} {returnAddress : Word}
    (pushed : caller.push lowest returnAddress = some after) {pos : Nat}
    (isEntry : pos ∈ entriesOf functions) :
    Disciplined img functions ⟨after.cpu.regs, returnAddress, caller.rsp⟩ 0
      { after with rip := img.address pos } := by
  refine ⟨pos, _, rfl, inPhase_of_entry shaped isEntry, nofun, [], after.cpu.regs, _,
    Phase.saved_entry, .outer, ?_, fun _ _ _ => rfl⟩
  exact ((Machine.stackHolds_nil caller).push pushed).of_eq rfl rfl

end

/-- The registers that a function preserves. -/
def calleeSaved : List Reg := [.rbx, .rbp, 12, 13, 14, 15]

/-- When an entered function of a near module returns, the stack pointer, the return address
and the callee-saved registers are those of its entry, as long as control does not run into the
entry of a function. -/
theorem ret_disciplined {fns : List ModuleFunction} {img : Image} {entries : List Nat}
    (near : Near fns) (encoded : encodeModule fns = .ok (img.bytes, entries)) {lowest : Word}
    {caller entered : Machine} {returnAddress : Word}
    (called : caller.push lowest returnAddress = some entered) {entry : Nat}
    (isEntry : entry ∈ entries) {m : Machine}
    (reached : Machine.Activation img lowest (StaysBehind img entries)
      { entered with rip := img.address entry } 0 m) (atRet : Machine.AtRet img m) :
    m.rsp = entered.rsp ∧ m.pop.1 = returnAddress ∧
      ∀ r ∈ calleeSaved, m.cpu.regs r = entered.cpu.regs r := by
  obtain ⟨functions, filling, layout, rfl⟩ := encodeModule_layout near encoded
  obtain ⟨next, fetched⟩ := atRet
  obtain ⟨phase, flow, holding⟩ := (disciplined_of_activation layout
    (disciplined_of_call layout.shaped called isEntry) reached).flow layout fetched
  cases flow with
  | plain plain => cases plain.1
  | ret =>
      obtain ⟨size, popped, kept⟩ := holding.outer_ret
      refine ⟨BitVec.eq_of_toNat_eq ?_, popped, kept⟩
      have lower := Machine.push_rsp called
      change m.rsp.toNat + 8 = caller.rsp.toNat at size
      omega

def callTo (callee : Int) : MachineInstr := { op := .call, result := some 0, imm := some callee }

def retFirst : MachineInstr := { op := .ret, uses := [some 0] }

/-- A function that returns a constant. -/
def constant : MachineFunction where
  instrs := [{ op := .movImm, result := some 0, imm := some 7 }, retFirst]

def constantBytes : List Byte :=
  [0x53, 0x55, 0x41, 0x54, 0x41, 0x55, 0x41, 0x56, 0x41, 0x57,
    0x48, 0xB9, 0x07, 0, 0, 0, 0, 0, 0, 0, 0x48, 0x89, 0xC8,
    0x41, 0x5F, 0x41, 0x5E, 0x41, 0x5D, 0x41, 0x5C, 0x5D, 0x5B, 0xC3]

/-- The first function calls the second, which calls the third twice. -/
def nested : List ModuleFunction :=
  [⟨0, some { instrs := [callTo 1, retFirst] }, some {}⟩,
    ⟨1, some { instrs := [callTo 2, callTo 2, retFirst] }, some {}⟩, ⟨2, some constant, some {}⟩]

def nestedImage : Image where
  base := 0x400000
  bytes := [0x53, 0x55, 0x41, 0x54, 0x41, 0x55, 0x41, 0x56, 0x41, 0x57,
    0xE8, 0x11, 0, 0, 0, 0x48, 0x89, 0xC1, 0x48, 0x89, 0xC8,
    0x41, 0x5F, 0x41, 0x5E, 0x41, 0x5D, 0x41, 0x5C, 0x5D, 0x5B, 0xC3] ++
      [0x53, 0x55, 0x41, 0x54, 0x41, 0x55, 0x41, 0x56, 0x41, 0x57,
        0xE8, 0x19, 0, 0, 0, 0x48, 0x89, 0xC1, 0xE8, 0x11, 0, 0, 0, 0x48, 0x89, 0xC1,
        0x48, 0x89, 0xC8, 0x41, 0x5F, 0x41, 0x5E, 0x41, 0x5D, 0x41, 0x5C, 0x5D, 0x5B, 0xC3] ++
          constantBytes
  fits := by decide

theorem nested_near : Near nested := by
  apply near_of_short
  intro f member mf ra given given'
  have known : f = nested[0] ∨ f = nested[1] ∨ f = nested[2] := by
    simpa [nested] using member
  rcases known with rfl | rfl | rfl <;> cases given <;> cases given'
  · exact ⟨32, by decide, by decide⟩
  · exact ⟨40, by decide, by decide⟩
  · exact ⟨34, by decide, by decide⟩

/-- A caller outside the image. -/
def outsideCaller : Machine where
  cpu := { regs := fun r => if r = .rsp then 0x7000 else r.setWidth 64 }
  rip := 0
  memory := fun _ => 0

/-- The machine with a return address on its stack. -/
def outsideCalled : Machine :=
  { outsideCaller with
    cpu := outsideCaller.cpu.set .rsp (outsideCaller.rsp - 8)
    memory := outsideCaller.memory.store (outsideCaller.rsp - 8) 9 }

theorem outside_call : outsideCaller.push 0 9 = some outsideCalled := if_pos (by decide)

/-- The outer function returns after three calls below it. -/
theorem ret_disciplined_nested :
    ∃ entered m, outsideCaller.push 0 9 = some entered ∧
      Machine.Activation nestedImage 0 (StaysBehind nestedImage [0, 32, 72])
        { entered with rip := nestedImage.address 0 } 0 m ∧ Machine.AtRet nestedImage m ∧
          m.rsp = entered.rsp ∧ m.pop.1 = 9 ∧
            ∀ r ∈ calleeSaved, m.cpu.regs r = entered.cpu.regs r := by
  have encoded : encodeModule nested = .ok (nestedImage.bytes, [0, 32, 72]) := rfl
  have ran : ((Machine.runActivation nestedImage 0 (StaysBehind nestedImage [0, 32, 72]) 63 0
      { outsideCalled with rip := nestedImage.address 0 }).map fun r =>
        (r.1, nestedImage.fetch r.2.rip)) = some (0, some (.ret, 0x400020)) := by
    decide +kernel
  obtain ⟨⟨depth, m⟩, reaches, same⟩ := Option.map_eq_some_iff.mp ran
  obtain ⟨rfl, fetched⟩ := Prod.mk.inj same
  have reached := Machine.activation_of_run .enter reaches
  exact ⟨outsideCalled, m, outside_call, reached, ⟨_, fetched⟩,
    ret_disciplined nested_near encoded outside_call (by decide) reached ⟨_, fetched⟩⟩

/-- A function with a return, and a jump to its end. -/
def skipping : MachineFunction where
  instrs := [{ op := .movImm, result := some 0, imm := some 0 },
    { op := .jz, uses := [some 0], imm := some 1 }, retFirst, { op := .label, imm := some 1 }]

def skippingImage : Image where
  base := 0x400000
  bytes := [0x53, 0x55, 0x41, 0x54, 0x41, 0x55, 0x41, 0x56, 0x41, 0x57,
    0x48, 0xB9, 0, 0, 0, 0, 0, 0, 0, 0, 0x48, 0x85, 0xC9,
    0x0F, 0x84, 0x0E, 0, 0, 0, 0x48, 0x89, 0xC8,
    0x41, 0x5F, 0x41, 0x5E, 0x41, 0x5D, 0x41, 0x5C, 0x5D, 0x5B, 0xC3] ++
      constantBytes
  fits := by decide

/-- The function runs into the next one, and returns to a saved register. -/
theorem skipping_returns :
    ∃ entries entered m, encodeModule [⟨0, some skipping, some {}⟩,
        ⟨1, some constant, some {}⟩] = .ok (skippingImage.bytes, entries) ∧
      outsideCaller.push 0 9 = some entered ∧ 0 ∈ entries ∧
        Machine.Activation skippingImage 0 (fun _ => True)
          { entered with rip := skippingImage.address 0 } 0 m ∧
            Machine.AtRet skippingImage m ∧ m.rsp ≠ entered.rsp ∧ m.pop.1 ≠ 9 := by
  have ran : ((Machine.runActivation skippingImage 0 (fun _ => True) 23 0
      { outsideCalled with rip := skippingImage.address 0 }).map fun r =>
          (r.1, skippingImage.fetch r.2.rip, r.2.rsp, r.2.pop.1)) =
            some (0, some (.ret, 0x40004D), 0x6FC8, 15) := by
    decide
  obtain ⟨⟨depth, m⟩, reaches, same⟩ := Option.map_eq_some_iff.mp ran
  obtain ⟨rfl, fetched, rsp, popped⟩ : depth = 0 ∧
      skippingImage.fetch m.rip = some (.ret, 0x40004D) ∧ m.rsp = 0x6FC8 ∧ m.pop.1 = 15 := by
    simpa using same
  refine ⟨[0, 43], outsideCalled, m, rfl, outside_call, by decide,
    Machine.activation_of_run .enter reaches, ⟨_, fetched⟩, ?_, ?_⟩
  · rw [rsp]
    decide
  · rw [popped]
    decide

end ExecEncoder

end Aegis
