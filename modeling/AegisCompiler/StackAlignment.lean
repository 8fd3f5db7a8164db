import AegisCompiler.StackDiscipline

/-!
# Stack alignment at calls

Six pushes keep the stack pointer eight bytes off a multiple of sixteen, so that
no call is aligned when the function was entered as the ABI says.
-/

namespace Aegis

namespace ExecEncoder

open X86 (Byte Reg Instr Cpu Image Machine)

def kDefaultStackAlignment : Nat := 16

/-- The stack pointer is where the ABI and the registers pushed so far put it. -/
def OffByPushes (phase : Phase) (m : Machine) : Prop :=
  ∃ stack, phase.Saved stack ∧
    (m.rsp.toNat + 8 * stack.length + 8) % kDefaultStackAlignment = 0

section

variable {img : Image} {functions : List (List Item)} {phase : Phase} {m after : Machine}
  {lowest : Word}

theorem OffByPushes.starts {phase' : Phase} (off : OffByPushes phase m)
    (starts : phase.Starts phase') : OffByPushes phase' m := by
  obtain ⟨stack, stacked, sum⟩ := off
  exact ⟨stack, stacked.starts starts, sum⟩

theorem calleeSaved_length : calleeSavedHomes.length = 6 := rfl

/-- Inside a function, the stack pointer is off by eight. -/
theorem OffByPushes.inside (off : OffByPushes (.entering []) m) :
    m.rsp.toNat % kDefaultStackAlignment = 8 := by
  obtain ⟨stack, stacked, sum⟩ := off
  rw [stacked.inside, List.length_reverse, calleeSaved_length] at sum
  simp only [kDefaultStackAlignment] at sum ⊢
  omega

/-- The end of a function is as good as an entry. -/
theorem OffByPushes.entry (off : OffByPushes (.entering []) m) :
    OffByPushes (.entering calleeSavedHomes) m := by
  have inside := off.inside
  refine ⟨[], Phase.saved_entry, ?_⟩
  simp only [kDefaultStackAlignment, List.length_nil] at inside ⊢
  omega

/-- Steps inside a function keep the offset. -/
theorem OffByPushes.effect {phase' : Phase} (off : OffByPushes phase m)
    (effect : Effect lowest m after phase phase') : OffByPushes phase' after := by
  obtain ⟨stack, stacked, sum⟩ := off
  cases effect with
  | @push r todo pushed found rip =>
      have lower : pushed.rsp.toNat + 8 = m.rsp.toNat := Machine.push_rsp found
      cases stacked with
      | entering split =>
        refine ⟨r :: stack, .entering ?_, ?_⟩
        · rw [List.reverse_cons, List.append_assoc]
          exact split
        · change (pushed.rsp.toNat + _ + 8) % kDefaultStackAlignment = 0
          rw [List.length_cons, ← sum]
          congr 1
          omega
  | @pop r todo rip =>
      cases stacked with
      | leaving suffix =>
        have apart : Reg.rsp ≠ r :=
          (calleeSaved_rsp r (List.mem_reverse.mp (suffix.subset List.mem_cons_self))).symm
        have rsp : (m.pop.2.cpu.set r m.pop.1).regs .rsp = m.rsp + 8 := by
          rw [Cpu.set_other _ apart]
          exact Machine.pop_rsp m
        refine ⟨todo, .leaving ((List.suffix_cons r todo).trans suffix), ?_⟩
        change (((m.pop.2.cpu.set r m.pop.1).regs .rsp).toNat + _ + 8) % _ = 0
        rw [rsp, BitVec.toNat_add]
        rw [List.length_cons] at sum
        simp only [kDefaultStackAlignment] at sum ⊢
        change ((m.rsp.toNat + 8) % 2 ^ 64 + _ + 8) % 16 = 0
        omega
  | plain rsp =>
      refine ⟨stack, stacked, ?_⟩
      rwa [rsp]

/-- The instruction belongs to a phase, that of an entry when control has run off
the end of a function. -/
theorem OffByPushes.flow {filling : Filling} (layout : Layout img.bytes functions filling)
    {pos : Nat} (rip : m.rip = img.address pos) (inPhase : InPhase functions pos phase)
    (off : OffByPushes phase m) {instr : Instr} {next : Word}
    (fetched : img.fetch m.rip = some (instr, next)) :
    ∃ phase', Flow img functions phase' instr next ∧ OffByPushes phase' m := by
  have here {phase : Phase} (inPhase : InPhase functions pos phase)
      (off : OffByPushes phase m) :
      (phase = .entering [] ∧ pos ∈ entriesOf functions) ∨
        ∃ phase', Flow img functions phase' instr next ∧ OffByPushes phase' m := by
    obtain ⟨stack, stacked, sum⟩ := off
    rw [rip] at fetched
    refine (fetch_flow layout inPhase stacked.todo fetched).imp_right ?_
    rintro ⟨phase', starts, flow⟩
    exact ⟨phase', flow, stack, stacked.starts starts, sum⟩
  rcases here inPhase off with ⟨rfl, isEntry⟩ | found
  · rcases here (inPhase_of_entry layout.shaped isEntry) off.entry with ⟨impossible, -⟩ | found
    · cases impossible
    · exact found
  · exact found

theorem OffByPushes.at_call {filling : Filling} (layout : Layout img.bytes functions filling)
    {pos : Nat} (rip : m.rip = img.address pos) (inPhase : InPhase functions pos phase)
    (off : OffByPushes phase m) (atCall : Machine.AtCall img m) :
    m.rsp.toNat % kDefaultStackAlignment = 8 := by
  obtain ⟨rel, next, fetched⟩ := atCall
  obtain ⟨phase', flow, off⟩ := off.flow layout rip inPhase fetched
  cases flow with
  | plain plain => cases plain.1
  | call => exact off.inside

/-- Up to its first call, a function is off by its pushes; the call is misaligned. -/
theorem off_or_misaligned {filling : Filling} (layout : Layout img.bytes functions filling)
    {start : Machine} {entry depth : Nat} (isEntry : entry ∈ entriesOf functions)
    (rip : start.rip = img.address entry)
    (abi : (start.rsp + 8).toNat % kDefaultStackAlignment = 0)
    (reached : Machine.Activation img lowest (fun _ => True) start depth m) :
    (depth = 0 ∧ ∃ pos phase, m.rip = img.address pos ∧ InPhase functions pos phase ∧
      OffByPushes phase m) ∨
        ∃ m, Machine.Activation img lowest (fun _ => True) start 0 m ∧
          Machine.AtCall img m ∧ m.rsp.toNat % kDefaultStackAlignment = 8 := by
  induction reached with
  | enter =>
      refine .inl ⟨rfl, entry, _, rip, inPhase_of_entry layout.shaped isEntry, [],
        Phase.saved_entry, ?_⟩
      rw [BitVec.toNat_add] at abi
      change (start.rsp.toNat + 8) % 2 ^ 64 % 16 = 0 at abi
      simp only [List.length_nil, kDefaultStackAlignment]
      omega
  | inside _ notCall notRet stepped _ ih =>
      refine ih.imp_left ?_
      rintro ⟨first, pos, phase, rip, inPhase, off⟩
      obtain ⟨instr, next, fetched, executed⟩ := Machine.step_cases stepped
      obtain ⟨phase', flow, off⟩ := off.flow layout rip inPhase fetched
      obtain ⟨pos', phase'', rip', inPhase', effect⟩ := flow.step_inside
        (fun rel same => notCall ⟨rel, next, same ▸ fetched⟩)
        (fun same => notRet ⟨next, same ▸ fetched⟩) executed
      exact ⟨first, pos', phase'', rip', inPhase', off.effect effect⟩
  | @call depth m _ reached atCall _ ih =>
      refine .inr ?_
      rcases ih with ⟨rfl, pos, phase, rip, inPhase, off⟩ | earlier
      · exact ⟨m, reached, atCall, off.at_call layout rip inPhase atCall⟩
      · exact earlier
  | ret _ _ _ _ ih =>
      rcases ih with ⟨impossible, -⟩ | earlier
      · cases impossible
      · exact .inr earlier

end

/-- The calls that a function of a near module executes are aligned only when it executes
none. -/
theorem calls_aligned_iff {fns : List ModuleFunction} {img : Image} {entries : List Nat}
    (near : Near fns) (encoded : encodeModule fns = .ok (img.bytes, entries)) {lowest : Word}
    {start : Machine} {entry : Nat} (isEntry : entry ∈ entries)
    (rip : start.rip = img.address entry)
    (abi : (start.rsp + 8).toNat % kDefaultStackAlignment = 0) :
    (∀ m, Machine.Activation img lowest (fun _ => True) start 0 m →
        Machine.AtCall img m → m.rsp.toNat % kDefaultStackAlignment = 0) ↔
      ∀ m, Machine.Activation img lowest (fun _ => True) start 0 m →
        ¬ Machine.AtCall img m := by
  obtain ⟨functions, filling, layout, rfl⟩ := encodeModule_layout near encoded
  constructor
  · intro aligned m reached atCall
    obtain ⟨after, reached', atCall', off⟩ : ∃ m,
        Machine.Activation img lowest (fun _ => True) start 0 m ∧
          Machine.AtCall img m ∧ m.rsp.toNat % kDefaultStackAlignment = 8 := by
      rcases off_or_misaligned layout isEntry rip abi reached with
        ⟨-, pos, phase, here, inPhase, off⟩ | found
      · exact ⟨m, reached, atCall, off.at_call layout here inPhase atCall⟩
      · exact found
    have even := aligned after reached' atCall'
    rw [off] at even
    cases even
  · intro never m reached atCall
    exact absurd atCall (never m reached)

/-- A function that calls the next one. -/
def calling : MachineFunction where
  instrs := [callTo 1, retFirst]

def callingModule : List ModuleFunction :=
  [⟨0, some calling, some {}⟩, ⟨1, some constant, some {}⟩]

def callingImage : Image where
  base := 0x400000
  bytes := [0x53, 0x55, 0x41, 0x54, 0x41, 0x55, 0x41, 0x56, 0x41, 0x57,
    0xE8, 0x11, 0, 0, 0, 0x48, 0x89, 0xC1, 0x48, 0x89, 0xC8,
    0x41, 0x5F, 0x41, 0x5E, 0x41, 0x5D, 0x41, 0x5C, 0x5D, 0x5B, 0xC3] ++
      constantBytes
  fits := by decide

theorem calling_encoded : encodeModule callingModule = .ok (callingImage.bytes, [0, 32]) := rfl

theorem calling_near : Near callingModule := by
  apply near_of_short
  intro f member mf ra given given'
  rcases List.mem_pair.mp member with rfl | rfl <;> cases given <;> cases given'
  · exact ⟨32, by decide, by decide⟩
  · exact ⟨34, by decide, by decide⟩

theorem outside_aligned :
    (outsideCalled.rsp + 8).toNat % kDefaultStackAlignment = 0 := by
  decide

theorem calling_calls :
    ∃ m, Machine.Activation callingImage 0 (fun _ => True)
        { outsideCalled with rip := callingImage.address 0 } 0 m ∧
      Machine.AtCall callingImage m ∧ m.rsp = 0x6FC8 := by
  have ran : ((Machine.runActivation callingImage 0 (fun _ => True) 6 0
      { outsideCalled with rip := callingImage.address 0 }).map fun r =>
        (r.1, callingImage.fetch r.2.rip, r.2.rsp)) =
          some (0, some (.call 17, 0x40000F), 0x6FC8) := by
    decide
  obtain ⟨⟨depth, m⟩, reaches, same⟩ := Option.map_eq_some_iff.mp ran
  obtain ⟨rfl, fetched, rsp⟩ : depth = 0 ∧
      callingImage.fetch m.rip = some (.call 17, 0x40000F) ∧ m.rsp = 0x6FC8 := by
    simpa using same
  exact ⟨m, Machine.activation_of_run .enter reaches, ⟨_, _, fetched⟩, rsp⟩

theorem calls_aligned_iff_calling :
    ¬ ∀ m, Machine.Activation callingImage 0 (fun _ => True)
        { outsideCalled with rip := callingImage.address 0 } 0 m →
      Machine.AtCall callingImage m → m.rsp.toNat % kDefaultStackAlignment = 0 := by
  obtain ⟨m, reached, atCall, -⟩ := calling_calls
  intro aligned
  let start := { outsideCalled with rip := callingImage.address 0 }
  have isEntry : 0 ∈ [0, 32] := by decide
  have abi : (start.rsp + 8).toNat % kDefaultStackAlignment = 0 := outside_aligned
  have never := (calls_aligned_iff calling_near calling_encoded isEntry rfl abi).mp aligned
  exact never m reached atCall

/-- The call of a function that was entered as the ABI says is misaligned. -/
theorem calling_misaligned :
    ∃ m, Machine.Activation callingImage 0 (fun _ => True)
        { outsideCalled with rip := callingImage.address 0 } 0 m ∧
      Machine.AtCall callingImage m ∧ m.rsp.toNat % kDefaultStackAlignment ≠ 0 := by
  obtain ⟨m, reached, atCall, rsp⟩ := calling_calls
  refine ⟨m, reached, atCall, ?_⟩
  rw [rsp]
  decide

end ExecEncoder

end Aegis
