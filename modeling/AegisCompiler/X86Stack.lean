import AegisCompiler.X86Machine

/-!
# The stack of an x86-64 machine

The words from the stack pointer up to a fixed bottom are a list, on which push
and pop are cons and tail.  An activation of a function is the run from its entry
to its return, which passes through the activations of the functions it calls.
-/

namespace X86

namespace Memory

theorem store_same (memory : Memory) (address value : Word) {i : Nat} (inside : i < 8) :
    memory.store address value (address + BitVec.ofNat 64 i) =
      value.extractLsb' (8 * i) 8 := by
  have offset : (address + BitVec.ofNat 64 i - address).toNat = i := by
    rw [BitVec.add_comm, BitVec.add_sub_cancel, BitVec.toNat_ofNat]
    omega
  simp only [store, offset, if_pos inside]

theorem store_other (memory : Memory) {address other value : Word}
    (apart : address.toNat + 8 ≤ other.toNat) :
    memory.store address value other = memory other := by
  have offset : ¬ (other - address).toNat < 8 := by bv_omega
  simp only [store, if_neg offset]

/-- The bytes of a word make it up. -/
theorem bytes_append (value : Word) :
    value.extractLsb' 56 8 ++ value.extractLsb' 48 8 ++ value.extractLsb' 40 8 ++
      value.extractLsb' 32 8 ++ value.extractLsb' 24 8 ++ value.extractLsb' 16 8 ++
        value.extractLsb' 8 8 ++ value.extractLsb' 0 8 = value := by
  have join (high n start : Nat) (adjacent : high = start + 8) :
      value.extractLsb' high n ++ value.extractLsb' start 8 =
        value.extractLsb' start (n + 8) :=
    BitVec.extractLsb'_append_extractLsb'_eq_extractLsb' adjacent
  rw [join 56 8 48 rfl, join 48 16 40 rfl, join 40 24 32 rfl, join 32 32 24 rfl,
    join 24 40 16 rfl, join 16 48 8 rfl, join 8 56 0 rfl]
  exact BitVec.extractLsb'_eq_self

theorem load_store_same (memory : Memory) (address value : Word) :
    (memory.store address value).load address = value := by
  have byte (i : Nat) (inside : i < 8) := store_same memory address value inside
  have first : memory.store address value address = value.extractLsb' 0 8 := by
    have here := byte 0 (by omega)
    rwa [show address + BitVec.ofNat 64 0 = address from BitVec.add_zero _] at here
  calc
    (memory.store address value).load address =
        value.extractLsb' 56 8 ++ value.extractLsb' 48 8 ++ value.extractLsb' 40 8 ++
          value.extractLsb' 32 8 ++ value.extractLsb' 24 8 ++ value.extractLsb' 16 8 ++
            value.extractLsb' 8 8 ++ value.extractLsb' 0 8 := by
      rw [load, first]
      congr 7 <;> exact byte _ (by decide)
    _ = value := bytes_append value

theorem load_store_other (memory : Memory) {address other value : Word}
    (apart : address.toNat + 8 ≤ other.toNat) (inside : other.toNat + 8 ≤ 2 ^ 64) :
    (memory.store address value).load other = memory.load other := by
  have byte (i : Nat) (small : i < 8) :
      memory.store address value (other + BitVec.ofNat 64 i) =
        memory (other + BitVec.ofNat 64 i) := by
    apply store_other
    rw [BitVec.toNat_add, BitVec.toNat_ofNat]
    omega
  rw [load, load, store_other memory apart]
  congr 7 <;> exact byte _ (by decide)

/-- The words from an address up. -/
def Words (memory : Memory) : Word → List Word → Prop
  | _, [] => True
  | address, word :: words => memory.load address = word ∧ memory.Words (address + 8) words

/-- Storing below the words leaves them alone. -/
theorem Words.store_below {memory : Memory} {address value top : Word}
    {words : List Word} (stored : memory.Words top words)
    (below : address.toNat + 8 ≤ top.toNat)
    (inside : top.toNat + 8 * words.length ≤ 2 ^ 64) :
    (memory.store address value).Words top words := by
  induction words generalizing top with
  | nil => trivial
  | cons word words ih =>
      rw [List.length_cons] at inside
      refine ⟨(load_store_other memory below (by omega)).trans stored.1, ?_⟩
      cases words with
      | nil => trivial
      | cons second words =>
          rw [List.length_cons] at inside
          have next : (top + 8).toNat = top.toNat + 8 := by
            rw [BitVec.toNat_add]
            exact Nat.mod_eq_of_lt (by change top.toNat + 8 < 2 ^ 64; omega)
          apply ih stored.2
          · omega
          · rw [next, List.length_cons]
            omega

end Memory

namespace Machine

/-- The words from the stack pointer up to the bottom. -/
structure StackHolds (m : Machine) (bottom : Word) (words : List Word) : Prop where
  size : m.rsp.toNat + 8 * words.length = bottom.toNat
  words : m.memory.Words m.rsp words

theorem stackHolds_nil (m : Machine) : m.StackHolds m.rsp [] := ⟨rfl, trivial⟩

/-- What a push does. -/
theorem push_cases {lowest value : Word} {m after : Machine}
    (pushed : m.push lowest value = some after) :
    lowest.toNat + 8 ≤ m.rsp.toNat ∧
      after = { m with
        cpu := m.cpu.set .rsp (m.rsp - 8), memory := m.memory.store (m.rsp - 8) value } := by
  unfold push at pushed
  split at pushed
  case isTrue room =>
    cases pushed
    exact ⟨room, rfl⟩
  case isFalse => cases pushed

theorem push_rsp {lowest value : Word} {m after : Machine}
    (pushed : m.push lowest value = some after) :
    after.rsp.toNat + 8 = m.rsp.toNat := by
  obtain ⟨room, rfl⟩ := push_cases pushed
  have top : (m.cpu.set .rsp (m.rsp - 8)).regs .rsp = m.rsp - 8 := Cpu.set_same _ _ _
  change ((m.cpu.set .rsp (m.rsp - 8)).regs .rsp).toNat + 8 = m.rsp.toNat
  rw [top]
  bv_omega

theorem push_other {lowest value : Word} {m after : Machine}
    (pushed : m.push lowest value = some after) {r : Reg} (apart : r ≠ .rsp) :
    after.cpu.regs r = m.cpu.regs r := by
  obtain ⟨-, rfl⟩ := push_cases pushed
  exact Cpu.set_other _ apart _

theorem StackHolds.push {m after : Machine} {lowest bottom value : Word}
    {words : List Word} (holds : m.StackHolds bottom words)
    (pushed : m.push lowest value = some after) :
    after.StackHolds bottom (value :: words) := by
  have lower := push_rsp pushed
  obtain ⟨room, rfl⟩ := push_cases pushed
  have top : (m.cpu.set .rsp (m.rsp - 8)).regs .rsp = m.rsp - 8 := Cpu.set_same _ _ _
  have size := holds.size
  refine ⟨by rw [List.length_cons]; omega, ?_⟩
  change (m.memory.store (m.rsp - 8) value).Words
    ((m.cpu.set .rsp (m.rsp - 8)).regs .rsp) (value :: words)
  rw [top]
  refine ⟨Memory.load_store_same _ _ _, ?_⟩
  rw [BitVec.sub_add_cancel]
  apply holds.words.store_below
  · bv_omega
  · have bound := bottom.isLt
    omega

theorem pop_rsp (m : Machine) : m.pop.2.rsp = m.rsp + 8 := Cpu.set_same _ _ _

theorem pop_other (m : Machine) {r : Reg} (apart : r ≠ .rsp) :
    m.pop.2.cpu.regs r = m.cpu.regs r :=
  Cpu.set_other _ apart _

theorem StackHolds.pop {m : Machine} {bottom word : Word} {words : List Word}
    (holds : m.StackHolds bottom (word :: words)) :
    m.pop.1 = word ∧ m.pop.2.StackHolds bottom words := by
  have size := holds.size
  have bound := bottom.isLt
  rw [List.length_cons] at size
  refine ⟨holds.words.1, ?_, ?_⟩
  · rw [pop_rsp, BitVec.toNat_add]
    change (m.rsp.toNat + 8) % 2 ^ 64 + _ = _
    omega
  · rw [pop_rsp]
    exact holds.words.2

/-- The stack depends on the stack pointer and the memory only. -/
theorem StackHolds.of_eq {m other : Machine} {bottom : Word} {words : List Word}
    (holds : m.StackHolds bottom words) (rsp : other.rsp = m.rsp)
    (memory : other.memory = m.memory) : other.StackHolds bottom words := by
  refine ⟨?_, ?_⟩
  · rw [rsp]
    exact holds.size
  · rw [rsp, memory]
    exact holds.words

theorem step_cases {image : Image} {lowest : Word} {m after : Machine}
    (stepped : m.step image lowest = some after) :
    ∃ instr next, image.fetch m.rip = some (instr, next) ∧
      m.execute lowest next instr = some after := by
  obtain ⟨⟨instr, next⟩, fetched, executed⟩ := Option.bind_eq_some_iff.mp stepped
  exact ⟨instr, next, fetched, executed⟩

theorem execute_straight (lowest : Word) (m : Machine) (next : Word) {instr : Instr}
    (straight : instr.isStraight = true) :
    m.execute lowest next instr =
      (instr.exec m.cpu).map fun cpu => { m with cpu, rip := next } := by
  cases instr <;> first | rfl | cases straight

/-- The machine is at a call. -/
def AtCall (image : Image) (m : Machine) : Prop :=
  ∃ rel next, image.fetch m.rip = some (.call rel, next)

/-- The machine is at a return. -/
def AtRet (image : Image) (m : Machine) : Prop := ∃ next, image.fetch m.rip = some (.ret, next)

/-- The machine reaches a state in an activation, within so many further calls.
Every step except for calls leads to an allowed state. -/
inductive Activation (image : Image) (lowest : Word) (Allowed : Machine → Prop)
    (start : Machine) : Nat → Machine → Prop
  | enter : Activation image lowest Allowed start 0 start
  | inside {depth : Nat} {m after : Machine} :
      Activation image lowest Allowed start depth m →
        ¬ AtCall image m → ¬ AtRet image m → m.step image lowest = some after →
          Allowed after → Activation image lowest Allowed start depth after
  | call {depth : Nat} {m after : Machine} :
      Activation image lowest Allowed start depth m → AtCall image m →
        m.step image lowest = some after →
          Activation image lowest Allowed start (depth + 1) after
  | ret {depth : Nat} {m after : Machine} :
      Activation image lowest Allowed start (depth + 1) m → AtRet image m →
        m.step image lowest = some after → Allowed after →
          Activation image lowest Allowed start depth after

/-- The number of open calls behind an instruction. -/
def nextDepth : Instr → Nat → Option Nat
  | .call _, depth => some (depth + 1)
  | .ret, 0 => none
  | .ret, depth + 1 => some depth
  | _, depth => some depth

/-- Some steps of an activation. -/
def runActivation (image : Image) (lowest : Word) (Allowed : Machine → Prop)
    [DecidablePred Allowed] : Nat → Nat → Machine → Option (Nat × Machine)
  | 0, depth, m => some (depth, m)
  | n + 1, depth, m =>
      (image.fetch m.rip).bind fun (instr, next) =>
        (m.execute lowest next instr).bind fun after =>
          (nextDepth instr depth).bind fun inner =>
            if depth < inner ∨ Allowed after then
              runActivation image lowest Allowed n inner after
            else none

/-- One step of an activation. -/
theorem Activation.step {image : Image} {lowest : Word} {Allowed : Machine → Prop}
    {start m after : Machine} {depth inner : Nat} {instr : Instr} {next : Word}
    (reached : Activation image lowest Allowed start depth m)
    (fetched : image.fetch m.rip = some (instr, next))
    (executed : m.execute lowest next instr = some after)
    (deep : nextDepth instr depth = some inner) (allowed : depth < inner ∨ Allowed after) :
    Activation image lowest Allowed start inner after := by
  have stepped : m.step image lowest = some after :=
    Option.bind_eq_some_iff.mpr ⟨_, fetched, executed⟩
  have inside (notCall : ∀ rel, instr ≠ .call rel) (notRet : instr ≠ .ret)
      (same : inner = depth) : Activation image lowest Allowed start inner after := by
    rw [same] at allowed ⊢
    refine .inside reached ?_ ?_ stepped (allowed.resolve_left (Nat.lt_irrefl _))
    · rintro ⟨rel, other, isCall⟩
      cases fetched.symm.trans isCall
      exact notCall rel rfl
    · rintro ⟨other, isRet⟩
      cases fetched.symm.trans isRet
      exact notRet rfl
  cases instr with
  | call rel =>
      cases deep
      exact .call reached ⟨rel, next, fetched⟩ stepped
  | ret =>
      cases depth with
      | zero => cases deep
      | succ depth =>
          cases deep
          exact .ret reached ⟨next, fetched⟩ stepped
            (allowed.resolve_left (Nat.not_lt.mpr (Nat.le_succ _)))
  | _ => exact inside (fun _ => nofun) nofun (Option.some.inj deep).symm

theorem activation_of_run {image : Image} {lowest : Word} {Allowed : Machine → Prop}
    [DecidablePred Allowed] {n : Nat} {start m after : Machine} {depth last : Nat}
    (reached : Activation image lowest Allowed start depth m)
    (ran : runActivation image lowest Allowed n depth m = some (last, after)) :
    Activation image lowest Allowed start last after := by
  induction n generalizing depth m with
  | zero =>
      cases ran
      exact reached
  | succ n ih =>
      obtain ⟨⟨instr, next⟩, fetched, ran⟩ := Option.bind_eq_some_iff.mp ran
      obtain ⟨mid, executed, ran⟩ := Option.bind_eq_some_iff.mp ran
      obtain ⟨inner, deep, ran⟩ := Option.bind_eq_some_iff.mp ran
      split at ran
      case isTrue allowed => exact ih (reached.step fetched executed deep allowed) ran
      case isFalse => cases ran

end Machine

end X86
