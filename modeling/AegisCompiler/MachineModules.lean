import AegisCompiler.ExecEncoder
import AegisCompiler.MachineExec

/-!
# Modules of machine functions

A module computes a call when the function with the symbol returns the value, and
computes each call that the function makes on the way.
-/

namespace Aegis

namespace ExecEncoder

/-- The function that a call of the module goes to: the first with the symbol. -/
def calleeOf (fns : List ModuleFunction) (callee : Int) : Option MachineFunction :=
  (fns.find? fun f => decide ((f.symbol.toNat : Int) = callee)).bind (·.mf)

/-- The arguments that a function takes are there. -/
def TakesArgs (mf : MachineFunction) (env : MachineEnv) (args : List Word) : Prop :=
  ∀ mi ∈ mf.instrs, mi.op = .param → ∀ i : Nat, mi.imm = some (i : Int) →
    args[i]? = some (env.arg i)

/-- The module computes a value for a call, with so many activations at a time. -/
inductive Computes (fns : List ModuleFunction) : Nat → Int → List Word → Word → Prop
  | call {depth : Nat} {callee : Int} {args : List Word} {value : Word}
      {mf : MachineFunction} {env : MachineEnv} {regs : Regs} {calls : List CallEvent} :
      calleeOf fns callee = some mf → TakesArgs mf env args →
        Returns env mf.instrs { regs } value calls →
          (∀ before event after, calls = before ++ event :: after →
            Computes fns depth event.callee event.args (env.callResult (before ++ [event]))) →
              Computes fns (depth + 1) callee args value

theorem Computes.depth_pos {fns : List ModuleFunction} {depth : Nat} {callee : Int}
    {args : List Word} {value : Word} (computes : Computes fns depth callee args value) :
    0 < depth := by
  cases computes
  exact Nat.succ_pos _

/-- Run for so many steps. -/
def execute (env : MachineEnv) (instrs : List MachineInstr) :
    Nat → MachineState → Option (Word × List CallEvent)
  | 0, _ => none
  | fuel + 1, s =>
      match step env instrs s with
      | .next s => execute env instrs fuel s
      | .returned value calls => some (value, calls)
      | .stuck => none

theorem returns_of_execute {env : MachineEnv} {instrs : List MachineInstr} (fuel : Nat)
    {s : MachineState} {value : Word} {calls : List CallEvent}
    (ran : execute env instrs fuel s = some (value, calls)) :
    Returns env instrs s value calls := by
  induction fuel generalizing s with
  | zero => cases ran
  | succ fuel ih =>
      rw [execute] at ran
      split at ran
      case h_1 next stepped => exact .next stepped (ih ran)
      case h_2 returned =>
        cases ran
        exact .done returned
      case h_3 => cases ran

/-- A jump goes to the label, or nowhere. -/
theorem jumpTo_cases (instrs : List MachineInstr) (s : MachineState) (target : Option Int) :
    jumpTo instrs s target = .stuck ∨
      ∃ label pc, target = some label ∧ labelPos instrs label = some pc ∧
        jumpTo instrs s target = .next { s with pc } := by
  unfold jumpTo
  split
  case h_1 => exact .inl rfl
  case h_2 pc found =>
    obtain ⟨label, given, found⟩ := Option.bind_eq_some_iff.mp found
    exact .inr ⟨label, pc, given, found, rfl⟩

theorem stepInstr_calls {env : MachineEnv} {instrs : List MachineInstr} {s next : MachineState}
    {mi : MachineInstr} (stepped : stepInstr env instrs s mi = .next next) :
    ∃ more, next.calls = s.calls ++ more := by
  have jump {target : Option Int} (jumped : jumpTo instrs s target = .next next) :
      next.calls = s.calls := by
    rcases jumpTo_cases instrs s target with stuck | ⟨label, pc, -, -, goes⟩
    · cases stuck.symm.trans jumped
    · cases goes.symm.trans jumped
      rfl
  unfold stepInstr at stepped
  split at stepped
  case h_1 =>
    cases stepped
    exact ⟨[], (List.append_nil _).symm⟩
  case h_2 => exact ⟨[], by rw [jump stepped, List.append_nil]⟩
  case h_3 =>
    split at stepped
    · split at stepped
      · exact ⟨[], by rw [jump stepped, List.append_nil]⟩
      · cases stepped
        exact ⟨[], (List.append_nil _).symm⟩
    · cases stepped
  case h_4 => split at stepped <;> cases stepped
  case h_5 =>
    split at stepped
    · cases stepped
      exact ⟨[], (List.append_nil _).symm⟩
    · cases stepped
  case h_6 =>
    split at stepped
    · cases stepped
      exact ⟨_, rfl⟩
    · cases stepped
  case h_7 =>
    split at stepped
    · cases stepped
      exact ⟨[], (List.append_nil _).symm⟩
    · cases stepped

theorem returned_calls {env : MachineEnv} {instrs : List MachineInstr} {s : MachineState}
    {mi : MachineInstr} {value : Word} {calls : List CallEvent}
    (stepped : stepInstr env instrs s mi = .returned value calls) :
    mi.op = .ret ∧ mi.operands s.regs = some [value] ∧ calls = s.calls := by
  have jump (target : Option Int) : jumpTo instrs s target ≠ .returned value calls := by
    intro jumped
    rcases jumpTo_cases instrs s target with stuck | ⟨label, pc, -, -, goes⟩
    · cases stuck.symm.trans jumped
    · cases goes.symm.trans jumped
  unfold stepInstr at stepped
  split at stepped
  case h_1 => cases stepped
  case h_2 => exact absurd stepped (jump mi.imm)
  case h_3 =>
    split at stepped
    · split at stepped
      · exact absurd stepped (jump mi.imm)
      · cases stepped
    · cases stepped
  case h_4 isRet =>
    split at stepped
    case h_1 known =>
      cases stepped
      exact ⟨isRet, known, rfl⟩
    case h_2 => cases stepped
  all_goals split at stepped <;> cases stepped

/-- The calls so far come first. -/
theorem Returns.calls_extend {env : MachineEnv} {instrs : List MachineInstr}
    {s : MachineState} {value : Word} {calls : List CallEvent}
    (returns : Returns env instrs s value calls) : ∃ more, calls = s.calls ++ more := by
  induction returns with
  | @done s value calls stepped =>
      unfold step at stepped
      split at stepped
      · cases stepped
      · exact ⟨[], by rw [(returned_calls stepped).2.2, List.append_nil]⟩
  | @next s next value calls stepped _ ih =>
      unfold step at stepped
      split at stepped
      · cases stepped
      · obtain ⟨first, grown⟩ := stepInstr_calls stepped
        obtain ⟨more, rfl⟩ := ih
        exact ⟨first ++ more, by rw [grown, List.append_assoc]⟩

end ExecEncoder

end Aegis
