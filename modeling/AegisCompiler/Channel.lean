import AegisCompiler.Simulation
import Mathlib.Algebra.BigOperators.Group.Finset.Basic
import Mathlib.Algebra.Order.BigOperators.Group.Finset

/-!
# The message channel

`send` and `recv` as the steps of the threads that run them.  One mutex guards
the queue.  A receiver that finds the queue empty gives the mutex up and falls
asleep in one step, and it looks at the queue again each time it is woken, also
when nobody notified it.  `notify_one` wakes any one sleeper, and does nothing
when there is none.
-/

namespace Aegis

namespace Channel

open Relation (ReflTransGen)

/-- Where one thread stands in the channel's operations. -/
inductive Phase (T : Type)
  | idle
  /-- `send` waits for the mutex. -/
  | sending (value : T)
  | pushing (value : T)
  /-- The value is pushed and nobody is notified yet. -/
  | pushed
  | notified
  /-- `recv` waits for the mutex. -/
  | receiving
  /-- About to evaluate `!queue_.empty()`. -/
  | checking
  | asleep
  /-- Woken, and waiting for the mutex. -/
  | woken
  | taking
  | took (value : T)

structure State (Thread T : Type) where
  phase : Thread → Phase T
  /-- The owner of `m_`. -/
  holder : Option Thread
  queue : List T
  /-- What was pushed so far, and by whom. -/
  sent : List (Thread × T)
  /-- What was popped so far, and by whom. -/
  received : List (Thread × T)

variable {Thread T : Type} [DecidableEq Thread]

def State.initial (Thread T : Type) : State Thread T :=
  ⟨fun _ => .idle, none, [], [], []⟩

def State.move (state : State Thread T) (thread : Thread) (phase : Phase T) :
    State Thread T :=
  { state with phase := Function.update state.phase thread phase }

def State.lock (state : State Thread T) (thread : Thread) (phase : Phase T) :
    State Thread T :=
  { state.move thread phase with holder := some thread }

def State.unlock (state : State Thread T) (thread : Thread) (phase : Phase T) :
    State Thread T :=
  { state.move thread phase with holder := none }

/-- A step inside a call of `send` or `recv`. -/
inductive Inner : State Thread T → State Thread T → Prop
  | lockSend {state thread value} :
      state.phase thread = .sending value → state.holder = none →
      Inner state (state.lock thread (.pushing value))
  | push {state thread value} : state.phase thread = .pushing value →
      Inner state { state.move thread .pushed with
        queue := state.queue ++ [value]
        sent := state.sent ++ [(thread, value)] }
  | notifyOne {state thread sleeper} : state.phase thread = .pushed →
      state.phase sleeper = .asleep →
      Inner state ((state.move sleeper .woken).move thread .notified)
  | notifyNone {state thread} : state.phase thread = .pushed →
      (∀ other, state.phase other ≠ .asleep) →
      Inner state (state.move thread .notified)
  | unlockSend {state thread} : state.phase thread = .notified →
      Inner state (state.unlock thread .idle)
  | lockReceive {state thread} :
      state.phase thread = .receiving → state.holder = none →
      Inner state (state.lock thread .checking)
  | relock {state thread} : state.phase thread = .woken → state.holder = none →
      Inner state (state.lock thread .checking)
  /-- The wait releases the mutex and blocks at once. -/
  | fallAsleep {state thread} : state.phase thread = .checking →
      state.queue = [] → Inner state (state.unlock thread .asleep)
  | leaveWait {state thread} : state.phase thread = .checking →
      state.queue ≠ [] → Inner state (state.move thread .taking)
  | take {state thread value rest} : state.phase thread = .taking →
      state.queue = value :: rest →
      Inner state { state.move thread (.took value) with
        queue := rest
        received := state.received ++ [(thread, value)] }
  | unlockReceive {state thread value} : state.phase thread = .took value →
      Inner state (state.unlock thread .idle)

/-- Any step: inside a call, the start of a call, or a wakeup that nobody asked
for. -/
inductive Step : State Thread T → State Thread T → Prop
  | inner {state after} : Inner state after → Step state after
  | callSend {state thread} (value : T) : state.phase thread = .idle →
      Step state (state.move thread (.sending value))
  | callReceive {state thread} : state.phase thread = .idle →
      Step state (state.move thread .receiving)
  | spurious {state thread} : state.phase thread = .asleep →
      Step state (state.move thread .woken)

def Reachable (state : State Thread T) : Prop :=
  ReflTransGen Step (State.initial Thread T) state

/-- The thread runs between taking the mutex and giving it up. -/
def Phase.inside : Phase T → Prop
  | .pushing _ | .pushed | .notified | .checking | .taking | .took _ => True
  | .idle | .sending _ | .receiving | .asleep | .woken => False

def Owned (state : State Thread T) : Prop :=
  ∀ thread, (state.phase thread).inside ↔ state.holder = some thread

@[simp] theorem move_phase_self (state : State Thread T) (thread : Thread)
    (phase : Phase T) : (state.move thread phase).phase thread = phase :=
  Function.update_self ..

theorem move_phase_of_ne {state : State Thread T} {thread other : Thread}
    {phase : Phase T} (different : other ≠ thread) :
    (state.move thread phase).phase other = state.phase other :=
  Function.update_of_ne different ..

theorem Owned.move {state : State Thread T} {thread : Thread} {phase : Phase T}
    (owned : Owned state) (same : phase.inside ↔ (state.phase thread).inside) :
    Owned (state.move thread phase) := by
  intro other
  by_cases equal : other = thread
  · subst equal
    rw [move_phase_self, same]
    exact owned other
  · rw [move_phase_of_ne equal]
    exact owned other

theorem Owned.lock {state : State Thread T} {thread : Thread} {phase : Phase T}
    (owned : Owned state) (free : state.holder = none) (inside : phase.inside) :
    Owned (state.lock thread phase) := by
  intro other
  by_cases equal : other = thread
  · subst equal
    simp [State.lock, inside]
  · have outside : ¬ (state.phase other).inside := by
      rw [owned other, free]
      simp
    simp [State.lock, move_phase_of_ne equal, outside, Ne.symm equal]

theorem Owned.unlock {state : State Thread T} {thread : Thread} {phase : Phase T}
    (owned : Owned state) (inside : (state.phase thread).inside)
    (outside : ¬ phase.inside) : Owned (state.unlock thread phase) := by
  intro other
  by_cases equal : other = thread
  · subst equal
    simp [State.unlock, outside]
  · have held : state.holder = some thread := (owned thread).mp inside
    have others : ¬ (state.phase other).inside := by
      rw [owned other, held]
      simpa using Ne.symm equal
    simp [State.unlock, move_phase_of_ne equal, others]

theorem owned_inner {state after : State Thread T} (owned : Owned state)
    (inner : Inner state after) : Owned after := by
  cases inner with
  | lockSend _ free => exact owned.lock free trivial
  | push here => exact owned.move (by simp [here, Phase.inside])
  | notifyOne here asleep =>
      rename_i thread sleeper
      have different : thread ≠ sleeper := by
        rintro rfl
        rw [here] at asleep
        cases asleep
      refine (owned.move (by simp [asleep, Phase.inside])).move ?_
      simp [move_phase_of_ne different, here, Phase.inside]
  | notifyNone here _ => exact owned.move (by simp [here, Phase.inside])
  | unlockSend here =>
      exact owned.unlock (by simp [here, Phase.inside]) (by simp [Phase.inside])
  | lockReceive _ free => exact owned.lock free trivial
  | relock _ free => exact owned.lock free trivial
  | fallAsleep here _ =>
      exact owned.unlock (by simp [here, Phase.inside]) (by simp [Phase.inside])
  | leaveWait here _ => exact owned.move (by simp [here, Phase.inside])
  | take here _ => exact owned.move (by simp [here, Phase.inside])
  | unlockReceive here =>
      exact owned.unlock (by simp [here, Phase.inside]) (by simp [Phase.inside])

theorem owned_step : Simulation.Keeps (@Step Thread T _) Owned := by
  intro state after owned step
  cases step with
  | inner inner => exact owned_inner owned inner
  | callSend _ here => exact owned.move (by simp [here, Phase.inside])
  | callReceive here => exact owned.move (by simp [here, Phase.inside])
  | spurious here => exact owned.move (by simp [here, Phase.inside])

theorem Reachable.owned {state : State Thread T} (reachable : Reachable state) :
    Owned state :=
  owned_step.run (fun _ => by simp [State.initial, Phase.inside]) reachable

omit [DecidableEq Thread] in
theorem Owned.exclusive {state : State Thread T} (owned : Owned state)
    {one other : Thread} (first : (state.phase one).inside)
    (second : (state.phase other).inside) : one = other := by
  have held := (owned one).mp first
  rw [(owned other).mp second] at held
  exact (Option.some.inj held).symm

/-- The histories differ by what is in the queue. -/
def InOrder (state : State Thread T) : Prop :=
  state.sent.map Prod.snd = state.received.map Prod.snd ++ state.queue

theorem inOrder_step : Simulation.Keeps (@Step Thread T _) InOrder := by
  intro state after inOrder step
  cases step with
  | inner inner =>
      cases inner with
      | push _ =>
          show List.map Prod.snd (state.sent ++ _) = _ ++ (state.queue ++ _)
          rw [List.map_append, inOrder, List.append_assoc]
          rfl
      | take _ front =>
          show List.map Prod.snd state.sent = List.map Prod.snd (state.received ++ _) ++ _
          rw [inOrder, front, List.map_append, List.append_assoc]
          rfl
      | _ => exact inOrder
  | _ => exact inOrder

/-- A receiver that left the wait finds a value to take. -/
def Ready (state : State Thread T) : Prop :=
  ∀ thread, state.phase thread = .taking → state.queue ≠ []

theorem Ready.move {state : State Thread T} {thread : Thread} {phase : Phase T}
    (ready : Ready state) (other : phase ≠ .taking) : Ready (state.move thread phase) := by
  intro taker taking
  by_cases equal : taker = thread
  · subst equal
    rw [move_phase_self] at taking
    exact absurd taking other
  · rw [move_phase_of_ne equal] at taking
    exact ready taker taking

theorem ready_inner {state after : State Thread T} (owned : Owned state)
    (ready : Ready state) (inner : Inner state after) : Ready after := by
  cases inner with
  | push here =>
      intro taker _
      simp
  | notifyOne => exact (ready.move (by simp)).move (by simp)
  | leaveWait _ filled =>
      intro _ _
      exact filled
  | take here front =>
      rename_i thread value rest
      intro taker taking
      by_cases equal : taker = thread
      · subst equal
        have took := (move_phase_self state taker (.took value)).symm.trans taking
        cases took
      · -- the queue was the taker's own, so no other thread is in the same place
        have elsewhere : state.phase taker = .taking := by
          rw [← move_phase_of_ne equal]
          exact taking
        have same : taker = thread := by
          apply owned.exclusive
          · simp [elsewhere, Phase.inside]
          · simp [here, Phase.inside]
        exact absurd same equal
  | lockSend => exact ready.move (by simp)
  | notifyNone => exact ready.move (by simp)
  | unlockSend => exact ready.move (by simp)
  | lockReceive => exact ready.move (by simp)
  | relock => exact ready.move (by simp)
  | fallAsleep => exact ready.move (by simp)
  | unlockReceive => exact ready.move (by simp)

theorem ready_step {state after : State Thread T} (owned : Owned state)
    (ready : Ready state) (step : Step state after) : Ready after := by
  cases step with
  | inner inner => exact ready_inner owned ready inner
  | callSend => exact ready.move (by simp)
  | callReceive => exact ready.move (by simp)
  | spurious => exact ready.move (by simp)

theorem Reachable.ready {state : State Thread T} (reachable : Reachable state) :
    Ready state := by
  induction reachable with
  | refl =>
      intro thread taking
      cases taking
  | tail before last ih => exact ready_step (Reachable.owned before) ih last

/-- Whatever the interleaving, the values popped so far are the first of those
pushed so far, in the order of the pushes and each once, and the queue holds
the others.  No two threads are inside the mutex at once, and no thread takes
from an empty queue. -/
theorem values_arrive_once_in_order {state : State Thread T}
    (reachable : Reachable state) :
    state.sent.map Prod.snd = state.received.map Prod.snd ++ state.queue ∧
      (∀ one other, (state.phase one).inside → (state.phase other).inside →
        one = other) ∧
      ∀ thread, state.phase thread = .taking → state.queue ≠ [] :=
  have start : InOrder (State.initial Thread T) := rfl
  ⟨inOrder_step.run start reachable, fun _ _ => reachable.owned.exclusive,
    reachable.ready⟩

section Runs

variable {state : State Thread T} {thread sleeper : Thread} {value : T}

/-- A receiver finds the queue empty and falls asleep. -/
def State.wait (state : State Thread T) (thread : Thread) : State Thread T :=
  ((state.move thread .receiving).lock thread .checking).unlock thread .asleep

theorem steps_wait (idle : state.phase thread = .idle) (free : state.holder = none)
    (empty : state.queue = []) : ReflTransGen Step state (state.wait thread) :=
  ((ReflTransGen.single (.callReceive idle)).tail
    (.inner (.lockReceive (move_phase_self ..) free))).tail
      (.inner (.fallAsleep (move_phase_self ..) empty))

/-- A sender pushes its value. -/
def State.push (state : State Thread T) (thread : Thread) (value : T) : State Thread T :=
  { ((state.move thread (.sending value)).lock thread (.pushing value)).move thread .pushed with
    queue := state.queue ++ [value]
    sent := state.sent ++ [(thread, value)] }

theorem steps_push (value : T) (idle : state.phase thread = .idle)
    (free : state.holder = none) : ReflTransGen Step state (state.push thread value) :=
  ((ReflTransGen.single (.callSend value idle)).tail
    (.inner (.lockSend (move_phase_self ..) free))).tail (.inner (.push (move_phase_self ..)))

/-- A sender that has pushed wakes a sleeper, which takes the value in front. -/
def State.handOver (state : State Thread T) (thread sleeper : Thread) (value : T)
    (rest : List T) : State Thread T :=
  let woken := ((state.move sleeper .woken).move thread .notified).unlock thread .idle
  let took := ((woken.lock sleeper .checking).move sleeper .taking).move sleeper (.took value)
  { took with
    queue := rest
    received := state.received ++ [(sleeper, value)] }.unlock sleeper .idle

theorem steps_handOver {rest : List T} (pushed : state.phase thread = .pushed)
    (asleep : state.phase sleeper = .asleep) (front : state.queue = value :: rest) :
    ReflTransGen Step state (state.handOver thread sleeper value rest) := by
  have apart : sleeper ≠ thread := by
    rintro rfl
    rw [pushed] at asleep
    cases asleep
  have filled : state.queue ≠ [] := by simp [front]
  refine ((ReflTransGen.single (.inner (.notifyOne pushed asleep))).tail
    (.inner (.unlockSend (move_phase_self ..)))).trans ?_
  have woken : (((state.move sleeper .woken).move thread .notified).unlock thread .idle).phase
      sleeper = .woken := by
    simp [State.unlock, move_phase_of_ne apart]
  refine (((ReflTransGen.single (.inner (.relock woken rfl))).tail
    (.inner (.leaveWait (move_phase_self ..) filled))).tail
      (.inner (.take (move_phase_self ..) front))).tail ?_
  exact .inner (.unlockReceive (move_phase_self ..))

end Runs

/-- Two threads wait for values. -/
def waiting : State (Fin 3) ℕ := ((State.initial (Fin 3) ℕ).wait 1).wait 2

/-- One of them is handed 7, and 8 is pushed while the other sleeps. -/
def handedOn : State (Fin 3) ℕ := ((waiting.push 0 7).handOver 0 2 7 []).push 0 8

theorem handedOn_reachable : Reachable handedOn := by
  have start : Reachable waiting := (steps_wait rfl rfl rfl).trans (steps_wait rfl rfl rfl)
  have handed : Reachable ((waiting.push 0 7).handOver 0 2 7 []) :=
    start.trans ((steps_push 7 rfl rfl).trans (steps_handOver rfl rfl rfl))
  exact handed.trans (steps_push 8 rfl rfl)

/-- 7 has arrived and 8 is in the queue, with a thread in the mutex and another asleep. -/
theorem handedOn_in_order :
    (handedOn.sent = [(0, 7), (0, 8)] ∧ handedOn.received = [(2, 7)] ∧ handedOn.queue = [8]) ∧
      handedOn.sent.map Prod.snd = handedOn.received.map Prod.snd ++ handedOn.queue ∧
      (∀ one other, (handedOn.phase one).inside → (handedOn.phase other).inside → one = other) ∧
      ∀ thread, handedOn.phase thread = .taking → handedOn.queue ≠ [] :=
  ⟨⟨rfl, rfl, rfl⟩, values_arrive_once_in_order handedOn_reachable⟩

section Progress

variable [Fintype Thread]

/-- What the threads' places add up to. -/
def total (weight : Phase T → ℕ) (state : State Thread T) : ℕ :=
  ∑ thread, weight (state.phase thread)

theorem total_move (weight : Phase T → ℕ) (state : State Thread T) (thread : Thread)
    (phase : Phase T) :
    total weight (state.move thread phase) + weight (state.phase thread) =
      total weight state + weight phase := by
  have member := Finset.mem_univ thread
  unfold total
  rw [← Finset.add_sum_erase _ _ member,
    ← Finset.add_sum_erase _ (fun other => weight (state.phase other)) member]
  have others : ∑ other ∈ Finset.univ.erase thread,
        weight ((state.move thread phase).phase other) =
      ∑ other ∈ Finset.univ.erase thread, weight (state.phase other) := by
    apply Finset.sum_congr rfl
    intro other inside
    rw [move_phase_of_ne (Finset.ne_of_mem_erase inside)]
  rw [others, move_phase_self]
  omega

/-- The moves of `notify_one`. -/
theorem total_notify (weight : Phase T → ℕ) {state : State Thread T}
    {thread sleeper : Thread} (here : state.phase thread = .pushed)
    (asleep : state.phase sleeper = .asleep) :
    total weight ((state.move sleeper .woken).move thread .notified) +
        weight .pushed + weight .asleep =
      total weight state + weight .notified + weight .woken := by
  have different : thread ≠ sleeper := by
    rintro rfl
    rw [here] at asleep
    cases asleep
  have second := total_move weight (state.move sleeper .woken) thread .notified
  have first := total_move weight state sleeper .woken
  rw [move_phase_of_ne different, here] at second
  rw [asleep] at first
  omega

/-- Whether the thread is about to look at the queue, or to wake one that
will. -/
def Phase.credit : Phase T → ℕ
  | .receiving | .woken | .checking | .taking | .pushed => 1
  | .idle | .sending _ | .pushing _ | .notified | .asleep | .took _ => 0

/-- While anybody sleeps, every value in the queue has a thread on its way. -/
def Covered (state : State Thread T) : Prop :=
  ∀ sleeper, state.phase sleeper = .asleep →
    state.queue.length ≤ total Phase.credit state

theorem Covered.of_move {state : State Thread T} {thread : Thread} {phase : Phase T}
    (covered : Covered state) (awake : phase ≠ .asleep)
    (credit : (state.phase thread).credit ≤ phase.credit) :
    Covered (state.move thread phase) := by
  intro sleeper asleep
  have before : state.phase sleeper = .asleep := by
    by_cases equal : sleeper = thread
    · subst equal
      rw [move_phase_self] at asleep
      exact absurd asleep awake
    · rwa [move_phase_of_ne equal] at asleep
  have moved := total_move Phase.credit state thread phase
  have bound := covered sleeper before
  show state.queue.length ≤ total Phase.credit (state.move thread phase)
  omega

theorem covered_inner {state after : State Thread T} (covered : Covered state)
    (inner : Inner state after) : Covered after := by
  cases inner with
  | push here =>
      rename_i thread value
      intro sleeper asleep
      have before : state.phase sleeper = .asleep := by
        by_cases equal : sleeper = thread
        · subst equal
          have pushed := (move_phase_self state sleeper .pushed).symm.trans asleep
          cases pushed
        · rw [← move_phase_of_ne equal]
          exact asleep
      have bound := covered sleeper before
      have moved := total_move Phase.credit state thread .pushed
      rw [here] at moved
      simp only [Phase.credit] at moved
      show (state.queue ++ [value]).length ≤ total Phase.credit (state.move thread .pushed)
      rw [List.length_append, List.length_singleton]
      omega
  | notifyOne here sleeping =>
      rename_i thread sleeper
      intro _ _
      have bound := covered sleeper sleeping
      have moved := total_notify Phase.credit here sleeping
      simp only [Phase.credit] at moved
      show state.queue.length ≤ total Phase.credit _
      omega
  | notifyNone here nobody =>
      rename_i thread
      intro sleeper asleep
      by_cases equal : sleeper = thread
      · subst equal
        rw [move_phase_self] at asleep
        cases asleep
      · rw [move_phase_of_ne equal] at asleep
        exact absurd asleep (nobody sleeper)
  | fallAsleep _ empty =>
      intro _ _
      show state.queue.length ≤ _
      simp [empty]
  | take here front =>
      rename_i thread value rest
      intro sleeper asleep
      have before : state.phase sleeper = .asleep := by
        by_cases equal : sleeper = thread
        · subst equal
          have took := (move_phase_self state sleeper (.took value)).symm.trans asleep
          cases took
        · rw [← move_phase_of_ne equal]
          exact asleep
      have bound := covered sleeper before
      have moved := total_move Phase.credit state thread (.took value)
      rw [here] at moved
      simp only [Phase.credit] at moved
      rw [front, List.length_cons] at bound
      show rest.length ≤ total Phase.credit (state.move thread (.took value))
      omega
  | lockSend here => exact covered.of_move (by simp) (by simp [here, Phase.credit])
  | unlockSend here => exact covered.of_move (by simp) (by simp [here, Phase.credit])
  | lockReceive here => exact covered.of_move (by simp) (by simp [here, Phase.credit])
  | relock here => exact covered.of_move (by simp) (by simp [here, Phase.credit])
  | leaveWait here => exact covered.of_move (by simp) (by simp [here, Phase.credit])
  | unlockReceive here => exact covered.of_move (by simp) (by simp [here, Phase.credit])

theorem covered_step :
    Simulation.Keeps (@Step Thread T _) Covered := by
  intro state after covered step
  cases step with
  | inner inner => exact covered_inner covered inner
  | callSend _ here => exact covered.of_move (by simp) (by simp [here, Phase.credit])
  | callReceive here => exact covered.of_move (by simp) (by simp [here, Phase.credit])
  | spurious here => exact covered.of_move (by simp) (by simp [here, Phase.credit])

/-- A bound on the steps the thread still makes, with those of the sleeper it
wakes. -/
def Phase.fuel : Phase T → ℕ
  | .idle | .asleep => 0
  | .took _ | .notified => 1
  | .taking => 2
  | .checking => 3
  | .woken | .receiving => 4
  | .pushed => 6
  | .pushing _ => 7
  | .sending _ => 8

theorem fuel_inner {state after : State Thread T} (inner : Inner state after) :
    total Phase.fuel after < total Phase.fuel state := by
  have down {thread : Thread} {phase : Phase T}
      (less : phase.fuel < (state.phase thread).fuel) :
      total Phase.fuel (state.move thread phase) < total Phase.fuel state := by
    have moved := total_move Phase.fuel state thread phase
    omega
  cases inner with
  | notifyOne here asleep =>
      have moved := total_notify Phase.fuel here asleep
      simp only [Phase.fuel] at moved
      omega
  | lockSend here => exact down (by simp [here, Phase.fuel])
  | push here => exact down (by simp [here, Phase.fuel])
  | notifyNone here => exact down (by simp [here, Phase.fuel])
  | unlockSend here => exact down (by simp [here, Phase.fuel])
  | lockReceive here => exact down (by simp [here, Phase.fuel])
  | relock here => exact down (by simp [here, Phase.fuel])
  | fallAsleep here => exact down (by simp [here, Phase.fuel])
  | leaveWait here => exact down (by simp [here, Phase.fuel])
  | take here => exact down (by simp [here, Phase.fuel])
  | unlockReceive here => exact down (by simp [here, Phase.fuel])

/-- Whoever owns the mutex can go on. -/
theorem inside_steps {state : State Thread T} (ready : Ready state) {thread : Thread}
    (inside : (state.phase thread).inside) : ∃ after, Inner state after := by
  cases here : state.phase thread with
  | pushing value => exact ⟨_, .push here⟩
  | pushed =>
      by_cases sleeping : ∃ sleeper, state.phase sleeper = .asleep
      · obtain ⟨sleeper, asleep⟩ := sleeping
        exact ⟨_, .notifyOne here asleep⟩
      · exact ⟨_, .notifyNone here fun other asleep => sleeping ⟨other, asleep⟩⟩
  | notified => exact ⟨_, .unlockSend here⟩
  | checking =>
      by_cases empty : state.queue = []
      · exact ⟨_, .fallAsleep here empty⟩
      · exact ⟨_, .leaveWait here empty⟩
  | taking =>
      cases front : state.queue with
      | nil => exact absurd front (ready thread here)
      | cons value rest => exact ⟨_, .take here front⟩
  | took value => exact ⟨_, .unlockReceive here⟩
  | idle => simp [here, Phase.inside] at inside
  | sending value => simp [here, Phase.inside] at inside
  | receiving => simp [here, Phase.inside] at inside
  | asleep => simp [here, Phase.inside] at inside
  | woken => simp [here, Phase.inside] at inside

theorem settled_of_stuck {state : State Thread T} (owned : Owned state)
    (ready : Ready state) (stuck : ∀ after, ¬ Inner state after) (thread : Thread) :
    state.phase thread = .idle ∨ state.phase thread = .asleep := by
  have outside (other : Thread) : ¬ (state.phase other).inside := by
    intro inside
    obtain ⟨after, inner⟩ := inside_steps ready inside
    exact stuck after inner
  have free : state.holder = none := by
    cases held : state.holder with
    | none => rfl
    | some owner => exact absurd ((owned owner).mpr held) (outside owner)
  have unlocked := outside thread
  cases here : state.phase thread with
  | idle => exact .inl rfl
  | asleep => exact .inr rfl
  | sending value => exact absurd (.lockSend here free) (stuck _)
  | receiving => exact absurd (.lockReceive here free) (stuck _)
  | woken => exact absurd (.relock here free) (stuck _)
  | _ => simp [here, Phase.inside] at unlocked

/-- The calls under way come to an end in every order of their steps.  Where
none of them can go on, every `send` has returned, and a `recv` is blocked only
when everything sent has been received. -/
theorem calls_settle {state : State Thread T} (reachable : Reachable state) :
    Acc (fun after before => Inner before after) state ∧
      ∀ after, ReflTransGen Inner state after → (∀ next, ¬ Inner after next) →
        (∀ thread, after.phase thread = .idle ∨ after.phase thread = .asleep) ∧
          ∀ sleeper, after.phase sleeper = .asleep →
            after.sent.map Prod.snd = after.received.map Prod.snd := by
  constructor
  · apply Subrelation.accessible (r := InvImage (· < ·) (total Phase.fuel)) fuel_inner
    exact InvImage.accessible _ (Nat.lt_wfRel.wf.apply _)
  · intro after steps stuck
    have settled : Reachable after :=
      reachable.trans (steps.lift id fun _ _ inner => .inner inner)
    have resting := settled_of_stuck settled.owned settled.ready stuck
    refine ⟨resting, fun sleeper asleep => ?_⟩
    have start : Covered (State.initial Thread T) := by
      intro _ asleep
      cases asleep
    have nobody : total Phase.credit after = 0 := by
      apply Finset.sum_eq_zero
      intro thread _
      cases resting thread with
      | inl idle => rw [idle]; rfl
      | inr asleep => rw [asleep]; rfl
    have bound := covered_step.run start settled sleeper asleep
    have empty : after.queue = [] :=
      List.eq_nil_of_length_eq_zero (by omega)
    have inOrder : InOrder after :=
      inOrder_step.run (show InOrder (State.initial Thread T) from rfl) settled
    rw [inOrder, empty, List.append_nil]

/-- The sender notifies the thread that still sleeps, and 8 arrives. -/
theorem handedOn_settles : handedOn.phase 1 = .asleep ∧
    Acc (fun after before => Inner before after) handedOn ∧
      ∀ after, ReflTransGen Inner handedOn after → (∀ next, ¬ Inner after next) →
        (∀ thread, after.phase thread = .idle ∨ after.phase thread = .asleep) ∧
          ∀ sleeper, after.phase sleeper = .asleep →
            after.sent.map Prod.snd = after.received.map Prod.snd :=
  ⟨rfl, calls_settle handedOn_reachable⟩

end Progress

end Channel

end Aegis
