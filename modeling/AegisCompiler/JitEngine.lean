import AegisCompiler.NodeKind
import Mathlib.Data.List.Nodup
import Mathlib.Logic.Function.Basic
import Mathlib.Logic.Relation

/-!
# The JIT engine

Mutator threads count the calls of registered functions.  The call that reaches the
threshold tries to lock the queue of compile jobs, and goes on without a job when
somebody else holds the lock.  Every step of a thread may interleave with the others.
-/

namespace Aegis

namespace Jit

/-- The identifier of a function. -/
abbrev FnId := Word

/-- The address of compiled code. -/
abbrev CompiledFn := Word

def kMaxPendingJobs : Nat := 1024

/-- A registered function: its code, its calls so far, and when it is hot. -/
structure Entry where
  current : CompiledFn
  invocations : Nat := 0
  threshold : BitVec 32
  deriving DecidableEq, Repr

structure CompileJob where
  fnId : FnId
  aotEntry : CompiledFn
  deriving DecidableEq, Repr

/-- Where a thread stands: outside of any slow path, after the call that reached the
threshold, with the lock of the queue, or in front of the statistics. -/
inductive Place where
  | idle
  | crossed (fn : FnId)
  | holding (fn : FnId)
  | leaving
  deriving DecidableEq, Repr

/-- Who holds the lock of the queue. -/
inductive Holder (Thread : Type) where
  | mutator (t : Thread)
  | other
  deriving DecidableEq, Repr

/-- The engine and its threads.  All jobs that were ever queued, and the functions whose
calls reported a full queue, are kept as histories. -/
structure Engine (Thread : Type) where
  entries : FnId → Option Entry
  places : Thread → Place := fun _ => .idle
  holder : Option (Holder Thread) := none
  pending : List CompileJob := []
  enqueued : List CompileJob := []
  queueFullSkipped : List FnId := []
  compilesStarted : Nat := 0
  compilesFinished : Nat := 0

/-- The steps of the threads, and of whoever else uses the queue or installs code. -/
inductive Label (Thread : Type) where
  | call (t : Thread) (fn : FnId)
  | tryLock (t : Thread)
  | tryLockFails (t : Thread)
  | publish (t : Thread)
  | start (t : Thread)
  | otherLocks
  | otherTakes
  | otherUnlocks
  | install (fn : FnId) (jitted : CompiledFn)

section Steps

variable {Thread : Type} [DecidableEq Thread]

namespace Engine

/-- Move a thread. -/
def move (s : Engine Thread) (t : Thread) (place : Place) : Engine Thread :=
  { s with places := Function.update s.places t place }

/-- Replace the entry of a function. -/
def setEntry (s : Engine Thread) (fn : FnId) (e : Entry) : Engine Thread :=
  { s with entries := Function.update s.entries fn (some e) }

/-- Count a call, and see whether it is the one that reaches the threshold. -/
def onCall (s : Engine Thread) (t : Thread) (fn : FnId) : Engine Thread :=
  match s.entries fn with
  | none => s
  | some e =>
      let count := (e.invocations + 1) % 2 ^ 64
      let s := s.setEntry fn { e with invocations := count }
      if count = e.threshold.toNat then s.move t (.crossed fn) else s

/-- Queue a job, or report that the queue is full, and unlock it. -/
def deliver (s : Engine Thread) (t : Thread) (fn : FnId) (e : Entry) : Engine Thread :=
  let s := { s.move t .leaving with holder := none }
  if s.pending.length < kMaxPendingJobs then
    { s with
      pending := s.pending ++ [⟨fn, e.current⟩]
      enqueued := s.enqueued ++ [⟨fn, e.current⟩] }
  else { s with queueFullSkipped := s.queueFullSkipped ++ [fn] }

/-- One step, if it is possible. -/
def step (s : Engine Thread) : Label Thread → Option (Engine Thread)
  | .call t fn => if s.places t = .idle then some (s.onCall t fn) else none
  | .tryLock t =>
      match s.places t with
      | .crossed fn =>
          if s.holder.isNone then
            some { s.move t (.holding fn) with holder := some (.mutator t) }
          else none
      | _ => none
  -- A lock may also fail to be taken while nobody holds it.
  | .tryLockFails t =>
      match s.places t with
      | .crossed _ => some (s.move t .leaving)
      | _ => none
  | .publish t =>
      match s.places t with
      | .holding fn => (s.entries fn).map (s.deliver t fn)
      | _ => none
  | .start t =>
      if s.places t = .leaving then
        some { s.move t .idle with compilesStarted := s.compilesStarted + 1 }
      else none
  | .otherLocks => if s.holder.isNone then some { s with holder := some .other } else none
  | .otherTakes =>
      match s.holder with
      | some .other => some { s with pending := s.pending.tail }
      | _ => none
  | .otherUnlocks =>
      match s.holder with
      | some .other => some { s with holder := none }
      | _ => none
  | .install fn jitted =>
      (s.entries fn).map fun e =>
        { s.setEntry fn { e with current := jitted } with
          compilesFinished := s.compilesFinished + 1 }

/-- The jobs that were ever queued for a function. -/
def jobs (s : Engine Thread) (fn : FnId) : Nat := s.enqueued.countP fun job => job.fnId = fn

/-- A thread is between the call that reached the threshold and the queue. -/
def Underway (s : Engine Thread) (t : Thread) (fn : FnId) : Prop :=
  s.places t = .crossed fn ∨ s.places t = .holding fn

/-- Every function that reached its threshold has one job, or a full queue was reported
for it, or its call is still under way. -/
def NoneLost (s : Engine Thread) : Prop :=
  ∀ fn e, s.entries fn = some e → e.threshold.toNat ≤ e.invocations →
    (∃ t, s.Underway t fn) ∨ s.jobs fn = 1 ∨ fn ∈ s.queueFullSkipped

/-- The statistics count the jobs, while no call is under way. -/
def Counted (s : Engine Thread) : Prop :=
  (∀ t, s.places t = .idle) → s.compilesStarted = s.enqueued.length

/-- Functions are registered with no calls so far. -/
structure Initial (s : Engine Thread) : Prop where
  entries : ∀ fn e, s.entries fn = some e → e.invocations = 0
  places : ∀ t, s.places t = .idle
  holder : s.holder = none
  pending : s.pending = []
  enqueued : s.enqueued = []
  queueFullSkipped : s.queueFullSkipped = []
  compilesStarted : s.compilesStarted = 0

/-- The step does not fail to lock the queue, does not find it full, and does not
overflow a counter. -/
def Unhindered (s : Engine Thread) : Label Thread → Prop
  | .call _ fn => ∀ e, s.entries fn = some e → e.invocations + 1 < 2 ^ 64
  | .tryLockFails _ => False
  | .publish _ => s.pending.length < kMaxPendingJobs
  | _ => True

/-- A step that is not hindered. -/
def Goes (s s' : Engine Thread) : Prop := ∃ label, s.step label = some s' ∧ s.Unhindered label

end Engine

namespace Engine

variable {s s' : Engine Thread}

theorem underway_move {t u : Thread} {place : Place} {fn : FnId} :
    (s.move t place).Underway u fn ↔
      if u = t then place = .crossed fn ∨ place = .holding fn else s.Underway u fn := by
  unfold Underway move
  by_cases same : u = t
  · subst same
    simp
  · simp [same]

omit [DecidableEq Thread] in
theorem not_underway_of_idle {t : Thread} (idle : s.places t = .idle) (fn : FnId) :
    ¬ s.Underway t fn := by
  simp [Underway, idle]

/-- A function is still cold, or its only slow call is under way, or it has its job. -/
def Fate (s : Engine Thread) (fn : FnId) (e : Entry) : Prop :=
  (e.invocations < e.threshold.toNat ∧ s.jobs fn = 0 ∧ ∀ t, ¬ s.Underway t fn) ∨
    (e.threshold.toNat ≤ e.invocations ∧ s.jobs fn = 0 ∧
      ∃ t, ∀ u, s.Underway u fn ↔ u = t) ∨
    (e.threshold.toNat ≤ e.invocations ∧ s.jobs fn = 1 ∧ ∀ t, ¬ s.Underway t fn)

omit [DecidableEq Thread] in
/-- Only the calls so far, the threshold, the jobs and the threads under way matter. -/
theorem Fate.congr {fn : FnId} {e e' : Entry} (fate : s.Fate fn e)
    (invocations : e'.invocations = e.invocations) (threshold : e'.threshold = e.threshold)
    (jobs : s'.jobs fn = s.jobs fn)
    (underway : ∀ t, s'.Underway t fn ↔ s.Underway t fn) : s'.Fate fn e' := by
  unfold Fate at fate ⊢
  simp only [invocations, threshold, jobs, underway]
  exact fate

/-- The threads in front of the statistics are those whose jobs are not counted yet. -/
def Uncounted (s : Engine Thread) : Prop :=
  ∃ waiting : List Thread, waiting.Nodup ∧ (∀ t, t ∈ waiting ↔ s.places t = .leaving) ∧
    s.compilesStarted + waiting.length = s.enqueued.length

/-- What holds in every run that is not hindered. -/
structure Tracked (s : Engine Thread) : Prop where
  fate : ∀ fn e, s.entries fn = some e → s.Fate fn e
  uncounted : s.Uncounted

omit [DecidableEq Thread] in
theorem Initial.tracked (initial : s.Initial)
    (positive : ∀ fn e, s.entries fn = some e → 0 < e.threshold.toNat) : s.Tracked where
  fate fn e found := by
    left
    rw [initial.entries fn e found]
    refine ⟨positive fn e found, ?_, fun t => not_underway_of_idle (initial.places t) fn⟩
    rw [jobs, initial.enqueued]
    rfl
  uncounted := by
    refine ⟨[], List.nodup_nil, fun t => ?_, ?_⟩
    · simp [initial.places t]
    · rw [initial.compilesStarted, initial.enqueued]
      rfl

/-- Moving a thread that neither enters nor leaves the statistics. -/
theorem Uncounted.move {t : Thread} {place : Place} (uncounted : s.Uncounted)
    (before : s.places t ≠ .leaving) (after : place ≠ .leaving)
    (places : s'.places = Function.update s.places t place)
    (enqueued : s'.enqueued = s.enqueued)
    (started : s'.compilesStarted = s.compilesStarted) : s'.Uncounted := by
  obtain ⟨waiting, nodup, mem, count⟩ := uncounted
  refine ⟨waiting, nodup, fun u => ?_, ?_⟩
  · rw [mem, places]
    by_cases same : u = t
    · subst same
      simp [before, after]
    · rw [Function.update_of_ne same]
  · rw [enqueued, started]
    exact count

theorem Tracked.onCall {t : Thread} {fn : FnId} (tracked : s.Tracked)
    (idle : s.places t = .idle)
    (small : ∀ e, s.entries fn = some e → e.invocations + 1 < 2 ^ 64) :
    (s.onCall t fn).Tracked := by
  unfold Engine.onCall
  cases found : s.entries fn with
  | none => exact tracked
  | some e =>
      have count : (e.invocations + 1) % 2 ^ 64 = e.invocations + 1 :=
        Nat.mod_eq_of_lt (small e found)
      have fate := tracked.fate fn e found
      have entries (other : FnId) (e' : Entry)
          (known : Function.update s.entries fn
            (some { e with invocations := e.invocations + 1 }) other = some e') :
          (other = fn ∧ e' = { e with invocations := e.invocations + 1 }) ∨
            (other ≠ fn ∧ s.entries other = some e') := by
        by_cases same : other = fn
        · subst same
          rw [Function.update_self] at known
          exact .inl ⟨rfl, (Option.some.inj known).symm⟩
        · rw [Function.update_of_ne same] at known
          exact .inr ⟨same, known⟩
      dsimp only
      rw [count]
      split
      case isTrue reaches =>
        refine ⟨fun other e' known => ?_, tracked.uncounted.move
          (by simp [idle]) (show Place.crossed fn ≠ .leaving from nofun) rfl rfl rfl⟩
        have underway (u : Thread) (other : FnId) :
            ((s.setEntry fn { e with invocations := e.invocations + 1 }).move t
              (.crossed fn)).Underway u other ↔
                if u = t then fn = other else s.Underway u other := by
          rw [underway_move]
          simp [Underway, setEntry]
        rcases entries other e' known with ⟨rfl, rfl⟩ | ⟨differs, before⟩
        · -- The call that reaches the threshold is the only one under way.
          rcases fate with ⟨-, none, cold⟩ | ⟨hot, -⟩ | ⟨hot, -⟩
          · refine .inr (.inl ⟨Nat.le_of_eq reaches.symm, none, t, fun u => ?_⟩)
            rw [underway]
            by_cases same : u = t <;> simp [same, cold u]
          all_goals omega
        · refine (tracked.fate other e' before).congr rfl rfl rfl fun u => ?_
          rw [underway]
          by_cases same : u = t
          · subst same
            simp [Ne.symm differs, not_underway_of_idle idle]
          · rw [if_neg same]
      case isFalse misses =>
        refine ⟨fun other e' known => ?_, tracked.uncounted⟩
        rcases entries other e' known with ⟨rfl, rfl⟩ | ⟨-, before⟩
        · rcases fate with ⟨cold, rest⟩ | ⟨hot, rest⟩ | ⟨hot, rest⟩
          · exact .inl ⟨Nat.lt_of_le_of_ne cold misses, rest⟩
          · exact .inr (.inl ⟨Nat.le_succ_of_le hot, rest⟩)
          · exact .inr (.inr ⟨Nat.le_succ_of_le hot, rest⟩)
        · exact tracked.fate other e' before

/-- Taking the lock leaves the call under way. -/
theorem Tracked.tryLock {t : Thread} {fn : FnId} (tracked : s.Tracked)
    (here : s.places t = .crossed fn) (holder : Option (Holder Thread)) :
    ({ s.move t (.holding fn) with holder } : Engine Thread).Tracked := by
  refine ⟨fun other e found => ?_, tracked.uncounted.move (by simp [here])
    (show Place.holding fn ≠ .leaving from nofun) rfl rfl rfl⟩
  refine (tracked.fate other e found).congr rfl rfl rfl fun u => ?_
  change (s.move t (.holding fn)).Underway u other ↔ _
  rw [underway_move]
  by_cases same : u = t
  · subst same
    simp [Underway, here]
  · rw [if_neg same]

/-- A queued job settles the fate of its function. -/
theorem Tracked.deliver {t : Thread} {fn : FnId} {e : Entry} (tracked : s.Tracked)
    (here : s.places t = .holding fn) (room : s.pending.length < kMaxPendingJobs) :
    (s.deliver t fn e).Tracked := by
  have delivered : s.deliver t fn e = { s.move t .leaving with
      holder := none
      pending := s.pending ++ [⟨fn, e.current⟩]
      enqueued := s.enqueued ++ [⟨fn, e.current⟩] } := if_pos room
  have underway (u : Thread) (other : FnId) :
      (s.deliver t fn e).Underway u other ↔ u ≠ t ∧ s.Underway u other := by
    rw [delivered]
    change (s.move t .leaving).Underway u other ↔ _
    rw [underway_move]
    by_cases same : u = t <;> simp [same]
  have jobs (other : FnId) : (s.deliver t fn e).jobs other =
      s.jobs other + if fn = other then 1 else 0 := by
    rw [delivered, Engine.jobs, List.countP_append]
    by_cases same : fn = other <;> simp [same, Engine.jobs]
  have entries : (s.deliver t fn e).entries = s.entries := by rw [delivered]; rfl
  have isUnder : s.Underway t fn := .inr here
  constructor
  · intro other e' found
    rw [entries] at found
    have fate := tracked.fate other e' found
    by_cases same : fn = other
    · subst same
      rcases fate with ⟨-, -, cold⟩ | ⟨hot, none, u, single⟩ | ⟨-, -, done⟩
      · exact absurd isUnder (cold t)
      · refine .inr (.inr ⟨hot, ?_, fun v => ?_⟩)
        · rw [jobs, none, if_pos rfl]
        · rw [underway]
          rintro ⟨differs, under⟩
          have first := (single v).mp under
          have second := (single t).mp isUnder
          exact differs (first.trans second.symm)
      · exact absurd isUnder (done t)
    · refine fate.congr rfl rfl ?_ fun u => ?_
      · rw [jobs, if_neg same, Nat.add_zero]
      · rw [underway]
        refine and_iff_right_of_imp fun under here' => ?_
        subst here'
        rcases under with crossed | holding
        · rw [here] at crossed
          cases crossed
        · rw [here] at holding
          exact same (Place.holding.inj holding)
  · obtain ⟨waiting, nodup, mem, count⟩ := tracked.uncounted
    have absent : t ∉ waiting := by simp [mem, here]
    rw [delivered]
    refine ⟨t :: waiting, List.nodup_cons.mpr ⟨absent, nodup⟩, fun u => ?_, ?_⟩
    · change u ∈ t :: waiting ↔ Function.update s.places t .leaving u = .leaving
      rw [List.mem_cons, mem]
      by_cases same : u = t
      · subst same
        simp
      · simp [same]
    · change s.compilesStarted + (t :: waiting).length =
        (s.enqueued ++ [(⟨fn, e.current⟩ : CompileJob)]).length
      rw [List.length_cons, List.length_append, List.length_singleton, ← count]
      rfl

/-- The statistics count one of the jobs. -/
theorem Tracked.start {t : Thread} (tracked : s.Tracked) (here : s.places t = .leaving) :
    ({ s.move t .idle with compilesStarted := s.compilesStarted + 1 } :
      Engine Thread).Tracked := by
  constructor
  · intro other e found
    refine (tracked.fate other e found).congr rfl rfl rfl fun u => ?_
    change (s.move t .idle).Underway u other ↔ _
    rw [underway_move]
    by_cases same : u = t
    · subst same
      simp [Underway, here]
    · rw [if_neg same]
  · obtain ⟨waiting, nodup, mem, count⟩ := tracked.uncounted
    have member : t ∈ waiting := (mem t).mpr here
    refine ⟨waiting.erase t, nodup.erase t, fun u => ?_, ?_⟩
    · change u ∈ waiting.erase t ↔ Function.update s.places t .idle u = .leaving
      rw [nodup.mem_erase_iff, mem]
      by_cases same : u = t
      · subst same
        simp
      · simp [same]
    · have length := List.length_erase_of_mem member
      have positive := List.length_pos_of_mem member
      change s.compilesStarted + 1 + (waiting.erase t).length = s.enqueued.length
      omega

omit [DecidableEq Thread] in
/-- Steps that move no thread and queue no job. -/
theorem Tracked.congr (tracked : s.Tracked)
    (entries : ∀ fn e', s'.entries fn = some e' → ∃ e, s.entries fn = some e ∧
      e'.invocations = e.invocations ∧ e'.threshold = e.threshold)
    (places : s'.places = s.places) (enqueued : s'.enqueued = s.enqueued)
    (started : s'.compilesStarted = s.compilesStarted) : s'.Tracked := by
  constructor
  · intro fn e' found
    obtain ⟨e, before, invocations, threshold⟩ := entries fn e' found
    refine (tracked.fate fn e before).congr invocations threshold ?_ fun t => ?_
    · rw [jobs, enqueued, jobs]
    · rw [Underway, places, Underway]
  · unfold Uncounted
    rw [places, enqueued, started]
    exact tracked.uncounted

theorem Tracked.step (tracked : s.Tracked) (goes : s.Goes s') : s'.Tracked := by
  obtain ⟨label, stepped, unhindered⟩ := goes
  have sameEntries {s' : Engine Thread} (same : s'.entries = s.entries) (fn : FnId)
      (e' : Entry) (found : s'.entries fn = some e') : ∃ e, s.entries fn = some e ∧
        e'.invocations = e.invocations ∧ e'.threshold = e.threshold :=
    ⟨e', same ▸ found, rfl, rfl⟩
  cases label with
  | call t fn =>
      rw [Engine.step] at stepped
      split at stepped
      case isTrue idle =>
        cases stepped
        exact tracked.onCall idle unhindered
      case isFalse => cases stepped
  | tryLock t =>
      rw [Engine.step] at stepped
      split at stepped
      case h_1 fn here =>
        split at stepped
        · cases stepped
          exact tracked.tryLock here _
        · cases stepped
      case h_2 => cases stepped
  | tryLockFails t => exact unhindered.elim
  | publish t =>
      rw [Engine.step] at stepped
      split at stepped
      case h_1 fn here =>
        obtain ⟨e, -, rfl⟩ := Option.map_eq_some_iff.mp stepped
        exact tracked.deliver here unhindered
      case h_2 => cases stepped
  | start t =>
      rw [Engine.step] at stepped
      split at stepped
      case isTrue here =>
        cases stepped
        exact tracked.start here
      case isFalse => cases stepped
  | otherLocks =>
      rw [Engine.step] at stepped
      split at stepped
      · cases stepped
        exact tracked.congr (sameEntries rfl) rfl rfl rfl
      · cases stepped
  | otherTakes =>
      rw [Engine.step] at stepped
      split at stepped
      · cases stepped
        exact tracked.congr (sameEntries rfl) rfl rfl rfl
      · cases stepped
  | otherUnlocks =>
      rw [Engine.step] at stepped
      split at stepped
      · cases stepped
        exact tracked.congr (sameEntries rfl) rfl rfl rfl
      · cases stepped
  | install fn jitted =>
      rw [Engine.step] at stepped
      obtain ⟨e, found, rfl⟩ := Option.map_eq_some_iff.mp stepped
      refine tracked.congr (fun other e' known => ?_) rfl rfl rfl
      change Function.update s.entries fn (some { e with current := jitted }) other =
        some e' at known
      by_cases same : other = fn
      · subst same
        rw [Function.update_self] at known
        cases known
        exact ⟨e, found, rfl, rfl⟩
      · rw [Function.update_of_ne same] at known
        exact ⟨e', known, rfl, rfl⟩

omit [DecidableEq Thread] in
theorem Tracked.noneLost (tracked : s.Tracked) : s.NoneLost := by
  intro fn e found hot
  rcases tracked.fate fn e found with ⟨cold, -⟩ | ⟨-, -, t, single⟩ | ⟨-, done, -⟩
  · exact absurd hot (Nat.not_le_of_lt cold)
  · exact .inl ⟨t, (single t).mpr rfl⟩
  · exact .inr (.inl done)

omit [DecidableEq Thread] in
theorem Tracked.counted (tracked : s.Tracked) : s.Counted := by
  intro idle
  obtain ⟨waiting, -, mem, count⟩ := tracked.uncounted
  have empty : waiting = [] := by
    apply List.eq_nil_iff_forall_not_mem.mpr
    intro t member
    have leaving := (mem t).mp member
    rw [idle t] at leaving
    cases leaving
  rw [empty] at count
  exact count

/-- In a run in which no call is hindered, every hot function gets its job, and the
statistics count the jobs. -/
theorem run_noneLost {initial s : Engine Thread} (started : initial.Initial)
    (positive : ∀ fn e, initial.entries fn = some e → 0 < e.threshold.toNat)
    (run : Relation.ReflTransGen Goes initial s) : s.NoneLost ∧ s.Counted := by
  have tracked : s.Tracked := by
    induction run with
    | refl => exact started.tracked positive
    | tail _ goes ih => exact ih.step goes
  exact ⟨tracked.noneLost, tracked.counted⟩

/-- One step, hindered or not. -/
def Steps (s s' : Engine Thread) : Prop := ∃ label, s.step label = some s'

end Engine

end Steps

/-- The function 7 is hot at its first call. -/
def oneFunction : Engine Unit where
  entries fn := if fn = 7 then some { current := 0x1000, threshold := 1 } else none

theorem oneFunction_entry {fn : FnId} {e : Entry} (found : oneFunction.entries fn = some e) :
    e = { current := 0x1000, threshold := 1 } := by
  change (if fn = 7 then some ({ current := 0x1000, threshold := 1 } : Entry) else none) =
    some e at found
  split at found
  · exact (Option.some.inj found).symm
  · cases found

theorem oneFunction_initial : oneFunction.Initial where
  entries fn e found := by
    rw [oneFunction_entry found]
  places _ := rfl
  holder := rfl
  pending := rfl
  enqueued := rfl
  queueFullSkipped := rfl
  compilesStarted := rfl

/-- While somebody else holds the lock, the call that reaches the threshold leaves no job
and no report, and is counted as a compilation all the same. -/
theorem run_loses :
    ∃ s, Relation.ReflTransGen Engine.Steps oneFunction s ∧ (∀ t, s.places t = .idle) ∧
      ¬ s.NoneLost ∧ ¬ s.Counted := by
  refine ⟨_, .head ⟨.otherLocks, rfl⟩ (.head ⟨.call () 7, rfl⟩
    (.head ⟨.tryLockFails (), rfl⟩ (.head ⟨.start (), rfl⟩ .refl))), fun _ => rfl, ?_, ?_⟩
  · intro kept
    rcases kept 7 _ rfl (by decide) with ⟨t, crossed | holding⟩ | done | reported
    · cases crossed
    · cases holding
    · cases done
    · cases reported
  · intro counted
    cases counted fun _ => rfl

theorem run_noneLost_free :
    ∃ s, Relation.ReflTransGen Engine.Goes oneFunction s ∧ s.compilesStarted = 1 ∧
      s.NoneLost ∧ s.Counted := by
  have run : Relation.ReflTransGen Engine.Goes oneFunction _ :=
    .head ⟨.call () 7, rfl, fun e found => by
      rw [oneFunction_entry found]
      decide⟩ (.head ⟨.tryLock (), rfl, trivial⟩
        (.head ⟨.publish (), rfl, show 0 < kMaxPendingJobs by decide⟩ (.head ⟨.start (), rfl, trivial⟩ .refl)))
  exact ⟨_, run, rfl, Engine.run_noneLost oneFunction_initial (fun fn e found => by
    rw [oneFunction_entry found]
    decide) run⟩

end Jit

end Aegis
