import AegisCompiler.RenamedGraphs

/-!
# Deleting an idle loop

A loop whose body performs no call and holds no other control may be deleted
when nothing that the walk observes depends on a phi of the loop.
-/

namespace Aegis

namespace CallWalk

open ControlWalk (operate paramRank isPhiOf)

/-- The inputs that the value of a data node is computed from. -/
def operands (n : Node) : List NodeRef :=
  if n.kind = .phi then n.inputs.tail else n.inputs

/-- The value of the node depends on a phi at one of the two headers. -/
inductive Depends (g : Graph) (loop after : NodeId) : NodeId → Prop where
  | phi {id} (isPhi : (g.node id).kind = .phi)
      (header : (g.node id).ctrlIn = some loop ∨ (g.node id).ctrlIn = some after) :
      Depends g loop after id
  | operand {id source}
      (data : IsData (g.node id).kind ∨ (g.node id).kind = .proj)
      (reads : some source ∈ operands (g.node id))
      (depends : Depends g loop after source) : Depends g loop after id

/-- The operands that decide what a walk does: conditions, arguments of calls
and returned values. -/
def observed (n : Node) : List NodeRef :=
  match n.kind with
  | .ifNode => [n.inputs.getD 1 none]
  | .returnNode => [n.inputs.getD 2 none]
  | kind => if kind.isCall then n.inputs.drop 2 else []

theorem observed_call {n : Node} (isCall : n.kind.isCall = true) :
    observed n = n.inputs.drop 2 := by
  unfold observed
  cases kind : n.kind <;> simp [kind, NodeKind.isCall] at isCall ⊢

/-- Apart from the exit of the loop nothing observes a value that depends on a
phi of the loop. -/
def Unobserved (g : Graph) (loop exit after : NodeId) : Prop :=
  ∀ user, user < g.size → (g.node user).isDead = false → user ≠ exit →
    ∀ source, some source ∈ observed (g.node user) → ¬ Depends g loop after source

/-- A loop that is entered from one node only, and performs no call. -/
structure IdleLoop (g : Graph) (loop exit body after entry : NodeId) : Prop where
  isLoop : (g.node loop).kind = .loop
  isExit : (g.node exit).kind = .ifNode
  inputs : (g.node loop).inputs = [some body, some entry]
  entered : consumers g entry = [loop]
  exits : consumers g loop = [exit]
  repeats : consumers g body = [loop]
  stays : projs g exit 0 = [body]
  leaves : projs g exit 1 = [after]
  quiet : callsAt g loop = []
  idle : callsAt g body = []
  ordered : ∀ call ∈ callsAt g entry, ∀ later ∈ callsAt g after, call < later
  start : (g.node kStartNodeId).kind = .start
  differs : entry ≠ after
  control : IsControl (g.node entry).kind

/-- Read the entry instead of the exit, and another node instead of the phi. -/
def withoutLoop (phi new after entry id : NodeId) : NodeId :=
  if id = phi then new else if id = after then entry else id

/-- The control nodes of a loop. -/
def OfLoop (loop exit body after id : NodeId) : Prop :=
  id = loop ∨ id = exit ∨ id = body ∨ id = after

/-- The second graph lacks the loop. -/
structure DeletesLoop (g h : Graph) (loop exit body after entry phi new : NodeId) :
    Prop where
  renames : Renames g h (withoutLoop phi new after entry)
    (OfLoop loop exit body after)
  isPhi : (g.node phi).kind = .phi
  header : (g.node phi).ctrlIn = some loop
  newData : new < g.size → IsData (g.node new).kind
  notStart : new ≠ kStartNodeId

/-- The walk without the loop waits at the entry. -/
def loopShadow (g : Graph) (loop body after entry : NodeId) :
    Shadow where
  place ctrl := if ctrl = loop ∨ ctrl = body ∨ ctrl = after then entry else ctrl
  rest ctrl := if ctrl = loop ∨ ctrl = body ∨ ctrl = entry then callsAt g after
    else []
  silent ctrl := ctrl = loop ∨ ctrl = body ∨ ctrl = entry
  changed := Depends g loop after
  alike id id' := (id = id' ∧ ¬ Depends g loop after id) ∨
    (id = after ∧ id' = entry)

namespace IdleLoop

variable {g : Graph} {loop exit body after entry : NodeId}
variable (idle : IdleLoop g loop exit body after entry)
include idle

theorem exit_reads : (g.node exit).ctrlIn = some loop := by
  have member : exit ∈ consumers g loop := idle.exits ▸ List.mem_singleton_self exit
  have reads := (mem_consumers.mp member).2.2
  rwa [ReadsControl, idle.isExit] at reads

theorem body_proj : (g.node body).kind = .proj ∧
    (g.node body).inputs = [some exit] ∧
      (g.node body).payload.projIndex = 0 := by
  have member : body ∈ projs g exit 0 := idle.stays ▸ List.mem_singleton_self body
  exact (mem_projs.mp member).2.2

theorem after_proj : (g.node after).kind = .proj ∧
    (g.node after).inputs = [some exit] ∧
      (g.node after).payload.projIndex = 1 := by
  have member : after ∈ projs g exit 1 := idle.leaves ▸ List.mem_singleton_self after
  exact (mem_projs.mp member).2.2

theorem body_ne_after : body ≠ after := by
  rintro rfl
  have zero := idle.body_proj.2.2
  rw [idle.after_proj.2.2] at zero
  exact absurd zero (by decide)

theorem loop_ne_after : loop ≠ after := by
  rintro rfl
  have kind := idle.after_proj.1
  rw [idle.isLoop] at kind
  cases kind

theorem entry_ne {id : NodeId} (kind : ¬ IsControl (g.node id).kind) :
    id ≠ entry := by
  rintro rfl
  exact kind idle.control

theorem start_ne_exit : kStartNodeId ≠ exit := by
  intro same
  have kind := idle.isExit
  rw [← same, idle.start] at kind
  cases kind

/-- The exit projection of a loop has no value. -/
theorem after_valueless {args : List Word} {held : Held} {v : Word} :
    ¬ HasValue g args held after v := by
  intro value
  obtain ⟨fuel, value⟩ := hasValue_iff.mp value
  unfold valueStep at value
  simp only [idle.after_proj.1, idle.after_proj.2.1] at value
  exact not_hasValue_of_kind (Or.inl idle.isExit) ⟨fuel, value⟩

end IdleLoop

theorem isControl_not_data {kind : NodeKind} (control : IsControl kind) :
    ¬ IsData kind := by
  rintro ⟨-, -, isRegion, isLoop, isProj, -⟩
  rcases control with rfl | rfl | rfl <;> contradiction

/-- A set slot behind the first is among the slots behind the first. -/
theorem getD_mem_tail {refs : List NodeRef} {slot : Nat} (positive : 0 < slot)
    (set : refs.getD slot none ≠ none) : refs.getD slot none ∈ refs.tail := by
  cases refs with
  | nil => exact absurd rfl set
  | cons ref refs =>
      obtain ⟨slot, rfl⟩ := Nat.exists_eq_succ_of_ne_zero positive.ne'
      rw [List.getD_cons_succ] at set ⊢
      by_cases inside : slot < refs.length
      · rw [List.getD_eq_getElem?_getD, List.getElem?_eq_getElem inside,
          Option.getD_some]
        exact List.getElem_mem inside
      · rw [List.getD_eq_getElem?_getD,
          List.getElem?_eq_none (Nat.le_of_not_lt inside), Option.getD_none] at set
        exact absurd rfl set

theorem inside_of_steers {g : Graph} {id : NodeId}
    (steers : ¬ IsData (g.node id).kind) : id < g.size := by
  by_contra outside
  rw [g.node_of_size_le (Nat.le_of_not_lt outside)] at steers
  exact steers (by simp [IsData, NodeKind.isCall, default])

theorem isData_phi : IsData .phi := by simp [IsData, NodeKind.isCall]

namespace DeletesLoop

variable {g h : Graph} {loop exit body after entry phi new : NodeId}
variable (idle : IdleLoop g loop exit body after entry)
variable (deletes : DeletesLoop g h loop exit body after entry phi new)
include deletes

theorem depends_phi : Depends g loop after phi :=
  .phi deletes.isPhi (Or.inl deletes.header)

theorem ne_of_steers {id : NodeId} (inside : id < g.size)
    (steers : ¬ IsData (g.node id).kind) : id ≠ phi ∧ id ≠ new := by
  constructor
  · rintro rfl
    exact steers (deletes.isPhi ▸ isData_phi)
  · rintro rfl
    exact steers (deletes.newData inside)

omit deletes in
/-- What is read instead of the nodes of the loop. -/
theorem withoutLoop_eq_iff {id source : NodeId} (notPhi : id ≠ phi)
    (notNew : id ≠ new) (notAfter : id ≠ after) (notEntry : id ≠ entry) :
    withoutLoop phi new after entry source = id ↔ source = id := by
  unfold withoutLoop
  split_ifs with isPhi isAfter
  · subst isPhi
    exact ⟨fun same => absurd same.symm notNew, fun same => absurd same.symm notPhi⟩
  · subst isAfter
    exact ⟨fun same => absurd same.symm notEntry,
      fun same => absurd same.symm notAfter⟩
  · rfl

include idle

omit deletes in
theorem entry_inside : entry < g.size :=
  inside_of_steers (isControl_not_data idle.control)

/-- The entry is read where the entry or the exit was read. -/
theorem withoutLoop_eq_entry {source : NodeId} :
    withoutLoop phi new after entry source = entry ↔
      source = entry ∨ source = after := by
  obtain ⟨notPhi, notNew⟩ := deletes.ne_of_steers (entry_inside idle)
    (isControl_not_data idle.control)
  have steers : ¬ IsData (g.node after).kind :=
    isControl_not_data (Or.inl idle.after_proj.1)
  have phiAfter := (deletes.ne_of_steers (inside_of_steers steers) steers).1
  unfold withoutLoop
  split_ifs with isPhi isAfter
  · subst isPhi
    simp [Ne.symm notNew, Ne.symm notPhi, Ne.symm phiAfter]
  · simp [isAfter]
  · simp [isAfter]

omit deletes in
/-- The nodes of the loop are its exit, two projections and the loop itself. -/
theorem kept_of_kind {id : NodeId} (notProj : (g.node id).kind ≠ .proj)
    (notLoop : id ≠ loop) (notExit : id ≠ exit) :
    ¬ OfLoop loop exit body after id := by
  rintro (rfl | rfl | rfl | rfl)
  · exact notLoop rfl
  · exact notExit rfl
  · exact notProj idle.body_proj.1
  · exact notProj idle.after_proj.1

omit deletes in
theorem kept_of_call {id : NodeId} (isCall : (g.node id).kind.isCall = true) :
    ¬ OfLoop loop exit body after id := by
  rintro (rfl | rfl | rfl | rfl)
  · rw [idle.isLoop] at isCall
    cases isCall
  · rw [idle.isExit] at isCall
    cases isCall
  · rw [idle.body_proj.1] at isCall
    cases isCall
  · rw [idle.after_proj.1] at isCall
    cases isCall

omit deletes in
theorem kept_of_inputs {id source : NodeId} (isProj : (g.node id).kind = .proj)
    (inputs : (g.node id).inputs = [some source]) (other : source ≠ exit) :
    ¬ OfLoop loop exit body after id := by
  have differs (first : (g.node id).inputs = [some exit]) : False := by
    rw [inputs] at first
    cases first
    exact other rfl
  rintro (rfl | rfl | rfl | rfl)
  · rw [idle.isLoop] at isProj
    cases isProj
  · rw [idle.isExit] at isProj
    cases isProj
  · exact differs idle.body_proj.2.1
  · exact differs idle.after_proj.2.1

/-- The projections of other nodes stay. -/
theorem projs_eq {source : NodeId} (inside : source < g.size)
    (kind : (g.node source).kind = .ifNode ∨ source = kStartNodeId)
    (other : source ≠ exit) (which : BitVec 32) :
    projs h source which = projs g source which := by
  have notEntry : source ≠ entry := by
    apply idle.entry_ne
    rcases kind with kind | rfl
    · simp [IsControl, kind]
    · simp [IsControl, idle.start]
  have notAfter : source ≠ after := by
    rintro rfl
    have isProj := idle.after_proj.1
    rcases kind with kind | rfl
    · rw [kind] at isProj
      cases isProj
    · rw [idle.start] at isProj
      cases isProj
  have apart : source ≠ phi ∧ source ≠ new := by
    rcases kind with kind | rfl
    · exact deletes.ne_of_steers inside fun data => data.1 kind
    · refine ⟨?_, Ne.symm deletes.notStart⟩
      rintro rfl
      have isPhi := deletes.isPhi
      rw [idle.start] at isPhi
      cases isPhi
  have same (before : NodeId) :
      withoutLoop phi new after entry before = source ↔ before = source :=
    withoutLoop_eq_iff apart.1 apart.2 notAfter notEntry
  refine eq_of_mem_iff (projs_pairwise _ _ _) (projs_pairwise _ _ _) fun proj => ?_
  rw [deletes.renames.mem_projs_iff, mem_projs]
  simp only [same, exists_eq_left]
  constructor
  · rintro ⟨below, live, -, rest⟩
    exact ⟨below, live, rest⟩
  · rintro ⟨below, live, isProj, inputs, index⟩
    exact ⟨below, live, kept_of_inputs idle isProj inputs other, isProj,
      inputs, index⟩

/-- The calls at the other control nodes stay. -/
theorem callsAt_eq {ctrl : NodeId} (notPhi : ctrl ≠ phi) (notNew : ctrl ≠ new)
    (notAfter : ctrl ≠ after) (notEntry : ctrl ≠ entry) :
    callsAt h ctrl = callsAt g ctrl := by
  refine eq_of_mem_iff (callsAt_pairwise _ _) (callsAt_pairwise _ _) fun call => ?_
  rw [deletes.renames.mem_callsAt_iff, mem_callsAt]
  simp only [withoutLoop_eq_iff notPhi notNew notAfter notEntry, exists_eq_left]
  constructor
  · rintro ⟨below, live, -, rest⟩
    exact ⟨below, live, rest⟩
  · rintro ⟨below, live, isCall, reads⟩
    exact ⟨below, live, kept_of_call idle isCall, isCall, reads⟩

/-- At the entry, the calls behind the loop follow those in front of it. -/
theorem callsAt_entry : callsAt h entry = callsAt g entry ++ callsAt g after := by
  have increasing : (callsAt g entry ++ callsAt g after).Pairwise (· < ·) :=
    List.pairwise_append.mpr ⟨callsAt_pairwise _ _, callsAt_pairwise _ _,
      idle.ordered⟩
  refine eq_of_mem_iff (callsAt_pairwise _ _) increasing fun call => ?_
  rw [deletes.renames.mem_callsAt_iff, List.mem_append, mem_callsAt, mem_callsAt]
  simp only [deletes.withoutLoop_eq_entry idle]
  constructor
  · rintro ⟨below, live, -, isCall, source, rfl | rfl, reads⟩
    · exact Or.inl ⟨below, live, isCall, reads⟩
    · exact Or.inr ⟨below, live, isCall, reads⟩
  · rintro (⟨below, live, isCall, reads⟩ | ⟨below, live, isCall, reads⟩)
    · exact ⟨below, live, kept_of_call idle isCall, isCall, entry, Or.inl rfl, reads⟩
    · exact ⟨below, live, kept_of_call idle isCall, isCall, after, Or.inr rfl, reads⟩

omit deletes in
/-- No node of the loop but its exit reads the loop, and only the loop reads
its entry and its body. -/
theorem reader_of_loop {user : NodeId} (live : (g.node user).isDead = false)
    (below : user < g.size) :
    (ReadsControl (g.node user) loop → user = exit) ∧
      (ReadsControl (g.node user) body → user = loop) ∧
        (ReadsControl (g.node user) entry → user = loop) := by
  have only {ctrl other : NodeId} (all : consumers g ctrl = [other])
      (reads : ReadsControl (g.node user) ctrl) : user = other := by
    have member : user ∈ consumers g ctrl := mem_consumers.mpr ⟨below, live, reads⟩
    rw [all] at member
    exact List.mem_singleton.mp member
  exact ⟨only idle.exits, only idle.repeats, only idle.entered⟩

omit deletes in
theorem loop_reads {ctrl : NodeId} (reads : ReadsControl (g.node loop) ctrl) :
    ctrl = body ∨ ctrl = entry := by
  rw [ReadsControl, idle.isLoop, idle.inputs] at reads
  simpa using reads

omit deletes in
theorem exit_reads_only {ctrl : NodeId} (reads : ReadsControl (g.node exit) ctrl) :
    ctrl = loop := by
  rw [ReadsControl, idle.isExit, idle.exit_reads] at reads
  exact (Option.some.inj reads).symm

omit deletes in
/-- A control node outside of the loop is not followed by the loop. -/
theorem kept_of_reads {user ctrl : NodeId} (reads : ReadsControl (g.node user) ctrl)
    (notLoop : ctrl ≠ loop) (notBody : ctrl ≠ body) (notEntry : ctrl ≠ entry) :
    ¬ OfLoop loop exit body after user := by
  apply kept_of_kind idle
  · intro isProj
    rw [ReadsControl, isProj] at reads
    exact reads
  · rintro rfl
    rcases loop_reads idle reads with rfl | rfl
    · exact notBody rfl
    · exact notEntry rfl
  · rintro rfl
    exact notLoop (exit_reads_only idle reads)

theorem consumers_eq {ctrl : NodeId} (notPhi : ctrl ≠ phi) (notNew : ctrl ≠ new)
    (notAfter : ctrl ≠ after) (notEntry : ctrl ≠ entry) (notLoop : ctrl ≠ loop)
    (notBody : ctrl ≠ body) : consumers h ctrl = consumers g ctrl := by
  refine eq_of_mem_iff (consumers_pairwise _ _) (consumers_pairwise _ _)
    fun user => ?_
  rw [deletes.renames.mem_consumers_iff, mem_consumers]
  simp only [withoutLoop_eq_iff notPhi notNew notAfter notEntry, exists_eq_left]
  constructor
  · rintro ⟨below, live, -, reads⟩
    exact ⟨below, live, reads⟩
  · rintro ⟨below, live, reads⟩
    exact ⟨below, live, kept_of_reads idle reads notLoop notBody notEntry, reads⟩

/-- What follows the loop follows its entry in the graph without it. -/
theorem consumers_entry : consumers h entry = consumers g after := by
  refine eq_of_mem_iff (consumers_pairwise _ _) (consumers_pairwise _ _)
    fun user => ?_
  rw [deletes.renames.mem_consumers_iff, mem_consumers]
  simp only [deletes.withoutLoop_eq_entry idle]
  constructor
  · rintro ⟨below, live, kept, source, rfl | rfl, reads⟩
    · have isLoop := (reader_of_loop idle live below).2.2 reads
      exact absurd (Or.inl isLoop) kept
    · exact ⟨below, live, reads⟩
  · rintro ⟨below, live, reads⟩
    exact ⟨below, live, kept_of_reads idle reads (Ne.symm idle.loop_ne_after)
      (Ne.symm idle.body_ne_after) (Ne.symm idle.differs), after, Or.inr rfl, reads⟩

theorem refAlike {ref : NodeRef}
    (free : ∀ source, ref = some source → ¬ Depends g loop after source) :
    RefAlike (loopShadow g loop body after entry).alike ref
      (ref.map (withoutLoop phi new after entry)) := by
  cases ref with
  | none => exact Or.inl ⟨rfl, rfl⟩
  | some source =>
      refine Or.inr ⟨source, _, rfl, rfl, ?_⟩
      have free := free source rfl
      by_cases isAfter : source = after
      · subst isAfter
        exact Or.inr ⟨rfl, (deletes.withoutLoop_eq_entry idle).mpr (Or.inr rfl)⟩
      · refine Or.inl ⟨?_, free⟩
        rw [withoutLoop, if_neg, if_neg isAfter]
        rintro rfl
        exact free deletes.depends_phi

/-- A node that does not depend on the loop computes the same without it. -/
theorem same_operation {args : List Word} {held held' : Held}
    (agrees : Agrees (Depends g loop after) held held') {id : NodeId}
    (free : ¬ Depends g loop after id) :
    SameOperation g h held held' (loopShadow g loop body after entry).alike id id ∨
      ∀ v, HasValue g args held id v → HasValue h args held' id v := by
  by_cases inside : id < g.size
  case neg =>
    have blank := g.node_of_size_le (Nat.le_of_not_lt inside)
    refine Or.inr fun v value => absurd value (not_hasValue_of_kind ?_)
    rw [blank]
    simp [default]
  have kind := deletes.renames.kind id inside
  by_cases control : (g.node id).kind = .ifNode ∨ (g.node id).kind = .returnNode ∨
      (g.node id).kind = .region ∨ (g.node id).kind = .loop
  · refine Or.inr fun v value => absurd value (not_hasValue_of_kind ?_)
    tauto
  by_cases isPhi : (g.node id).kind = .phi
  · refine Or.inr fun v value => ?_
    rw [hasValue_phi isPhi] at value
    rw [hasValue_phi (kind.trans isPhi)]
    exact agrees id v free value
  by_cases isCall : (g.node id).kind.isCall = true
  · refine Or.inr fun v value => ?_
    rw [hasValue_call isCall] at value
    rw [hasValue_call (kind ▸ isCall)]
    exact agrees id v free value
  by_cases isParameter : (g.node id).kind = .parameter
  · refine Or.inr fun v value => ?_
    rw [hasValue_parameter isParameter] at value
    rw [hasValue_parameter (kind.trans isParameter),
      deletes.renames.paramRank_eq inside]
    exact value
  have data : IsData (g.node id).kind ∨ (g.node id).kind = .proj := by
    unfold IsData
    rw [Bool.not_eq_true] at isCall
    tauto
  refine Or.inl ⟨kind, deletes.renames.payload id inside,
    fun same => absurd same isParameter, fun same => ?_, ?_⟩
  · rcases same with same | same
    · exact absurd same isPhi
    · exact absurd same isCall
  · rw [deletes.renames.inputs id inside, List.forall₂_map_right_iff,
      List.forall₂_same]
    refine fun ref reads => deletes.refAlike idle fun source same depends => ?_
    subst same
    refine free (.operand data ?_ depends)
    rwa [operands, if_neg isPhi]

theorem values {args : List Word} {held held' : Held}
    (agrees : Agrees (Depends g loop after) held held') {id id' : NodeId}
    (pair : (loopShadow g loop body after entry).alike id id') {v : Word}
    (value : HasValue g args held id v) : HasValue h args held' id' v := by
  refine HasValue.transfer (fun id id' pair => ?_) pair value
  rcases pair with ⟨rfl, free⟩ | ⟨rfl, rfl⟩
  · exact deletes.same_operation idle agrees free
  · exact Or.inr fun v value => absurd value idle.after_valueless

theorem arrives {ctrl : NodeId} (control : IsControl (g.node ctrl).kind)
    (notLoop : ctrl ≠ loop) (notBody : ctrl ≠ body) (notAfter : ctrl ≠ after) :
    (loopShadow g loop body after entry).place ctrl = ctrl ∧
      Arrives g h (loopShadow g loop body after entry) ctrl := by
  have stays : (loopShadow g loop body after entry).place ctrl = ctrl :=
    if_neg (by simp [notLoop, notBody, notAfter])
  refine ⟨stays, ?_⟩
  rw [Arrives, stays]
  by_cases isEntry : ctrl = entry
  · subst isEntry
    rw [deletes.callsAt_entry idle]
    exact congrArg _ (if_pos (Or.inr (Or.inr rfl))).symm
  · have steers := isControl_not_data control
    obtain ⟨notPhi, notNew⟩ := deletes.ne_of_steers (inside_of_steers steers) steers
    have none : (loopShadow g loop body after entry).rest ctrl = [] :=
      if_neg (by simp [notLoop, notBody, isEntry])
    rw [none, List.append_nil]
    exact deletes.callsAt_eq idle notPhi notNew notAfter isEntry

omit deletes in
/-- Inside the loop only the phis of the loop change. -/
theorem silent {callees : Callees} {args : List Word} {ctrl : NodeId}
    {held held' : Held} {calls : List Call} {t : WalkState}
    (inside : ctrl = loop ∨ ctrl = body ∨ ctrl = entry)
    (next : Step g callees args (.walking ctrl [] held calls) t)
    (agrees : Agrees (Depends g loop after) held held') :
    Shadows (loopShadow g loop body after entry) t
      (.walking entry (callsAt g after) held' calls) := by
  have atLoop (held₁ : Held) (agrees : Agrees (Depends g loop after) held₁ held') :
      Shadows (loopShadow g loop body after entry) (arrive g loop held₁ calls)
        (.walking entry (callsAt g after) held' calls) := by
    have shadows : Shadows (loopShadow g loop body after entry)
        (.walking loop [] held₁ calls) _ := .walking agrees
    simpa [arrive, idle.quiet, loopShadow] using shadows
  have user (only : NodeId) (consumed : consumers g ctrl = [only]) :
      (ctrl = loop ∧ only = exit) ∨ (ctrl ≠ loop ∧ only = loop) := by
    have entryLoop : entry ≠ loop := by
      rintro rfl
      have same := idle.entered
      rw [idle.exits, List.cons.injEq] at same
      have kind := idle.isExit
      rw [same.1, idle.isLoop] at kind
      cases kind
    have bodyLoop : body ≠ loop := by
      rintro rfl
      have kind := idle.body_proj.1
      rw [idle.isLoop] at kind
      cases kind
    rcases inside with rfl | rfl | rfl
    · rw [idle.exits, List.cons.injEq] at consumed
      exact Or.inl ⟨rfl, consumed.1.symm⟩
    · rw [idle.repeats, List.cons.injEq] at consumed
      exact Or.inr ⟨bodyLoop, consumed.1.symm⟩
    · rw [idle.entered, List.cons.injEq] at consumed
      exact Or.inr ⟨entryLoop, consumed.1.symm⟩
  cases next with
  | @branch _ exit' proj _ _ cond only kind evaluated taken =>
      rcases user exit' only with ⟨rfl, rfl⟩ | ⟨-, rfl⟩
      · by_cases stays : cond ≠ 0
        · rw [if_pos stays, idle.stays, List.cons.injEq] at taken
          rw [← taken.1]
          have shadows : Shadows (loopShadow g ctrl body after entry)
              (.walking body [] held calls) _ := .walking agrees
          simpa [arrive, idle.idle, loopShadow] using shadows
        · rw [if_neg stays, idle.leaves, List.cons.injEq] at taken
          rw [← taken.1]
          have shadows : Shadows (loopShadow g ctrl body after entry)
              (.walking after (callsAt g after) held calls) _ := .walking agrees
          have apart := idle.differs
          have left := idle.loop_ne_after
          have right := idle.body_ne_after
          simpa [arrive, loopShadow, Ne.symm apart, Ne.symm left, Ne.symm right]
            using shadows
      · rw [idle.isLoop] at kind
        cases kind
  | @enter _ header _ held₁ _ only kind entered =>
      rcases user header only with ⟨-, rfl⟩ | ⟨-, rfl⟩
      · rw [idle.isExit] at kind
        rcases kind with kind | kind <;> cases kind
      · refine atLoop held₁ fun id v free value => agrees id v free ?_
        have same := entered id
        unfold EnteredAt at same
        rwa [if_neg, value, eq_comm] at same
        intro phi
        obtain ⟨isPhi, header⟩ := isPhiOf_iff_ctrlIn.mp phi
        exact free (.phi isPhi (Or.inl header))
  | @finish _ user' _ _ value only kind evaluated =>
      rcases user user' only with ⟨-, rfl⟩ | ⟨-, rfl⟩
      · rw [idle.isExit] at kind
        cases kind
      · rw [idle.isLoop] at kind
        cases kind

/-- An observed value is read alike in both graphs. -/
theorem observed_alike (unobserved : Unobserved g loop exit after) {user : NodeId}
    (inside : user < g.size) (live : (g.node user).isDead = false)
    (notExit : user ≠ exit) {ref : NodeRef} (seen : ref ∈ observed (g.node user)) :
    RefAlike (loopShadow g loop body after entry).alike ref
      (ref.map (withoutLoop phi new after entry)) := by
  refine deletes.refAlike idle fun source same => ?_
  subst same
  exact unobserved user inside live notExit source seen

/-- A control node outside of the loop and its place in the second graph are
read by the same nodes. -/
theorem reads_iff {ctrl user : NodeId} (control : IsControl (g.node ctrl).kind)
    (notLoop : ctrl ≠ loop) (notBody : ctrl ≠ body) (notEntry : ctrl ≠ entry)
    (only : consumers g ctrl = [user]) :
    consumers h ((loopShadow g loop body after entry).place ctrl) = [user] ∧
      ∀ source, ReadsControl (g.node user) source →
        (withoutLoop phi new after entry source =
          (loopShadow g loop body after entry).place ctrl ↔ source = ctrl) := by
  have steers := isControl_not_data control
  obtain ⟨notPhi, notNew⟩ := deletes.ne_of_steers (inside_of_steers steers) steers
  obtain ⟨inside, live, reads⟩ := mem_consumers.mp
    (only ▸ List.mem_singleton_self user)
  have kept := kept_of_reads idle reads notLoop notBody notEntry
  by_cases isAfter : ctrl = after
  · subst isAfter
    have place : (loopShadow g loop body ctrl entry).place ctrl = entry :=
      if_pos (Or.inr (Or.inr rfl))
    rw [place]
    refine ⟨(deletes.consumers_entry idle).trans only, fun source reads => ?_⟩
    rw [deletes.withoutLoop_eq_entry idle]
    constructor
    · rintro (rfl | same)
      · have isLoop := (reader_of_loop idle live inside).2.2 reads
        exact absurd (Or.inl isLoop) kept
      · exact same
    · exact Or.inr
  · have place : (loopShadow g loop body after entry).place ctrl = ctrl :=
      if_neg (by simp [notLoop, notBody, isAfter])
    rw [place]
    exact ⟨(deletes.consumers_eq idle notPhi notNew isAfter notEntry notLoop
      notBody).trans only, fun source _ =>
        withoutLoop_eq_iff notPhi notNew isAfter notEntry⟩

/-- A phi that does not depend on the loop is set alike in both graphs. -/
theorem phi_alike {user : NodeId} (kept : ¬ OfLoop loop exit body after user)
    (merges : (g.node user).kind = .region ∨ (g.node user).kind = .loop)
    {id : NodeId} (free : ¬ Depends g loop after id) (slot : Nat) :
    isPhiOf h user id = isPhiOf g user id ∧
      (isPhiOf g user id = true → 0 < slot →
        RefAlike (loopShadow g loop body after entry).alike
          ((g.node id).inputs.getD slot none) ((h.node id).inputs.getD slot none)) := by
  have control : IsControl (g.node user).kind := Or.inr merges
  have steers := isControl_not_data control
  obtain ⟨notPhi, notNew⟩ := deletes.ne_of_steers (inside_of_steers steers) steers
  have notAfter : user ≠ after := fun same => kept (Or.inr (Or.inr (Or.inr same)))
  constructor
  · rw [Bool.eq_iff_iff, deletes.renames.isPhiOf_iff, isPhiOf_iff_ctrlIn]
    constructor
    · rintro ⟨inside, isPhi, source, same, header⟩
      refine ⟨isPhi, ?_⟩
      by_cases isEntry : user = entry
      · subst isEntry
        rcases (deletes.withoutLoop_eq_entry idle).mp same with rfl | rfl
        · exact header
        · exact absurd (.phi isPhi (Or.inr header)) free
      · rwa [(withoutLoop_eq_iff notPhi notNew notAfter isEntry).mp same] at header
    · rintro ⟨isPhi, header⟩
      have inside : id < g.size :=
        Graph.inside_of_kind isPhi (by simp)
      refine ⟨inside, isPhi, user, ?_, header⟩
      by_cases isEntry : user = entry
      · exact isEntry ▸ (deletes.withoutLoop_eq_entry idle).mpr (Or.inl rfl)
      · exact (withoutLoop_eq_iff notPhi notNew notAfter isEntry).mpr rfl
  · intro phi positive
    obtain ⟨isPhi, -⟩ := isPhiOf_iff_ctrlIn.mp phi
    have inside : id < g.size :=
      Graph.inside_of_kind isPhi (by simp)
    rw [deletes.renames.getD inside]
    refine deletes.refAlike idle fun source same depends => ?_
    refine free (.operand (Or.inl (isPhi ▸ isData_phi)) ?_ depends)
    rw [operands, if_pos isPhi, ← same]
    exact getD_mem_tail positive (by rw [same]; simp)

theorem goesOn (unobserved : Unobserved g loop exit after) {ctrl user : NodeId}
    (control : IsControl (g.node ctrl).kind) (notLoop : ctrl ≠ loop)
    (notBody : ctrl ≠ body) (notEntry : ctrl ≠ entry)
    (only : consumers g ctrl = [user]) :
    GoesOn g h (loopShadow g loop body after entry) ctrl user := by
  obtain ⟨only', places⟩ := deletes.reads_iff idle control notLoop notBody notEntry
    only
  obtain ⟨inside, live, reads⟩ := mem_consumers.mp
    (only ▸ List.mem_singleton_self user)
  have kept := kept_of_reads idle reads notLoop notBody notEntry
  have notExit : user ≠ exit := fun same => kept (Or.inr (Or.inl same))
  have observedAlike {ref : NodeRef} (seen : ref ∈ observed (g.node user)) :=
    deletes.observed_alike idle unobserved inside live notExit seen
  refine ⟨only', deletes.renames.kind user inside, fun isIf => ⟨?_, ?_⟩,
    fun merges => ?_, fun isReturn => ?_⟩
  · rw [deletes.renames.getD inside]
    exact observedAlike (by simp [observed, isIf])
  · intro which proj taken
    obtain ⟨-, -, isProj, inputs, -⟩ := mem_projs.mp
      (taken ▸ List.mem_singleton_self proj)
    have stays := kept_of_inputs idle isProj inputs notExit
    obtain ⟨place, arrives⟩ := deletes.arrives idle (Or.inl isProj)
      (fun same => stays (Or.inl same))
      (fun same => stays (Or.inr (Or.inr (Or.inl same))))
      fun same => stays (Or.inr (Or.inr (Or.inr same)))
    rw [place, deletes.projs_eq idle inside (Or.inl isIf) notExit]
    exact ⟨taken, arrives⟩
  · obtain ⟨place, arrives⟩ := deletes.arrives idle (Or.inr merges)
      (fun same => kept (Or.inl same))
      (fun same => kept (Or.inr (Or.inr (Or.inl same))))
      fun same => kept (Or.inr (Or.inr (Or.inr same)))
    refine ⟨place, arrives, deletes.renames.phiSlot_eq inside fun source member =>
      places source ?_, fun id free => ?_⟩
    · unfold ReadsControl
      rcases merges with kind | kind <;> rw [kind] <;> exact member
    · obtain ⟨phis, slots⟩ := deletes.phi_alike idle kept merges free
        (phiSlot (g.node user) ctrl)
      exact ⟨phis, fun phi => slots phi (phiSlot_pos _ _)⟩
  · rw [deletes.renames.getD inside]
    exact observedAlike (by simp [observed, isReturn])

/-- The graph without the loop carries the walk of the graph with the loop. -/
theorem carries (unobserved : Unobserved g loop exit after) (callees : Callees)
    (args : List Word) :
    Carries g h callees args (loopShadow g loop body after entry) where
  start start starts := by
    obtain ⟨-, -, isProj, inputs, -⟩ := mem_projs.mp
      (starts ▸ List.mem_singleton_self start)
    have nonempty : kStartNodeId < g.size := Nat.lt_of_le_of_lt (Nat.zero_le loop)
      (Graph.inside_of_kind idle.isLoop (by simp))
    have kept := kept_of_inputs idle isProj inputs idle.start_ne_exit
    obtain ⟨place, arrives⟩ := deletes.arrives idle (Or.inl isProj)
      (fun same => kept (Or.inl same))
      (fun same => kept (Or.inr (Or.inr (Or.inl same))))
      fun same => kept (Or.inr (Or.inr (Or.inr same)))
    rw [place, deletes.projs_eq idle nonempty (Or.inr rfl) idle.start_ne_exit]
    exact ⟨starts, arrives⟩
  values _ agrees _ _ pair _ value := deletes.values idle agrees pair value
  call ctrl call member := by
    obtain ⟨inside, live, isCall, -⟩ := mem_callsAt.mp member
    refine ⟨deletes.renames.payload call inside, ?_⟩
    have notExit : call ≠ exit := by
      rintro rfl
      rw [idle.isExit] at isCall
      cases isCall
    rw [deletes.renames.inputs call inside, ← List.map_drop,
      List.forall₂_map_right_iff, List.forall₂_same]
    intro ref reads
    refine deletes.observed_alike idle unobserved inside live notExit ?_
    rwa [observed_call isCall]
  silent {ctrl held held' calls t} inside _ next agrees := by
    have place : (loopShadow g loop body after entry).place ctrl = entry := by
      rcases inside with rfl | rfl | rfl <;> simp [loopShadow]
    have rest : (loopShadow g loop body after entry).rest ctrl = callsAt g after :=
      if_pos inside
    rw [place, rest]
    exact silent idle inside next agrees
  loud {ctrl held calls} loud visits := by
    refine ⟨if_neg loud, fun user only => ?_⟩
    have outside : ctrl ≠ loop ∧ ctrl ≠ body ∧ ctrl ≠ entry :=
      ⟨fun same => loud (Or.inl same), fun same => loud (Or.inr (Or.inl same)),
        fun same => loud (Or.inr (Or.inr same))⟩
    exact deletes.goesOn idle unobserved visits.onControl.2.1 outside.1 outside.2.1
      outside.2.2 only

end DeletesLoop

end CallWalk

end Aegis
