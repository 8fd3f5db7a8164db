import AegisCompiler.Lowering

/-!
# Invariants of lowering

The lowerer changes its graph only by appending nodes and by replacing inputs
of nodes it made itself, and it only binds nodes it made or found bound.
Whatever these edits keep is kept by lowering any tree, whether lowering
succeeds or not.
-/

namespace Aegis

namespace Lowerer

/-- The state a computation leaves behind. -/
def finalState {α : Type} (run : LowerM α) (s : LowerState) : LowerState :=
  match run s with
  | .ok _ s => s
  | .error _ s => s

/-- A property of the graph and its table of operations, the references that
may be bound, the nodes whose inputs may be replaced, and names that stay
bound.  When it is tracked, the control, the effect and all inputs of nodes are
usable references too. -/
structure LowerInvariant where
  holds : Graph → HashCons → Prop
  usable : Graph → NodeRef → Prop
  own : NodeId → Prop
  names : SymbolId → Prop
  tracked : Prop

/-- The inputs of a node are usable, if that matters. -/
def LowerInvariant.Reads (inv : LowerInvariant) (g : Graph)
    (inputs : List NodeRef) : Prop :=
  inv.tracked → ∀ ref ∈ inputs, inv.usable g ref

/-- The node has the effect of its kind and no flags, like all nodes that the
lowerer makes. -/
structure Made (n : Node) : Prop where
  effect : n.effect = effectClassOf n.kind
  flags : n.flags = 0

/-- The edits of the lowerer keep the invariant. -/
structure LowerInvariant.Closed (inv : LowerInvariant) : Prop where
  unset : ∀ g, inv.usable g none
  push : ∀ {g table} (n : Node), inv.holds g table → Made n →
    inv.Reads g n.inputs → inv.holds (g.pushNode n).2 table
  pushUsable : ∀ {g ref} (n : Node), inv.usable g ref →
    inv.usable (g.pushNode n).2 ref
  new : ∀ {g table} (n : Node), inv.holds g table →
    inv.own g.size ∧ inv.usable (g.pushNode n).2 (some g.size)
  record : ∀ {g table} (n : Node) (key : HashKey), inv.holds g table →
    Made n → inv.Reads g n.inputs → n.kind = key.kind →
      inv.holds (g.pushNode n).2 (table ++ [(key, g.size)])
  found : ∀ {g table key id}, inv.holds g table →
    HashCons.find table key = some id → inv.usable g (some id)
  rewire : ∀ {g table id} (slot : Nat) (ref : NodeRef), inv.holds g table →
    inv.own id → inv.Reads g [ref] → inv.holds (g.setInput id slot ref) table
  rewireUsable : ∀ {g id other} (slot : Nat) (ref : NodeRef),
    inv.usable g other → inv.usable (g.setInput id slot ref) other

/-- What the lowerer remembers of a loop while it lowers the body. -/
structure LoopEntry where
  before : LowerState
  loop : NodeId
  phiI : NodeId
  exit : NodeId
  accPhis : List (SymbolId × NodeId)

section Halves

variable (varName : SymbolId) (lo hi : LowerM NodeRef)
variable (accumulators : Bindings → List SymbolId) (body : LowerM Unit)

/-- The part of a loop in front of its body. -/
def enterLoop : LowerM LoopEntry := do
  let loValue ← lo
  let hiValue ← hi
  let before ← get
  let loop ← make fun g => g.makeLoop before.ctrl before.ctrl
  let phiI ← make fun g =>
    g.makePhi (some loop) [loValue, none] kInvalidTypeId
  let accPhis ← makeAccPhis loop (accumulators before.bindings)
  bindName varName (some phiI)
  let cmp ← make fun g => g.makeCmp .cmpLt (some phiI) hiValue
  let ifNode ← make fun g => g.makeIf (some loop) (some cmp)
  let trueProj ← make fun g => g.makeProj (some ifNode) 0
  let falseProj ← make fun g => g.makeProj (some ifNode) 1
  setCtrl (some trueProj)
  return ⟨before, loop, phiI, falseProj, accPhis⟩

theorem lowerFor_halves :
    lowerFor varName lo hi accumulators body = (do
      let entry ← enterLoop varName lo hi accumulators
      body
      if (← get).ctrl = none then throw {}
      else closeLoop entry.before entry.loop entry.phiI entry.exit entry.accPhis) :=
      by
  simp only [lowerFor, enterLoop, bind_assoc, pure_bind]

end Halves

section Rules

variable (inv : LowerInvariant) {α β : Type}

/-- The state keeps the invariant and binds usable references only. -/
structure Good (s : LowerState) : Prop where
  holds : inv.holds s.graph s.table
  bound : ∀ entry ∈ s.bindings, inv.usable s.graph entry.2
  named : ∀ name, inv.names name → ∃ entry ∈ s.bindings, entry.1 = name
  control : inv.Reads s.graph [s.ctrl, s.eff]

/-- Whatever was usable still is. -/
def Later (s t : LowerState) : Prop :=
  ∀ ref, inv.usable s.graph ref → inv.usable t.graph ref

/-- From this state the computation keeps the invariant, and a result it
returns satisfies the postcondition. -/
structure KeepsAt (s : LowerState) (run : LowerM α)
    (post : α → LowerState → Prop) : Prop where
  good : Good inv s → Good inv (finalState run s)
  later : Good inv s → Later inv s (finalState run s)
  result : Good inv s → ∀ value t, run s = .ok value t → post value t

/-- Nothing is said about the result. -/
def AnyResult (_ : α) (_ : LowerState) : Prop := True

/-- The result is usable. -/
def UsableResult (ref : NodeRef) (t : LowerState) : Prop :=
  inv.usable t.graph ref

/-- The result is a new node. -/
def NewResult (id : NodeId) (t : LowerState) : Prop :=
  inv.own id ∧ inv.usable t.graph (some id)

/-- The results are new nodes. -/
def NewResults (accPhis : List (SymbolId × NodeId)) (t : LowerState) : Prop :=
  ∀ acc ∈ accPhis, NewResult inv acc.2 t

variable {inv} {s : LowerState} {post : α → LowerState → Prop}

theorem reads_nil (g : Graph) : inv.Reads g [] := fun _ => nofun

theorem Reads.one {g : Graph} {ref : NodeRef} (usable : inv.usable g ref) :
    inv.Reads g [ref] := by
  intro _ other member
  rwa [List.mem_singleton.mp member]

theorem Reads.cons {g : Graph} {ref : NodeRef} {refs : List NodeRef}
    (head : inv.Reads g [ref]) (tail : inv.Reads g refs) :
    inv.Reads g (ref :: refs) := by
  intro tracked other member
  rcases List.mem_cons.mp member with rfl | later
  · exact head tracked other (List.mem_singleton_self other)
  · exact tail tracked other later

theorem Reads.two {g : Graph} {first second : NodeRef}
    (left : inv.usable g first) (right : inv.usable g second) :
    inv.Reads g [first, second] :=
  Reads.cons (Reads.one left) (Reads.one right)

theorem Good.ctrl {s : LowerState} (good : Good inv s) :
    inv.Reads s.graph [s.ctrl] := by
  intro tracked ref member
  rw [List.mem_singleton.mp member]
  exact good.control tracked _ List.mem_cons_self

theorem Good.eff {s : LowerState} (good : Good inv s) :
    inv.Reads s.graph [s.eff] := by
  intro tracked ref member
  rw [List.mem_singleton.mp member]
  exact good.control tracked _ (List.mem_cons_of_mem _ (List.mem_singleton_self _))

theorem Later.refl (s : LowerState) : Later inv s s := fun _ usable => usable

theorem Later.trans {t u : LowerState} (first : Later inv s t)
    (second : Later inv t u) : Later inv s u :=
  fun ref usable => second ref (first ref usable)

theorem Later.reads {t : LowerState} (later : Later inv s t)
    {refs : List NodeRef} (reads : inv.Reads s.graph refs) :
    inv.Reads t.graph refs :=
  fun tracked ref member => later ref (reads tracked ref member)

theorem finalState_ok {run : LowerM α} {value : α} {t : LowerState}
    (ran : run s = .ok value t) : finalState run s = t := by
  rw [finalState, ran]

theorem finalState_error {run : LowerM α} {error : TypeError} {t : LowerState}
    (ran : run s = .error error t) : finalState run s = t := by
  rw [finalState, ran]

/-- A computation that succeeds, from where it leads to. -/
theorem KeepsAt.of_ok {run : LowerM α} {value : α} {t : LowerState}
    (ran : run s = .ok value t)
    (keeps : Good inv s → Good inv t ∧ Later inv s t ∧ post value t) :
    KeepsAt inv s run post where
  good good := by
    rw [finalState_ok ran]
    exact (keeps good).1
  later good := by
    rw [finalState_ok ran]
    exact (keeps good).2.1
  result good other u ran' := by
    rw [ran] at ran'
    cases ran'
    exact (keeps good).2.2

theorem KeepsAt.mono {post' : α → LowerState → Prop} {run : LowerM α}
    (keeps : KeepsAt inv s run post)
    (weaker : ∀ value t, post value t → post' value t) :
    KeepsAt inv s run post' :=
  ⟨keeps.good, keeps.later, fun good value t ran =>
    weaker value t (keeps.result good value t ran)⟩

theorem KeepsAt.pure (value : α) (holds : Good inv s → post value s) :
    KeepsAt inv s (pure value : LowerM α) post where
  good good := good
  later _ := Later.refl s
  result good _ _ ran := by
    cases ran
    exact holds good

theorem KeepsAt.throw (error : TypeError) :
    KeepsAt inv s (throw error : LowerM α) post where
  good good := good
  later _ := Later.refl s
  result _ _ _ ran := by cases ran

theorem KeepsAt.bind {first : LowerM α} {next : α → LowerM β}
    {post : β → LowerState → Prop} {mid : α → LowerState → Prop}
    (left : KeepsAt inv s first mid)
    (right : ∀ value t, Later inv s t → mid value t →
      KeepsAt inv t (next value) post) :
    KeepsAt inv s (first >>= next) post := by
  cases started : first s with
  | ok value t =>
      have same : (first >>= next) s = next value t := by
        simp only [Bind.bind, EStateM.bind, started]
      have final : finalState (first >>= next) s = finalState (next value) t := by
        rw [finalState, same]
        rfl
      have ends := finalState_ok started
      have middle (good : Good inv s) : Good inv t := ends ▸ left.good good
      have after (good : Good inv s) : Later inv s t := ends ▸ left.later good
      have rest (good : Good inv s) : KeepsAt inv t (next value) post :=
        right value t (after good) (left.result good value t started)
      constructor
      · intro good
        rw [final]
        exact (rest good).good (middle good)
      · intro good
        rw [final]
        exact (after good).trans ((rest good).later (middle good))
      · intro good result u ran
        rw [same] at ran
        exact (rest good).result (middle good) result u ran
  | error error t =>
      have same : (first >>= next) s = .error error t := by
        simp only [Bind.bind, EStateM.bind, started]
      have final : finalState (first >>= next) s = finalState first s := by
        rw [finalState_error same, finalState_error started]
      constructor
      · rw [final]
        exact left.good
      · rw [final]
        exact left.later
      · intro _ result u ran
        rw [same] at ran
        cases ran

/-- Go on without the postcondition. -/
theorem KeepsAt.andThen {first : LowerM α} {next : α → LowerM β}
    {post : β → LowerState → Prop} {mid : α → LowerState → Prop}
    (left : KeepsAt inv s first mid)
    (right : ∀ value t, KeepsAt inv t (next value) post) :
    KeepsAt inv s (first >>= next) post :=
  left.bind fun value t _ _ => right value t

/-- Reading the state changes nothing. -/
theorem KeepsAt.get {next : LowerState → LowerM α}
    (right : Good inv s → KeepsAt inv s (next s) post) :
    KeepsAt inv s (get >>= next) post where
  good good := (right good).good good
  later good := (right good).later good
  result good value t ran := (right good).result good value t ran

theorem KeepsAt.map {run : LowerM α} (update : α → β)
    {post : β → LowerState → Prop}
    (keeps : KeepsAt inv s run fun value => post (update value)) :
    KeepsAt inv s (update <$> run) post := by
  rw [map_eq_pure_bind]
  exact keeps.bind fun value t _ holds => KeepsAt.pure _ fun _ => holds

theorem KeepsAt.modify {update : LowerState → LowerState}
    (graph : (update s).graph = s.graph) (table : (update s).table = s.table)
    (bound : Good inv s → ∀ entry ∈ (update s).bindings,
      inv.usable s.graph entry.2)
    (named : Good inv s → ∀ name, inv.names name →
      ∃ entry ∈ (update s).bindings, entry.1 = name)
    (control : Good inv s →
      inv.Reads s.graph [(update s).ctrl, (update s).eff]) :
    KeepsAt inv s (modify update : LowerM Unit) AnyResult where
  good good := by
    change Good inv (update s)
    refine ⟨?_, ?_, named good, ?_⟩
    · rw [graph, table]
      exact good.holds
    · rw [graph]
      exact bound good
    · rw [graph]
      exact control good
  later _ := by
    change Later inv s (update s)
    intro ref usable
    rw [graph]
    exact usable
  result _ _ _ _ := trivial

theorem KeepsAt.ignoreError {run : LowerM α} (keeps : KeepsAt inv s run post) :
    KeepsAt inv s (ignoreError run) AnyResult := by
  have final : finalState (Lowerer.ignoreError run) s = finalState run s := by
    simp only [finalState, Lowerer.ignoreError]
    cases run s <;> rfl
  constructor
  · rw [final]
    exact keeps.good
  · rw [final]
    exact keeps.later
  · exact fun _ _ _ _ => trivial

theorem KeepsAt.setCtrl {ctrl : NodeRef} (usable : inv.Reads s.graph [ctrl]) :
    KeepsAt inv s (setCtrl ctrl) AnyResult :=
  KeepsAt.modify rfl rfl (fun good => good.bound) (fun good => good.named)
    fun good => Reads.cons usable good.eff

theorem KeepsAt.setEff {eff : NodeRef} (usable : inv.Reads s.graph [eff]) :
    KeepsAt inv s (setEff eff) AnyResult :=
  KeepsAt.modify rfl rfl (fun good => good.bound) (fun good => good.named)
    fun good => Reads.cons good.ctrl usable

theorem KeepsAt.setBindings {bindings : Bindings}
    (usable : ∀ entry ∈ bindings, inv.usable s.graph entry.2)
    (named : ∀ name, inv.names name → ∃ entry ∈ bindings, entry.1 = name) :
    KeepsAt inv s (setBindings bindings) AnyResult :=
  KeepsAt.modify rfl rfl (fun _ => usable) (fun _ => named)
    fun good => good.control

theorem mem_insert {bindings : Bindings} {name : SymbolId} {ref : NodeRef}
    {entry : SymbolId × NodeRef} (member : entry ∈ bindings.insert name ref) :
    entry = (name, ref) ∨ entry ∈ bindings := by
  induction bindings with
  | nil => exact Or.inl (List.mem_singleton.mp member)
  | cons first rest ih =>
      rw [Bindings.insert] at member
      split at member
      · rcases List.mem_cons.mp member with same | later
        · exact Or.inl same
        · exact Or.inr (List.mem_cons_of_mem _ later)
      · rcases List.mem_cons.mp member with same | later
        · exact Or.inr (same ▸ List.mem_cons_self)
        · exact (ih later).imp_right (List.mem_cons_of_mem _)

theorem insert_names {bindings : Bindings} {name : SymbolId} (ref : NodeRef)
    {entry : SymbolId × NodeRef} (member : entry ∈ bindings) :
    ∃ other ∈ bindings.insert name ref, other.1 = entry.1 := by
  induction bindings with
  | nil => cases member
  | cons first rest ih =>
      rw [Bindings.insert]
      split
      case isTrue same =>
        rcases List.mem_cons.mp member with rfl | later
        · exact ⟨_, List.mem_cons_self, same.symm⟩
        · exact ⟨entry, List.mem_cons_of_mem _ later, rfl⟩
      case isFalse =>
        rcases List.mem_cons.mp member with rfl | later
        · exact ⟨entry, List.mem_cons_self, rfl⟩
        · obtain ⟨other, inserted, same⟩ := ih later
          exact ⟨other, List.mem_cons_of_mem _ inserted, same⟩

theorem mem_of_get {bindings : Bindings} {name : SymbolId} {ref : NodeRef}
    (found : bindings.get name = some ref) : ∃ entry ∈ bindings, entry.2 = ref := by
  obtain ⟨entry, member, same⟩ := Option.map_eq_some_iff.mp found
  exact ⟨entry, List.mem_of_find?_eq_some member, same⟩

theorem KeepsAt.bindName {name : SymbolId} {ref : NodeRef}
    (usable : inv.usable s.graph ref) :
    KeepsAt inv s (bindName name ref) AnyResult := by
  refine KeepsAt.modify rfl rfl (fun good entry member => ?_)
    (fun good other isName => ?_) fun good => good.control
  · rcases mem_insert member with rfl | old
    · exact usable
    · exact good.bound entry old
  · obtain ⟨entry, member, rfl⟩ := good.named other isName
    exact insert_names ref member

end Rules

section Lowering

variable {inv : LowerInvariant} (closed : inv.Closed)
include closed

theorem LowerInvariant.Closed.pushNode {n : Node} {s : LowerState}
    (made : Made n) (reads : inv.Reads s.graph n.inputs) :
    KeepsAt inv s (make fun g => g.pushNode n) (NewResult inv) where
  good good := ⟨closed.push n good.holds made reads, fun entry member =>
    closed.pushUsable n (good.bound entry member), good.named,
    fun tracked ref member => closed.pushUsable n (good.control tracked ref member)⟩
  later _ _ usable := closed.pushUsable n usable
  result good _ _ ran := by
    cases ran
    exact closed.new n good.holds

theorem LowerInvariant.Closed.makeNode (kind : NodeKind)
    {inputs : List NodeRef} (typeId : TypeId) (payload : NodePayload)
    {s : LowerState} (reads : inv.Reads s.graph inputs) :
    KeepsAt inv s (make fun g => g.makeNode kind inputs typeId payload)
      (NewResult inv) :=
  closed.pushNode ⟨rfl, rfl⟩ reads

theorem LowerInvariant.Closed.makePhi {region : NodeRef}
    {values : List NodeRef} (typeId : TypeId) {s : LowerState}
    (reads : inv.Reads s.graph (region :: values)) :
    KeepsAt inv s (make fun g => g.makePhi region values typeId)
      (NewResult inv) :=
  closed.pushNode ⟨rfl, rfl⟩ reads

theorem LowerInvariant.Closed.lookupOrInsert (kind : NodeKind)
    {inputs : List NodeRef} {s : LowerState}
    (reads : inv.Reads s.graph inputs) :
    KeepsAt inv s (lookupOrInsert kind inputs) fun id t =>
      inv.usable t.graph (some id) := by
  rcases lookupOrInsert_cases kind inputs s with ⟨id, search, ran⟩ | ran
  · exact KeepsAt.of_ok ran fun good =>
      ⟨good, Later.refl s, closed.found good.holds search⟩
  · let n : Node := { kind, effect := effectClassOf kind, typeId := kInvalidTypeId, inputs }
    refine KeepsAt.of_ok ran fun good => ⟨⟨?_, ?_, good.named, ?_⟩, ?_, ?_⟩
    · exact closed.record n _ good.holds ⟨rfl, rfl⟩ reads rfl
    · exact fun entry member => closed.pushUsable n (good.bound entry member)
    · exact fun tracked ref member => closed.pushUsable n (good.control tracked ref member)
    · exact fun _ usable => closed.pushUsable n usable
    · exact (closed.new n good.holds).2

theorem LowerInvariant.Closed.makeConstant (value : Word) (s : LowerState) :
    KeepsAt inv s (makeConstant value) (NewResult inv) :=
  closed.pushNode ⟨rfl, rfl⟩ (reads_nil _)

/-- A new node, as a reference. -/
theorem LowerInvariant.Closed.someConstant (value : Word) (s : LowerState) :
    KeepsAt inv s (some <$> Lowerer.makeConstant value) (UsableResult inv) :=
  ((closed.makeConstant value s).mono fun _ _ new => new.2).map some

theorem LowerInvariant.Closed.setInput {id : NodeId} (own : inv.own id)
    (slot : Nat) {ref : NodeRef} {s : LowerState}
    (usable : inv.Reads s.graph [ref]) :
    KeepsAt inv s (setInput id slot ref) AnyResult := by
  have ran : Lowerer.setInput id slot ref s =
    .ok () { s with graph := s.graph.setInput id slot ref } := rfl
  refine KeepsAt.of_ok ran fun good => ⟨⟨?_, ?_, good.named, ?_⟩, ?_, trivial⟩
  · exact closed.rewire slot ref good.holds own usable
  · exact fun entry member => closed.rewireUsable slot ref (good.bound entry member)
  · exact fun tracked other member =>
      closed.rewireUsable slot ref (good.control tracked other member)
  · exact fun _ usable => closed.rewireUsable slot ref usable

theorem LowerInvariant.Closed.boundOrZero (name : SymbolId) (s : LowerState) :
    KeepsAt inv s (boundOrZero name) (UsableResult inv) := by
  refine KeepsAt.get fun good => ?_
  cases found : s.bindings.get name with
  | some ref =>
      obtain ⟨entry, member, same⟩ := mem_of_get found
      exact KeepsAt.pure ref fun _ => same ▸ good.bound entry member
  | none => exact closed.someConstant 0 s

theorem LowerInvariant.Closed.makeAccPhis {loop : NodeId}
    (names : List SymbolId) {s : LowerState}
    (header : inv.usable s.graph (some loop)) :
    KeepsAt inv s (makeAccPhis loop names) (NewResults inv) := by
  induction names generalizing s with
  | nil => exact KeepsAt.pure _ fun _ => nofun
  | cons name names ih =>
      refine (closed.boundOrZero name s).bind fun entry t toT usable => ?_
      have reads : inv.Reads t.graph [some loop, entry, none] :=
        Reads.cons (Reads.one (toT _ header))
          (Reads.two usable (closed.unset _))
      refine (closed.makePhi _ reads).bind fun phi u toU new => ?_
      refine (KeepsAt.bindName new.2).bind fun _ v later _ => ?_
      have onward := (toT.trans toU).trans later
      refine (ih (onward _ header)).bind fun rest w after news =>
        KeepsAt.pure _ fun _ => ?_
      intro acc member
      rcases List.mem_cons.mp member with rfl | inRest
      · exact ⟨new.1, after _ (later _ new.2)⟩
      · exact news acc inRest

theorem LowerInvariant.Closed.wireAccPhis {accPhis : List (SymbolId × NodeId)}
    (own : ∀ acc ∈ accPhis, inv.own acc.2) (s : LowerState) :
    KeepsAt inv s (wireAccPhis accPhis) AnyResult := by
  induction accPhis generalizing s with
  | nil => exact KeepsAt.pure _ fun _ => trivial
  | cons acc rest ih =>
      refine (closed.boundOrZero acc.1 s).bind fun back t _ usable => ?_
      refine (closed.setInput (own acc List.mem_cons_self) 2
        (Reads.one usable)).andThen ?_
      exact fun _ u => ih (fun other inRest =>
        own other (List.mem_cons_of_mem _ inRest)) u

omit closed in
theorem KeepsAt.bindAccPhis {accPhis : List (SymbolId × NodeId)}
    {s : LowerState} (usable : ∀ acc ∈ accPhis, inv.usable s.graph (some acc.2)) :
    KeepsAt inv s (bindAccPhis accPhis) AnyResult := by
  induction accPhis generalizing s with
  | nil => exact KeepsAt.pure _ fun _ => trivial
  | cons acc rest ih =>
      refine (KeepsAt.bindName (usable acc List.mem_cons_self)).bind ?_
      intro _ t later _
      exact ih fun other inRest =>
        later _ (usable other (List.mem_cons_of_mem _ inRest))

theorem LowerInvariant.Closed.mergeBindings {region : NodeId}
    {afterElse bindings : Bindings} {s : LowerState}
    (merge : inv.usable s.graph (some region))
    (other : ∀ entry ∈ afterElse, inv.usable s.graph entry.2)
    (usable : ∀ entry ∈ bindings, inv.usable s.graph entry.2) :
    KeepsAt inv s (mergeBindings region afterElse bindings) AnyResult := by
  induction bindings generalizing s with
  | nil => exact KeepsAt.pure _ fun _ => trivial
  | cons entry rest ih =>
      obtain ⟨name, thenValue⟩ := entry
      have here := usable _ List.mem_cons_self
      have others (t : LowerState) (later : Later inv s t) :
          KeepsAt inv t (Lowerer.mergeBindings region afterElse rest) AnyResult :=
        ih (later _ merge) (fun entry member => later _ (other entry member))
          fun entry inRest =>
            later _ (usable entry (List.mem_cons_of_mem _ inRest))
      have plain : KeepsAt inv s (do
          Lowerer.bindName name thenValue
          Lowerer.mergeBindings region afterElse rest) AnyResult :=
        (KeepsAt.bindName here).bind fun _ t later _ => others t later
      rw [Lowerer.mergeBindings]
      split
      case h_1 elseValue found =>
        split
        · obtain ⟨entry, member, rfl⟩ := mem_of_get found
          have reads : inv.Reads s.graph [some region, thenValue, entry.2] :=
            Reads.cons (Reads.one merge) (Reads.two here (other entry member))
          refine (closed.makePhi _ reads).bind fun phi t later new => ?_
          refine (KeepsAt.bindName new.2).bind fun _ u later' _ => ?_
          exact others u (later.trans later')
        · exact plain
      case h_2 => exact plain

theorem LowerInvariant.Closed.assignName (op : TokenKind) (kind : NodeKind)
    (name : SymbolId) {value : NodeRef} {s : LowerState}
    (usable : inv.usable s.graph value) :
    KeepsAt inv s (assignName op kind name value) (UsableResult inv) := by
  rw [Lowerer.assignName]
  split
  · refine (KeepsAt.bindName usable).bind fun _ _ later _ => ?_
    exact KeepsAt.pure _ fun _ => later _ usable
  · refine (closed.boundOrZero name s).bind fun old t later oldUsable => ?_
    have reads := Reads.two oldUsable (later _ usable)
    refine (closed.lookupOrInsert _ reads).bind fun folded u _ found => ?_
    refine (KeepsAt.bindName found).bind fun _ v later _ => ?_
    exact KeepsAt.pure _ fun _ => later _ found

theorem LowerInvariant.Closed.lowerLeaf (n : Ast) (s : LowerState) :
    KeepsAt inv s (lowerLeaf n) (UsableResult inv) := by
  cases n
  case ident name =>
    refine KeepsAt.get fun good => ?_
    cases found : s.bindings.get name with
    | some ref =>
        obtain ⟨entry, member, same⟩ := mem_of_get found
        exact KeepsAt.pure ref fun _ => same ▸ good.bound entry member
    | none =>
        refine (closed.makeNode _ _ _ (reads_nil _)).bind fun id t _ new => ?_
        exact KeepsAt.pure _ fun _ => new.2
  all_goals exact closed.someConstant _ s

variable {s : LowerState}

/-- An operation of the table, as a reference. -/
theorem LowerInvariant.Closed.someOperation (kind : NodeKind)
    {inputs : List NodeRef} {s : LowerState}
    (reads : inv.Reads s.graph inputs) :
    KeepsAt inv s (do return some (← Lowerer.lookupOrInsert kind inputs))
      (UsableResult inv) :=
  (closed.lookupOrInsert kind reads).bind fun id _ _ found =>
    KeepsAt.pure (some id) fun _ => found

theorem LowerInvariant.Closed.lowerBinary (op : TokenKind)
    {lhs rhs : LowerM NodeRef} (left : KeepsAt inv s lhs (UsableResult inv))
    (right : ∀ t, KeepsAt inv t rhs (UsableResult inv)) :
    KeepsAt inv s (lowerBinary op lhs rhs) (UsableResult inv) := by
  refine left.bind fun a t _ leftUsable => ?_
  refine (right t).bind fun b u later rightUsable => ?_
  exact closed.someOperation _ (Reads.two (later _ leftUsable) rightUsable)

theorem LowerInvariant.Closed.lowerUnary (op : TokenKind)
    {operand : LowerM NodeRef} (inner : KeepsAt inv s operand (UsableResult inv)) :
    KeepsAt inv s (lowerUnary op operand) (UsableResult inv) :=
  inner.bind fun _ _ _ usable => closed.someOperation _ (Reads.one usable)

theorem LowerInvariant.Closed.lowerCall (callee : Ast)
    {args : LowerM (List NodeRef)}
    (inner : KeepsAt inv s args fun refs t => inv.Reads t.graph refs) :
    KeepsAt inv s (lowerCall callee args) (UsableResult inv) := by
  refine inner.bind fun values t _ usable => KeepsAt.get fun good => ?_
  have reads : inv.Reads t.graph (t.ctrl :: t.eff :: values) :=
    Reads.cons good.ctrl (Reads.cons good.eff usable)
  refine (closed.pushNode ⟨rfl, rfl⟩ reads).bind fun call u _ called => ?_
  have callReads := Reads.one called.2
  refine (KeepsAt.setEff callReads).bind fun _ v later _ => ?_
  refine (closed.makeNode _ _ _ (later.reads callReads)).bind ?_
  intro proj w _ new
  exact KeepsAt.pure _ fun _ => new.2

omit closed in
theorem KeepsAt.lowerLet (name : SymbolId) {init : LowerM NodeRef}
    (inner : KeepsAt inv s init (UsableResult inv)) :
    KeepsAt inv s (lowerLet name init) AnyResult :=
  inner.bind fun _ _ _ usable => KeepsAt.bindName usable

theorem LowerInvariant.Closed.lowerReturn {value : LowerM NodeRef}
    (inner : KeepsAt inv s value (UsableResult inv)) :
    KeepsAt inv s (lowerReturn value) AnyResult := by
  refine inner.bind fun result t _ usable => KeepsAt.get fun good => ?_
  have reads : inv.Reads t.graph [t.ctrl, t.eff, result] :=
    Reads.cons good.ctrl (Reads.cons good.eff (Reads.one usable))
  refine (closed.pushNode ⟨rfl, rfl⟩ reads).andThen fun _ u => ?_
  have unset (g : Graph) : inv.Reads g [none] := Reads.one (closed.unset g)
  exact (KeepsAt.setCtrl (unset _)).andThen fun _ _ => KeepsAt.setEff (unset _)

theorem LowerInvariant.Closed.lowerAssign (op : TokenKind) (kind : NodeKind)
    (target : Ast) {value : LowerM NodeRef}
    (inner : KeepsAt inv s value (UsableResult inv)) :
    KeepsAt inv s (lowerAssign op kind target value) (UsableResult inv) := by
  refine inner.bind fun assigned t _ usable => ?_
  split
  · exact closed.assignName _ _ _ usable
  · exact KeepsAt.pure _ fun _ => usable

variable (order : TableOrder)

theorem LowerInvariant.Closed.lowerIf {cond : LowerM NodeRef}
    {thenBranch elseBranch : LowerM Unit}
    (condKept : KeepsAt inv s cond (UsableResult inv))
    (thenKept : ∀ t, KeepsAt inv t thenBranch AnyResult)
    (elseKept : ∀ t, KeepsAt inv t elseBranch AnyResult) :
    KeepsAt inv s (lowerIf order cond thenBranch elseBranch) AnyResult := by
  refine condKept.bind fun condValue before _ usable => KeepsAt.get fun good => ?_
  have ifReads : inv.Reads before.graph [before.ctrl, condValue] :=
    Reads.cons good.ctrl (Reads.one usable)
  refine (closed.pushNode ⟨rfl, rfl⟩ ifReads).bind fun ifNode a toA isIf => ?_
  refine (closed.pushNode ⟨rfl, rfl⟩ (Reads.one isIf.2)).bind ?_
  intro trueProj b toB isTrue
  refine (closed.pushNode ⟨rfl, rfl⟩ (toB.reads (Reads.one isIf.2))).bind ?_
  intro falseProj c toC isFalse
  refine (KeepsAt.setCtrl (toC.reads (Reads.one isTrue.2))).bind fun _ d toD _ => ?_
  refine (thenKept d).bind fun _ afterThen toThen _ => ?_
  refine KeepsAt.get fun thenGood => ?_
  have toElse := toD.trans toThen
  refine (KeepsAt.setCtrl (toElse.reads (Reads.one isFalse.2))).bind ?_
  intro _ e toE _
  have back := (((toA.trans toB).trans toC).trans toElse).trans toE
  refine (KeepsAt.setEff (back.reads good.eff)).bind fun _ f toF _ => ?_
  have restored : ∀ entry ∈ before.bindings, inv.usable f.graph entry.2 := by
    intro entry member
    exact (back.trans toF) _ (good.bound entry member)
  refine (KeepsAt.setBindings restored good.named).bind fun _ g toG _ => ?_
  refine (elseKept g).bind fun _ afterElse toElse _ => KeepsAt.get fun elseGood => ?_
  have across := ((toE.trans toF).trans toG).trans toElse
  have regionReads : inv.Reads afterElse.graph [afterThen.ctrl, afterElse.ctrl] :=
    Reads.cons (across.reads thenGood.ctrl) elseGood.ctrl
  refine (closed.pushNode ⟨rfl, rfl⟩ regionReads).bind fun region h toH isRegion => ?_
  refine (KeepsAt.setCtrl (Reads.one isRegion.2)).bind fun _ i toI _ => ?_
  have joined : inv.Reads i.graph
      [if afterThen.eff ≠ none then afterThen.eff else afterElse.eff] := by
    split
    · exact (across.trans (toH.trans toI)).reads thenGood.eff
    · exact (toH.trans toI).reads elseGood.eff
  refine (KeepsAt.setEff joined).bind fun _ j toJ _ => ?_
  refine closed.mergeBindings ((toI.trans toJ) _ isRegion.2)
    (fun entry member => ?_) fun entry member => ?_
  · exact ((toH.trans toI).trans toJ) _ (elseGood.bound entry member)
  · have onward := (across.trans toH).trans (toI.trans toJ)
    exact onward _ (thenGood.bound entry ((order.perm _ _).mem_iff.mp member))

omit order in
theorem LowerInvariant.Closed.closeLoop {before : LowerState}
    {loop phiI falseProj : NodeId} {accPhis : List (SymbolId × NodeId)}
    (restored : ∀ entry ∈ before.bindings, inv.usable s.graph entry.2)
    (named : ∀ name, inv.names name → ∃ entry ∈ before.bindings, entry.1 = name)
    (entryEff : inv.Reads s.graph [before.eff]) (loopOwn : inv.own loop)
    (phiNew : NewResult inv phiI s) (exit : inv.usable s.graph (some falseProj))
    (accOwn : NewResults inv accPhis s) :
    KeepsAt inv s (closeLoop before loop phiI falseProj accPhis) AnyResult := by
  refine KeepsAt.get fun good => ?_
  refine (closed.makeConstant 1 s).bind fun one a toA isOne => ?_
  have addReads := Reads.two (toA _ phiNew.2) isOne.2
  refine (closed.lookupOrInsert _ addReads).bind fun nextI b toB next => ?_
  refine (closed.setInput phiNew.1 _ (Reads.one next)).bind fun _ c toC _ => ?_
  refine (closed.wireAccPhis (fun acc member => (accOwn acc member).1) c).bind ?_
  intro _ d toD _
  have wired := ((toA.trans toB).trans toC).trans toD
  refine (closed.setInput loopOwn _ (wired.reads good.ctrl)).bind ?_
  intro _ e toE _
  have closing := wired.trans toE
  have effReads : inv.Reads e.graph [some falseProj, before.eff, s.eff] :=
    Reads.cons (Reads.one (closing _ exit))
      (Reads.cons (closing.reads entryEff) (closing.reads good.eff))
  refine (closed.makePhi _ effReads).bind fun effPhi f toF isPhi => ?_
  refine (KeepsAt.setEff (Reads.one isPhi.2)).bind fun _ g toG _ => ?_
  have exited := (closing.trans toF).trans toG
  refine (KeepsAt.setCtrl (Reads.one (exited _ exit))).bind fun _ h toH _ => ?_
  have onward := exited.trans toH
  refine (KeepsAt.setBindings (fun entry member =>
    onward _ (restored entry member)) named).bind fun _ i toI _ => ?_
  exact KeepsAt.bindAccPhis fun acc member =>
    toI _ (onward _ (accOwn acc member).2)

/-- What is remembered of a loop can be used when the loop is closed. -/
structure UsableEntry (inv : LowerInvariant) (entry : LoopEntry)
    (t : LowerState) : Prop where
  restored : ∀ other ∈ entry.before.bindings, inv.usable t.graph other.2
  named : ∀ name, inv.names name →
    ∃ other ∈ entry.before.bindings, other.1 = name
  eff : inv.Reads t.graph [entry.before.eff]
  loop : inv.own entry.loop
  first : NewResult inv entry.phiI t
  exit : inv.usable t.graph (some entry.exit)
  accPhis : NewResults inv entry.accPhis t

omit order in
theorem LowerInvariant.Closed.enterLoop (varName : SymbolId)
    {lo hi : LowerM NodeRef} (accumulators : Bindings → List SymbolId)
    (loKept : KeepsAt inv s lo (UsableResult inv))
    (hiKept : ∀ t, KeepsAt inv t hi (UsableResult inv)) :
    KeepsAt inv s (enterLoop varName lo hi accumulators) (UsableEntry inv) := by
  refine loKept.bind fun loValue t _ loUsable => ?_
  refine (hiKept t).bind fun hiValue before toBefore hiUsable => ?_
  refine KeepsAt.get fun good => ?_
  have loopReads : inv.Reads before.graph [before.ctrl, before.ctrl] :=
    Reads.cons good.ctrl good.ctrl
  refine (closed.pushNode ⟨rfl, rfl⟩ loopReads).bind fun loop a toA loopNew => ?_
  have phiReads : inv.Reads a.graph [some loop, loValue, none] :=
    Reads.cons (Reads.one loopNew.2)
      (Reads.two (toA _ (toBefore _ loUsable)) (closed.unset _))
  refine (closed.makePhi _ phiReads).bind fun phiI b toB phiNew => ?_
  refine (closed.makeAccPhis _ (toB _ loopNew.2)).bind fun accPhis c toC accNew => ?_
  have phiUsable : inv.usable c.graph (some phiI) := toC _ phiNew.2
  refine (KeepsAt.bindName phiUsable).bind fun _ d toD _ => ?_
  have header := (toA.trans toB).trans (toC.trans toD)
  have cmpReads := Reads.two (toD _ phiUsable) (header _ hiUsable)
  refine (closed.makeNode _ _ _ cmpReads).bind fun cmp e toE cmpNew => ?_
  have toE' := (toB.trans toC).trans (toD.trans toE)
  have ifReads := Reads.two (toE' _ loopNew.2) cmpNew.2
  refine (closed.pushNode ⟨rfl, rfl⟩ ifReads).bind fun ifNode f toF ifNew => ?_
  refine (closed.pushNode ⟨rfl, rfl⟩ (Reads.one ifNew.2)).bind ?_
  intro trueProj g toG isTrue
  refine (closed.pushNode ⟨rfl, rfl⟩ (toG.reads (Reads.one ifNew.2))).bind ?_
  intro falseProj h toH isFalse
  refine (KeepsAt.setCtrl (toH.reads (Reads.one isTrue.2))).bind fun _ i toI _ => ?_
  have onward := (((toD.trans toE).trans toF).trans toG).trans (toH.trans toI)
  have start := (toA.trans toB).trans toC
  refine KeepsAt.pure _ fun _ => ⟨?_, good.named, ?_, loopNew.1, ?_, ?_, ?_⟩
  · exact fun entry member => (start.trans onward) _ (good.bound entry member)
  · exact (start.trans onward).reads good.eff
  · exact ⟨phiNew.1, (toC.trans onward) _ phiNew.2⟩
  · exact toI _ isFalse.2
  · exact fun acc member =>
      ⟨(accNew acc member).1, onward _ (accNew acc member).2⟩

omit order in
theorem LowerInvariant.Closed.lowerFor (varName : SymbolId)
    {lo hi : LowerM NodeRef} (accumulators : Bindings → List SymbolId)
    {body : LowerM Unit} (loKept : KeepsAt inv s lo (UsableResult inv))
    (hiKept : ∀ t, KeepsAt inv t hi (UsableResult inv))
    (bodyKept : ∀ t, KeepsAt inv t body AnyResult) :
    KeepsAt inv s (lowerFor varName lo hi accumulators body) AnyResult := by
  rw [lowerFor_halves]
  refine (closed.enterLoop varName accumulators loKept hiKept).bind ?_
  intro entry start _ usable
  refine (bodyKept start).bind fun _ afterBody toBody _ => KeepsAt.get fun _ => ?_
  split
  · exact KeepsAt.throw _
  · refine closed.closeLoop (fun other member => ?_) usable.named
      (toBody.reads usable.eff) usable.loop
      ⟨usable.first.1, toBody _ usable.first.2⟩ (toBody _ usable.exit)
      fun acc member => ?_
    · exact toBody _ (usable.restored other member)
    · exact ⟨(usable.accPhis acc member).1, toBody _ (usable.accPhis acc member).2⟩

end Lowering

section Trees

variable {inv : LowerInvariant}

mutual

theorem LowerInvariant.Closed.lowerStmt (closed : inv.Closed)
    (order : TableOrder) :
    (n : Ast) → ∀ s, KeepsAt inv s (lowerStmt order n) AnyResult
  | .letStmt name _ (some init) _ => fun s =>
      (closed.lowerExpr order init s).lowerLet name
  | .letStmt name _ none _ => fun s => (closed.someConstant 0 s).lowerLet name
  | .exprStmt expr => fun s =>
      (closed.lowerExpr order expr s).andThen fun _ _ =>
        KeepsAt.pure () fun _ => trivial
  | .returnStmt (some value) => fun s =>
      closed.lowerReturn (closed.lowerExpr order value s)
  | .returnStmt none => fun s => closed.lowerReturn (closed.someConstant 0 s)
  | .ifStmt cond thenBranch (some elseBranch) => fun s =>
      closed.lowerIf order (closed.lowerExpr order cond s)
        (closed.lowerStmt order thenBranch) (closed.lowerStmt order elseBranch)
  | .ifStmt cond thenBranch none => fun s =>
      closed.lowerIf order (closed.lowerExpr order cond s)
        (closed.lowerStmt order thenBranch)
        fun _ => KeepsAt.pure () fun _ => trivial
  | .block stmts => fun s => closed.lowerStmts order stmts s
  | .forStmt varName iter body => fun s => by
      cases iter with
      | rangeExpr lo hi =>
          exact closed.lowerFor varName _ (closed.lowerExpr order lo s)
            (closed.lowerExpr order hi) (closed.lowerStmt order body)
      | _ => exact KeepsAt.throw {}
  | .assignExpr op target value => fun s =>
      (closed.lowerAssign op _ target (closed.lowerExpr order value s)).andThen
        fun _ _ => KeepsAt.pure () fun _ => trivial
  | .binaryExpr op lhs rhs => fun s =>
      (closed.lowerBinary op (closed.lowerExpr order lhs s)
        (closed.lowerExpr order rhs)).ignoreError
  | .unaryExpr op operand => fun s =>
      (closed.lowerUnary op (closed.lowerExpr order operand s)).ignoreError
  | .callExpr callee args => fun s =>
      (closed.lowerCall callee (closed.lowerArgs order args s)).ignoreError
  | .module _ | .fnDecl .. | .param .. | .structDecl .. | .enumDecl ..
  | .matchStmt .. | .fieldExpr .. | .indexExpr .. | .ident _ | .intLit _
  | .floatLit _ | .strLit _ | .boolLit _ | .pathExpr _ | .rangeExpr ..
  | .identPat _ | .pathPat .. | .memberPat .. => fun s =>
      (closed.lowerLeaf _ s).ignoreError

theorem LowerInvariant.Closed.lowerStmts (closed : inv.Closed)
    (order : TableOrder) :
    (stmts : List Ast) → ∀ s, KeepsAt inv s (lowerStmts order stmts) AnyResult
  | [] => fun _ => KeepsAt.pure () fun _ => trivial
  | n :: ns => fun s =>
      (closed.lowerStmt order n s).andThen fun _ => closed.lowerStmts order ns

theorem LowerInvariant.Closed.lowerExpr (closed : inv.Closed)
    (order : TableOrder) :
    (n : Ast) → ∀ s, KeepsAt inv s (lowerExpr order n) (UsableResult inv)
  | .binaryExpr op lhs rhs => fun s =>
      closed.lowerBinary op (closed.lowerExpr order lhs s)
        (closed.lowerExpr order rhs)
  | .unaryExpr op operand => fun s =>
      closed.lowerUnary op (closed.lowerExpr order operand s)
  | .callExpr callee args => fun s =>
      closed.lowerCall callee (closed.lowerArgs order args s)
  | .assignExpr op target value => fun s =>
      closed.lowerAssign op _ target (closed.lowerExpr order value s)
  | .block stmts => fun s =>
      closed.lowerBlockExpr order stmts none s (closed.unset _)
  | .module _ | .fnDecl .. | .param .. | .structDecl .. | .enumDecl ..
  | .letStmt .. | .exprStmt .. | .returnStmt .. | .ifStmt .. | .forStmt ..
  | .matchStmt .. | .fieldExpr .. | .indexExpr .. | .ident _ | .intLit _
  | .floatLit _ | .strLit _ | .boolLit _ | .pathExpr _ | .rangeExpr ..
  | .identPat _ | .pathPat .. | .memberPat .. => fun s => closed.lowerLeaf _ s

theorem LowerInvariant.Closed.lowerArgs (closed : inv.Closed)
    (order : TableOrder) :
    (args : List Ast) → ∀ s,
      KeepsAt inv s (lowerArgs order args) fun refs t => inv.Reads t.graph refs
  | [] => fun _ => KeepsAt.pure [] fun _ => reads_nil _
  | arg :: args => fun s =>
      (closed.lowerExpr order arg s).bind fun _ t _ usable =>
        (closed.lowerArgs order args t).bind fun _ _ later reads =>
          KeepsAt.pure _ fun _ => Reads.cons (Reads.one (later _ usable)) reads

theorem LowerInvariant.Closed.lowerBlockExpr (closed : inv.Closed)
    (order : TableOrder) : (stmts : List Ast) → (last : NodeRef) → ∀ s,
    inv.usable s.graph last →
      KeepsAt inv s (lowerBlockExpr order stmts last) (UsableResult inv)
  | [], last => fun _ usable => KeepsAt.pure last fun _ => usable
  | n :: ns, last => fun s usable => by
      cases n with
      | exprStmt expr =>
          exact (closed.lowerExpr order expr s).bind fun value t _ usable =>
            closed.lowerBlockExpr order ns value t usable
      | _ =>
          exact (closed.lowerStmt order _ s).bind fun _ t later _ =>
            closed.lowerBlockExpr order ns last t (later _ usable)

end

theorem LowerInvariant.Closed.lowerBody (closed : inv.Closed)
    (order : TableOrder) (body : Ast) (s : LowerState) :
    KeepsAt inv s (lowerBody order body) AnyResult := by
  cases body with
  | block stmts => exact closed.lowerStmts order stmts s
  | _ => exact KeepsAt.pure () fun _ => trivial

theorem LowerInvariant.Closed.synthesizeReturn (closed : inv.Closed)
    (s : LowerState) : KeepsAt inv s synthesizeReturn AnyResult := by
  refine KeepsAt.get fun good => ?_
  split
  · refine (closed.makeConstant 0 s).bind fun zeroNode t toT zero => ?_
    have reads : inv.Reads t.graph [s.ctrl, s.eff, some zeroNode] :=
      Reads.cons (toT.reads good.ctrl)
        (Reads.cons (toT.reads good.eff) (Reads.one zero.2))
    exact (closed.pushNode ⟨rfl, rfl⟩ reads).andThen fun _ _ =>
      KeepsAt.pure () fun _ => trivial
  · exact KeepsAt.pure () fun _ => trivial

theorem LowerInvariant.Closed.lowerParams (closed : inv.Closed)
    (params : List Ast) (s : LowerState) :
    KeepsAt inv s (lowerParams params) AnyResult := by
  induction params generalizing s with
  | nil => exact KeepsAt.pure () fun _ => trivial
  | cons param params ih =>
      cases param with
      | param name _ _ =>
          refine (closed.makeNode _ _ _ (reads_nil _)).bind fun node t _ new => ?_
          exact (KeepsAt.bindName new.2).andThen fun _ => ih
      | _ => exact ih s

/-- Entering a function forgets all names. -/
theorem LowerInvariant.Closed.enterFunction (closed : inv.Closed)
    (params : List Ast) {s : LowerState}
    (start : inv.usable s.graph (some kStartNodeId))
    (unnamed : ∀ name, ¬ inv.names name) :
    KeepsAt inv s (enterFunction params) AnyResult := by
  have fresh : KeepsAt inv s (modify fun s => { s with
      ctrl := none, eff := none, bindings := [] } : LowerM Unit) AnyResult :=
    KeepsAt.modify rfl rfl (fun _ => nofun)
      (fun _ name isName => absurd isName (unnamed name))
      fun _ => Reads.two (closed.unset _) (closed.unset _)
  refine fresh.bind fun _ a toA _ => ?_
  refine (closed.pushNode ⟨rfl, rfl⟩ (toA.reads (Reads.one start))).bind ?_
  intro ctrl b toB isCtrl
  refine (KeepsAt.setCtrl (Reads.one isCtrl.2)).bind fun _ c toC _ => ?_
  have entered := (toA.trans toB).trans toC
  refine (closed.pushNode ⟨rfl, rfl⟩ (entered.reads (Reads.one start))).bind ?_
  intro eff d _ isEff
  exact (KeepsAt.setEff (Reads.one isEff.2)).andThen fun _ =>
    closed.lowerParams params

/-- Lowering a function keeps the invariant. -/
theorem LowerInvariant.Closed.lowerFn (closed : inv.Closed)
    (order : TableOrder) (fn : Ast) {s : LowerState}
    (start : inv.usable s.graph (some kStartNodeId))
    (unnamed : ∀ name, ¬ inv.names name) :
    KeepsAt inv s (lowerFn order fn) AnyResult := by
  cases fn with
  | fnDecl _ params _ body _ =>
      refine (closed.enterFunction params start unnamed).andThen fun _ t => ?_
      exact (closed.lowerBody order body t).andThen fun _ =>
        closed.synthesizeReturn
  | _ => exact KeepsAt.pure () fun _ => trivial

end Trees

/-- The computation preserves a property of the graph. -/
def KeepsGraph {α : Type} (motive : Graph → Prop) (run : LowerM α) : Prop :=
  ∀ s, motive s.graph → motive (finalState run s).graph

/-- The two ways in which the lowerer changes its graph preserve the
property. -/
structure EditsKeep (motive : Graph → Prop) : Prop where
  push : ∀ g n, motive g → motive (g.pushNode n).2
  setInput : ∀ g id slot ref, motive g → motive (g.setInput id slot ref)

/-- The invariant that says no more than a property of the graph. -/
def ofGraph (motive : Graph → Prop) : LowerInvariant where
  holds g _ := motive g
  usable _ _ := True
  own _ := True
  names _ := False
  tracked := False

theorem EditsKeep.closed {motive : Graph → Prop} (edits : EditsKeep motive) :
    (ofGraph motive).Closed where
  unset _ := trivial
  push n holds _ _ := edits.push _ n holds
  pushUsable _ _ := trivial
  new _ _ := ⟨trivial, trivial⟩
  record n _ holds _ _ _ := edits.push _ n holds
  found _ _ := trivial
  rewire slot ref holds _ _ := edits.setInput _ _ slot ref holds
  rewireUsable _ _ _ := trivial

theorem KeepsGraph.of_keepsAt {α : Type} {motive : Graph → Prop}
    {run : LowerM α} {post : α → LowerState → Prop}
    (keeps : ∀ s, KeepsAt (ofGraph motive) s run post) :
    KeepsGraph motive run :=
  fun s holds => ((keeps s).good ⟨holds, fun _ _ => trivial, nofun, nofun⟩).holds

end Lowerer

end Aegis
