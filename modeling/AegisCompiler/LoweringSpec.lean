import AegisCompiler.AcceptedPrograms
import AegisCompiler.WalkSteps

/-!
# What it means to lower correctly

A computation of the lowerer is correct for a meaning when, from any state
that is ready for a frame, it succeeds, leaves a ready state, only adds to the
graph, and walking the finished graph from the old control follows the
meaning.
-/

namespace Aegis

namespace Bindings

@[simp]
theorem get_insert_self (bindings : Bindings) (name : SymbolId)
    (ref : NodeRef) : (bindings.insert name ref).get name = some ref := by
  induction bindings with
  | nil => simp [insert, get]
  | cons entry rest ih =>
      rw [insert]
      by_cases same : entry.1 = name
      · simp [same, get]
      · simpa [same, get] using ih

theorem get_insert_of_ne (bindings : Bindings) {name other : SymbolId}
    (ref : NodeRef) (differs : other ≠ name) :
    (bindings.insert name ref).get other = bindings.get other := by
  induction bindings with
  | nil => simp [insert, get, Ne.symm differs]
  | cons entry rest ih =>
      rw [insert]
      by_cases same : entry.1 = name
      · simp [same, get, Ne.symm differs]
      · by_cases here : entry.1 = other
        · simp [get, here, differs]
        · simpa [same, get, here] using ih

/-- The names that are bound, in the order of the entries. -/
def names (bindings : Bindings) : List SymbolId := bindings.map Prod.fst

theorem mem_names_insert {bindings : Bindings} {name other : SymbolId}
    {ref : NodeRef} :
    other ∈ (bindings.insert name ref).names ↔
      other ∈ bindings.names ∨ other = name := by
  induction bindings with
  | nil => simp [insert, names]
  | cons entry rest ih =>
      rw [insert]
      by_cases same : entry.1 = name
      · simp only [same, if_true, names, List.map_cons, List.mem_cons]
        tauto
      · simp only [names] at ih
        simp only [same, if_false, names, List.map_cons, List.mem_cons, ih]
        tauto

theorem names_insert_nodup {bindings : Bindings} (nodup : bindings.names.Nodup)
    (name : SymbolId) (ref : NodeRef) :
    (bindings.insert name ref).names.Nodup := by
  induction bindings with
  | nil => simp [insert, names]
  | cons entry rest ih =>
      simp only [names, List.map_cons, List.nodup_cons] at nodup
      rw [insert]
      by_cases same : entry.1 = name
      · simpa [same, names] using nodup
      · have absent : entry.1 ∉ (Bindings.insert rest name ref).names := by
          rw [mem_names_insert, not_or]
          exact ⟨nodup.1, same⟩
        simp only [same, if_false, names, List.map_cons, List.nodup_cons]
        exact ⟨absent, ih nodup.2⟩

theorem get_isSome_iff {bindings : Bindings} {name : SymbolId} :
    (bindings.get name).isSome = true ↔ name ∈ bindings.names := by
  simp [get, names, List.find?_isSome]

/-- With distinct names, lookup finds exactly the entries. -/
theorem get_eq_some_iff {bindings : Bindings} (nodup : bindings.names.Nodup)
    {name : SymbolId} {ref : NodeRef} :
    bindings.get name = some ref ↔ (name, ref) ∈ bindings := by
  induction bindings with
  | nil => simp [get]
  | cons entry rest ih =>
      simp only [names, List.map_cons, List.nodup_cons, List.mem_map] at nodup
      have found := ih nodup.2
      simp only [get] at found ⊢
      by_cases here : entry.1 = name
      · have absent : (name, ref) ∉ rest :=
          fun member => nodup.1 ⟨_, member, here.symm⟩
        simp only [List.find?_cons, here, decide_true, Option.map_some,
          Option.some.injEq, List.mem_cons, absent, or_false]
        constructor
        · rintro rfl
          rw [← here]
        · rintro same
          rw [← same]
      · have apart : entry ≠ (name, ref) := fun same => here (by rw [same])
        simp only [List.find?_cons, here, decide_false, List.mem_cons,
          Ne.symm apart, false_or]
        exact found

end Bindings

namespace Lowerer

open ControlWalk TypeChecker AstEval

theorem run_bind {α β : Type} {first : LowerM α} {next : α → LowerM β}
    {s t : LowerState} {value : α} (run : first s = .ok value t) :
    (first >>= next) s = next value t := by
  simp only [Bind.bind, EStateM.bind, run]

theorem run_get {β : Type} (next : LowerState → LowerM β) (s : LowerState) :
    (get >>= next) s = next s s := rfl

theorem run_make {β : Type} (create : Graph → NodeId × Graph)
    (next : NodeId → LowerM β) (s : LowerState) :
    (make create >>= next) s =
      next (create s.graph).1 { s with graph := (create s.graph).2 } := rfl

theorem run_setCtrl {β : Type} (ctrl : NodeRef) (next : Unit → LowerM β)
    (s : LowerState) :
    (setCtrl ctrl >>= next) s = next () { s with ctrl } := rfl

theorem run_setEff {β : Type} (eff : NodeRef) (next : Unit → LowerM β)
    (s : LowerState) : (setEff eff >>= next) s = next () { s with eff } := rfl

theorem run_setBindings {β : Type} (bindings : Bindings)
    (next : Unit → LowerM β) (s : LowerState) :
    (setBindings bindings >>= next) s = next () { s with bindings } := rfl

theorem run_bindName {β : Type} (name : SymbolId) (ref : NodeRef)
    (next : Unit → LowerM β) (s : LowerState) :
    (bindName name ref >>= next) s =
      next () { s with bindings := s.bindings.insert name ref } := rfl

/-- Every recorded operation is a node of the graph with this signature. -/
def TableSound (g : Graph) (table : HashCons) : Prop :=
  ∀ entry ∈ table, entry.2 < g.size ∧
    (g.node entry.2).kind = entry.1.kind ∧
    (entry.1.kind.isBinop = true ∨ entry.1.kind.isUnop = true) ∧
    hashInputs (g.node entry.2).inputs = entry.1.inputsHash

/-- The state is well formed and binds every visible name; its control is not
used yet. -/
structure Ready (pend : NodeId → Prop) (frame : TypeChecker.Frame)
    (s : LowerState) : Prop where
  wired : Wired pend s.graph
  table : TableSound s.graph s.table
  bound : ∀ name ref, s.bindings.get name = some ref →
    ∃ id, ref = some id ∧ id < s.graph.size
  names : s.bindings.names.Nodup
  sees : ∀ name, frame.Sees name → name ∈ s.bindings.names
  ctrl : ∀ c, s.ctrl = some c → c < s.graph.size ∧ Unused pend s.graph c

/-- Append a node to the graph of a state. -/
def pushed (s : LowerState) (n : Node) : LowerState :=
  { s with graph := (s.graph.pushNode n).2 }

@[simp]
theorem pushed_size (s : LowerState) (n : Node) :
    (pushed s n).graph.size = s.graph.size + 1 :=
  s.graph.pushNode_size n

theorem pushed_new (s : LowerState) (n : Node) :
    (pushed s n).graph.node s.graph.size = n :=
  s.graph.pushNode_node_size n

theorem pushed_old (s : LowerState) (n : Node) {id : Nat}
    (old : id < s.graph.size) :
    (pushed s n).graph.node id = s.graph.node id :=
  s.graph.pushNode_node_of_lt n old

theorem TableSound.pushed {s : LowerState} (sound : TableSound s.graph s.table)
    (n : Node) : TableSound (pushed s n).graph s.table := by
  intro entry member
  obtain ⟨inside, signature⟩ := sound entry member
  rw [pushed_size, pushed_old s n inside]
  exact ⟨Nat.lt_succ_of_lt inside, signature⟩

/-- Appending a node that fits and does not use the current control. -/
theorem Ready.pushed {pend pend' : NodeId → Prop} {frame : TypeChecker.Frame}
    {s : LowerState} {n : Node} (ready : Ready pend frame s)
    (fits : Fits pend pend' s.graph n)
    (unread : ∀ slot ctrl, s.ctrl = some ctrl → ¬ ReadsCtrl n slot ctrl) :
    Ready pend' frame (pushed s n) where
  wired := ready.wired.push fits
  table := ready.table.pushed n
  bound name ref found := by
    obtain ⟨id, same, inside⟩ := ready.bound name ref found
    rw [pushed_size]
    exact ⟨id, same, Nat.lt_succ_of_lt inside⟩
  names := ready.names
  sees := ready.sees
  ctrl c here := by
    obtain ⟨inside, unused⟩ := ready.ctrl c here
    rw [pushed_size]
    exact ⟨Nat.lt_succ_of_lt inside,
      unused.push fits fun slot => unread slot c here⟩

/-- Continue with a control value that nothing uses yet. -/
theorem Ready.setCtrl {pend : NodeId → Prop} {frame : TypeChecker.Frame}
    {s : LowerState} (ready : Ready pend frame s) {ctrl : Nat} (eff : NodeRef)
    (inside : ctrl < s.graph.size) (unused : Unused pend s.graph ctrl) :
    Ready pend frame { s with ctrl := some ctrl, eff } where
  wired := ready.wired
  table := ready.table
  bound := ready.bound
  names := ready.names
  sees := ready.sees
  ctrl _ same := Option.some.inj same ▸ ⟨inside, unused⟩

/-- Bind a name to a node. -/
theorem Ready.bindName {pend : NodeId → Prop}
    {frame frame' : TypeChecker.Frame} {s : LowerState}
    (ready : Ready pend frame s) {name : SymbolId} {id : Nat}
    (inside : id < s.graph.size)
    (sees : ∀ other, frame'.Sees other → frame.Sees other ∨ other = name) :
    Ready pend frame'
      { s with bindings := s.bindings.insert name (some id) } where
  wired := ready.wired
  table := ready.table
  bound other ref found := by
    by_cases same : other = name
    · rw [same, Bindings.get_insert_self, Option.some.injEq] at found
      exact ⟨id, found.symm, inside⟩
    · rw [Bindings.get_insert_of_ne _ _ same] at found
      exact ready.bound other ref found
  names := Bindings.names_insert_nodup ready.names name (some id)
  sees other seen := by
    rw [Bindings.mem_names_insert]
    exact (sees other seen).imp_left (ready.sees other)
  ctrl := ready.ctrl

/-- A visible name is bound to a node. -/
theorem Ready.get {pend : NodeId → Prop} {frame : TypeChecker.Frame}
    {s : LowerState} (ready : Ready pend frame s) {name : SymbolId}
    (bound : name ∈ s.bindings.names) :
    ∃ id, s.bindings.get name = some (some id) ∧ id < s.graph.size := by
  obtain ⟨ref, found⟩ :=
    Option.isSome_iff_exists.mp (Bindings.get_isSome_iff.mpr bound)
  obtain ⟨id, rfl, inside⟩ := ready.bound name ref found
  exact ⟨id, found, inside⟩

/-- Lowering only adds nodes; the new ones use no old control but the current
one. -/
structure Grows (s t : LowerState) : Prop where
  size : s.graph.size ≤ t.graph.size
  old : ∀ id : Nat, id < s.graph.size → t.graph.node id = s.graph.node id
  reads : ∀ user slot ctrl, s.graph.size ≤ user →
    ReadsCtrl (t.graph.node user) slot ctrl →
    s.graph.size ≤ ctrl ∨ s.ctrl = some ctrl
  ctrl : ∀ c, t.ctrl = some c → s.ctrl = some c ∨ s.graph.size ≤ c
  names : ∀ name, name ∈ s.bindings.names → name ∈ t.bindings.names

theorem Grows.trans {s t u : LowerState} (left : Grows s t)
    (right : Grows t u) : Grows s u where
  size := left.size.trans right.size
  old id inside := by
    rw [right.old id (Nat.lt_of_lt_of_le inside left.size), left.old id inside]
  reads user slot ctrl new reads := by
    by_cases middle : user < t.graph.size
    · rw [right.old user middle] at reads
      exact left.reads user slot ctrl new reads
    · rcases right.reads user slot ctrl (Nat.le_of_not_lt middle) reads
        with late | current
      · exact Or.inl (left.size.trans late)
      · exact (left.ctrl ctrl current).symm
  ctrl c here := by
    rcases right.ctrl c here with current | late
    · exact left.ctrl c current
    · exact Or.inr (left.size.trans late)
  names name bound := right.names name (left.names name bound)

/-- A control value that a growing step must not use stays unused. -/
theorem Grows.unused {pend : NodeId → Prop} {s t : LowerState}
    (grows : Grows s t) {ctrl : Nat} (inside : ctrl < s.graph.size)
    (other : s.ctrl ≠ some ctrl) (unused : Unused pend s.graph ctrl) :
    Unused pend t.graph ctrl := by
  rintro user slot ⟨reads, counts⟩
  by_cases old : user < s.graph.size
  · rw [grows.old user old] at reads
    exact unused user slot ⟨reads, counts⟩
  · rcases grows.reads user slot ctrl (Nat.le_of_not_lt old) reads
      with late | current
    · exact absurd inside (Nat.not_lt_of_le late)
    · exact other current

/-- Append one more node. -/
theorem Grows.pushed {s t : LowerState} (grows : Grows s t) {n : Node}
    (reads : ∀ slot ctrl, ReadsCtrl n slot ctrl →
      s.graph.size ≤ ctrl ∨ s.ctrl = some ctrl) :
    Grows s (pushed t n) where
  size := by
    rw [pushed_size]
    exact Nat.le_succ_of_le grows.size
  old id inside := by
    rw [pushed_old t n (Nat.lt_of_lt_of_le inside grows.size),
      grows.old id inside]
  reads user slot ctrl new uses := by
    rw [Lowerer.pushed, Graph.pushNode_node] at uses
    split at uses
    · exact reads slot ctrl uses
    · exact grows.reads user slot ctrl new uses
  ctrl := grows.ctrl
  names := grows.names

/-- Continue elsewhere: from another control, effect and bindings. -/
theorem Grows.resume {s t : LowerState} (grows : Grows s t) {ctrl : NodeRef}
    (eff : NodeRef) {bindings : Bindings}
    (late : ∀ c, ctrl = some c → s.ctrl = some c ∨ s.graph.size ≤ c)
    (names : ∀ name, name ∈ s.bindings.names → name ∈ bindings.names) :
    Grows s { t with ctrl, eff, bindings } where
  size := grows.size
  old := grows.old
  reads := grows.reads
  ctrl := late
  names := names

/-- New nodes only, and none of them reads control. -/
structure Quiet (s t : LowerState) : Prop where
  size : s.graph.size ≤ t.graph.size
  old : ∀ id : Nat, id < s.graph.size → t.graph.node id = s.graph.node id
  quiet : ∀ user slot ctrl, s.graph.size ≤ user →
    ¬ ReadsCtrl (t.graph.node user) slot ctrl
  ctrl : t.ctrl = s.ctrl
  eff : t.eff = s.eff

theorem Quiet.refl (s : LowerState) : Quiet s s where
  size := le_rfl
  old _ _ := rfl
  quiet _ _ _ outside reads :=
    Nat.not_lt_of_le outside (readsCtrl_inside reads)
  ctrl := rfl
  eff := rfl

theorem Quiet.trans {s t u : LowerState} (left : Quiet s t)
    (right : Quiet t u) : Quiet s u where
  size := left.size.trans right.size
  old id inside := by
    rw [right.old id (Nat.lt_of_lt_of_le inside left.size), left.old id inside]
  quiet user slot ctrl new reads := by
    by_cases middle : user < t.graph.size
    · rw [right.old user middle] at reads
      exact left.quiet user slot ctrl new reads
    · exact right.quiet user slot ctrl (Nat.le_of_not_lt middle) reads
  ctrl := right.ctrl.trans left.ctrl
  eff := right.eff.trans left.eff

theorem Quiet.grows {s t : LowerState} (step : Quiet s t)
    (names : ∀ name, name ∈ s.bindings.names → name ∈ t.bindings.names) :
    Grows s t where
  size := step.size
  old := step.old
  reads user slot ctrl new reads := absurd reads (step.quiet user slot ctrl new)
  ctrl _ here := Or.inl (step.ctrl ▸ here)
  names := names

theorem Quiet.pushed (s : LowerState) {n : Node}
    (unread : ∀ slot ctrl, ¬ ReadsCtrl n slot ctrl) : Quiet s (pushed s n) where
  size := by
    rw [pushed_size]
    exact Nat.le_succ _
  old _ inside := pushed_old s n inside
  quiet user slot ctrl new reads := by
    rw [Lowerer.pushed, Graph.pushNode_node] at reads
    split at reads
    · exact unread slot ctrl reads
    · exact Nat.not_lt_of_le new (readsCtrl_inside reads)
  ctrl := rfl
  eff := rfl

/-- A step that only adds data nodes and binds no name. -/
structure DataStep (s t : LowerState) : Prop extends Quiet s t where
  bindings : t.bindings = s.bindings
  ready : ∀ pend frame, Ready pend frame s → Ready pend frame t

theorem DataStep.refl (s : LowerState) : DataStep s s where
  toQuiet := Quiet.refl s
  bindings := rfl
  ready _ _ ready := ready

theorem DataStep.trans {s t u : LowerState} (left : DataStep s t)
    (right : DataStep t u) : DataStep s u where
  toQuiet := left.toQuiet.trans right.toQuiet
  bindings := right.bindings.trans left.bindings
  ready pend frame ready := right.ready pend frame (left.ready pend frame ready)

theorem DataStep.grows {s t : LowerState} (step : DataStep s t) :
    Grows s t :=
  step.toQuiet.grows fun _ bound => step.bindings ▸ bound

/-- Appending a data node. -/
theorem DataStep.pushed (s : LowerState) {n : Node}
    (placed : WellPlaced s.graph.size n)
    (unread : ∀ slot ctrl, ¬ ReadsCtrl n slot ctrl) (notProj : n.kind ≠ .proj) :
    DataStep s (pushed s n) where
  toQuiet := Quiet.pushed s unread
  bindings := rfl
  ready _ _ ready := ready.pushed (Fits.data ready.wired placed unread notProj)
    fun slot ctrl _ => unread slot ctrl

/-- The hash of the inputs tells input lists below the bound apart. -/
def HashInjectiveBelow (bound : Nat) : Prop :=
  ∀ first second : List NodeRef, first.length = second.length →
    first.length ≤ 2 →
    (∀ ref ∈ first ++ second, ∃ id, ref = some id ∧ id < bound) →
    hashInputs first = hashInputs second → first = second

/-- The hash tells the inputs of operations apart in every graph of at most
2^24 nodes. -/
theorem hashInjectiveBelow_of_le {bound : Nat} (small : bound ≤ 2 ^ 24) :
    HashInjectiveBelow bound := by
  have below {ref : NodeRef} (inside : ∃ id, ref = some id ∧ id < bound) :
      ∃ id : Nat, ref = some id ∧ id < 2 ^ 24 := by
    obtain ⟨id, isId, less⟩ := inside
    exact ⟨id, isId, Nat.lt_of_lt_of_le less small⟩
  rintro first second lengths short inside same
  match first, second with
  | [], [] => rfl
  | [a], [b] =>
      obtain ⟨a, rfl, aSmall⟩ := below (inside a (by simp))
      obtain ⟨b, rfl, bSmall⟩ := below (inside b (by simp))
      rw [hash_step_inj aSmall bSmall (congrArg (·.toNat / 2 ^ 24) same)]
  | [a, c], [b, d] =>
      obtain ⟨a, rfl, aSmall⟩ := below (inside a (by simp))
      obtain ⟨b, rfl, bSmall⟩ := below (inside b (by simp))
      obtain ⟨c, rfl, cSmall⟩ := below (inside c (by simp))
      obtain ⟨d, rfl, dSmall⟩ := below (inside d (by simp))
      have high := congrArg (·.toNat / 2 ^ 24) (prime_cancel same)
      have firstSame : a = b := by
        apply hash_step_inj aSmall bSmall
        exact (shift_xor_small cSmall).symm.trans
          (high.trans (shift_xor_small dSmall))
      subst firstSame
      rw [hash_step_inj cSmall dSmall (congrArg (·.toNat / 2 ^ 24) same)]

/-- A finished graph that agrees with the graph so far, except for the headers
and phis that are pending. -/
structure Completes (pend : NodeId → Prop) (g final : Graph) : Prop where
  size : g.size ≤ final.size
  node : ∀ id : Nat, id < g.size → ¬ pend id → final.node id = g.node id
  wired : Wired noPending final
  hash : HashInjectiveBelow final.size

/-- What completes a later graph completes an earlier one. -/
theorem Completes.earlier {pend : NodeId → Prop} {g h final : Graph}
    (completes : Completes pend h final) (size : g.size ≤ h.size)
    (old : ∀ id : Nat, id < g.size → h.node id = g.node id) :
    Completes pend g final where
  size := size.trans completes.size
  node id inside settled := by
    rw [completes.node id (Nat.lt_of_lt_of_le inside size) settled,
      old id inside]
  wired := completes.wired
  hash := completes.hash

/-- Every visible name is bound to a node that has its value. -/
def Represents (final : Graph) (args : List Word) (frame : TypeChecker.Frame)
    (bindings : Bindings) (phis : Phis) (env : Env) : Prop :=
  ∀ name, frame.Sees name → ∃ id, bindings.get name = some (some id) ∧
    value final args phis id = some (env name)

/-- The finished graph does from a control node what the statement means. -/
def Follows (final : Graph) (args : List Word) (frame : TypeChecker.Frame)
    (s t : LowerState) (ctrl : NodeId) (phis : Phis) : StmtOutcome → Prop
  | .trap => True
  | .returned v => Steps final args (.walking ctrl phis) (.returned v)
  | .normal env => ∃ ctrl' phis', t.ctrl = some ctrl' ∧ t.eff ≠ none ∧
      Steps final args (.walking ctrl phis) (.walking ctrl' phis') ∧
      (∀ id : Nat, id < s.graph.size → phis' id = phis id) ∧
      Represents final args frame t.bindings phis' env

/-- The outcome of lowering a statement correctly. -/
structure Lowered (pend : NodeId → Prop) (frame frame' : TypeChecker.Frame)
    (eval : Env → StmtOutcome) (returnFree : Prop) (s t : LowerState) : Prop where
  ready : Ready pend frame' t
  grows : Grows s t
  falls : returnFree → s.ctrl ≠ none → t.ctrl ≠ none
  follows : ∀ final args phis env ctrl, s.ctrl = some ctrl → s.eff ≠ none →
    Completes pend t.graph final →
    Represents final args frame s.bindings phis env →
    Follows final args frame' s t ctrl phis (eval env)

/-- Lowering a statement is correct for its meaning. -/
def Correct (frame frame' : TypeChecker.Frame) (run : LowerM Unit)
    (eval : Env → StmtOutcome) (returnFree : Prop) : Prop :=
  ∀ pend s, Ready pend frame s →
    ∃ t, run s = .ok () t ∧ Lowered pend frame frame' eval returnFree s t

/-- Lowering an expression is correct for its meaning: it yields a node that
has the value of the expression in every finished graph. -/
def CorrectExpr (frame : TypeChecker.Frame) (run : LowerM NodeRef)
    (eval : Env → Option Word) : Prop :=
  ∀ pend s, Ready pend frame s →
    ∃ id t, run s = .ok (some id) t ∧ DataStep s t ∧ id < t.graph.size ∧
      ∀ final args phis env v, Completes pend t.graph final →
        Represents final args frame s.bindings phis env →
        eval env = some v → value final args phis id = some v

end Lowerer

end Aegis
