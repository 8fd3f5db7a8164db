import AegisCompiler.DataRedirects
import AegisCompiler.InductionVariables
import AegisCompiler.GraphLinks
import AegisCompiler.LoweringFrame

/-!
# Derived induction variables are exact

A phi that advances itself by a constant step and a derived phi that advances
by the product of the step and a factor keep their ratio at every entry of the
loop header, also at the last one.
-/

namespace Aegis

namespace InductionVariables

open CallWalk
open ControlWalk (isPhiOf paramRank)
open Lowerer (InputsInside InsideGraph WellMade)

/-- The node is a constant of this value. -/
def IsConstant (g : Graph) (id : NodeId) (v : Word) : Prop :=
  (g.node id).kind = .constant ∧ (g.node id).payload = v

/-- A header phi that starts at a constant and advances itself by another. -/
def Advances (g : Graph) (loop phi : NodeId) (start step : Word) : Prop :=
  (g.node phi).kind = .phi ∧ ∃ entry back stepId,
    (g.node phi).inputs = [some loop, some entry, some back] ∧
      IsConstant g entry start ∧ (g.node back).kind = .add ∧
        ((g.node back).inputs = [some phi, some stepId] ∨
          (g.node back).inputs = [some stepId, some phi]) ∧
            IsConstant g stepId step

/-- A product of a phi and a constant. -/
def IsProduct (g : Graph) (phi mul k : NodeId) : Prop :=
  (g.node mul).kind = .mul ∧
    ((g.node mul).inputs = [some phi, some k] ∨
      (g.node mul).inputs = [some k, some phi]) ∧
        (g.node k).kind = .constant

section Values

variable {g : Graph} {args : List Word} {held held' : Held}

theorem IsConstant.hasValue {id : NodeId} {c : Word} (constant : IsConstant g id c)
    (v : Word) : HasValue g args held id v ↔ v = c := by
  rw [hasValue_constant constant.1, constant.2]

/-- The value of a commutative operation on a phi and a constant. -/
theorem hasValue_withConstant {id phi constId : NodeId} {c : Word}
    (isPhi : (g.node phi).kind = .phi) (constant : IsConstant g constId c)
    (binary : (g.node id).kind.isBinop = true)
    (inputs : (g.node id).inputs = [some phi, some constId] ∨
      (g.node id).inputs = [some constId, some phi])
    {f : Word → Word}
    (left : ∀ a, evalBinop (g.node id).kind a c = some (f a))
    (right : ∀ a, evalBinop (g.node id).kind c a = some (f a)) (v : Word) :
    HasValue g args held id v ↔ (held phi).map f = some v := by
  rw [Option.map_eq_some_iff]
  rcases inputs with inputs | inputs
  · rw [hasValue_binop binary inputs]
    constructor
    · rintro ⟨a, b, onLeft, onRight, value⟩
      rw [(constant.hasValue b).mp onRight, left, Option.some.injEq] at value
      exact ⟨a, (hasValue_phi isPhi).mp onLeft, value⟩
    · rintro ⟨a, holds, rfl⟩
      exact ⟨a, c, (hasValue_phi isPhi).mpr holds, (constant.hasValue c).mpr rfl,
        left a⟩
  · rw [hasValue_binop binary inputs]
    constructor
    · rintro ⟨b, a, onLeft, onRight, value⟩
      rw [(constant.hasValue b).mp onLeft, right, Option.some.injEq] at value
      exact ⟨a, (hasValue_phi isPhi).mp onRight, value⟩
    · rintro ⟨a, holds, rfl⟩
      exact ⟨c, a, (constant.hasValue c).mpr rfl, (hasValue_phi isPhi).mpr holds,
        right a⟩

theorem IsProduct.hasValue {phi mul k : NodeId} (isPhi : (g.node phi).kind = .phi)
    (product : IsProduct g phi mul k) (v : Word) :
    HasValue g args held mul v ↔
      (held phi).map (· * (g.node k).payload) = some v := by
  obtain ⟨kind, inputs, constant⟩ := product
  refine hasValue_withConstant isPhi ⟨constant, rfl⟩ (by rw [kind]; rfl) inputs
    (fun a => ?_) (fun a => ?_) v
  · rw [kind]
    rfl
  · rw [kind, BitVec.mul_comm a]
    rfl

variable {loop phi : NodeId} {start step : Word}
variable (advances : Advances g loop phi start step)
include advances

theorem Advances.isPhiOf {region : NodeId} :
    isPhiOf g region phi = decide (region = loop) := by
  obtain ⟨kind, entry, back, stepId, inputs, -⟩ := advances
  simp [ControlWalk.isPhiOf, kind, inputs, eq_comm]

/-- The value of the phi in either slot of its loop. -/
theorem Advances.slotValue {slot : Nat} (isSlot : slot = 1 ∨ slot = 2) (v : Word) :
    RefValue g args held ((g.node phi).inputs.getD slot none) v ↔
      (if slot = 1 then some start else (held phi).map (· + step)) = some v := by
  obtain ⟨kind, entry, back, stepId, inputs, first, add, operands, last⟩ := advances
  rw [inputs]
  rcases isSlot with rfl | rfl
  · rw [if_pos rfl]
    change RefValue g args held (some entry) v ↔ _
    rw [refValue_some, first.hasValue, Option.some.injEq, eq_comm]
  · rw [if_neg (by decide)]
    change RefValue g args held (some back) v ↔ _
    rw [refValue_some]
    refine hasValue_withConstant kind last (by rw [add]; rfl) operands
      (fun a => ?_) (fun a => ?_) v
    · rw [add]
      rfl
    · rw [add, BitVec.add_comm a]
      rfl

theorem Advances.entered {slot : Nat} (isSlot : slot = 1 ∨ slot = 2)
    (entered : Entered g args loop slot held held') :
    held' phi = if slot = 1 then some start else (held phi).map (· + step) := by
  have here := entered phi
  unfold EnteredAt at here
  rw [advances.isPhiOf, decide_eq_true rfl, if_pos rfl] at here
  exact Option.ext fun v => (here v).trans (advances.slotValue isSlot v)

theorem Advances.other {region : NodeId} (other : region ≠ loop) {slot : Nat}
    (entered : Entered g args region slot held held') : held' phi = held phi := by
  have here := entered phi
  unfold EnteredAt at here
  rwa [advances.isPhiOf, decide_eq_false other, if_neg (by decide)] at here

end Values

theorem phiSlot_loop {n : Node} (isLoop : n.kind = .loop) (ctrl : NodeId) :
    phiSlot n ctrl = 1 ∨ phiSlot n ctrl = 2 := by
  simp only [phiSlot, isLoop, if_true]
  split
  · exact Or.inl rfl
  · exact Or.inr rfl

/-- Both recurrences, one step later. -/
theorem ratio_step (start step factor : Word) (held : Option Word) (slot : Nat) :
    (if slot = 1 then some start else held.map (· + step)).map (· * factor) =
      if slot = 1 then some (start * factor)
      else (held.map (· * factor)).map (· + step * factor) := by
  split
  · rfl
  · cases held with
    | none => rfl
    | some v =>
        simp only [Option.map_some, Option.some.injEq]
        exact BitVec.add_mul

/-- The derived phi is the product in this state. -/
def InRatio (phi derived : NodeId) (factor : Word) : WalkState → Prop
  | .walking _ _ held _ => held derived = (held phi).map (· * factor)
  | .returned .. => True

section Ratio

variable {g : Graph} {loop phi derived : NodeId} {start step factor : Word}
variable (isLoop : (g.node loop).kind = .loop)
variable (source : Advances g loop phi start step)
variable (product : Advances g loop derived (start * factor) (step * factor))
include isLoop source product

theorem inRatio_step {callees : Callees} {args : List Word} {s t : WalkState}
    (on : OnControl g s) (ratio : InRatio phi derived factor s)
    (next : Step g callees args s t) : InRatio phi derived factor t := by
  have notCall {call other : NodeId} (isCall : (g.node call).kind.isCall = true)
      (isPhi : (g.node other).kind = .phi) : other ≠ call := by
    rintro rfl
    simp [isPhi, NodeKind.isCall] at isCall
  cases next with
  | @call _ call pending _ _ values evaluated =>
      have isCall := (on.2.2 call List.mem_cons_self).2
      have first := notCall isCall source.1
      have second := notCall isCall product.1
      simpa [InRatio, Function.update_of_ne first, Function.update_of_ne second]
        using ratio
  | branch only kind evaluated taken => exact ratio
  | @enter ctrl user held held' _ only kind entered =>
      change held' derived = (held' phi).map (· * factor)
      have before : held derived = (held phi).map (· * factor) := ratio
      by_cases here : user = loop
      · subst here
        have isSlot := phiSlot_loop isLoop ctrl
        rw [source.entered isSlot entered, product.entered isSlot entered, before,
          ratio_step]
      · rw [source.other here entered, product.other here entered, before]
  | finish => trivial

/-- The derived phi is the product in every state that the walk visits. -/
theorem inRatio_visits {callees : Callees} {args : List Word} {s : WalkState}
    (visits : Visits g callees args s) : InRatio phi derived factor s := by
  obtain ⟨first, only, steps⟩ := visits
  have keeps : Simulation.Keeps (Step g callees args) fun s =>
      OnControl g s ∧ InRatio phi derived factor s := fun _ _ both next =>
    ⟨both.1.step next, inRatio_step isLoop source product both.1 both.2 next⟩
  have start : InRatio phi derived factor (arrive g first (fun _ => none) []) :=
    rfl
  exact (keeps.run ⟨onControl_proj only _ _, start⟩ steps).2

end Ratio

/-- The second graph has a derived phi in place of a product of the first. -/
structure Strengthens (g h : Graph) (loop phi mul k derived : NodeId)
    (start step : Word) : Prop where
  redirects : Redirects g h mul derived
  isLoop : (g.node loop).kind = .loop
  source : Advances g loop phi start step
  product : IsProduct g phi mul k
  result : Advances h loop derived (start * (g.node k).payload)
    (step * (g.node k).payload)
  others : ∀ id, g.size ≤ id → id ≠ derived → (h.node id).kind ≠ .phi

/-- The derived phi holds the product. -/
def follow (phi derived : NodeId) (factor : Word) (held : Held) : Held :=
  Function.update held derived ((held phi).map (· * factor))

theorem Strengthens.follows {g h : Graph} {loop phi mul k derived : NodeId}
    {start step : Word}
    (made : Strengthens g h loop phi mul k derived start step)
    (args : List Word) :
    Follows g h args mul derived (follow phi derived (g.node k).payload) := by
  have inside : phi < g.size := by
    by_contra outside
    have kind := made.source.1
    rw [g.node_of_size_le (Nat.le_of_not_lt outside)] at kind
    cases kind
  have apart : phi ≠ derived :=
    Nat.ne_of_lt (Nat.lt_of_lt_of_le inside made.redirects.added)
  have atDerived (held : Held) :
      follow phi derived (g.node k).payload held derived =
        (held phi).map (· * (g.node k).payload) := Function.update_self _ _ _
  have elsewhere {id : NodeId} (differs : id ≠ derived) (held : Held) :
      follow phi derived (g.node k).payload held id = held id :=
    Function.update_of_ne differs _ _
  refine ⟨fun held id old => ?_, fun held v => ?_, ?_, ?_, ?_⟩
  · exact elsewhere (Nat.ne_of_lt (Nat.lt_of_lt_of_le old made.redirects.added)) held
  · rw [made.product.hasValue made.source.1, hasValue_phi made.result.1, atDerived]
  · intro held call v old isCall
    have notDerived : call ≠ derived :=
      Nat.ne_of_lt (Nat.lt_of_lt_of_le old made.redirects.added)
    have notPhi : phi ≠ call := by
      rintro rfl
      simp [made.source.1, NodeKind.isCall] at isCall
    rw [follow, follow, Function.update_of_ne notPhi,
      Function.update_comm notDerived]
  · intro region ctrl held held' kind entered id new
    by_cases same : id = derived
    · subst same
      unfold EnteredAt
      rw [made.result.isPhiOf, atDerived, atDerived]
      by_cases here : region = loop
      · subst here
        have isSlot := phiSlot_loop made.isLoop ctrl
        rw [decide_eq_true rfl, if_pos rfl, made.source.entered isSlot entered]
        intro v
        rw [made.result.slotValue isSlot, atDerived, ratio_step]
      · rw [decide_eq_false here, if_neg (by decide),
          made.source.other here entered]
    · have notPhi : isPhiOf h region id = false := by
        simp [isPhiOf, made.others id new same]
      have blank : isPhiOf g region id = false := by
        simp only [isPhiOf, g.node_of_size_le new]
        rfl
      have here := entered id
      unfold EnteredAt at here ⊢
      rw [blank, if_neg (by decide)] at here
      rw [notPhi, if_neg (by decide), elsewhere same, elsewhere same, here]
  · funext id
    by_cases same : id = derived
    · subst same
      exact atDerived _
    · exact elsewhere same _

/-- A rewrite keeps the results of the walk. -/
theorem Strengthens.returns_iff {g h : Graph} {loop phi mul k derived : NodeId}
    {start step : Word} (made : Strengthens g h loop phi mul k derived start step)
    {callees : Callees} {args : List Word} {value : Word} {calls : List Call} :
    CallWalk.Returns h callees args value calls ↔
      CallWalk.Returns g callees args value calls :=
  made.redirects.returns_iff (made.follows args)

section Making

variable {g : Graph} {loop phi k entry : NodeId} {step : Word}

theorem liveConstant_iff {ref : NodeRef} :
    liveConstant g ref = true ↔ ∃ id, ref = some id ∧ id < g.size ∧
      (g.node id).isDead = false ∧ (g.node id).kind = .constant := by
  unfold liveConstant
  cases found : g.inRange ref with
  | none =>
      simp only [Bool.false_eq_true, false_iff, not_exists]
      rintro id ⟨same, inside, -⟩
      rw [g.inRange_some.mpr ⟨same, inside⟩] at found
      cases found
  | some id =>
      obtain ⟨rfl, inside⟩ := g.inRange_some.mp found
      simp [inside]

variable (loop k step) in
/-- The nodes after a derived phi was made for a phi with a constant entry. -/
theorem makeDerived_node (first : (g.node phi).inputs.getD 1 none = some entry)
    (live : liveConstant g (some entry) = true) (id : NodeId) :
    (makeDerived g loop phi k step).2.node id =
      if id = g.size then
        { kind := .constant, typeId := (g.node phi).typeId
          payload := (g.node entry).payload * (g.node k).payload }
      else if id = g.size + 1 then
        { kind := .phi, typeId := (g.node phi).typeId
          inputs := [some loop, some g.size, some (g.size + 3)] }
      else if id = g.size + 2 then
        { kind := .constant, typeId := (g.node phi).typeId
          payload := step * (g.node k).payload }
      else if id = g.size + 3 then
        { kind := .add, typeId := (g.node phi).typeId
          inputs := [some (g.size + 1), some (g.size + 2)] }
      else g.node id := by
  simp only [makeDerived, makeEntry, first, live, if_true, Graph.makeConstant,
    Graph.makePhi, Graph.makeBinop, Graph.makeNode, Graph.pushNode_fst,
    Graph.pushNode_size, Graph.setInput_node, Graph.pushNode_node,
    Nat.add_assoc, Nat.reduceAdd]
  by_cases entryNode : id = g.size
  · subst entryNode
    simp [effectClassOf]
  · by_cases phiNode : id = g.size + 1
    · subst phiNode
      simp
    · by_cases stepNode : id = g.size + 2
      · subst stepNode
        simp [effectClassOf]
      · by_cases backNode : id = g.size + 3
        · subst backNode
          simp [effectClassOf]
        · simp [entryNode, phiNode, stepNode, backNode]

variable (loop k step) in
theorem makeDerived_size (first : (g.node phi).inputs.getD 1 none = some entry)
    (live : liveConstant g (some entry) = true) :
    (makeDerived g loop phi k step).1 = g.size + 1 ∧
      (makeDerived g loop phi k step).2.size = g.size + 4 := by
  simp only [makeDerived, makeEntry, first, live, if_true, Graph.makeConstant,
    Graph.makePhi, Graph.makeBinop, Graph.makeNode, Graph.pushNode_fst,
    Graph.pushNode_size, Graph.setInput_size, Nat.add_assoc, Nat.reduceAdd,
    and_self]

/-- The kinds of the nodes that the pass appends, and of the nodes beyond. -/
def IsAdded (kind : NodeKind) : Prop :=
  kind = .constant ∨ kind = .phi ∨ kind = .add ∨ kind = .start

theorem IsAdded.isData {kind : NodeKind} (added : IsAdded kind) : IsData kind := by
  rcases added with rfl | rfl | rfl | rfl <;> simp [IsData, NodeKind.isCall]

/-- The graph after the rewrite of one product. -/
def rewritten (g : Graph) (loop phi mul k : NodeId) (step : Word) : Graph :=
  let made := makeDerived g loop phi k step
  (replaceUses made.2 mul made.1).markDead mul

/-- A node whose reads of `old` may have become reads of `new`. -/
structure Rewired (old new : NodeId) (n n' : Node) : Prop where
  kind : n'.kind = n.kind
  payload : n'.payload = n.payload
  effect : n'.effect = n.effect
  inputs : n'.inputs = n.inputs ∨ n'.inputs = n.inputs.map fun input =>
    if input = some old then some new else input

variable {mul : NodeId}

theorem rewired_node (g : Graph) (old new id : NodeId) :
    Rewired old new (g.node id) (((replaceUses g old new).markDead old).node id) ∧
      (id ≠ old → (((replaceUses g old new).markDead old).node id).isDead =
        (g.node id).isDead) := by
  obtain ⟨inputs, node, shape⟩ := replaceUses_node g old new id
  rw [Graph.markDead, Graph.setFlag_node, node]
  split
  case isTrue here => exact ⟨⟨rfl, rfl, rfl, shape⟩, fun differs =>
    absurd here.1 differs⟩
  case isFalse => exact ⟨⟨rfl, rfl, rfl, shape⟩, fun _ => rfl⟩

section Constant

variable (loop k step mul)
variable (first : (g.node phi).inputs.getD 1 none = some entry)
variable (live : liveConstant g (some entry) = true)
include first live

theorem rewritten_size : (rewritten g loop phi mul k step).size = g.size + 4 := by
  rw [rewritten, Graph.markDead, Graph.setFlag_size, replaceUses_size,
    (makeDerived_size loop k step first live).2]

/-- A node after the rewrite, against the node after the phi was made. -/
theorem rewritten_node (id : NodeId) :
    Rewired mul (g.size + 1) ((makeDerived g loop phi k step).2.node id)
        ((rewritten g loop phi mul k step).node id) ∧
      (id ≠ mul → ((rewritten g loop phi mul k step).node id).isDead =
        ((makeDerived g loop phi k step).2.node id).isDead) := by
  have derived := (makeDerived_size loop k step first live).1
  have node := rewired_node (makeDerived g loop phi k step).2 mul
    (makeDerived g loop phi k step).1 id
  rwa [← derived]

theorem rewritten_new {id : NodeId} (new : g.size ≤ id) :
    IsAdded ((rewritten g loop phi mul k step).node id).kind ∧
      (id ≠ g.size + 1 →
        ((rewritten g loop phi mul k step).node id).kind ≠ .phi) := by
  have node := (rewritten_node loop k step mul first live id).1.kind
  rw [makeDerived_node loop k step first live] at node
  rw [node]
  split_ifs with isEntry isPhi isStep isBack
  · exact ⟨Or.inl rfl, fun _ => by simp⟩
  · exact ⟨Or.inr (Or.inl rfl), fun differs => absurd isPhi differs⟩
  · exact ⟨Or.inl rfl, fun _ => by simp⟩
  · exact ⟨Or.inr (Or.inr (Or.inl rfl)), fun _ => by simp⟩
  · rw [g.node_of_size_le new]
    exact ⟨Or.inr (Or.inr (Or.inr rfl)), fun _ => by simp⟩

theorem rewritten_old {id : NodeId} (old : id < g.size) :
    Rewired mul (g.size + 1) (g.node id)
        ((rewritten g loop phi mul k step).node id) ∧
      (id ≠ mul → ((rewritten g loop phi mul k step).node id).isDead =
        (g.node id).isDead) := by
  have differs (n : Nat) : id ≠ g.size + n :=
    Nat.ne_of_lt (Nat.lt_of_lt_of_le old (Nat.le_add_right _ _))
  have same : (makeDerived g loop phi k step).2.node id = g.node id := by
    rw [makeDerived_node loop k step first live, if_neg (Nat.ne_of_lt old),
      if_neg (differs 1), if_neg (differs 2), if_neg (differs 3)]
  have node := rewritten_node loop k step mul first live id
  rwa [same] at node

end Constant

end Making

/-- What the pass relies on in the graph it rewrites. -/
structure Fit (g : Graph) : Prop where
  inside : InputsInside g
  nonempty : kStartNodeId < g.size
  start : (g.node kStartNodeId).kind = .start
  effects : ∀ id, (g.node id).effect = effectClassOf (g.node id).kind
  dead : ∀ id, (g.node id).isDead = true → (g.node id).kind = .mul

/-- A constant that exists is live. -/
theorem Fit.liveConstant {g : Graph} (fit : Fit g) {id : NodeId}
    (constant : (g.node id).kind = .constant) : liveConstant g (some id) = true := by
  refine liveConstant_iff.mpr ⟨id, rfl, Graph.inside_of_kind constant (by simp), ?_,
    constant⟩
  by_contra dead
  rw [fit.dead id (by simpa using dead)] at constant
  cases constant

section Rewrite

variable {g : Graph} {loop phi mul k : NodeId} {start step : Word}

theorem Rewired.forall₂ {old new : NodeId} {n n' : Node}
    (rewired : Rewired old new n n')
    (inside : ∀ ref ∈ n.inputs, InsideGraph g ref) :
    List.Forall₂ (RefAlike (Replaced g old new)) n.inputs n'.inputs := by
  have same (ref : NodeRef) (member : ref ∈ n.inputs) :
      RefAlike (Replaced g old new) ref ref := by
    cases ref with
    | none => exact Or.inl ⟨rfl, rfl⟩
    | some id => exact Or.inr ⟨id, id, rfl, rfl, Or.inl ⟨rfl, inside _ member id rfl⟩⟩
  rcases rewired.inputs with unchanged | mapped
  · rw [unchanged]
    exact List.forall₂_same.mpr same
  · rw [mapped, List.forall₂_map_right_iff]
    refine List.forall₂_same.mpr fun ref member => ?_
    split
    case isTrue here => exact Or.inr ⟨old, new, here, rfl, Or.inr ⟨rfl, rfl⟩⟩
    case isFalse => exact same ref member

/-- Inputs that do not name the old node stay. -/
theorem Rewired.inputs_eq {old new : NodeId} {n n' : Node}
    (rewired : Rewired old new n n') (unread : some old ∉ n.inputs) :
    n'.inputs = n.inputs := by
  rcases rewired.inputs with unchanged | mapped
  · exact unchanged
  · rw [mapped]
    conv_rhs => rw [← List.map_id n.inputs]
    refine List.map_congr_left fun ref member => ?_
    rw [if_neg]
    · rfl
    · rintro rfl
      exact unread member

theorem Advances.entry (advances : Advances g loop phi start step) :
    ∃ entry, (g.node phi).inputs.getD 1 none = some entry ∧
      (g.node entry).kind = .constant ∧ (g.node entry).payload = start := by
  obtain ⟨-, entry, back, stepId, inputs, constant, -⟩ := advances
  rw [inputs]
  exact ⟨entry, rfl, constant⟩

variable (fit : Fit g) (isLoop : (g.node loop).kind = .loop)
variable (source : Advances g loop phi start step)
variable (product : IsProduct g phi mul k)
include fit isLoop source product

theorem rewritten_strengthens :
    Strengthens g (rewritten g loop phi mul k step) loop phi mul k (g.size + 1)
      start step := by
  obtain ⟨entry, first, constant, payload⟩ := source.entry
  have live := fit.liveConstant constant
  have mulKind := product.1
  have notStart : mul ≠ kStartNodeId := by
    rintro rfl
    rw [fit.start] at mulKind
    cases mulKind
  have mulInside : mul < g.size := Graph.inside_of_kind mulKind (by simp)
  have loopMul : loop ≠ mul := by
    rintro rfl
    rw [isLoop] at mulKind
    cases mulKind
  have old {id : NodeId} (inside : id < g.size) :=
    rewritten_old loop k step mul first live inside
  have new {id : NodeId} (beyond : g.size ≤ id) :=
    rewritten_new loop k step mul first live beyond
  have made (id : NodeId) := (rewritten_node loop k step mul first live id).1
  have node := makeDerived_node loop k step first live
  have beyond (n : Nat) : g.size + n ≠ mul := fun same =>
    Nat.not_lt_of_le (Nat.le_add_right g.size n) (same ▸ mulInside)
  refine ⟨⟨?_, Nat.le_succ _, notStart, fit.nonempty, ?_, ?_, ?_, ?_, ?_, ?_⟩,
    isLoop, source, product, ⟨?_, g.size, g.size + 3, g.size + 2, ?_, ⟨?_, ?_⟩, ?_,
      Or.inl ?_, ⟨?_, ?_⟩⟩, fun id beyond => (new beyond).2⟩
  · rw [rewritten_size loop k step mul first live]
    exact Nat.le_add_right _ _
  · rw [mulKind]
    simp [IsData, NodeKind.isCall]
  · exact fun id beyond => (new beyond).1.isData
  · exact fun id inside => (old inside).1.kind
  · exact fun id inside => (old inside).1.payload
  · exact fun id inside => (old inside).2
  · exact fun id inside => (old inside).1.forall₂ (fit.inside id)
  · rw [(made _).kind, node]
    simp
  · rw [(made _).inputs_eq, node]
    · simp
    · rw [node]
      have third := beyond 3
      simp [Ne.symm loopMul, Ne.symm third, Nat.ne_of_lt mulInside]
  · rw [(made _).kind, node]
    simp
  · rw [(made _).payload, node]
    simp [payload]
  · rw [(made _).kind, node]
    simp
  · rw [(made _).inputs_eq, node]
    · simp
    · rw [node]
      have third := beyond 1
      have fourth := beyond 2
      simp [Ne.symm third, Ne.symm fourth]
  · rw [(made _).kind, node]
    simp
  · rw [(made _).payload, node]
    simp

end Rewrite

end InductionVariables

end Aegis
