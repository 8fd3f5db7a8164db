import AegisCompiler.LoweringInduction

/-!
# Where the parameters of a function stand

The start node and its two projections come first, so the parameter at
position `i` of the signature is node `3 + i`, and lowering the body leaves it
a parameter.
-/

namespace Aegis

namespace Lowerer

/-- The parameters of a function, in signature order. -/
def declaredParams : Ast → List SymbolId
  | .fnDecl _ params _ _ _ => params.filterMap Ast.paramName
  | _ => []

/-- The node of the parameter at a position of the signature. -/
def declaredNode (position : Nat) : Nat := 3 + position

/-- The graph grew and its old nodes kept their kinds and payloads. -/
structure KeepsLabels (g h : Graph) : Prop where
  size : g.size ≤ h.size
  kind : ∀ id < g.size, (h.node id).kind = (g.node id).kind
  payload : ∀ id < g.size, (h.node id).payload = (g.node id).payload
  dead : ∀ id < g.size, (h.node id).isDead = (g.node id).isDead

theorem KeepsLabels.refl (g : Graph) : KeepsLabels g g :=
  ⟨le_rfl, fun _ _ => rfl, fun _ _ => rfl, fun _ _ => rfl⟩

theorem keepsLabels_edits (g : Graph) : EditsKeep (KeepsLabels g) where
  push h n kept := by
    have old (id : NodeId) (inside : id < g.size) :
        (h.pushNode n).2.node id = h.node id :=
      h.pushNode_node_of_lt n (Nat.lt_of_lt_of_le inside kept.size)
    constructor
    · rw [Graph.pushNode_size]
      exact Nat.le_succ_of_le kept.size
    · intro id inside
      rw [old id inside, kept.kind id inside]
    · intro id inside
      rw [old id inside, kept.payload id inside]
    · intro id inside
      rw [old id inside, kept.dead id inside]
  setInput h id slot ref kept := by
    constructor
    · rw [Graph.setInput_size]
      exact kept.size
    · intro other inside
      rw [Graph.setInput_node, ← kept.kind other inside]
      split <;> rfl
    · intro other inside
      rw [Graph.setInput_node, ← kept.payload other inside]
      split <;> rfl
    · intro other inside
      rw [Graph.setInput_node, ← kept.dead other inside]
      split <;> rfl

/-- The graph holds the start node, its projections and these parameters. -/
structure Entered (names : List SymbolId) (g : Graph) : Prop where
  size : g.size = 3 + names.length
  before : ∀ id : Nat, id < 3 → (g.node id).kind ≠ .parameter
  param : ∀ (position : Nat) (inside : position < names.length),
    g.node (declaredNode position) =
      { kind := .parameter, typeId := kInvalidTypeId,
        payload := .ofSym names[position] }

theorem Entered.push {names : List SymbolId} {g : Graph}
    (entered : Entered names g) (name : SymbolId) :
    Entered (names ++ [name])
      (g.makeNode .parameter [] kInvalidTypeId (.ofSym name)).2 := by
  have size := entered.size
  constructor
  · simp only [Graph.makeNode, Graph.pushNode_size, size, List.length_append,
      List.length_singleton]
    omega
  · intro id low
    have old : id < g.size := by omega
    rw [Graph.makeNode, Graph.pushNode_node_of_lt g _ old]
    exact entered.before id low
  · intro position inside
    simp only [List.length_append, List.length_singleton] at inside
    rw [Graph.makeNode, Graph.pushNode_node, declaredNode]
    by_cases last : position = names.length
    · subst last
      simp [size, effectClassOf]
    · have old : position < names.length := by omega
      have apart : ¬ 3 + position = g.size := by omega
      rw [if_neg apart, List.getElem_append_left old]
      exact entered.param position old

theorem lowerParams_entered (params : List Ast) {names : List SymbolId}
    {s : LowerState} (entered : Entered names s.graph) :
    ∃ t, lowerParams params s = .ok () t ∧
      Entered (names ++ params.filterMap Ast.paramName) t.graph := by
  induction params generalizing names s with
  | nil => exact ⟨s, rfl, by simpa using entered⟩
  | cons param params ih =>
      cases param with
      | param name typeAnn mutable =>
          have next := entered.push name
          obtain ⟨t, run, result⟩ :=
            @ih _ { s with
              graph := (s.graph.makeNode .parameter [] kInvalidTypeId
                (.ofSym name)).2
              bindings := s.bindings.insert name (some s.graph.size) } next
          exact ⟨t, run, by simpa [Ast.paramName] using result⟩
      | _ =>
          obtain ⟨t, run, result⟩ := ih entered
          rw [List.filterMap_cons_none rfl]
          exact ⟨t, run, result⟩

theorem enterFunction_entered (params : List Ast) :
    ∃ t, enterFunction params {} = .ok () t ∧
      Entered (params.filterMap Ast.paramName) t.graph := by
  let prologue : LowerState := {
    graph := ((Graph.fresh.makeProj (some kStartNodeId) 0).2.makeProj
      (some kStartNodeId) 1).2
    ctrl := some 1
    eff := some 2 }
  have empty : Entered [] prologue.graph := by
    constructor
    · rfl
    · decide
    · intro position inside
      cases inside
  obtain ⟨t, run, entered⟩ := lowerParams_entered params empty
  exact ⟨t, run, entered⟩

/-- Every declared parameter is the parameter node at its place in the
signature, live, and no earlier node is a parameter. -/
theorem lowerFresh_params {order : TableOrder} {fn : Ast} {g : Graph}
    (lowered : lowerFresh order fn = .ok g) (position : Nat)
    (inside : position < (declaredParams fn).length) :
    declaredNode position < g.size ∧
      (g.node (declaredNode position)).kind = .parameter ∧
      (g.node (declaredNode position)).payload =
        .ofSym (declaredParams fn)[position] ∧
      (g.node (declaredNode position)).isDead = false ∧
      ∀ id : Nat, id < 3 → (g.node id).kind ≠ .parameter := by
  cases fn with
  | fnDecl name params returnType body isPub =>
      obtain ⟨s, run, entered⟩ := enterFunction_entered params
      have closed := (keepsLabels_edits s.graph).closed
      have rest : KeepsGraph (KeepsLabels s.graph) (do
          lowerBody order body
          synthesizeReturn) :=
        KeepsGraph.of_keepsAt fun t =>
          (closed.lowerBody order body t).andThen fun _ u =>
            closed.synthesizeReturn u
      have kept := rest s (KeepsLabels.refl _)
      have whole : lowerFn order (.fnDecl name params returnType body isPub) {}
          = (do
            lowerBody order body
            synthesizeReturn : LowerM Unit) s := by
        simp only [lowerFn, Bind.bind, EStateM.bind, run]
      rw [lowerFresh, whole] at lowered
      simp only [finalState] at kept
      split at lowered
      case h_2 => cases lowered
      case h_1 t finished =>
        simp only [finished] at kept
        cases lowered
        have count : (declaredParams
            (.fnDecl name params returnType body isPub)).length =
            (params.filterMap Ast.paramName).length := rfl
        have size := entered.size
        rw [count] at inside
        have here : declaredNode position < s.graph.size := by
          rw [declaredNode]
          omega
        have node := entered.param position inside
        refine ⟨Nat.lt_of_lt_of_le here kept.size, ?_, ?_, ?_, ?_⟩
        · rw [kept.kind _ here, node]
        · rw [kept.payload _ here, node]
          rfl
        · rw [kept.dead _ here, node]
          exact NodeFlags.has_zero _
        · intro id low
          rw [kept.kind id (by omega)]
          exact entered.before id low
  | _ => simp [declaredParams] at inside

end Lowerer

end Aegis
