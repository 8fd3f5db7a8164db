import AegisCompiler.LoweredExpr
import AegisCompiler.LoweringFrame

/-!
# The two lowerings of assignment

An assignment is lowered once as a statement and once as an expression, with
different operator tables.  Both agree exactly for the operators on which the
tables agree.
-/

namespace Aegis

namespace Lowerer

/-- The assignment operators. -/
def assignOps : List TokenKind :=
  [.eq, .plusEq, .minusEq, .starEq, .slashEq]

/-- The references are both unset, or both nodes of the same kind with the same
inputs. -/
def SameShape (g : Graph) (left : NodeRef) (h : Graph) (right : NodeRef) :
    Prop :=
  left.map (fun id => ((g.node id).kind, (g.node id).inputs)) =
    right.map fun id => ((h.node id).kind, (h.node id).inputs)

section Assignments

variable (order : TableOrder) (op : TokenKind) (name : SymbolId) (value : Ast)

/-- Lowered as a statement and as an expression from the same state, the
assignment leaves its name bound to nodes of the same shape, and the expression
yields the node it binds. -/
def AssignmentsAgree (s : LowerState) : Prop :=
  ∀ u t ref t', lowerStmt order (.assignExpr op (.ident name) value) s = .ok u t →
    lowerExpr order (.assignExpr op (.ident name) value) s = .ok ref t' →
      ∃ left right, t.bindings.get name = some left ∧
        t'.bindings.get name = some right ∧ ref = right ∧
          SameShape t.graph left t'.graph right

variable {order op name value} {s t : LowerState} {assigned : NodeRef}

/-- Both forms first lower the right-hand side. -/
theorem run_assignStmt (lowered : lowerExpr order value s = .ok assigned t) :
    lowerStmt order (.assignExpr op (.ident name) value) s =
      (assignName op (assignNodeKind op) name assigned >>= fun _ => pure ()) t := by
  have run : lowerAssign op (assignNodeKind op) (.ident name)
      (lowerExpr order value) s =
      assignName op (assignNodeKind op) name assigned t := run_bind lowered
  rw [lowerStmt]
  simp only [Bind.bind, EStateM.bind, run]

theorem run_assignExpr (lowered : lowerExpr order value s = .ok assigned t) :
    lowerExpr order (.assignExpr op (.ident name) value) s =
      assignName op (binopToNodeKind op) name assigned t := by
  rw [lowerExpr]
  exact run_bind lowered

omit t in
theorem boundOrZero_ok (name : SymbolId) (t : LowerState) :
    ∃ ref u, boundOrZero name t = .ok ref u := by
  cases found : t.bindings.get name with
  | some ref =>
      refine ⟨ref, t, ?_⟩
      rw [boundOrZero, run_get, found]
      rfl
  | none =>
      refine ⟨some t.graph.size, pushed t (constantNode 0), ?_⟩
      rw [boundOrZero, run_get, found]
      rfl

/-- An operation is looked up or created, and has the requested kind. -/
theorem lookupOrInsert_kind (sane : Sane t) (kind : NodeKind)
    (inputs : List NodeRef) :
    ∃ id u, lookupOrInsert kind inputs t = .ok id u ∧
      (u.graph.node id).kind = kind := by
  rcases lookupOrInsert_cases kind inputs t with ⟨id, search, ran⟩ | ran
  · obtain ⟨entry, found, rfl⟩ := Option.map_eq_some_iff.mp search
    have sameKey := List.find?_some found
    rw [decide_eq_true_eq] at sameKey
    have known := (sane.table entry (List.mem_of_find?_eq_some found)).2
    exact ⟨entry.2, t, ran, known.trans (congrArg HashKey.kind sameKey)⟩
  · exact ⟨_, _, ran, congrArg Node.kind (t.graph.pushNode_node_size _)⟩

/-- A compound assignment binds an operation of its kind, and yields it. -/
theorem assignName_compound (sane : Sane t) (compound : op ≠ .eq)
    (kind : NodeKind) (name : SymbolId) (assigned : NodeRef) :
    ∃ id u, assignName op kind name assigned t = .ok (some id) u ∧
      u.bindings.get name = some (some id) ∧ (u.graph.node id).kind = kind := by
  obtain ⟨old, v, bound⟩ := boundOrZero_ok name t
  have saneV : Sane v :=
    (sane.continues ((framed_closed _ _).boundOrZero name t) bound).1.sane
  obtain ⟨id, w, looked, isKind⟩ :=
    lookupOrInsert_kind saneV kind [old, assigned]
  refine ⟨id, { w with bindings := w.bindings.insert name (some id) }, ?_,
    Bindings.get_insert_self .., isKind⟩
  rw [assignName, if_neg compound, run_bind bound, run_bind looked]
  rfl

theorem assignName_eq (kind : NodeKind) (name : SymbolId) (assigned : NodeRef)
    (t : LowerState) : assignName .eq kind name assigned t =
      .ok assigned { t with bindings := t.bindings.insert name assigned } := rfl

/-- With one kind for both forms, they do the same. -/
theorem assignmentsAgree_of_sameKind (sane : Sane s)
    (lowered : lowerExpr order value s = .ok assigned t)
    (same : assignNodeKind op = binopToNodeKind op) :
    AssignmentsAgree order op name value s := by
  have saneT := (sane.lowerExpr lowered).1.sane
  intro u left ref right ranStmt ranExpr
  rw [run_assignStmt lowered, same] at ranStmt
  rw [run_assignExpr lowered] at ranExpr
  rw [run_bind ranExpr] at ranStmt
  cases ranStmt
  have bound : left.bindings.get name = some ref := by
    by_cases plain : op = .eq
    · subst plain
      rw [assignName_eq] at ranExpr
      cases ranExpr
      exact Bindings.get_insert_self ..
    · obtain ⟨id, w, ran, bound, -⟩ := assignName_compound saneT plain
        (binopToNodeKind op) name assigned
      rw [ran] at ranExpr
      cases ranExpr
      exact bound
  exact ⟨ref, ref, bound, bound, rfl, rfl⟩

/-- With different kinds, the forms bind different operations. -/
theorem not_assignmentsAgree_of_otherKind (sane : Sane s)
    (lowered : lowerExpr order value s = .ok assigned t) (compound : op ≠ .eq)
    (differs : assignNodeKind op ≠ binopToNodeKind op) :
    ¬ AssignmentsAgree order op name value s := by
  have saneT := (sane.lowerExpr lowered).1.sane
  obtain ⟨id, u, ranStmt, boundStmt, kindStmt⟩ :=
    assignName_compound saneT compound (assignNodeKind op) name assigned
  obtain ⟨id', u', ranExpr, boundExpr, kindExpr⟩ :=
    assignName_compound saneT compound (binopToNodeKind op) name assigned
  intro agree
  have stmt : lowerStmt order (.assignExpr op (.ident name) value) s =
      .ok () u := by
    rw [run_assignStmt lowered, run_bind ranStmt]
    rfl
  obtain ⟨left, right, isLeft, isRight, -, shape⟩ := agree () u (some id') u' stmt
    ((run_assignExpr lowered).trans ranExpr)
  rw [boundStmt, Option.some.injEq] at isLeft
  rw [boundExpr, Option.some.injEq] at isRight
  rw [← isLeft, ← isRight, SameShape, Option.map_some, Option.map_some,
    Option.some.injEq, Prod.mk.injEq, kindStmt, kindExpr] at shape
  exact differs shape.1

/-- If the right-hand side does not lower, neither form does.  Otherwise both
agree for `=` and `+=` only: the expression form lowers the other compound
operators as additions. -/
theorem assignments_agree_iff (isAssign : op ∈ assignOps) (sane : Sane s) :
    (∀ error t, lowerExpr order value s = .error error t →
        lowerStmt order (.assignExpr op (.ident name) value) s = .error error t ∧
          lowerExpr order (.assignExpr op (.ident name) value) s =
            .error error t) ∧
      ∀ assigned t, lowerExpr order value s = .ok assigned t →
        (AssignmentsAgree order op name value s ↔ op = .eq ∨ op = .plusEq) := by
  constructor
  · intro error t failed
    constructor
    · rw [lowerStmt]
      simp only [Bind.bind, EStateM.bind, lowerAssign, failed]
    · rw [lowerExpr]
      simp only [Bind.bind, EStateM.bind, lowerAssign, failed]
  · intro assigned t lowered
    have agree (same : assignNodeKind op = binopToNodeKind op) :
        AssignmentsAgree order op name value s :=
      assignmentsAgree_of_sameKind sane lowered same
    have differ (compound : op ≠ .eq)
        (differs : assignNodeKind op ≠ binopToNodeKind op) :
        ¬ AssignmentsAgree order op name value s :=
      not_assignmentsAgree_of_otherKind sane lowered compound differs
    simp only [assignOps, List.mem_cons, List.not_mem_nil, or_false] at isAssign
    rcases isAssign with rfl | rfl | rfl | rfl | rfl
    · exact iff_of_true (agree rfl) (Or.inl rfl)
    · exact iff_of_true (agree rfl) (Or.inr rfl)
    · exact iff_of_false (differ (by decide) (by decide)) (by decide)
    · exact iff_of_false (differ (by decide) (by decide)) (by decide)
    · exact iff_of_false (differ (by decide) (by decide)) (by decide)

end Assignments

/-- The state in which the body of a function of one parameter is lowered. -/
def oneParam : LowerState :=
  finalState (enterFunction [.param 1 (.pathExpr [9]) true]) {}

theorem oneParam_sane : Sane oneParam where
  table := nofun
  bound entry member id same := by
    have only : entry = (1, some 3) := List.mem_singleton.mp member
    subst only
    cases same
    decide

/-- `x += 1` means the same in both positions. -/
theorem plusEq_agrees :
    AssignmentsAgree .asListed .plusEq 1 (.intLit 1) oneParam :=
  ((assignments_agree_iff (by decide) oneParam_sane).2 _ _ rfl).mpr (Or.inr rfl)

/-- `x -= 1` as an expression adds. -/
theorem minusEq_disagrees :
    ¬ AssignmentsAgree .asListed .minusEq 1 (.intLit 1) oneParam :=
  not_assignmentsAgree_of_otherKind oneParam_sane rfl (by decide) (by decide)

end Lowerer

end Aegis
