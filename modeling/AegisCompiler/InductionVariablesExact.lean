import AegisCompiler.CallWalkRuns
import AegisCompiler.DerivedInductions

/-!
# Induction variable simplification is exact

The pass trusts the classification of a phi as a recurrence.  When every phi
whose product it may replace really advances itself, the pass keeps what the
function returns, and every derived phi is the product at every entry of its
loop.
-/

namespace Aegis

namespace InductionVariables

open CallWalk
open Lowerer (InputsInside InsideGraph WellMade lowerFresh lowered_ok)
open Scev (scevOf Recurs)

/-- The same node, or a product and a later phi. -/
def Kept (g h : Graph) (id id' : NodeId) : Prop :=
  id = id' ∨ ((g.node id).kind = .mul ∧ g.size ≤ id' ∧ (h.node id').kind = .phi)

/-- The pass appends nodes and redirects reads of products. -/
structure Evolves (g h : Graph) : Prop where
  size : g.size ≤ h.size
  kind : ∀ id, id < g.size → (h.node id).kind = (g.node id).kind
  payload : ∀ id, id < g.size → (h.node id).payload = (g.node id).payload
  inputs : ∀ id, id < g.size → List.Forall₂ (RefAlike (Kept g h))
    (g.node id).inputs (h.node id).inputs
  new : ∀ id, g.size ≤ id → IsAdded (h.node id).kind
  users : ∀ mul user, mul < g.size → (g.node mul).kind = .mul →
    (h.usersSnapshot mul).count user ≤ (g.usersSnapshot mul).count user

theorem Evolves.refl (g : Graph) : Evolves g g where
  size := le_rfl
  kind _ _ := rfl
  payload _ _ := rfl
  inputs id _ := List.forall₂_same.mpr fun ref _ => by
    cases ref with
    | none => exact Or.inl ⟨rfl, rfl⟩
    | some id => exact Or.inr ⟨id, id, rfl, rfl, Or.inl rfl⟩
  new id beyond := by
    rw [g.node_of_size_le beyond]
    exact Or.inr (Or.inr (Or.inr rfl))
  users _ _ _ _ := le_rfl

theorem Evolves.trans {g h i : Graph} (first : Evolves g h) (second : Evolves h i)
    (inside : InputsInside g) (inside' : InputsInside h) : Evolves g i where
  size := first.size.trans second.size
  kind id old := (second.kind id (Nat.lt_of_lt_of_le old first.size)).trans
    (first.kind id old)
  payload id old := (second.payload id (Nat.lt_of_lt_of_le old first.size)).trans
    (first.payload id old)
  inputs id old := by
    have left := first.inputs id old
    have right := second.inputs id (Nat.lt_of_lt_of_le old first.size)
    have known := inside id
    have known' := inside' id
    generalize (g.node id).inputs = refs at left known
    generalize (h.node id).inputs = refs' at left right known'
    generalize (i.node id).inputs = refs'' at right
    induction left generalizing refs'' with
    | nil =>
        cases right
        exact .nil
    | @cons a b as bs pair _ ih =>
        cases right with
        | cons pair' rest =>
            refine .cons ?_ (ih (fun ref member =>
              known ref (List.mem_cons_of_mem _ member))
              (fun ref member => known' ref (List.mem_cons_of_mem _ member)) _ rest)
            rcases pair with ⟨rfl, rfl⟩ | ⟨x, y, rfl, rfl, kept⟩
            · rcases pair' with ⟨-, rfl⟩ | ⟨_, _, same, -⟩
              · exact Or.inl ⟨rfl, rfl⟩
              · cases same
            · obtain ⟨z, rfl, kept'⟩ := pair'.of_some
              have xInside := known _ List.mem_cons_self x rfl
              have yInside := known' _ List.mem_cons_self y rfl
              refine Or.inr ⟨x, z, rfl, rfl, ?_⟩
              rcases kept with rfl | ⟨isMul, new, isPhi⟩
              · rcases kept' with rfl | ⟨isMul, new, isPhi⟩
                · exact Or.inl rfl
                · rw [first.kind x xInside] at isMul
                  exact Or.inr ⟨isMul, first.size.trans new, isPhi⟩
              · rcases kept' with rfl | ⟨isMul', -⟩
                · exact Or.inr ⟨isMul, new, (second.kind y yInside).trans isPhi⟩
                · rw [isPhi] at isMul'
                  cases isMul'
  new id beyond := by
    by_cases old : id < h.size
    · rw [second.kind id old]
      exact first.new id beyond
    · exact second.new id (Nat.le_of_not_lt old)
  users mul user old isMul :=
    (second.users mul user (Nat.lt_of_lt_of_le old first.size)
      ((first.kind mul old).trans isMul)).trans (first.users mul user old isMul)

section Unread

variable {g h : Graph} (evolves : Evolves g h)
include evolves

/-- Inputs that name no product stay. -/
theorem Evolves.inputs_eq {id : NodeId} (old : id < g.size)
    (noProduct : ∀ input, some input ∈ (g.node id).inputs →
      (g.node input).kind ≠ .mul) :
    (h.node id).inputs = (g.node id).inputs := by
  have pairs := evolves.inputs id old
  generalize (g.node id).inputs = refs at pairs noProduct
  generalize (h.node id).inputs = refs' at pairs
  induction pairs with
  | nil => rfl
  | cons pair _ ih =>
      rw [ih fun input member => noProduct input (List.mem_cons_of_mem _ member)]
      rcases pair with ⟨rfl, rfl⟩ | ⟨a, b, rfl, rfl, rfl | ⟨isMul, -⟩⟩
      · rfl
      · rfl
      · exact absurd isMul (noProduct a List.mem_cons_self)

theorem Evolves.isConstant {id : NodeId} {v : Word} (constant : IsConstant g id v) :
    IsConstant h id v := by
  have old := Graph.inside_of_kind constant.1 (by simp)
  exact ⟨(evolves.kind id old).trans constant.1,
    (evolves.payload id old).trans constant.2⟩

/-- A recurrence stays one. -/
theorem Evolves.advances {loop phi : NodeId} {start step : Word}
    (isLoop : (g.node loop).kind = .loop)
    (advances : Advances g loop phi start step) : Advances h loop phi start step := by
  obtain ⟨isPhi, entry, back, stepId, inputs, first, isAdd, operands, last⟩ :=
    advances
  have phiOld := Graph.inside_of_kind isPhi (by simp)
  have backOld := Graph.inside_of_kind isAdd (by simp)
  have phiInputs := evolves.inputs_eq phiOld fun input member => by
    rw [inputs] at member
    simp only [List.mem_cons, Option.some.injEq, List.not_mem_nil, or_false]
      at member
    rcases member with rfl | rfl | rfl
    · simp [isLoop]
    · simp [first.1]
    · simp [isAdd]
  have backInputs := evolves.inputs_eq backOld fun input member => by
    have either : input = phi ∨ input = stepId := by
      rcases operands with operands | operands <;> rw [operands] at member <;>
        simp at member <;> tauto
    rcases either with rfl | rfl
    · simp [isPhi]
    · simp [last.1]
  refine ⟨(evolves.kind phi phiOld).trans isPhi, entry, back, stepId,
    phiInputs.trans inputs, evolves.isConstant first,
    (evolves.kind back backOld).trans isAdd, ?_, evolves.isConstant last⟩
  rwa [backInputs]

/-- A product of an old phi and a constant is an old one. -/
theorem Evolves.product (inside : InputsInside g) {phi mul k : NodeId}
    (phiOld : phi < g.size) (product : IsProduct h phi mul k) :
    mul < g.size ∧ IsProduct g phi mul k := by
  obtain ⟨isMul, operands, constant⟩ := product
  have mulOld : mul < g.size := by
    by_contra beyond
    have added := evolves.new mul (Nat.le_of_not_lt beyond)
    rw [isMul] at added
    simp [IsAdded] at added
  have pairs := evolves.inputs mul mulOld
  have ofPhi {a : NodeRef} (pair : RefAlike (Kept g h) a (some phi)) :
      a = some phi := by
    rcases pair with ⟨-, same⟩ | ⟨x, y, rfl, same, kept⟩
    · cases same
    · cases same
      rcases kept with rfl | ⟨-, beyond, -⟩
      · rfl
      · exact absurd phiOld (Nat.not_lt_of_le beyond)
  have ofConstant {a : NodeRef} (pair : RefAlike (Kept g h) a (some k)) :
      a = some k := by
    rcases pair with ⟨-, same⟩ | ⟨x, y, rfl, same, kept⟩
    · cases same
    · cases same
      rcases kept with rfl | ⟨-, -, isPhi⟩
      · rfl
      · rw [constant] at isPhi
        cases isPhi
  have same : (g.node mul).inputs = (h.node mul).inputs ∧
      some k ∈ (g.node mul).inputs := by
    generalize (g.node mul).inputs = refs at pairs ⊢
    rcases operands with operands | operands
    · rw [operands] at pairs ⊢
      rcases pairs with _ | ⟨first, _ | ⟨second, _ | _⟩⟩
      rw [ofPhi first, ofConstant second]
      simp
    · rw [operands] at pairs ⊢
      rcases pairs with _ | ⟨first, _ | ⟨second, _ | _⟩⟩
      rw [ofConstant first, ofPhi second]
      simp
  have kOld := inside mul _ same.2 k rfl
  refine ⟨mulOld, (evolves.kind mul mulOld).symm.trans isMul, ?_,
    (evolves.kind k kOld).symm.trans constant⟩
  rwa [same.1]

end Unread

theorem isProduct_of_factorOf {g : Graph} (fit : Fit g) {phi mul k : NodeId}
    (found : factorOf g phi mul = some k) : IsProduct g phi mul k := by
  unfold factorOf at found
  split_ifs at found with outside dead other
  have isMul := not_not.mp other
  have isPure : (g.node mul).dataIns = (g.node mul).inputs := by
    rw [Node.dataIns, Node.isPure, fit.effects mul, isMul]
    rfl
  rw [isPure] at found
  split at found
  case h_1 first second operands =>
    split_ifs at found with onLeft onRight
    · obtain ⟨id, same, -, -, constant⟩ := liveConstant_iff.mp onLeft.2
      rw [found, Option.some.injEq] at same
      subst same
      exact ⟨isMul, Or.inl (by rw [operands, onLeft.1, found]), constant⟩
    · obtain ⟨id, same, -, -, constant⟩ := liveConstant_iff.mp onRight.2
      rw [found, Option.some.injEq] at same
      subst same
      exact ⟨isMul, Or.inr (by rw [operands, onRight.1, found]), constant⟩
  case h_2 => cases found

theorem factorOf_of_isProduct {g : Graph} (fit : Fit g)
    (noneDead : ∀ id, (g.node id).isDead = false) {phi mul k : NodeId}
    (isPhi : (g.node phi).kind = .phi) (product : IsProduct g phi mul k) :
    factorOf g phi mul = some k := by
  obtain ⟨isMul, operands, constant⟩ := product
  have inside := Graph.inside_of_kind isMul (by simp)
  have live := fit.liveConstant constant
  have phiNot : liveConstant g (some phi) = false := by
    by_contra live
    obtain ⟨id, same, -, -, constant⟩ := liveConstant_iff.mp (by simpa using live)
    cases same
    rw [isPhi] at constant
    cases constant
  have isPure : (g.node mul).dataIns = (g.node mul).inputs := by
    rw [Node.dataIns, Node.isPure, fit.effects mul, isMul]
    rfl
  unfold factorOf
  rw [if_neg (not_not.mpr inside), noneDead mul, if_neg (by decide),
    if_neg (not_not.mpr isMul), isPure]
  rcases operands with operands | operands <;> rw [operands]
  · simp [live]
  · simp [live, phiNot]

section Rewrite

variable {g : Graph} {loop phi mul k : NodeId} {start step : Word}
variable (fit : Fit g) (isLoop : (g.node loop).kind = .loop)
variable (source : Advances g loop phi start step)
variable (product : IsProduct g phi mul k)
include fit isLoop source product

omit isLoop product in
/-- A node that the rewrite looks at, before reads are redirected. -/
theorem made_inside (loopInside : loop < g.size) (id : NodeId) :
    (∀ input, some input ∈ ((makeDerived g loop phi k step).2.node id).inputs →
        input < g.size + 4) ∧
      ((makeDerived g loop phi k step).2.node id).effect =
        effectClassOf ((makeDerived g loop phi k step).2.node id).kind ∧
      (((makeDerived g loop phi k step).2.node id).isDead = true →
        ((makeDerived g loop phi k step).2.node id).kind = .mul) := by
  obtain ⟨entry, first, constant, -⟩ := source.entry
  have live := fit.liveConstant constant
  have alive {n : Node} (flags : n.flags = 0) : ¬ n.isDead = true := by
    rw [Node.isDead, flags, NodeFlags.has_zero]
    decide
  have below (n : Nat) (small : n < 4) : g.size + n < g.size + 4 :=
    Nat.add_lt_add_left small _
  rw [makeDerived_node loop k step first live]
  split_ifs
  · exact ⟨fun input member => absurd member List.not_mem_nil, rfl,
      fun dead => absurd dead (alive rfl)⟩
  · refine ⟨fun input member => ?_, rfl, fun dead => absurd dead (alive rfl)⟩
    simp only [List.mem_cons, Option.some.injEq, List.not_mem_nil, or_false]
      at member
    rcases member with rfl | rfl | rfl
    · exact Nat.lt_of_lt_of_le loopInside (Nat.le_add_right _ _)
    · exact below 0 (by decide)
    · exact below 3 (by decide)
  · exact ⟨fun input member => absurd member List.not_mem_nil, rfl,
      fun dead => absurd dead (alive rfl)⟩
  · refine ⟨fun input member => ?_, rfl, fun dead => absurd dead (alive rfl)⟩
    simp only [List.mem_cons, Option.some.injEq, List.not_mem_nil, or_false]
      at member
    rcases member with rfl | rfl
    · exact below 1 (by decide)
    · exact below 2 (by decide)
  · exact ⟨fun input member => Nat.lt_of_lt_of_le (fit.inside id _ member input rfl)
      (Nat.le_add_right _ _), fit.effects id, fit.dead id⟩

theorem rewritten_fit : Fit (rewritten g loop phi mul k step) := by
  obtain ⟨entry, first, constant, -⟩ := source.entry
  have live := fit.liveConstant constant
  have loopInside := Graph.inside_of_kind isLoop (by simp)
  have size := rewritten_size loop k step mul first live
  have made (id : NodeId) := made_inside (k := k) fit source loopInside id
  have node (id : NodeId) := rewritten_node loop k step mul first live id
  have startOld := (rewritten_old loop k step mul first live fit.nonempty).1.kind
  refine ⟨fun id ref member input same => ?_, ?_, startOld.trans fit.start,
    fun id => ?_, fun id dead => ?_⟩
  · subst same
    rw [size]
    rcases (node id).1.inputs with unchanged | mapped
    · rw [unchanged] at member
      exact (made id).1 input member
    · rw [mapped] at member
      obtain ⟨ref, old, same⟩ := List.mem_map.mp member
      split at same
      · cases same
        exact Nat.add_lt_add_left (by decide) _
      · subst same
        exact (made id).1 input old
  · rw [size]
    exact Nat.lt_of_lt_of_le fit.nonempty (Nat.le_add_right _ _)
  · rw [(node id).1.effect, (node id).1.kind, (made id).2.1]
  · rw [(node id).1.kind]
    by_cases same : id = mul
    · subst same
      have inside := Graph.inside_of_kind product.1 (by simp)
      have old := rewritten_old loop k step id first live inside
      rw [← (node id).1.kind, old.1.kind, product.1]
    · rw [(node id).2 same] at dead
      exact (made id).2.2 dead

omit product in
/-- No product gets a new user. -/
theorem rewritten_users {other : NodeId} (old : other < g.size)
    (isMul : (g.node other).kind = .mul) (user : NodeId) :
    ((rewritten g loop phi mul k step).usersSnapshot other).count user ≤
      (g.usersSnapshot other).count user := by
  obtain ⟨entry, first, constant, -⟩ := source.entry
  have live := fit.liveConstant constant
  have notLoop : loop ≠ other := by
    rintro rfl
    rw [isLoop] at isMul
    cases isMul
  have beyond (n : Nat) : g.size + n ≠ other := fun same =>
    Nat.not_lt_of_le (Nat.le_add_right g.size n) (same ▸ old)
  have made : ((makeDerived g loop phi k step).2.usersSnapshot other).count user ≤
      (g.usersSnapshot other).count user := by
    simp only [makeDerived, makeEntry, first, live, if_true, Graph.makeConstant,
      Graph.makePhi, Graph.makeBinop, Graph.makeNode, Graph.pushNode_fst,
      Graph.pushNode_size, Nat.add_assoc, Nat.reduceAdd]
    refine (Graph.setInput_users_count _ _ _ _ other user).trans ?_
    have zeroth := beyond 0
    simp only [Nat.add_zero] at zeroth
    simp [Graph.pushNode_users_count, notLoop, zeroth, beyond]
  rw [rewritten, Graph.markDead, Graph.setFlag, Graph.modifyNode_users]
  refine le_trans ?_ made
  refine List.foldlRecOn _
    (fun (g : Graph) user => g.swapInput user (some mul)
      (some (makeDerived _ loop phi k step).1))
    (motive := fun (h : Graph) => (h.usersSnapshot other).count user ≤
      ((makeDerived g loop phi k step).2.usersSnapshot other).count user)
    le_rfl fun h fewer swapped _ => ?_
  refine (Graph.swapInput_users_count _ _ _ _ other user ?_).trans fewer
  rw [(makeDerived_size loop k step first live).1]
  intro same
  exact beyond 1 (Option.some.inj same)

theorem rewritten_evolves : Evolves g (rewritten g loop phi mul k step) := by
  obtain ⟨entry, first, constant, -⟩ := source.entry
  have live := fit.liveConstant constant
  have made := rewritten_strengthens fit isLoop source product
  have size := rewritten_size loop k step mul first live
  refine ⟨?_, made.redirects.kind, made.redirects.payload, fun id old => ?_,
    fun id beyond => ?_, fun other user old isMul => ?_⟩
  · rw [size]
    exact Nat.le_add_right _ _
  · refine (made.redirects.inputs id old).imp fun _ _ pair => ?_
    rcases pair with ⟨rfl, rfl⟩ | ⟨a, b, rfl, rfl, ⟨rfl, -⟩ | ⟨rfl, rfl⟩⟩
    · exact Or.inl ⟨rfl, rfl⟩
    · exact Or.inr ⟨a, a, rfl, rfl, Or.inl rfl⟩
    · exact Or.inr ⟨_, _, rfl, rfl,
        Or.inr ⟨product.1, Nat.le_succ _, made.result.1⟩⟩
  · exact (rewritten_new loop k step mul first live beyond).1
  · exact rewritten_users fit isLoop source old isMul user

end Rewrite

/-- Some used product of the phi with a constant may be replaced. -/
def multiplied (g : Graph) (phi : NodeId) : Bool :=
  (List.range g.size).any fun mul =>
    (factorOf g phi mul).isSome && !(g.usersSnapshot mul).isEmpty

/-- The addition on the back edge of the phi reads the phi. -/
def advancesItself (g : Graph) (phi : NodeId) : Bool :=
  ((g.node phi).inputs.getD 2 none).any fun back =>
    (g.node back).dataIns.contains (some phi)

/-- Every phi that is classified as a recurrence and multiplied by a constant
advances itself. -/
def RecurrencesAdvance (g : Graph) : Prop :=
  ∀ phi, phi < g.size → (g.node phi).kind = .phi →
    (scevOf (Scev.run g) phi).kind = .addRec →
      (scevOf (Scev.run g) phi).step ≠ 0 → multiplied g phi = true →
        advancesItself g phi = true

instance (g : Graph) : Decidable (RecurrencesAdvance g) :=
  inferInstanceAs (Decidable (∀ phi, phi < g.size → _))

/-- A product of the first graph and its derived phi in the second. -/
def IsDerived (g h : Graph) (mul derived : NodeId) : Prop :=
  ∃ loop phi k start step, IsProduct g phi mul k ∧
    (g.node phi).kind = .phi ∧ (h.node loop).kind = .loop ∧
      Advances h loop phi start step ∧
        Advances h loop derived (start * (g.node k).payload)
          (step * (g.node k).payload)

/-- What the pass has done so far. -/
structure Progressed (g : Graph) (progress : Progress) : Prop where
  fit : Fit progress.graph
  evolves : Evolves g progress.graph
  returns : ∀ callees args value calls,
    CallWalk.Returns progress.graph callees args value calls ↔
      CallWalk.Returns g callees args value calls
  derived : ∀ entry ∈ progress.optimized,
    IsDerived g progress.graph entry.1 entry.2

section Run

variable {g : Graph} (fit : Fit g) (noneDead : ∀ id, (g.node id).isDead = false)
variable (advance : RecurrencesAdvance g)

/-- A recurrence whose addition reads the phi. -/
theorem Advances.of_recurs {g : Graph} (fit : Fit g) {loop phi back : NodeId}
    {expr : Scev.SCEVExpr} (recurs : Recurs g phi back expr)
    (itself : advancesItself g phi = true)
    (header : (g.node phi).ctrlIn = some loop) :
    Advances g loop phi expr.start expr.step := by
  obtain ⟨region, start, inputs, first, payload⟩ := recurs.entry
  obtain ⟨lhs, rhs, stepId, operands, step, last, stepPayload⟩ := recurs.step
  have isRegion : region = some loop := by
    rw [Node.ctrlIn, inputs] at header
    exact header
  have reads : some phi ∈ (g.node back).dataIns := by
    rw [advancesItself, inputs] at itself
    exact List.contains_iff_mem.mp itself
  have isPure : (g.node back).dataIns = (g.node back).inputs := by
    rw [Node.dataIns, Node.isPure, fit.effects back, recurs.isAdd]
    rfl
  rw [operands] at reads
  refine ⟨recurs.isPhi, start, back, stepId, by rw [inputs, isRegion],
    ⟨first, payload⟩, recurs.isAdd, ?_, ⟨last, stepPayload⟩⟩
  rw [← isPure, operands]
  unfold Scev.stepOperand at step
  split_ifs at step with onRight onLeft
  · subst step
    have isLhs : lhs = some phi := by
      rcases List.mem_cons.mp reads with same | member
      · exact same.symm
      · exact absurd (List.mem_singleton.mp member).symm onRight
    exact Or.inl (by rw [isLhs])
  · exact Or.inr (by rw [step, not_not.mp onRight])

/-- A property of the progress holds whether or not the pass has stopped. -/
def Outcome (holds : Progress → Prop) : Except Progress Progress → Prop
  | .ok progress => holds progress
  | .error progress => holds progress

theorem foldlM_outcome {α : Type} {holds : Progress → Prop}
    {visit : Progress → α → Except Progress Progress} (items : List α)
    (each : ∀ progress, ∀ item ∈ items, holds progress →
      Outcome holds (visit progress item))
    {progress : Progress} (start : holds progress) :
    Outcome holds (items.foldlM visit progress) := by
  induction items generalizing progress with
  | nil => exact start
  | cons item items ih =>
      have first := each progress item List.mem_cons_self start
      rw [List.foldlM_cons]
      cases visited : visit progress item with
      | ok next =>
          rw [visited] at first
          exact ih (fun progress item member =>
            each progress item (List.mem_cons_of_mem _ member)) first
      | error stopped =>
          rw [visited] at first
          exact first

include fit noneDead advance

theorem visitUser_progressed {progress : Progress}
    (sofar : Progressed g progress) {loop phi : NodeId}
    (isLoopOld : (g.node loop).kind = .loop) (isPhiOld : (g.node phi).kind = .phi)
    (header : (g.node phi).ctrlIn = some loop)
    (recurrent : (scevOf (Scev.run g) phi).kind = .addRec)
    (moving : (scevOf (Scev.run g) phi).step ≠ 0) (mul : NodeId) :
    Progressed g (visitUser loop phi (scevOf (Scev.run g) phi) progress mul) := by
  have evolves := sofar.evolves
  have phiOld := Graph.inside_of_kind isPhiOld (by simp)
  have isLoop := (evolves.kind loop
    (Graph.inside_of_kind isLoopOld (by simp))).trans isLoopOld
  unfold visitUser
  split
  case h_1 => exact sofar
  case h_2 k found =>
    split
    case isFalse => exact sofar
    case isTrue used =>
      have product := isProduct_of_factorOf sofar.fit found
      obtain ⟨mulOld, productOld⟩ := evolves.product fit.inside phiOld product
      have readsMul : (g.usersSnapshot mul).isEmpty = false := by
        obtain ⟨user, member, -⟩ := List.any_eq_true.mp used
        have positive := (List.count_pos_iff.mpr member).trans_le
          (evolves.users mul user mulOld productOld.1)
        rw [List.isEmpty_eq_false_iff_exists_mem]
        exact ⟨user, List.count_pos_iff.mp positive⟩
      have isMultiplied : multiplied g phi = true := by
        refine List.any_eq_true.mpr ⟨mul, List.mem_range.mpr mulOld, ?_⟩
        rw [factorOf_of_isProduct fit noneDead isPhiOld productOld, readsMul]
        rfl
      have itself := advance phi phiOld isPhiOld recurrent moving isMultiplied
      obtain ⟨back, recurs⟩ := Scev.recurs_of_scevOf isPhiOld recurrent
      have sourceOld := Advances.of_recurs fit recurs itself header
      have source := evolves.advances isLoopOld sourceOld
      have made := rewritten_strengthens sofar.fit isLoop source product
      have step := rewritten_evolves sofar.fit isLoop source product
      obtain ⟨entry, first, constant, -⟩ := source.entry
      have live := sofar.fit.liveConstant constant
      have derivedId := (makeDerived_size loop k
        (scevOf (Scev.run g) phi).step first live).1
      have kOld : k < g.size := Graph.inside_of_kind productOld.2.2 (by simp)
      refine ⟨rewritten_fit sofar.fit isLoop source product,
        evolves.trans step fit.inside sofar.fit.inside,
        fun callees args value calls =>
          made.returns_iff.trans (sofar.returns callees args value calls),
        fun entry member => ?_⟩
      rcases List.mem_append.mp member with before | new
      · obtain ⟨loop', phi', k', start', step', product', isPhi', isLoop',
          source', result'⟩ := sofar.derived entry before
        exact ⟨loop', phi', k', start', step', product', isPhi',
          (step.kind loop' (Graph.inside_of_kind isLoop' (by simp))).trans isLoop',
          step.advances isLoop' source', step.advances isLoop' result'⟩
      · cases List.mem_singleton.mp new
        have result := made.result
        rw [evolves.payload k kOld, ← derivedId] at result
        exact ⟨loop, phi, k, _, _, productOld, isPhiOld,
          (step.kind loop (Graph.inside_of_kind isLoop (by simp))).trans isLoop,
          step.advances isLoop source, result⟩

theorem visitPhi_progressed {progress : Progress}
    (sofar : Progressed g progress) {loop : NodeId}
    (isLoopOld : (g.node loop).kind = .loop) {phi : NodeId} (phiOld : phi < g.size) :
    Outcome (Progressed g) (visitPhi (Scev.run g) loop progress phi) := by
  unfold visitPhi
  simp only
  split_ifs with dead notPhi notHeader notRecurrent still spent
  all_goals first | exact sofar | skip
  -- A header phi of the graph at hand was one in the beginning.
  have evolves := sofar.evolves
  have loopOld := Graph.inside_of_kind isLoopOld (by simp)
  have isPhiOld := (evolves.kind phi phiOld).symm.trans (not_not.mp notPhi)
  have header : (g.node phi).ctrlIn = some loop := by
    have pair := refAlike_getD (evolves.inputs phi phiOld) 0
    change RefAlike _ (g.node phi).ctrlIn (progress.graph.node phi).ctrlIn at pair
    rw [not_not.mp notHeader] at pair
    rcases pair with ⟨-, same⟩ | ⟨a, b, onLeft, same, kept⟩
    · cases same
    · cases same
      rcases kept with rfl | ⟨-, beyond, -⟩
      · exact onLeft
      · exact absurd loopOld (Nat.not_lt_of_le beyond)
  exact List.foldlRecOn _ _ sofar fun progress before mul _ =>
    visitUser_progressed fit noneDead advance before isLoopOld isPhiOld header
      (not_not.mp notRecurrent) still mul

theorem visitLoop_progressed {progress : Progress}
    (sofar : Progressed g progress) {loop : NodeId} (loopOld : loop < g.size) :
    Outcome (Progressed g)
      (visitLoop (Scev.run g) (List.range g.size) progress loop) := by
  unfold visitLoop
  split_ifs with dead notLoop
  · exact sofar
  · exact sofar
  · have isLoopOld :=
      (sofar.evolves.kind loop loopOld).symm.trans (not_not.mp notLoop)
    exact foldlM_outcome _ (fun progress phi member before =>
      visitPhi_progressed fit noneDead advance before isLoopOld
        (List.mem_range.mp member)) sofar

theorem run_progressed : Progressed g (run g) := by
  have start : Progressed g { graph := g } :=
    ⟨fit, Evolves.refl g, fun _ _ _ _ => Iff.rfl,
      fun _ member => absurd member List.not_mem_nil⟩
  have finished : Outcome (Progressed g)
      ((List.range g.size).foldlM (visitLoop (Scev.run g) (List.range g.size))
        { graph := g }) := foldlM_outcome (List.range g.size)
    (fun progress loop member before =>
      visitLoop_progressed fit noneDead advance before (List.mem_range.mp member))
    start
  unfold run
  simp only
  split
  case h_1 done =>
    rw [done] at finished
    exact finished
  case h_2 stopped =>
    rw [stopped] at finished
    exact finished

end Run

theorem fit_of_wellMade {g : Graph} (well : WellMade g) :
    Fit g ∧ ∀ id, (g.node id).isDead = false := by
  have alive (id : NodeId) : (g.node id).isDead = false := by
    rw [Node.isDead, (well.made id).flags, NodeFlags.has_zero]
  refine ⟨⟨well.inside, well.nonempty, well.start,
    fun id => (well.made id).effect, fun id dead => ?_⟩, alive⟩
  rw [alive id] at dead
  cases dead

/-- On a lowered graph whose multiplied recurrences advance themselves, every
derived phi is the product with its source in every state of the walk, and the
function returns the same after the same calls. -/
theorem run_exact {order : TableOrder} {fn : Ast} {g : Graph}
    (lowered : lowerFresh order fn = .ok g) (advance : RecurrencesAdvance g)
    (callees : Callees) (args : List Word) :
    (∀ mul derived, (mul, derived) ∈ (run g).optimized →
      ∃ phi k, IsProduct g phi mul k ∧ (g.node phi).kind = .phi ∧
        ∀ ctrl pending held calls,
          Visits (run g).graph callees args (.walking ctrl pending held calls) →
            held derived = (held phi).map (· * (g.node k).payload)) ∧
      ∀ value calls, CallWalk.Returns (run g).graph callees args value calls ↔
        CallWalk.Returns g callees args value calls := by
  obtain ⟨fit, noneDead⟩ := fit_of_wellMade (Lowerer.lowerFresh_wellMade lowered)
  have progressed := run_progressed fit noneDead advance
  refine ⟨fun mul derived member => ?_, progressed.returns callees args⟩
  obtain ⟨loop, phi, k, start, step, product, isPhi, isLoop, source, result⟩ :=
    progressed.derived (mul, derived) member
  exact ⟨phi, k, product, isPhi, fun _ _ _ _ visits =>
    inRatio_visits isLoop source result visits⟩

/-- A loop whose accumulator 1 sums up three times the accumulator 3, which is
assigned from the accumulator 2. -/
def sumOfTriples (next : Ast) : Ast :=
  let number (value : Word) : Ast := .intLit value
  .fnDecl 0 [] none (.block [
    .letStmt 1 none (some (number 0)) true,
    .letStmt 2 none (some (number 0)) true,
    .letStmt 3 none (some (number 0)) true,
    .forStmt 4 (.rangeExpr (number 0) (number 3)) (.block [
      .assignExpr .eq (.ident 1) (.binaryExpr .plus (.ident 1)
        (.binaryExpr .star (.ident 3) (number 3))),
      .assignExpr .eq (.ident 3) (.binaryExpr .plus next (number 1)),
      .assignExpr .eq (.ident 2) (.binaryExpr .plus (.ident 2) (number 2))]),
    .returnStmt (some (.ident 1))]) false

/-- The accumulator 3 is the other accumulator plus one. -/
def misclassified : Graph := Lowerer.loweredGraph .asListed (sumOfTriples (.ident 2))

/-- The accumulator 3 is itself plus one. -/
def classified : Graph := Lowerer.loweredGraph .asListed (sumOfTriples (.ident 3))

/-- The pass takes a phi for a recurrence that does not advance itself, and the
function returns another value. -/
theorem misclassified_changes :
    lowerFresh .asListed (sumOfTriples (.ident 2)) = .ok misclassified ∧
      (run misclassified).optimized = [(18, 29)] ∧
      CallWalk.Returns misclassified (fun _ => 0) [] 12 [] ∧
      CallWalk.Returns (run misclassified).graph (fun _ => 0) [] 9 [] ∧
      ¬ CallWalk.Returns (run misclassified).graph (fun _ => 0) [] 12 [] ∧
      ¬ RecurrencesAdvance misclassified := by
  have ranBefore : returnsAt misclassified (fun _ => 0) [] 40 40 =
    some (12, []) := by decide +kernel
  have ranAfter : returnsAt (run misclassified).graph (fun _ => 0) [] 40 40 =
    some (9, []) := by decide +kernel
  have after := returns_of_returnsAt ranAfter
  refine ⟨lowered_ok (by decide +kernel), by decide +kernel,
    returns_of_returnsAt ranBefore, after, fun same => ?_, by decide +kernel⟩
  have equal := (after.unique same).1
  revert equal
  decide

theorem run_exact_classified :
    lowerFresh .asListed (sumOfTriples (.ident 3)) = .ok classified ∧
      RecurrencesAdvance classified ∧
      (run classified).optimized = [(18, 29)] ∧
      CallWalk.Returns (run classified).graph (fun _ => 0) [] 9 [] := by
  have lowered : lowerFresh .asListed (sumOfTriples (.ident 3)) = .ok classified :=
    lowered_ok (by decide +kernel)
  have advance : RecurrencesAdvance classified := by decide +kernel
  have ran : returnsAt classified (fun _ => 0) [] 40 40 = some (9, []) := by
    decide +kernel
  have before := returns_of_returnsAt ran
  exact ⟨lowered, advance, by decide +kernel,
    ((run_exact lowered advance (fun _ => 0) []).2 9 []).mpr before⟩

end InductionVariables

end Aegis
