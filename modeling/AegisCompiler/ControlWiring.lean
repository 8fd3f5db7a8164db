import AegisCompiler.DataValues

/-!
# Control is used once

Every control value of a graph has at most one use.  While a loop is being
built, slot 0 of its header does not count: the back edge is still missing.
The headers of such loops and their phis are called pending.
-/

namespace Aegis

namespace ControlWalk

/-- A use of a control value that counts. -/
def Uses (pend : NodeId → Prop) (g : Graph) (user slot ctrl : Nat) : Prop :=
  ReadsCtrl (g.node user) slot ctrl ∧ ¬ (pend user ∧ slot = 0)

def Unused (pend : NodeId → Prop) (g : Graph) (ctrl : Nat) : Prop :=
  ∀ user slot, ¬ Uses pend g user slot ctrl

/-- The wiring of a graph under construction. -/
structure Wired (pend : NodeId → Prop) (g : Graph) : Prop where
  ordered : Ordered g
  below : ∀ user slot ctrl, ReadsCtrl (g.node user) slot ctrl → ctrl < g.size
  single : ∀ user slot user' slot' ctrl, Uses pend g user slot ctrl →
    Uses pend g user' slot' ctrl → user = user' ∧ slot = slot'
  projs : ∀ first second, (g.node first).kind = .proj →
    (g.node second).kind = .proj →
    (g.node first).inputs = (g.node second).inputs →
    (g.node first).payload.projIndex = (g.node second).payload.projIndex →
    first = second
  pending : ∀ id, pend id → id < g.size ∧
    ((g.node id).kind = .loop ∨ (g.node id).kind = .phi)

theorem not_readsCtrl_of_kind {n : Node} {slot ctrl : Nat}
    (isIf : n.kind ≠ .ifNode) (isReturn : n.kind ≠ .returnNode)
    (isRegion : n.kind ≠ .region) (isLoop : n.kind ≠ .loop) :
    ¬ ReadsCtrl n slot ctrl := by
  simp [ReadsCtrl, isIf, isReturn, isRegion, isLoop]

theorem not_readsCtrl_default {slot ctrl : Nat} :
    ¬ ReadsCtrl default slot ctrl :=
  not_readsCtrl_of_kind nofun nofun nofun nofun

variable {pend pend' : NodeId → Prop} {g h : Graph} {n : Node}

theorem readsCtrl_inside {user slot ctrl : Nat}
    (reads : ReadsCtrl (g.node user) slot ctrl) : user < g.size := by
  by_contra outside
  rw [g.node_of_size_le (Nat.le_of_not_lt outside)] at reads
  exact not_readsCtrl_default reads

theorem kind_proj_inside {id : NodeId} (proj : (g.node id).kind = .proj) :
    id < g.size := by
  by_contra outside
  rw [g.node_of_size_le (Nat.le_of_not_lt outside)] at proj
  cases proj

/-- Nodes that come after a wired graph are not pending. -/
theorem Wired.not_pending (wired : Wired pend g) {id : Nat}
    (new : g.size ≤ id) : ¬ pend id :=
  fun isPending => Nat.not_lt_of_le new (wired.pending id isPending).1

/-- What a new node has to satisfy for the graph to stay wired. -/
structure Fits (pend pend' : NodeId → Prop) (g : Graph) (n : Node) :
    Prop where
  placed : WellPlaced g.size n
  same : ∀ id : Nat, id < g.size → (pend' id ↔ pend id)
  range : ∀ id, pend' id → id ≤ g.size
  opened : pend' g.size → n.kind = .loop ∨ n.kind = .phi
  below : ∀ slot ctrl, ReadsCtrl n slot ctrl → ctrl < g.size
  free : ∀ slot ctrl, ReadsCtrl n slot ctrl → ¬ (pend' g.size ∧ slot = 0) →
    Unused pend g ctrl
  once : ∀ slot slot' ctrl, ReadsCtrl n slot ctrl → ReadsCtrl n slot' ctrl →
    ¬ (pend' g.size ∧ slot = 0) → ¬ (pend' g.size ∧ slot' = 0) → slot = slot'
  proj : n.kind = .proj → ∀ old, (g.node old).kind = .proj →
    (g.node old).inputs = n.inputs →
    (g.node old).payload.projIndex ≠ n.payload.projIndex

theorem uses_pushNode (fits : Fits pend pend' g n) {user slot ctrl : Nat} :
    Uses pend' (g.pushNode n).2 user slot ctrl ↔
      Uses pend g user slot ctrl ∨
        user = g.size ∧ ReadsCtrl n slot ctrl ∧
          ¬ (pend' g.size ∧ slot = 0) := by
  by_cases last : user = g.size
  · subst last
    have outside : ¬ Uses pend g g.size slot ctrl :=
      fun uses => Nat.lt_irrefl _ (readsCtrl_inside uses.1)
    rw [or_iff_right outside]
    simp [Uses]
  · by_cases inside : user < g.size
    · simp [Uses, Graph.pushNode_node, last, fits.same user inside]
    · have outside : ¬ Uses pend g user slot ctrl :=
        fun uses => inside (readsCtrl_inside uses.1)
      have outsideToo : ¬ Uses pend' (g.pushNode n).2 user slot ctrl := by
        intro uses
        have within := readsCtrl_inside uses.1
        rw [Graph.pushNode_size] at within
        exact last (Nat.le_antisymm (Nat.le_of_lt_succ within)
          (Nat.le_of_not_lt inside))
      simp [outside, outsideToo, last]

theorem Wired.push (wired : Wired pend g) (fits : Fits pend pend' g n) :
    Wired pend' (g.pushNode n).2 where
  ordered := by
    intro id inside
    rw [Graph.pushNode_size] at inside
    rw [Graph.pushNode_node]
    split
    case isTrue last =>
      rw [last]
      exact fits.placed
    case isFalse old =>
      exact wired.ordered id
        (Nat.lt_of_le_of_ne (Nat.le_of_lt_succ inside) old)
  below := by
    intro user slot ctrl reads
    rw [Graph.pushNode_size]
    rw [Graph.pushNode_node] at reads
    split at reads
    · exact Nat.lt_succ_of_lt (fits.below slot ctrl reads)
    · exact Nat.lt_succ_of_lt (wired.below user slot ctrl reads)
  single := by
    intro user slot user' slot' ctrl first second
    rw [uses_pushNode fits] at first second
    rcases first with first | ⟨rfl, first, counts⟩
    · rcases second with second | ⟨rfl, second, counts'⟩
      · exact wired.single _ _ _ _ _ first second
      · exact absurd first (fits.free _ _ second counts' _ _)
    · rcases second with second | ⟨rfl, second, counts'⟩
      · exact absurd second (fits.free _ _ first counts _ _)
      · exact ⟨rfl, fits.once _ _ _ first second counts counts'⟩
  projs := by
    intro first second firstProj secondProj inputs index
    simp only [Graph.pushNode_node] at firstProj secondProj inputs index
    split at firstProj <;> split at secondProj
    case isTrue.isTrue left right => rw [left, right]
    case isTrue.isFalse left right =>
      rw [if_pos left, if_neg right] at inputs index
      exact absurd index.symm
        (fits.proj firstProj second secondProj inputs.symm)
    case isFalse.isTrue left right =>
      rw [if_neg left, if_pos right] at inputs index
      exact absurd index (fits.proj secondProj first firstProj inputs)
    case isFalse.isFalse left right =>
      rw [if_neg left, if_neg right] at inputs index
      exact wired.projs first second firstProj secondProj inputs index
  pending := by
    intro id isPending
    rw [Graph.pushNode_size, Graph.pushNode_node]
    split
    case isTrue last =>
      subst last
      exact ⟨Nat.lt_succ_self _, fits.opened isPending⟩
    case isFalse old =>
      have inside : id < g.size :=
        Nat.lt_of_le_of_ne (fits.range id isPending) old
      obtain ⟨_, kind⟩ :=
        wired.pending id ((fits.same id inside).mp isPending)
      exact ⟨Nat.lt_succ_of_lt inside, kind⟩

/-- A control value the new node does not read stays unused. -/
theorem Unused.push {ctrl : Nat} (unused : Unused pend g ctrl)
    (fits : Fits pend pend' g n) (unread : ∀ slot, ¬ ReadsCtrl n slot ctrl) :
    Unused pend' (g.pushNode n).2 ctrl := by
  intro user slot uses
  rw [uses_pushNode fits] at uses
  rcases uses with old | ⟨-, reads, -⟩
  · exact unused user slot old
  · exact unread slot reads

/-- Nothing uses the new node yet. -/
theorem Wired.unused_new (wired : Wired pend g)
    (fits : Fits pend pend' g n) : Unused pend' (g.pushNode n).2 g.size := by
  intro user slot uses
  rw [uses_pushNode fits] at uses
  rcases uses with ⟨reads, -⟩ | ⟨-, reads, -⟩
  · exact Nat.lt_irrefl _ (wired.below user slot _ reads)
  · exact Nat.lt_irrefl _ (fits.below slot _ reads)

/-- A node that neither reads control nor is a projection or a pending phi
always fits. -/
theorem Fits.data (wired : Wired pend g) (placed : WellPlaced g.size n)
    (unread : ∀ slot ctrl, ¬ ReadsCtrl n slot ctrl) (notProj : n.kind ≠ .proj) :
    Fits pend pend g n where
  placed := placed
  same _ _ := Iff.rfl
  range id isPending := Nat.le_of_lt (wired.pending id isPending).1
  opened isPending :=
    absurd (wired.pending _ isPending).1 (Nat.lt_irrefl _)
  below slot ctrl reads := absurd reads (unread slot ctrl)
  free slot ctrl reads := absurd reads (unread slot ctrl)
  once slot _ ctrl reads := absurd reads (unread slot ctrl)
  proj isProj := absurd isProj notProj

/-- Setting a value slot of a phi changes no use of control. -/
theorem Wired.setPhiInput (wired : Wired pend g) {phi slot : Nat}
    {new : NodeRef} (isPhi : (g.node phi).kind = .phi) (notHead : slot ≠ 0) :
    Wired pend (g.setInput phi slot new) ∧
      ∀ ctrl, Unused pend g ctrl → Unused pend (g.setInput phi slot new) ctrl := by
  have kinds (id : NodeId) :
      ((g.setInput phi slot new).node id).kind = (g.node id).kind := by
    rw [Graph.setInput_node]
    split <;> rfl
  have others {id : NodeId} (other : (g.node id).kind ≠ .phi) :
      (g.setInput phi slot new).node id = g.node id := by
    rw [Graph.setInput_node, if_neg]
    rintro rfl
    exact other isPhi
  have reads (user use ctrl : Nat) :
      ReadsCtrl ((g.setInput phi slot new).node user) use ctrl ↔
        ReadsCtrl (g.node user) use ctrl := by
    by_cases same : (g.node user).kind = .phi
    · have sameAfter := (kinds user).trans same
      simp [ReadsCtrl, same, sameAfter]
    · rw [others same]
  have uses (user use ctrl : Nat) :
      Uses pend (g.setInput phi slot new) user use ctrl ↔
        Uses pend g user use ctrl := by
    rw [Uses, Uses, reads]
  refine ⟨⟨?_, ?_, ?_, ?_, ?_⟩, ?_⟩
  · intro id inside
    rw [Graph.setInput_size] at inside
    have placed := wired.ordered id inside
    by_cases same : id = phi
    · subst same
      have isPhiAfter := (kinds id).trans isPhi
      refine ⟨?_, ?_, ?_, fun _ => ?_⟩
      · simp [isPhiAfter, NodeKind.isBinop]
      · simp [isPhiAfter, NodeKind.isUnop]
      · simp [isPhiAfter]
      · obtain ⟨region, head, before⟩ := placed.phi isPhi
        refine ⟨region, ?_, before⟩
        rw [Graph.setInput_node, if_pos rfl, ← head]
        cases inputs : (g.node id).inputs with
        | nil => simp [inputs] at head
        | cons first rest =>
            obtain ⟨below, rfl⟩ := Nat.exists_eq_succ_of_ne_zero notHead
            rfl
    · rw [Graph.setInput_node, if_neg same]
      exact placed
  · intro user use ctrl readsAfter
    rw [Graph.setInput_size]
    exact wired.below user use ctrl ((reads user use ctrl).mp readsAfter)
  · intro user use user' use' ctrl first second
    exact wired.single _ _ _ _ _ ((uses _ _ _).mp first) ((uses _ _ _).mp second)
  · intro first second firstProj secondProj inputs index
    rw [kinds] at firstProj secondProj
    rw [others (by simp [firstProj]), others (by simp [secondProj])]
      at inputs index
    exact wired.projs first second firstProj secondProj inputs index
  · intro id isPending
    rw [Graph.setInput_size, kinds]
    exact wired.pending id isPending
  · intro ctrl unused user use usesAfter
    exact unused user use ((uses _ _ _).mp usesAfter)

/-- Wiring the back edge of a header uses up the control at the end of the
body; the header and its phis are no longer pending. -/
theorem Wired.closeHeader (wired : Wired pend' g) {loop back : Nat}
    (isLoop : (g.node loop).kind = .loop) (pendingLoop : pend' loop)
    (still : ∀ id, pend id → pend' id) (notStill : ¬ pend loop)
    (closed : ∀ id, pend' id → pend id ∨ id = loop ∨ (g.node id).kind = .phi)
    (inside : back < g.size) (free : Unused pend' g back)
    (slots : 0 < (g.node loop).inputs.length) :
    Wired pend (g.setInput loop 0 (some back)) ∧
      ∀ ctrl, ctrl ≠ back → Unused pend' g ctrl →
        Unused pend (g.setInput loop 0 (some back)) ctrl := by
  have kinds (id : NodeId) :
      ((g.setInput loop 0 (some back)).node id).kind = (g.node id).kind := by
    rw [Graph.setInput_node]
    split <;> rfl
  have others {id : NodeId} (other : id ≠ loop) :
      (g.setInput loop 0 (some back)).node id = g.node id := by
    rw [Graph.setInput_node, if_neg other]
  have uses {user slot ctrl : Nat}
      (used : Uses pend (g.setInput loop 0 (some back)) user slot ctrl) :
      Uses pend' g user slot ctrl ∨ user = loop ∧ slot = 0 ∧ ctrl = back := by
    obtain ⟨reads, counts⟩ := used
    by_cases same : user = loop
    · subst same
      rw [Graph.setInput_node, if_pos rfl] at reads
      obtain ⟨kind, read⟩ := reads
      by_cases first : slot = 0
      · subst first
        refine Or.inr ⟨rfl, rfl, ?_⟩
        simp only [List.getD_eq_getElem?_getD, List.getElem?_set_self slots,
          Option.getD_some, Option.some.injEq] at read
        exact read.symm
      · refine Or.inl ⟨⟨kind, ?_⟩, fun both => first both.2⟩
        simpa [List.getD_eq_getElem?_getD, List.getElem?_set_ne (Ne.symm first)]
          using read
    · rw [others same] at reads
      refine Or.inl ⟨reads, fun both => ?_⟩
      rcases closed user both.1 with isPending | isLoop | isPhi
      · exact counts ⟨isPending, both.2⟩
      · exact same isLoop
      · exact not_readsCtrl_of_kind (by simp [isPhi]) (by simp [isPhi])
          (by simp [isPhi]) (by simp [isPhi]) reads
  refine ⟨⟨?_, ?_, ?_, ?_, ?_⟩, ?_⟩
  · intro id within
    rw [Graph.setInput_size] at within
    by_cases same : id = loop
    · subst same
      have isLoopAfter := (kinds id).trans isLoop
      constructor <;> simp [isLoopAfter, NodeKind.isBinop, NodeKind.isUnop]
    · rw [others same]
      exact wired.ordered id within
  · intro user slot ctrl reads
    rw [Graph.setInput_size]
    by_cases same : user = loop
    · subst same
      rw [Graph.setInput_node, if_pos rfl] at reads
      obtain ⟨kind, read⟩ := reads
      by_cases first : slot = 0
      · subst first
        simp only [List.getD_eq_getElem?_getD, List.getElem?_set_self slots,
          Option.getD_some, Option.some.injEq] at read
        exact read ▸ inside
      · refine wired.below user slot ctrl ⟨kind, ?_⟩
        simpa [List.getD_eq_getElem?_getD, List.getElem?_set_ne (Ne.symm first)]
          using read
    · rw [others same] at reads
      exact wired.below user slot ctrl reads
  · intro user slot user' slot' ctrl first second
    rcases uses first with old | ⟨rfl, rfl, rfl⟩
    · rcases uses second with old' | ⟨rfl, rfl, rfl⟩
      · exact wired.single _ _ _ _ _ old old'
      · exact absurd old (free _ _)
    · rcases uses second with old' | ⟨rfl, rfl, _⟩
      · exact absurd old' (free _ _)
      · exact ⟨rfl, rfl⟩
  · intro first second firstProj secondProj inputs index
    rw [kinds] at firstProj secondProj
    have firstOther : first ≠ loop := by
      rintro rfl
      simp [firstProj] at isLoop
    have secondOther : second ≠ loop := by
      rintro rfl
      simp [secondProj] at isLoop
    rw [others firstOther, others secondOther] at inputs index
    exact wired.projs first second firstProj secondProj inputs index
  · intro id isPending
    rw [Graph.setInput_size, kinds]
    exact wired.pending id (still id isPending)
  · intro ctrl differs unused user slot used
    rcases uses used with old | ⟨-, -, same⟩
    · exact unused user slot old
    · exact differs same

end ControlWalk

end Aegis
