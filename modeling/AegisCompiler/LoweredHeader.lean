import AegisCompiler.AccumulatorPhis

/-!
# Opening and closing a loop header

The header and its phis are consecutive nodes.  They are pending while the
body is lowered, and closing the loop wires their back edges.
-/

namespace Aegis

namespace Lowerer

open ControlWalk TypeChecker AstEval

/-- A header and its phis are pending as well. -/
def withHeader (pend : NodeId → Prop) (base count : Nat) : NodeId → Prop :=
  fun id => pend id ∨ base ≤ id ∧ id < base + count

variable {pend : NodeId → Prop} {base count : Nat}

theorem withHeader_zero : withHeader pend base 0 = pend := by
  funext id
  have empty : ¬ (base ≤ id ∧ id < base) :=
    fun both => Nat.not_lt_of_le both.1 both.2
  simp [withHeader, empty]

/-- The next node of a header fits. -/
theorem Fits.header {g : Graph} {n : Node}
    (wired : Wired (withHeader pend base count) g)
    (size : g.size = base + count) (kind : n.kind = .loop ∨ n.kind = .phi)
    (placed : WellPlaced g.size n)
    (free : ∀ slot ctrl, ReadsCtrl n slot ctrl → slot ≠ 0 →
      ctrl < g.size ∧ Unused (withHeader pend base count) g ctrl)
    (below : ∀ ctrl, ReadsCtrl n 0 ctrl → ctrl < g.size)
    (once : ∀ slot ctrl, ReadsCtrl n slot ctrl → slot ≤ 1) :
    Fits (withHeader pend base count) (withHeader pend base (count + 1)) g n where
  placed := placed
  same id inside := by
    rw [size] at inside
    exact or_congr_right (and_congr_right fun _ =>
      ⟨fun _ => inside, Nat.lt_succ_of_lt⟩)
  range id isPending := by
    rcases isPending with old | ⟨-, new⟩
    · exact Nat.le_of_lt (wired.pending id (Or.inl old)).1
    · rw [size]
      exact Nat.le_of_lt_succ new
  opened _ := kind
  below slot ctrl reads := by
    by_cases first : slot = 0
    · subst first
      exact below ctrl reads
    · exact (free slot ctrl reads first).1
  free slot ctrl reads counts := by
    refine (free slot ctrl reads fun first => counts ⟨Or.inr ?_, first⟩).2
    rw [size]
    exact ⟨Nat.le_add_right _ _, Nat.lt_succ_self _⟩
  once slot slot' ctrl reads reads' counts counts' := by
    have isPending : withHeader pend base (count + 1) g.size := by
      rw [size]
      exact Or.inr ⟨Nat.le_add_right _ _, Nat.lt_succ_self _⟩
    have one (slot : Nat) (low : slot ≤ 1)
        (counts : ¬ (withHeader pend base (count + 1) g.size ∧ slot = 0)) :
        slot = 1 :=
      Nat.le_antisymm low (Nat.pos_of_ne_zero fun zero =>
        counts ⟨isPending, zero⟩)
    rw [one slot (once slot ctrl reads) counts,
      one slot' (once slot' ctrl reads') counts']
  proj isProj := by
    rcases kind with same | same <;> simp [same] at isProj

/-- The header phis of the accumulators were created. -/
structure HeaderPhis (pend : NodeId → Prop) (base count : Nat)
    (frame : TypeChecker.Frame) (names : List SymbolId)
    (accPhis : List (SymbolId × NodeId)) (s t : LowerState) : Prop where
  quiet : Quiet s t
  size : t.graph.size = s.graph.size + names.length
  table : t.table = s.table
  ready : Ready (withHeader pend base (count + names.length)) frame
    { t with ctrl := none }
  kinds : ∀ id : Nat, s.graph.size ≤ id → id < t.graph.size →
    (t.graph.node id).kind = .phi
  names : accPhis.map Prod.fst = names
  distinct : (accPhis.map Prod.snd).Nodup
  bound : AccBound accPhis s.bindings t.bindings
  node : ∀ name phi, (name, phi) ∈ accPhis → s.graph.size ≤ phi ∧
    phi < t.graph.size ∧ ∃ entry, s.bindings.get name = some (some entry) ∧
      entry < s.graph.size ∧
      t.graph.node phi = phiNodeOf (some base) [some entry, none]

/-- The new nodes fit behind the header. -/
theorem makeAccPhis_ready {frame : TypeChecker.Frame} {names : List SymbolId}
    {s : LowerState}
    (ready : Ready (withHeader pend base count) frame { s with ctrl := none })
    (size : s.graph.size = base + count) (opened : 0 < count)
    (bound : ∀ name ∈ names, name ∈ s.bindings.names) :
    ∃ accPhis t, makeAccPhis base names s = .ok accPhis t ∧ Quiet s t ∧
      t.graph.size = s.graph.size + names.length ∧
      Ready (withHeader pend base (count + names.length)) frame { t with ctrl := none } ∧
      ∀ id : Nat, s.graph.size ≤ id → id < t.graph.size →
        (t.graph.node id).kind = .phi := by
  induction names generalizing s count with
  | nil =>
      refine ⟨[], s, rfl, Quiet.refl s, rfl, ready, ?_⟩
      exact fun id new inside => absurd inside (Nat.not_lt_of_le new)
  | cons name names ih =>
      obtain ⟨entry, found, entryInside⟩ : ∃ id,
          s.bindings.get name = some (some id) ∧ id < s.graph.size :=
        ready.get (bound name List.mem_cons_self)
      let n := phiNodeOf (some base) [some entry, none]
      let next := withAccPhi base name (some entry) s
      have quiet : Quiet s next := by
        have quiet := Quiet.pushed s (n := n) fun _ _ => not_readsCtrl_phiNodeOf
        exact ⟨quiet.size, quiet.old, quiet.quiet, rfl, rfl⟩
      have nextSize : next.graph.size = s.graph.size + 1 := pushed_size s _
      have below : base < s.graph.size := by
        rw [size]
        exact Nat.lt_add_of_pos_right opened
      have fits : Fits (withHeader pend base count)
          (withHeader pend base (count + 1)) s.graph n := by
        refine Fits.header ready.wired size (Or.inr rfl)
          (wellPlaced_phiNodeOf below _) ?_ ?_ ?_
        · exact fun _ _ reads => absurd reads not_readsCtrl_phiNodeOf
        · exact fun _ reads => absurd reads not_readsCtrl_phiNodeOf
        · exact fun _ _ reads => absurd reads not_readsCtrl_phiNodeOf
      have here : s.graph.size < next.graph.size := nextSize ▸ Nat.lt_succ_self _
      have nextReady : Ready (withHeader pend base (count + 1)) frame
          { next with ctrl := none } :=
        (ready.pushed fits fun _ _ _ => not_readsCtrl_phiNodeOf).bindName here
          fun _ seen => Or.inl seen
      obtain ⟨rest, t, ran, later, size', ready', kinds⟩ := ih nextReady
        (nextSize.trans (by rw [size]; rfl)) (Nat.succ_pos _)
        fun other member => Bindings.mem_names_insert.mpr
          (Or.inl (bound other (List.mem_cons_of_mem _ member)))
      refine ⟨(name, s.graph.size) :: rest, t, ?_, quiet.trans later, ?_, ?_, ?_⟩
      · rw [makeAccPhis, run_bind (boundOrZero_bound found), run_make, run_bindName]
        refine (run_bind ran).trans ?_
        rfl
      · rw [size', nextSize, List.length_cons]
        omega
      · rw [List.length_cons, Nat.add_comm names.length 1, ← Nat.add_assoc]
        exact ready'
      · intro id new inside
        by_cases last : id = s.graph.size
        · rw [last, later.old s.graph.size here]
          exact congrArg Node.kind (pushed_new s n)
        · exact kinds id (nextSize ▸ Nat.lt_of_le_of_ne new (Ne.symm last)) inside

theorem makeAccPhis_header {frame : TypeChecker.Frame} {names : List SymbolId}
    (nodup : names.Nodup) {s : LowerState}
    (ready : Ready (withHeader pend base count) frame { s with ctrl := none })
    (size : s.graph.size = base + count) (opened : 0 < count)
    (bound : ∀ name ∈ names, name ∈ s.bindings.names) :
    ∃ accPhis t, makeAccPhis base names s = .ok accPhis t ∧
      HeaderPhis pend base count frame names accPhis s t := by
  obtain ⟨accPhis, t, ran, quiet, grown, later, kinds⟩ :=
    makeAccPhis_ready ready size opened bound
  obtain ⟨_, _, again, made⟩ := @makeAccPhis_made base names nodup s bound
  rw [ran] at again
  cases again
  refine ⟨accPhis, t, ran, quiet, grown, made.table, later, kinds, made.names,
    made.distinct, made.bound, fun name phi member => ?_⟩
  obtain ⟨new, inside, ref, found, node⟩ := made.node name phi member
  obtain ⟨entry, rfl, old⟩ := ready.bound name ref found
  exact ⟨new, inside, entry, found, old, node⟩

/-- A control that was unused before quiet nodes of the header stays
unused. -/
theorem Quiet.unused_header {s t : LowerState} (quiet : Quiet s t) {extra : Nat}
    {ctrl : Nat}
    (unused : Unused (withHeader pend base count) s.graph ctrl) :
    Unused (withHeader pend base (count + extra)) t.graph ctrl := by
  rintro user slot ⟨reads, counts⟩
  by_cases old : user < s.graph.size
  · rw [quiet.old user old] at reads
    refine unused user slot ⟨reads, fun both => counts ⟨?_, both.2⟩⟩
    refine both.1.imp_right fun range => ⟨range.1, ?_⟩
    exact Nat.lt_of_lt_of_le range.2 (Nat.add_le_add_left
      (Nat.le_add_right _ _) _)
  · exact quiet.quiet user slot ctrl (Nat.le_of_not_lt old) reads

/-- The recorded operations are neither headers nor phis. -/
theorem TableSound.setInput {g : Graph} {table : HashCons}
    (sound : TableSound g table) {id : NodeId} (slot : Nat) (ref : NodeRef)
    (kind : (g.node id).kind = .loop ∨ (g.node id).kind = .phi) :
    TableSound (g.setInput id slot ref) table := by
  intro entry member
  obtain ⟨inside, sameKind, isOp, hash⟩ := sound entry member
  have other : entry.2 ≠ id := by
    rintro rfl
    rw [sameKind] at kind
    rcases kind with isLoop | isPhi
    · simp [isLoop, NodeKind.isBinop, NodeKind.isUnop] at isOp
    · simp [isPhi, NodeKind.isBinop, NodeKind.isUnop] at isOp
  rw [Graph.setInput_size, Graph.setInput_node, if_neg other]
  exact ⟨inside, sameKind, isOp, hash⟩

theorem Ready.rewirePhi {pend : NodeId → Prop} {frame : TypeChecker.Frame}
    {s : LowerState} (ready : Ready pend frame s) {phi slot : Nat}
    {ref : NodeRef} (isPhi : (s.graph.node phi).kind = .phi)
    (notHead : slot ≠ 0) : Ready pend frame (rewired s phi slot ref) := by
  obtain ⟨wired, unused⟩ : Wired pend (s.graph.setInput phi slot ref) ∧
      ∀ c, Unused pend s.graph c →
        Unused pend (s.graph.setInput phi slot ref) c :=
    ready.wired.setPhiInput isPhi notHead
  refine ⟨wired, ready.table.setInput slot ref (Or.inr isPhi), ?_, ready.names,
    ready.sees, ?_⟩
  · intro name bound found
    obtain ⟨id, same, inside⟩ := ready.bound name bound found
    refine ⟨id, same, ?_⟩
    show id < (s.graph.setInput phi slot ref).size
    rw [Graph.setInput_size]
    exact inside
  · intro c here
    obtain ⟨inside, free⟩ := ready.ctrl c here
    refine ⟨?_, unused c free⟩
    show c < (s.graph.setInput phi slot ref).size
    rw [Graph.setInput_size]
    exact inside

/-- The header phis got their back edges and nothing else changed. -/
structure BackWired (pend : NodeId → Prop) (frame : TypeChecker.Frame)
    (phis : List (SymbolId × NodeId)) (s t : LowerState) : Prop where
  rest : t = { s with graph := t.graph }
  size : t.graph.size = s.graph.size
  ready : Ready pend frame t
  unused : ∀ c, Unused pend s.graph c → Unused pend t.graph c
  other : ∀ id, id ∉ phis.map Prod.snd → t.graph.node id = s.graph.node id
  back : ∀ name phi, (name, phi) ∈ phis →
    ∃ id, s.bindings.get name = some (some id) ∧ id < s.graph.size ∧
      t.graph.node phi = { s.graph.node phi with
        inputs := (s.graph.node phi).inputs.set 2 (some id) }

theorem BackWired.kind {pend : NodeId → Prop} {frame : TypeChecker.Frame}
    {phis : List (SymbolId × NodeId)} {s t : LowerState}
    (done : BackWired pend frame phis s t) (id : NodeId) :
    (t.graph.node id).kind = (s.graph.node id).kind := by
  by_cases isPhi : id ∈ phis.map Prod.snd
  · obtain ⟨⟨name, _⟩, member, rfl⟩ := List.mem_map.mp isPhi
    obtain ⟨back, -, -, node⟩ := done.back name _ member
    rw [node]
  · rw [done.other id isPhi]

theorem wireAccPhis_ready {pend : NodeId → Prop} {frame : TypeChecker.Frame}
    {phis : List (SymbolId × NodeId)} {s : LowerState} (ready : Ready pend frame s)
    (arePhis : ∀ name phi, (name, phi) ∈ phis →
      name ∈ s.bindings.names ∧ (s.graph.node phi).kind = .phi) :
    ∃ t, wireAccPhis phis s = .ok () t ∧ Ready pend frame t ∧
      ∀ c, Unused pend s.graph c → Unused pend t.graph c := by
  induction phis generalizing s with
  | nil => exact ⟨s, rfl, ready, fun _ free => free⟩
  | cons entry rest ih =>
      obtain ⟨name, phi⟩ := entry
      obtain ⟨bound, isPhi⟩ := arePhis name phi List.mem_cons_self
      obtain ⟨id, found, inside⟩ := ready.get bound
      have next : Ready pend frame (rewired s phi 2 (some id)) :=
        ready.rewirePhi isPhi Nat.two_pos.ne'
      obtain ⟨t, ran, later, unused⟩ := ih next fun other otherPhi member => by
        obtain ⟨otherBound, otherIsPhi⟩ :=
          arePhis other otherPhi (List.mem_cons_of_mem _ member)
        exact ⟨otherBound, (rewired_kind ..).trans otherIsPhi⟩
      refine ⟨t, ?_, later, fun c free => unused c ?_⟩
      · rw [wireAccPhis, run_bind (boundOrZero_bound found), run_setInput]
        exact ran
      · exact (ready.wired.setPhiInput isPhi Nat.two_pos.ne').2 c free

theorem wireAccPhis_backWired {pend : NodeId → Prop}
    {frame : TypeChecker.Frame} {phis : List (SymbolId × NodeId)}
    (distinct : (phis.map Prod.snd).Nodup) {s : LowerState}
    (ready : Ready pend frame s)
    (arePhis : ∀ name phi, (name, phi) ∈ phis →
      name ∈ s.bindings.names ∧ (s.graph.node phi).kind = .phi) :
    ∃ t, wireAccPhis phis s = .ok () t ∧ BackWired pend frame phis s t := by
  obtain ⟨t, ran, later, unused⟩ := wireAccPhis_ready ready arePhis
  obtain ⟨_, again, wired⟩ :=
    wireAccPhis_wired distinct fun acc member => (arePhis acc.1 acc.2 member).1
  rw [ran] at again
  cases again
  refine ⟨t, ran, wired.rest, wired.size, later, unused, wired.other,
    fun name phi member => ?_⟩
  obtain ⟨ref, found, node⟩ := wired.back name phi member
  obtain ⟨id, rfl, inside⟩ := ready.bound name ref found
  exact ⟨id, found, inside, node⟩

theorem bindAccPhis_ready {pend : NodeId → Prop} {frame : TypeChecker.Frame}
    {phis : List (SymbolId × NodeId)} {s : LowerState} (ready : Ready pend frame s)
    (inside : ∀ name phi, (name, phi) ∈ phis → phi < s.graph.size) :
    ∃ bindings, bindAccPhis phis s = .ok () { s with bindings } ∧
      Ready pend frame { s with bindings } := by
  induction phis generalizing s with
  | nil => exact ⟨s.bindings, rfl, ready⟩
  | cons entry rest ih =>
      obtain ⟨name, phi⟩ := entry
      have next : Ready pend frame
          { s with bindings := s.bindings.insert name (some phi) } :=
        ready.bindName (inside name phi List.mem_cons_self) fun _ seen => Or.inl seen
      obtain ⟨bindings, ran, done⟩ := ih next fun other otherPhi member =>
        inside other otherPhi (List.mem_cons_of_mem _ member)
      exact ⟨bindings, ran, done⟩

/-- The accumulators are bound to their phis again. -/
theorem bindAccPhis_bound {pend : NodeId → Prop} {frame : TypeChecker.Frame}
    {phis : List (SymbolId × NodeId)} (distinct : (phis.map Prod.fst).Nodup)
    {s : LowerState} (ready : Ready pend frame s)
    (inside : ∀ name phi, (name, phi) ∈ phis → phi < s.graph.size) :
    ∃ bindings, bindAccPhis phis s = .ok () { s with bindings } ∧
      Ready pend frame { s with bindings } ∧
      AccBound phis s.bindings bindings := by
  obtain ⟨bindings, ran, later⟩ := bindAccPhis_ready ready inside
  obtain ⟨_, again, bound⟩ := bindAccPhis_accBound distinct s
  rw [ran] at again
  cases again
  exact ⟨bindings, ran, later, bound⟩

end Lowerer

end Aegis
