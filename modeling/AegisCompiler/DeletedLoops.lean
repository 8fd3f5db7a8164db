import AegisCompiler.LoopDeletion
import AegisCompiler.LoopShape

/-!
# The edits that delete a loop

On a graph with complete user lists the loop passes take out exactly the loop:
its users read its entry and the replacement of its phi instead.
-/

namespace Aegis

namespace CallWalk

open Aegis.Graph (rename)

/-- The node keeps its operation, reads renamed inputs, and may be marked. -/
structure Edited (change : NodeRef → NodeRef) (marked : Prop) (n n' : Node) :
    Prop where
  kind : n'.kind = n.kind
  payload : n'.payload = n.payload
  inputs : n'.inputs = n.inputs.map change
  dead : n'.isDead = true ↔ n.isDead = true ∨ marked

theorem Edited.trans {first second : NodeRef → NodeRef} {marked later : Prop}
    {n n' n'' : Node} (before : Edited first marked n n')
    (after : Edited second later n' n'') :
    Edited (second ∘ first) (marked ∨ later) n n'' := by
  refine ⟨after.kind.trans before.kind, after.payload.trans before.payload, ?_, ?_⟩
  · rw [after.inputs, before.inputs, List.map_map]
  · rw [after.dead, before.dead, or_assoc]

theorem edited_swapIn {g : Graph} (listed : g.Listed) (old new user : NodeId) :
    Edited (rename old new) False (g.node user)
      ((g.swapIn (g.usersSnapshot old) old new).node user) := by
  rw [listed.swapIn_node (fun _ member => member)]
  exact ⟨rfl, rfl, rfl, by simp [Node.isDead]⟩

theorem edited_markAll (g : Graph) (ids : List NodeId) {user : NodeId}
    (inside : user < g.size) :
    Edited id (user ∈ ids) (g.node user) ((g.markAll ids).node user) := by
  rw [Graph.markAll_node]
  by_cases marked : user ∈ ids
  · rw [if_pos ⟨marked, inside⟩]
    refine ⟨rfl, rfl, by simp, ?_⟩
    simp [Node.isDead_setFlag, marked]
  · rw [if_neg fun both => marked both.1]
    exact ⟨rfl, rfl, by simp, by simp [marked]⟩

section Delete

variable {g : Graph} {pieces : LoopPieces} {exit body after entry new : NodeId}

/-- The nodes that are marked besides the control of the loop are data nodes. -/
structure Fits (g : Graph) (pieces : LoopPieces) : Prop where
  isPhi : (g.node pieces.phi).kind = .phi
  back : IsData (g.node pieces.back).kind
  cmp : ∀ cmp ∈ pieces.cmp, IsData (g.node cmp).kind

/-- A loop whose counter is advanced by an addition and compared to leave fits. -/
theorem Fits.of_kinds (isPhi : (g.node pieces.phi).kind = .phi)
    (back : (g.node pieces.back).kind = .add)
    (cmp : ∀ cmp ∈ pieces.cmp, (g.node cmp).kind.isExitCmp = true) : Fits g pieces where
  isPhi := isPhi
  back := by
    rw [back]
    simp [IsData, NodeKind.isCall]
  cmp id member := by
    have isCmp := cmp id member
    cases kind : (g.node id).kind <;>
      simp [kind, NodeKind.isExitCmp, IsData, NodeKind.isCall] at isCmp ⊢

theorem Fits.entry_ne (fits : Fits g pieces)
    (idle : IdleLoop g pieces.loop exit body after entry) : entry ≠ pieces.phi := by
  rintro rfl
  exact isControl_not_data idle.control (fits.isPhi ▸ isData_phi)

variable (listed : g.Listed)
variable (found : pieces.exit = some ⟨exit, some body, some after⟩)
variable (first : (g.node pieces.loop).inputs.getD 1 none = some entry)
variable (apart : entry ≠ pieces.phi)
include listed found first apart

omit listed first apart in
@[simp]
theorem deleteLoop_size : (g.deleteLoop pieces new).size = g.size := by
  simp only [Graph.deleteLoop, found, Graph.retireExit, Graph.markAll_size]
  split <;> simp

variable (new) in
theorem edited_deleteLoop {user : NodeId} (inside : user < g.size) :
    Edited (rename after entry ∘ rename pieces.phi new)
      (user ∈ [pieces.loop, pieces.phi, pieces.back] ++ pieces.cmp.toList ∨
        user ∈ [body, after, exit])
      (g.node user) ((g.deleteLoop pieces new).node user) := by
  let marks := [pieces.loop, pieces.phi, pieces.back] ++ pieces.cmp.toList
  let swapped := g.swapIn (g.usersSnapshot pieces.phi) pieces.phi new
  let marked := swapped.markAll marks
  have listedMarked : marked.Listed :=
    (listed.swapIn _ pieces.phi new).markAll marks
  have one (user : NodeId) (inside : user < g.size) :
      Edited (rename pieces.phi new) (user ∈ marks) (g.node user) (marked.node user) := by
    have swap := edited_swapIn listed pieces.phi new user
    have insideSwapped : user < swapped.size := by simpa [swapped] using inside
    have mark := edited_markAll swapped marks insideSwapped
    simpa using swap.trans mark
  have entryStays : (marked.node pieces.loop).inputs.getD 1 none = some entry := by
    have loopInside : pieces.loop < g.size := by
      by_contra outside
      rw [g.node_of_size_le (Nat.le_of_not_lt outside)] at first
      cases first
    rw [(one _ loopInside).inputs, List.getD_eq_getElem?_getD, List.getElem?_map]
    rw [List.getD_eq_getElem?_getD] at first
    cases slot : (g.node pieces.loop).inputs[1]? with
    | none => simp [slot] at first
    | some ref =>
        rw [slot, Option.getD_some] at first
        rw [first, Option.map_some, Option.getD_some, rename, if_neg]
        rwa [Option.some.injEq]
  have same : g.deleteLoop pieces new =
      (marked.swapIn (marked.usersSnapshot after) after entry).markAll
        [body, after, exit] := by
    rw [Graph.deleteLoop, found]
    change marked.retireExit pieces.loop _ = _
    rw [Graph.retireExit, entryStays]
    rfl
  rw [same]
  have swap := edited_swapIn listedMarked after entry user
  have insideMarked :
      user < (marked.swapIn (marked.usersSnapshot after) after entry).size := by
    simpa [marked, swapped] using inside
  have mark := edited_markAll _ [body, after, exit] insideMarked
  simpa [marks] using ((one user inside).trans swap).trans mark

/-- Deleting a loop takes it out of the graph. -/
theorem deleteLoop_deletes
    (isProj : (g.node after).kind = .proj) (fits : Fits g pieces)
    (header : (g.node pieces.phi).ctrlIn = some pieces.loop)
    (newData : IsData (g.node new).kind) (notStart : new ≠ kStartNodeId) :
    DeletesLoop g (g.deleteLoop pieces new) pieces.loop exit body after entry
      pieces.phi new := by
  have size : (g.deleteLoop pieces new).size = g.size := deleteLoop_size found
  have edited {user : NodeId} (inside : user < g.size) :=
    edited_deleteLoop new listed found first apart inside
  have notAfter : new ≠ after := by
    rintro rfl
    exact newData.2.2.2.2.1 isProj
  refine ⟨⟨Nat.le_of_eq size.symm, fun user beyond => ?_,
    fun user inside => (edited inside).kind, fun user inside => (edited inside).payload,
    fun user inside steers => ?_, fun user inside => ?_⟩, fits.isPhi, header,
    fun _ => newData, notStart⟩
  · rw [Graph.node_of_size_le _ (size ▸ beyond)]
    simp [IsData, NodeKind.isCall, default]
  · rw [(edited inside).dead]
    refine or_congr_right ⟨fun marked => ?_, fun ofLoop => ?_⟩
    · simp only [List.mem_append, List.mem_cons, List.not_mem_nil, or_false,
        Option.mem_toList] at marked
      rcases marked with ((rfl | rfl | rfl) | cmp) | (rfl | rfl | rfl)
      · exact Or.inl rfl
      · exact absurd (fits.isPhi ▸ isData_phi) steers
      · exact absurd fits.back steers
      · exact absurd (fits.cmp user cmp) steers
      · exact Or.inr (Or.inr (Or.inl rfl))
      · exact Or.inr (Or.inr (Or.inr rfl))
      · exact Or.inr (Or.inl rfl)
    · rcases ofLoop with rfl | rfl | rfl | rfl <;> simp
  · rw [(edited inside).inputs]
    refine List.map_congr_left fun ref _ => ?_
    cases ref with
    | none => rfl
    | some source =>
        simp only [Function.comp_apply, rename, Option.map_some, withoutLoop,
          Option.some.injEq]
        by_cases isPhi : source = pieces.phi
        · simp [isPhi, notAfter]
        · by_cases isAfter : source = after
          · subst isAfter
            simp [isPhi]
          · simp [isPhi, isAfter]

end Delete

/-- A graph to which data nodes were appended before a loop was deleted. -/
theorem DeletesLoop.of_append {g grown h : Graph}
    {loop exit body after entry phi new : NodeId}
    (deletes : DeletesLoop grown h loop exit body after entry phi new)
    (longer : g.size ≤ grown.size)
    (same : ∀ id, id < g.size → grown.node id = g.node id)
    (added : ∀ id, g.size ≤ id → IsData (grown.node id).kind ∧
      (grown.node id).kind ≠ .phi)
    (inside : phi < g.size) :
    DeletesLoop g h loop exit body after entry phi new where
  renames := by
    have renames := deletes.renames
    have below {id : NodeId} (old : id < g.size) := Nat.lt_of_lt_of_le old longer
    refine ⟨Nat.le_trans longer renames.size, fun id beyond => ?_, fun id old => ?_,
      fun id old => ?_, fun id old steers => ?_, fun id old => ?_⟩
    · by_cases middle : id < grown.size
      · rw [renames.kind id middle]
        exact added id beyond
      · exact renames.added id (Nat.le_of_not_lt middle)
    · rw [renames.kind id (below old), same id old]
    · rw [renames.payload id (below old), same id old]
    · rw [← same id old] at steers ⊢
      exact renames.dead id (below old) steers
    · rw [renames.inputs id (below old), same id old]
  isPhi := same phi inside ▸ deletes.isPhi
  header := same phi inside ▸ deletes.header
  newData old := same new old ▸ deletes.newData (Nat.lt_of_lt_of_le old longer)
  notStart := deletes.notStart

/-- The loop stands between its entry and what follows it, and nothing else
observes its phis. -/
def Detached (g : Graph) (pieces : LoopPieces) : Prop :=
  ∃ exit body after entry, pieces.exit = some ⟨exit, some body, some after⟩ ∧
    IdleLoop g pieces.loop exit body after entry ∧
    (g.node pieces.phi).ctrlIn = some pieces.loop ∧
    Unobserved g pieces.loop exit after

/-- The set holds the node if it is a phi of the loop or computed from members. -/
def CoversNode (g : Graph) (loop after : NodeId) (cover : List NodeId)
    (id : NodeId) : Prop :=
  ((g.node id).kind = .phi →
    (g.node id).ctrlIn = some loop ∨ (g.node id).ctrlIn = some after → id ∈ cover) ∧
    ((∃ source ∈ cover, some source ∈ operands (g.node id)) →
      (g.node id).kind ≠ .ifNode → (g.node id).kind.isCall = false →
        (g.node id).kind ≠ .returnNode → id ∈ cover)

instance (g : Graph) (loop after : NodeId) (cover : List NodeId) (id : NodeId) :
    Decidable (CoversNode g loop after cover id) :=
  inferInstanceAs (Decidable (_ ∧ _))

/-- The set holds whatever depends on the loop, and nothing else observes a
member. -/
def Covers (g : Graph) (loop exit after : NodeId) (cover : List NodeId) : Prop :=
  (∀ id, id < g.size → CoversNode g loop after cover id) ∧
    ∀ user, user < g.size → (g.node user).isDead = false → user ≠ exit →
      ∀ source ∈ cover, some source ∉ observed (g.node user)

instance (g : Graph) (loop exit after : NodeId) (cover : List NodeId) :
    Decidable (Covers g loop exit after cover) :=
  inferInstanceAs (Decidable (_ ∧ _))

theorem Covers.unobserved {g : Graph} {loop exit after : NodeId}
    {cover : List NodeId} (covers : Covers g loop exit after cover) :
    Unobserved g loop exit after := by
  have inside {id : NodeId} (depends : Depends g loop after id) : id ∈ cover := by
    induction depends with
    | phi isPhi header =>
        exact (covers.1 _ (Graph.inside_of_kind isPhi (by simp))).1 isPhi header
    | @operand id source data reads _ ih =>
        have below : id < g.size := by
          by_contra outside
          rw [g.node_of_size_le (Nat.le_of_not_lt outside)] at reads
          simp [operands, default] at reads
        have plain : (g.node id).kind ≠ .ifNode ∧
            (g.node id).kind.isCall = false ∧ (g.node id).kind ≠ .returnNode := by
          rcases data with data | isProj
          · exact ⟨data.1, data.2.2.2.2.2.2, data.2.1⟩
          · simp [isProj, NodeKind.isCall]
        exact (covers.1 id below).2 ⟨source, ih, reads⟩ plain.1 plain.2.1 plain.2.2
  exact fun user below live notExit source seen depends =>
    covers.2 user below live notExit source (inside depends) seen

instance (g : Graph) (loop exit body after entry : NodeId) :
    Decidable (IdleLoop g loop exit body after entry) :=
  decidable_of_iff
    ((g.node loop).kind = .loop ∧ (g.node exit).kind = .ifNode ∧
      (g.node loop).inputs = [some body, some entry] ∧
      consumers g entry = [loop] ∧ consumers g loop = [exit] ∧
      consumers g body = [loop] ∧ projs g exit 0 = [body] ∧
      projs g exit 1 = [after] ∧ callsAt g loop = [] ∧ callsAt g body = [] ∧
      (∀ call ∈ callsAt g entry, ∀ later ∈ callsAt g after, call < later) ∧
      (g.node kStartNodeId).kind = .start ∧ entry ≠ after ∧
      ((g.node entry).kind = .proj ∨ (g.node entry).kind = .region ∨
        (g.node entry).kind = .loop))
    ⟨fun ⟨a, b, c, d, e, f, h, i, j, k, l, m, n, o⟩ =>
      ⟨a, b, c, d, e, f, h, i, j, k, l, m, n, o⟩,
    fun ⟨a, b, c, d, e, f, h, i, j, k, l, m, n, o⟩ =>
      ⟨a, b, c, d, e, f, h, i, j, k, l, m, n, o⟩⟩

/-- The loop with these pieces is detached, as the set shows. -/
def checkDetached (exit : LoopExit) (entry : NodeId) (cover : List NodeId)
    (g : Graph) (pieces : LoopPieces) : Bool :=
  decide (pieces.exit = some exit) &&
    decide ((g.node pieces.phi).ctrlIn = some pieces.loop) &&
      match exit.body, exit.after with
      | some body, some after =>
          decide (IdleLoop g pieces.loop exit.branch body after entry) &&
            decide (Covers g pieces.loop exit.branch after cover)
      | _, _ => false

theorem detached_of_check {exit : LoopExit} {entry : NodeId} {cover : List NodeId}
    (g : Graph) (pieces : LoopPieces)
    (checked : checkDetached exit entry cover g pieces = true) :
    Detached g pieces := by
  obtain ⟨branch, body, after⟩ := exit
  simp only [checkDetached, Bool.and_eq_true, decide_eq_true_eq] at checked
  obtain ⟨⟨found, header⟩, rest⟩ := checked
  split at rest
  case h_1 body after =>
    rw [Bool.and_eq_true, decide_eq_true_eq, decide_eq_true_eq] at rest
    exact ⟨branch, body, after, entry, found, rest.1, header, rest.2.unobserved⟩
  case h_2 => cases rest

end CallWalk

end Aegis
