import AegisCompiler.EscapeAnalysis
import AegisCompiler.GlobalValueNumbering
import AegisCompiler.GraphVerify

/-!
# Promoted allocations under value numbering

A promoted allocation is pure, so value numbering looks at it.  Two allocations become one
exactly when they are promoted alike and nothing in their keys tells them apart.
-/

namespace Aegis

namespace EscapeAnalysis

/-- The node that a node is rewritten to by value numbering, or the node itself. -/
def standsFor (g : Graph) (id : NodeId) : NodeId :=
  ((Gvn.numbering g).rewriteMap.getD id none).getD id

/-- Nothing that value numbering looks at tells two allocations apart: they are promoted, or
they have been pure before, and have the same type, payload and hash of inputs. -/
structure Twins (g : Graph) (a b : NodeId) : Prop where
  fate : Escapes g a ↔ Escapes g b
  kept : Escapes g a → (g.node a).isPure = true ∧ (g.node b).isPure = true
  typeId : (g.node a).typeId = (g.node b).typeId
  payload : (g.node a).payload = (g.node b).payload
  inputs : hashInputs (g.node a).inputs = hashInputs (g.node b).inputs

/-- The key of a live allocation after the pass, if value numbering looks at it. -/
def allocKey (g : Graph) (id : NodeId) : Option HashKey :=
  if escapes g id then
    if (g.node id).isPure then
      some ⟨.alloc, (g.node id).typeId, (g.node id).payload, hashInputs (g.node id).inputs⟩
    else none
  else
    some ⟨.stackAlloc, (g.node id).typeId, (g.node id).payload, hashInputs (g.node id).inputs⟩

theorem insideKey_alloc {g : Graph} {id : NodeId} (live : LiveAlloc g id) :
    Gvn.insideKey (run g).1 id = allocKey g id := by
  obtain ⟨inside, alive, kind⟩ := live
  have size := (run_promoted g).size
  apply Option.ext
  intro key
  rw [Gvn.insideKey_eq_some, Gvn.IsNumbered, size, run_node]
  cases fate : escapes g id with
  | false =>
      have node : promoted g id = promote (g.node id) :=
        if_pos ⟨⟨inside, alive, kind⟩, fate⟩
      have dead : (promote (g.node id)).isDead = false := (promote_isDead _).trans alive
      rw [node, allocKey, fate, if_neg Bool.false_ne_true]
      constructor
      · rintro ⟨-, rfl⟩
        rfl
      · rintro ⟨⟩
        exact ⟨⟨inside, dead, rfl, NodeKind.noConfusion⟩, rfl⟩
  | true =>
      have node : promoted g id = g.node id := by
        rw [promoted, if_neg]
        rintro ⟨-, kept⟩
        rw [fate] at kept
        cases kept
      rw [node, allocKey, fate, if_pos rfl, kind]
      constructor
      · rintro ⟨⟨-, -, pure, -⟩, rfl⟩
        rw [if_pos pure]
      · split
        case isTrue pure =>
          rintro ⟨⟩
          exact ⟨⟨inside, alive, pure, NodeKind.noConfusion⟩, rfl⟩
        case isFalse =>
          intro impossible
          cases impossible

/-- The keys of two allocations are the same exactly for twins. -/
theorem allocKey_same_iff {g : Graph} {a b : NodeId} (first : LiveAlloc g a)
    (second : LiveAlloc g b) :
    (∃ key, allocKey g a = some key ∧ allocKey g b = some key) ↔ Twins g a b := by
  have fateA := escapes_iff first.1
  have fateB := escapes_iff second.1
  unfold allocKey
  constructor
  · rintro ⟨key, keyA, keyB⟩
    cases escA : escapes g a <;> cases escB : escapes g b <;>
      rw [escA] at keyA fateA <;> rw [escB] at keyB fateB
    case false.false =>
      simp only [Bool.false_eq_true, if_false, false_iff] at keyA keyB fateA fateB
      obtain ⟨-, typeId, payload, inputs⟩ :=
        HashKey.mk.inj (Option.some.inj (keyA.trans keyB.symm))
      exact ⟨iff_of_false fateA fateB, fun escapes => absurd escapes fateA, typeId, payload,
        inputs⟩
    case false.true =>
      simp only [Bool.false_eq_true, if_false, if_true] at keyA keyB
      split at keyB
      case isTrue =>
        obtain ⟨kind, -⟩ := HashKey.mk.inj (Option.some.inj (keyA.trans keyB.symm))
        cases kind
      case isFalse => cases keyB
    case true.false =>
      simp only [Bool.false_eq_true, if_false, if_true] at keyA keyB
      split at keyA
      case isTrue =>
        obtain ⟨kind, -⟩ := HashKey.mk.inj (Option.some.inj (keyA.trans keyB.symm))
        cases kind
      case isFalse => cases keyA
    case true.true =>
      simp only [if_true, true_iff] at keyA keyB fateA fateB
      split at keyA
      case isFalse => cases keyA
      case isTrue pureA =>
        split at keyB
        case isFalse => cases keyB
        case isTrue pureB =>
          obtain ⟨-, typeId, payload, inputs⟩ :=
            HashKey.mk.inj (Option.some.inj (keyA.trans keyB.symm))
          exact ⟨iff_of_true fateA fateB, fun _ => ⟨pureA, pureB⟩, typeId, payload, inputs⟩
  · intro twins
    rw [twins.typeId, twins.payload, twins.inputs]
    by_cases escaping : Escapes g a
    · obtain ⟨pureA, pureB⟩ := twins.kept escaping
      rw [fateA.mpr escaping, fateB.mpr (twins.fate.mp escaping), pureA, pureB]
      exact ⟨_, rfl, rfl⟩
    · have quietA : escapes g a = false := Bool.eq_false_iff.mpr (mt fateA.mp escaping)
      have quietB : escapes g b = false :=
        Bool.eq_false_iff.mpr (mt fateB.mp (mt twins.fate.mpr escaping))
      rw [quietA, quietB]
      exact ⟨_, rfl, rfl⟩

/-- Different live allocations stay different under escape analysis and value numbering
exactly when no two of them are twins. -/
theorem allocs_apart_iff (g : Graph) :
    (∀ a b, LiveAlloc g a → LiveAlloc g b → a ≠ b →
      standsFor (run g).1 a ≠ standsFor (run g).1 b) ↔
      ∀ a b, LiveAlloc g a → LiveAlloc g b → a ≠ b → ¬Twins g a b := by
  refine forall_congr' fun a => forall_congr' fun b => forall_congr' fun first =>
    forall_congr' fun second => forall_congr' fun differ => not_congr ?_
  rw [standsFor, standsFor, Gvn.rewriteMap_eq, Gvn.rewriteMap_eq]
  change Gvn.target _ a = Gvn.target _ b ↔ _
  rw [Gvn.target, FirstAlike.canonical_eq_iff, insideKey_alloc first, insideKey_alloc second,
    allocKey_same_iff first second]
  exact or_iff_right differ

/-- Two objects with a stored value each; the first one is loaded and returned. -/
def twoObjects : Graph :=
  let g := (Graph.fresh.makeProj (some 0) 0).2
  let g := (g.makeProj (some 0) 1).2
  let g := (g.makeNode .alloc [some 1, some 2] 1 0).2
  let g := (g.makeNode .alloc [some 1, some 2] 1 0).2
  let g := (g.makeConstant 7 5).2
  let g := (g.makeConstant 9 5).2
  let g := (g.makeNode .store [some 1, some 2, some 3, some 5] kInvalidTypeId 0).2
  let g := (g.makeNode .store [some 1, some 7, some 4, some 6] kInvalidTypeId 0).2
  let g := (g.makeNode .load [some 1, some 8, some 3] 5 0).2
  (g.makeReturn (some 1) (some 9) (some 9)).2

/-- The graph is accepted, and both stores write to one stack slot after the two passes. -/
theorem twoObjects_share :
    twoObjects.verify = none ∧ LiveAlloc twoObjects 3 ∧ LiveAlloc twoObjects 4 ∧
      standsFor (run twoObjects).1 3 = standsFor (run twoObjects).1 4 ∧
        ((Gvn.run (run twoObjects).1).1.node 7).inputs = [some 1, some 2, some 3, some 5] ∧
          ((Gvn.run (run twoObjects).1).1.node 8).inputs =
            [some 1, some 7, some 3, some 6] := by
  refine ⟨?_, ?_, ?_, ?_, ?_, ?_⟩ <;> decide +kernel

end EscapeAnalysis

end Aegis
