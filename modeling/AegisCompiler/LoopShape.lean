import AegisCompiler.UseLists

/-!
# The shape of a lowered loop

A loop of the source hangs a branch off its loop node: the first projection
leads to the body and back, the second one leaves the loop.  The loop passes
find these pieces and take them out of the graph.
-/

namespace Aegis

namespace Graph

/-- The exit branch that hangs off a loop. -/
def exitIf (g : Graph) (loop : NodeId) : Option NodeId :=
  (g.usersSnapshot loop).find? fun user =>
    decide (user < g.size) && decide ((g.node user).kind = .ifNode) &&
      decide ((g.node user).ctrlIn = some loop)

/-- The last listed projection of a node with the given index. -/
def lastProj (g : Graph) (source : NodeId) (which : BitVec 32) : Option NodeId :=
  ((g.usersSnapshot source).filter fun user =>
    decide (user < g.size) && decide ((g.node user).kind = .proj) &&
      decide ((g.node user).payload.projIndex = which)).getLast?

/-- The node has a live user other than the given one. -/
def hasOtherLiveUser (g : Graph) (id other : NodeId) : Bool :=
  (g.usersSnapshot id).any fun user =>
    decide (user ≠ other) && decide (user < g.size) && !(g.node user).isDead

end Graph

/-- A comparison that ends a loop. -/
def NodeKind.isExitCmp : NodeKind → Bool
  | .cmpLt | .cmpLe | .cmpUlt | .cmpUle => true
  | _ => false

/-- The exit branch of a loop with its projections. -/
structure LoopExit where
  branch : NodeId
  body : Option NodeId
  after : Option NodeId
  deriving DecidableEq, Repr

/-- The pieces of a loop that is to be deleted. -/
structure LoopPieces where
  loop : NodeId
  phi : NodeId
  back : NodeId
  cmp : Option NodeId
  exit : Option LoopExit
  deriving DecidableEq, Repr

namespace Graph

def loopExit (g : Graph) (loop : NodeId) : Option LoopExit :=
  (g.exitIf loop).map fun branch =>
    { branch, body := g.lastProj branch 0, after := g.lastProj branch 1 }

/-- The body of the loop does something, or the loop is never left. -/
def blocksDeletion (g : Graph) (loop : NodeId) (exit : LoopExit) : Bool :=
  (exit.body.any fun body => g.hasOtherLiveUser body loop) || exit.after.isNone

/-- Mark several nodes dead. -/
def markAll (g : Graph) (ids : List NodeId) : Graph := ids.foldl markDead g

@[simp]
theorem markAll_size (g : Graph) (ids : List NodeId) :
    (g.markAll ids).size = g.size := by
  unfold markAll
  induction ids generalizing g with
  | nil => rfl
  | cons id ids ih => rw [List.foldl_cons, ih, markDead, setFlag_size]

theorem markAll_node (g : Graph) (ids : List NodeId) (id : NodeId) :
    (g.markAll ids).node id =
      if id ∈ ids ∧ id < g.size then (g.node id).setFlag .isDead
      else g.node id := by
  unfold markAll
  induction ids generalizing g with
  | nil => simp
  | cons first ids ih =>
      rw [List.foldl_cons, ih, markDead, setFlag_size, setFlag_node]
      by_cases inside : id < g.size
      · by_cases here : id = first
        · subst here
          simp [inside, Node.setFlag_setFlag]
        · simp [here, inside]
      · have apart : ¬ (id = first ∧ first < g.size) := by
          rintro ⟨rfl, below⟩
          exact inside below
        simp [inside, apart]

theorem Listed.markAll {g : Graph} (listed : g.Listed) (ids : List NodeId) :
    (g.markAll ids).Listed := by
  unfold Graph.markAll
  induction ids generalizing g with
  | nil => exact listed
  | cons id ids ih => exact ih (listed.markDead id)

/-- Let the users behind a loop read what the loop was entered from, and mark
the exit of the loop. -/
def retireExit (g : Graph) (loop : NodeId) (exit : LoopExit) : Graph :=
  match exit.after with
  | none => g
  | some after =>
      let g := match (g.node loop).inputs.getD 1 none with
        | some entry => swapIn (g.usersSnapshot after) after entry g
        | none => g
      g.markAll (exit.body.toList ++ [after, exit.branch])

theorem Listed.retireExit {g : Graph} (listed : g.Listed) (loop : NodeId)
    (exit : LoopExit) : (g.retireExit loop exit).Listed := by
  unfold Graph.retireExit
  split
  · exact listed
  · apply Listed.markAll
    split
    · exact listed.swapIn _ _ _
    · exact listed

/-- Delete a loop; the users of its phi read another node. -/
def deleteLoop (g : Graph) (pieces : LoopPieces) (new : NodeId) : Graph :=
  let g := swapIn (g.usersSnapshot pieces.phi) pieces.phi new g
  let g := g.markAll
    ([pieces.loop, pieces.phi, pieces.back] ++ pieces.cmp.toList)
  match pieces.exit with
  | some exit => g.retireExit pieces.loop exit
  | none => g

theorem Listed.deleteLoop {g : Graph} (listed : g.Listed) (pieces : LoopPieces)
    (new : NodeId) : (g.deleteLoop pieces new).Listed := by
  have marked := (listed.swapIn (g.usersSnapshot pieces.phi) pieces.phi new).markAll
    ([pieces.loop, pieces.phi, pieces.back] ++ pieces.cmp.toList)
  unfold Graph.deleteLoop
  simp only
  split
  · exact marked.retireExit _ _
  · exact marked

end Graph

end Aegis
