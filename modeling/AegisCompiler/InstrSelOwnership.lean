import AegisCompiler.InstrSelCollect

/-!
# Which select owns a node

Every collected merge phi claims the nodes its arms and its condition are
computed from.  The flat scheduler leaves claimed nodes to the region of the
phi.
-/

namespace Aegis

namespace InstrSel

/-- The owner of each node, if any. -/
abbrev Owners := NodeId → Option NodeId

variable (g : Graph)

/-- Claim for `select` everything below the nodes on the worklist, stopping at
phis.  The last pushed node is at the head. -/
def claimBelow (perNode : List NodeInstr) (select : NodeId) :
    Nat → List NodeRef → List NodeId → Owners → Owners
  | 0, _, _, owner => owner
  | _ + 1, [], _, owner => owner
  | fuel + 1, ref :: work, seen, owner =>
      match g.inRange ref with
      | none => claimBelow perNode select fuel work seen owner
      | some n =>
          if isSelectPhi g n ∨ isLoopPhi g n ∨ n ∈ seen then
            claimBelow perNode select fuel work seen owner
          else
            let claimed :=
              if (instrOf perNode n).isSome ∧ owner n = none then
                Function.update owner n (some select)
              else owner
            claimBelow perNode select fuel ((g.node n).inputs.reverse ++ work)
              (n :: seen) claimed

/-- Every slot of the graph is pushed once at most. -/
def claimFuel : Nat :=
  (g.nodes.map fun n => n.inputs.length).sum + 4

/-- The roots of the claim of a select: its two values, and the condition of
its If on top. -/
def claimRoots (select : NodeId) : List NodeRef :=
  let n := g.node select
  let cond := match inputNode g select 0 with
    | none => none
    | some region =>
        match governingIf g region with
        | none => none
        | some ifNode => ifCond g ifNode
  [cond, n.inputs.getD 2 none, n.inputs.getD 1 none]

/-- The owners after each select has made its claim. -/
def claimAll (perNode : List NodeInstr) :
    List NodeInstr → Owners → List (NodeId × Owners)
  | [], _ => []
  | ni :: rest, owner =>
      if isSelectPhi g ni.node then
        let claimed := claimBelow g perNode ni.node (claimFuel g)
          (claimRoots g ni.node) [] owner
        (ni.node, claimed) :: claimAll perNode rest claimed
      else claimAll perNode rest owner

/-- Some user of an owned node escapes the select, as the validation tests
it. -/
def escapes (selects : List (NodeId × Owners)) (select : NodeId)
    (own : Owners) (n : NodeId) : Bool :=
  (own n).isSome && (g.usersSnapshot n).any fun u =>
    let isSelect := (selects.map Prod.fst).contains u
    let ok := u = select || ((own u).isSome && own u = own n) || !isSelect
    decide (u < g.size) && !ok && !isSelect && u ≠ select

/-- One validation pass over the nodes of one select. -/
def validateOne (selects : List (NodeId × Owners)) (select : NodeId) :
    List NodeId → Owners × Bool → Owners × Bool
  | [], result => result
  | n :: ns, result =>
      if escapes g selects select result.1 n then
        validateOne selects select ns (Function.update result.1 n none, true)
      else validateOne selects select ns result

/-- One validation pass over all selects. -/
def validatePass (selects : List (NodeId × Owners)) :
    List (NodeId × Owners) → List (NodeId × Owners) × Bool
  | [] => ([], false)
  | (select, own) :: rest =>
      let first := validateOne g selects select (List.range g.size) (own, false)
      let others := validatePass selects rest
      ((select, first.1) :: others.1, first.2 || others.2)

/-- Validate until nothing changes; every pass but the last frees a node. -/
def validate : Nat → List (NodeId × Owners) → List (NodeId × Owners)
  | 0, selects => selects
  | fuel + 1, selects =>
      let pass := validatePass g selects selects
      if pass.2 then validate fuel pass.1 else pass.1

/-- Flatten the views of the selects into one. -/
def globalOwner (selects : List (NodeId × Owners)) : Owners :=
  selects.foldl (fun global view => fun n =>
    if view.2 n = some view.1 ∧ global n = none then some view.1
    else global n) fun _ => none

/-- The owner of every node. -/
def selectGlobalOwner (perNode : List NodeInstr) : Owners :=
  let selects := claimAll g perNode perNode fun _ => none
  globalOwner (validate g (selects.length * g.size + 1) selects)

variable {g}

/-- A user that is no select passes the test, so nothing escapes. -/
theorem escapes_eq_false (selects : List (NodeId × Owners)) (select : NodeId)
    (own : Owners) (n : NodeId) : escapes g selects select own n = false := by
  simp only [escapes, Bool.and_eq_false_imp]
  intro _
  rw [List.any_eq_false]
  intro u _
  cases (selects.map Prod.fst).contains u <;> simp

theorem validateOne_eq (selects : List (NodeId × Owners)) (select : NodeId)
    (ns : List NodeId) (result : Owners × Bool) :
    validateOne g selects select ns result = result := by
  induction ns generalizing result with
  | nil => rfl
  | cons n ns ih => simp [validateOne, escapes_eq_false, ih]

theorem validatePass_eq (selects views : List (NodeId × Owners)) :
    validatePass g selects views = (views, false) := by
  induction views with
  | nil => rfl
  | cons view views ih => simp [validatePass, validateOne_eq, ih]

/-- Validation keeps every claim. -/
theorem validate_eq (fuel : Nat) (selects : List (NodeId × Owners)) :
    validate g fuel selects = selects := by
  cases fuel with
  | zero => rfl
  | succ fuel => simp [validate, validatePass_eq]

end InstrSel

end Aegis
