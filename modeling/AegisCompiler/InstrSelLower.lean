import AegisCompiler.InstrSelEmit

/-!
# Selecting a function

Functions without loops go through the flat scheduler, a depth-first walk over
the operands of the collected nodes in id order.  Functions with loops are
emitted along the effect chain of the first return.
-/

namespace Aegis

namespace InstrSel

/-- Why selection yields no function. -/
inductive LowerFailure where
  /-- The scheduler aborts on a node it never reached. -/
  | neverScheduled (node : NodeId)
  | outOfFuel
  deriving DecidableEq, Repr

/-- The visit state of a node in the flat schedule. -/
inductive Visit where
  | new | onStack | done
  deriving DecidableEq, Repr

section Flat

variable {g : Graph} (perNode : List NodeInstr) (owner : Owners)

/-- The scheduler leaves this node to the region of its select. -/
def isOwned (id : NodeId) : Bool :=
  (owner id).isSome && !isSelectPhi g id

/-- The child pushed for an input slot of a node, if any. -/
def flatChild (visits : NodeId → Visit) (ref : NodeRef) : Option Frame :=
  match g.inRange ref with
  | none => none
  | some input =>
      let input :=
        if (instrOf perNode input).isNone then followCall g input else input
      if (instrOf perNode input).isNone then none
      else if isOwned (g := g) owner input then none
      else if visits input = .new then some ⟨input, false⟩
      else none

/-- Emit the instruction collected for a node. -/
def emitCollected (id : NodeId) : EmitM g Unit :=
  match instrOf perNode id with
  | none => pure ()
  | some mi => emitInstr mi

/-- Emit a select from the flat schedule: the emitters see the finished nodes
as emitted, and what they emit is finished afterwards. -/
def flatSelect (fuel : Nat) (phi : NodeId) (visits : NodeId → Visit) :
    EmitM g (NodeId → Visit) := do
  modify fun s =>
    { s with emitted := fun q => decide (visits q = .done) || decide (q = phi) }
  emitSelectRegion perNode fuel phi
  let s ← get
  return fun q => if s.emitted q then .done else visits q

/-- The scheduling loop over an explicit stack. -/
def flatLoop : Nat → List Frame → (NodeId → Visit) → EmitM g (NodeId → Visit)
  | 0, _, _ => outOfFuel
  | _ + 1, [], visits => return visits
  | fuel + 1, ⟨node, expanded⟩ :: rest, visits => do
      if isSelectPhi g node then
        if visits node = .done then
          flatLoop fuel rest visits
        else
          let visits ← flatSelect perNode fuel node visits
          flatLoop fuel rest visits
      else if expanded then
        emitCollected perNode node
        flatLoop fuel rest (Function.update visits node .done)
      else if visits node = .done then
        flatLoop fuel rest visits
      else
        let visits := Function.update visits node .onStack
        match (g.node node).inputs.filterMap
            (flatChild (g := g) perNode owner visits) with
        | [] =>
            emitCollected perNode node
            flatLoop fuel rest (Function.update visits node .done)
        | children => flatLoop fuel (children ++ ⟨node, true⟩ :: rest) visits

/-- Schedule the collected nodes in id order. -/
def flatSchedule (fuel : Nat) : List NodeInstr → (NodeId → Visit) →
    EmitM g (NodeId → Visit)
  | [], visits => return visits
  | ni :: rest, visits => do
      if visits ni.node ≠ .new ∨ isOwned (g := g) owner ni.node = true then
        flatSchedule fuel rest visits
      else
        let visits ← flatLoop perNode owner fuel [⟨ni.node, false⟩] visits
        flatSchedule fuel rest visits

end Flat

/-- Some instruction reads the register. -/
def isRead (instrs : List MachineInstr) (v : VRegId) : Bool :=
  instrs.any fun mi => mi.reads.contains v

/-- The instruction survives the sweep of dead results. -/
def survives (instrs : List MachineInstr) (mi : MachineInstr) : Bool :=
  decide (mi.op = .ret) ||
    match mi.result with
    | none => true
    | some v => isRead instrs v

/-- Drop every instruction whose result nothing reads. -/
def sweepDead (instrs : List MachineInstr) : List MachineInstr :=
  instrs.filter (survives instrs)

section Structured

variable (g : Graph)

/-- The effect chain of a return, from the last effect backwards. -/
def chainEvents : Nat → NodeRef → List NodeId
  | 0, _ => []
  | steps + 1, ref =>
      match g.inRange ref with
      | none => []
      | some cur =>
          if isEffMergePhi g cur then
            cur :: chainEvents steps ((g.node cur).inputs.getD 1 none)
          else if (g.node cur).kind.isCall then
            cur :: chainEvents steps (g.node cur).effIn
          else []

/-- The loop behind an effect merge. -/
def mergedLoop (merge : NodeId) : Option NodeId :=
  match inputNode g merge 0 with
  | none => none
  | some proj =>
      match inputNode g proj 0 with
      | none => none
      | some base =>
          if (g.node base).kind = .ifNode then
            match inputNode g base 0 with
            | none => none
            | some loop =>
                if (g.node loop).kind = .loop then some loop else none
          else none

/-- The live loops, in id order. -/
def liveLoops : List NodeId :=
  (List.range g.size).filter fun id =>
    !(g.node id).isDead && decide ((g.node id).kind = .loop)

variable {g} (perNode : List NodeInstr)

/-- Emit one event of the effect chain. -/
def emitEvent (fuel : Nat) (event : NodeId) : EmitM g Unit :=
  if isEffMergePhi g event then
    match mergedLoop g event with
    | none => pure ()
    | some loop => emitLoopRegion perNode fuel loop
  else emitValueClosure perNode fuel (some event) none

/-- Emit all parameters up front. -/
def emitParams : List NodeInstr → EmitM g Unit
  | [] => pure ()
  | ni :: rest => do
      if ni.mi.op = .param then
        emitInstr ni.mi
        markEmitted ni.node
        emitParams rest
      else
        emitParams rest

/-- Structured emission of a function with loops. -/
def emitStructuredLoops (fuel : Nat) : EmitM g Unit := do
  emitParams perNode
  let ret := perNode.find? (·.mi.op = .ret)
  let events := match ret with
    | none => []
    | some ni =>
        (chainEvents g g.size ((g.node ni.node).inputs.getD 1 none)).reverse
  events.forM (emitEvent perNode fuel)
  (liveLoops g).forM (emitLoopRegion perNode fuel)
  match ret with
  | none => return ()
  | some ni =>
      let inputs := (g.node ni.node).inputs
      if kReturnInputs ≤ inputs.length then
        emitValueClosure perNode fuel (inputs.getD kReturnValIndex none) none
        emitValueClosure perNode fuel (inputs.getD 1 none) none
      emitInstr ni.mi

end Structured

/-- The first collected node the flat schedule has not finished. -/
def unscheduled (perNode : List NodeInstr) (visits : NodeId → Visit) :
    Option NodeId :=
  (perNode.find? fun ni => visits ni.node ≠ .done).map (·.node)

/-- Select the instructions of a function. -/
def lower (fuel : Nat) (g : Graph) (name : String) :
    Except LowerFailure MachineFunction :=
  let collected := collect g
  let perNode := collected.perNode
  let start : EmitState g := { table := collected.table }
  if liveLoops g ≠ [] then
    match emitStructuredLoops perNode fuel start with
    | none => .error .outOfFuel
    | some (_, final) => .ok { name, instrs := final.instrs }
  else
    let owner := selectGlobalOwner g perNode
    match flatSchedule perNode owner fuel perNode (fun _ => .new) start with
    | none => .error .outOfFuel
    | some (visits, final) =>
        match unscheduled perNode visits with
        | some node => .error (.neverScheduled node)
        | none => .ok { name, instrs := sweepDead final.instrs }

end InstrSel

end Aegis
