import AegisCompiler.InstrSelLower

/-!
# Invariants of emission

Whatever every primitive step of the emitters preserves holds after a whole
emission.  The primitive steps append an instruction that was collected or
that is part of a region, name a register, mark a node or draw labels.
-/

namespace Aegis

namespace InstrSel

variable {g : Graph}

/-- The computation preserves a property of the emission state. -/
def Keeps {α : Type} (motive : EmitState g → Prop) (run : EmitM g α) : Prop :=
  ∀ s value final, run s = some (value, final) → motive s → motive final

section Rules

variable {motive : EmitState g → Prop} {α β : Type}

theorem Keeps.pure (value : α) : Keeps motive (pure value : EmitM g α) := by
  intro s result final run holds
  cases run
  exact holds

theorem Keeps.outOfFuel : Keeps motive (outOfFuel : EmitM g α) := by
  intro s result final run
  cases run

theorem Keeps.bind {first : EmitM g α} {next : α → EmitM g β}
    (left : Keeps motive first) (right : ∀ value, Keeps motive (next value)) :
    Keeps motive (first >>= next) := by
  intro s result final run holds
  simp only [Bind.bind, StateT.bind] at run
  cases started : first s with
  | none => simp [started] at run
  | some pair =>
      obtain ⟨value, middle⟩ := pair
      simp only [started] at run
      exact right value middle result final run
        (left s value middle started holds)

/-- Reading the state changes nothing. -/
theorem Keeps.get {next : EmitState g → EmitM g β}
    (right : ∀ s, Keeps motive (next s)) :
    Keeps motive (MonadStateOf.get >>= next) := by
  intro s result final run holds
  exact right s s result final run holds

theorem Keeps.forM {items : List α} {body : α → EmitM g Unit}
    (each : ∀ item, Keeps motive (body item)) :
    Keeps motive (items.forM body) := by
  induction items with
  | nil => exact Keeps.pure ()
  | cons item items ih =>
      rw [List.forM_eq_forM, List.forM_cons]
      exact (each item).bind fun _ => ih

end Rules

/-- An instruction the emitters append: one that was collected, or one that
frames a region. -/
def Emittable (perNode : List NodeInstr) (mi : MachineInstr) : Prop :=
  (∃ ni ∈ perNode, ni.mi = mi) ∨
    mi.op ∈ [MachineOp.label, .jmp, .jz, .mov, .movImm]

/-- Every primitive step of the emitters preserves the property. -/
structure StepsKeep (perNode : List NodeInstr)
    (motive : EmitState g → Prop) : Prop where
  instr : ∀ mi, Emittable perNode mi → Keeps motive (emitInstr mi)
  register : ∀ ref, Keeps motive (vregOfNode ref)
  emitted : ∀ update : EmitState g → NodeId → Bool,
    Keeps motive (modify fun s => { s with emitted := update s })
  loopEmitted : ∀ loop, Keeps motive (markLoopEmitted loop)
  selectLabels : Keeps motive nextSelectLabels
  loopLabels : Keeps motive nextLoopLabels

theorem mem_of_instrOf {perNode : List NodeInstr} {id : NodeId}
    {mi : MachineInstr} (found : instrOf perNode id = some mi) :
    ∃ ni ∈ perNode, ni.mi = mi ∧ ni.node = id := by
  simp only [instrOf, Option.map_eq_some_iff] at found
  obtain ⟨ni, first, rfl⟩ := found
  exact ⟨ni, List.mem_of_find?_eq_some first, rfl,
    by simpa using List.find?_some first⟩

section Emitters

variable {perNode : List NodeInstr} {motive : EmitState g → Prop}
  (steps : StepsKeep perNode motive)
include steps

theorem StepsKeep.framing {mi : MachineInstr}
    (frames : mi.op ∈ [MachineOp.label, .jmp, .jz, .mov, .movImm]) :
    Keeps motive (emitInstr mi) :=
  steps.instr mi (Or.inr frames)

theorem StepsKeep.label (target : Int) : Keeps motive (emitLabel target) :=
  steps.framing (by simp)

theorem StepsKeep.jmp (target : Int) : Keeps motive (emitJmp target) :=
  steps.framing (by simp)

theorem StepsKeep.jz (cond : NodeRef) (target : Int) :
    Keeps motive (emitJz cond target) :=
  (steps.register cond).bind fun _ => steps.framing (by simp)

theorem StepsKeep.mov (target : NodeId) (value : NodeRef) :
    Keeps motive (emitMov target value) :=
  (steps.register _).bind fun _ => (steps.register value).bind fun _ =>
    steps.framing (by simp)

theorem StepsKeep.backEdges (phis : List NodeId) :
    Keeps motive (emitBackEdges phis) :=
  Keeps.forM fun phi => steps.mov phi _

end Emitters

/-- All emitters preserve the property. -/
structure EmittersKeep (perNode : List NodeInstr)
    (motive : EmitState g → Prop) (fuel : Nat) : Prop where
  closure : ∀ ref scope, Keeps motive (emitValueClosure perNode fuel ref scope)
  passThrough : ∀ merge scope, Keeps motive (passThrough perNode fuel merge scope)
  ensureLoop : ∀ phi, Keeps motive (ensureLoop perNode fuel phi)
  tryPush : ∀ ref onpath stack, Keeps motive (tryPush perNode fuel ref onpath stack)
  pushInputs : ∀ node scope onpath slots stack,
    Keeps motive (pushInputs perNode fuel node scope onpath slots stack)
  closureLoop : ∀ stack onpath scope,
    Keeps motive (closureLoop perNode fuel stack onpath scope)
  selectRegion : ∀ phi, Keeps motive (emitSelectRegion perNode fuel phi)
  entry : ∀ phi, Keeps motive (emitEntry perNode fuel phi)
  loopRegion : ∀ loop, Keeps motive (emitLoopRegion perNode fuel loop)

section Step

variable {perNode : List NodeInstr} {motive : EmitState g → Prop}

theorem EmittersKeep.noFuel : EmittersKeep perNode motive 0 where
  closure _ _ := by rw [emitValueClosure]; exact Keeps.outOfFuel
  passThrough _ _ := by rw [InstrSel.passThrough]; exact Keeps.outOfFuel
  ensureLoop _ := by rw [InstrSel.ensureLoop]; exact Keeps.outOfFuel
  tryPush _ _ _ := by rw [InstrSel.tryPush]; exact Keeps.outOfFuel
  pushInputs _ _ _ _ _ := by rw [InstrSel.pushInputs]; exact Keeps.outOfFuel
  closureLoop _ _ _ := by rw [InstrSel.closureLoop]; exact Keeps.outOfFuel
  selectRegion _ := by rw [emitSelectRegion]; exact Keeps.outOfFuel
  entry _ := by rw [emitEntry]; exact Keeps.outOfFuel
  loopRegion _ := by rw [emitLoopRegion]; exact Keeps.outOfFuel

variable {fuel : Nat} (emitters : EmittersKeep perNode motive fuel)
include emitters

theorem EmittersKeep.closure_succ (ref scope : NodeRef) :
    Keeps motive (emitValueClosure perNode (fuel + 1) ref scope) := by
  rw [emitValueClosure]
  split
  · exact Keeps.pure ()
  · split
    · exact emitters.ensureLoop _
    · simp only []
      split
      · exact emitters.passThrough _ _
      · split
        · exact Keeps.pure ()
        · refine Keeps.get fun s => ?_
          split
          · exact Keeps.pure ()
          · exact emitters.closureLoop _ _ _

theorem EmittersKeep.passThrough_succ (merge : NodeId) (scope : NodeRef) :
    Keeps motive (InstrSel.passThrough perNode (fuel + 1) merge scope) := by
  rw [InstrSel.passThrough]
  refine (emitters.closure _ _).bind fun _ => ?_
  split
  · exact emitters.closure _ _
  · exact Keeps.pure ()

theorem EmittersKeep.ensureLoop_succ (phi : NodeId) :
    Keeps motive (InstrSel.ensureLoop perNode (fuel + 1) phi) := by
  rw [InstrSel.ensureLoop]
  split
  · exact Keeps.pure ()
  · refine Keeps.get fun s => ?_
    split
    · exact Keeps.pure ()
    · exact emitters.loopRegion _

theorem EmittersKeep.tryPush_succ (ref : NodeRef) (onpath : NodeId → Bool)
    (stack : List Frame) :
    Keeps motive (InstrSel.tryPush perNode (fuel + 1) ref onpath stack) := by
  rw [InstrSel.tryPush]
  split
  · exact Keeps.pure _
  · split
    · exact (emitters.ensureLoop _).bind fun _ => Keeps.pure _
    · simp only []
      split
      · exact Keeps.pure _
      · refine Keeps.get fun s => ?_
        split
        · exact Keeps.pure _
        · split <;> exact Keeps.pure _

theorem EmittersKeep.pushInputs_succ (node : NodeId) (scope : NodeRef)
    (onpath : NodeId → Bool) (slots : List (NodeRef × Nat))
    (stack : List Frame) :
    Keeps motive
      (InstrSel.pushInputs perNode (fuel + 1) node scope onpath slots
        stack) := by
  cases slots with
  | nil =>
      rw [InstrSel.pushInputs]
      exact Keeps.pure _
  | cons slot slots =>
      obtain ⟨ref, slot⟩ := slot
      rw [InstrSel.pushInputs]
      simp only []
      split
      · exact emitters.pushInputs _ _ _ _ _
      · split
        · exact emitters.pushInputs _ _ _ _ _
        · split
          · refine (emitters.tryPush _ _ _).bind fun _ => ?_
            split
            · exact (emitters.tryPush _ _ _).bind fun _ =>
                emitters.pushInputs _ _ _ _ _
            · exact emitters.pushInputs _ _ _ _ _
          · exact (emitters.tryPush _ _ _).bind fun _ =>
              emitters.pushInputs _ _ _ _ _

variable (steps : StepsKeep perNode motive)
include steps

theorem EmittersKeep.closureLoop_succ (stack : List Frame)
    (onpath : NodeId → Bool) (scope : NodeRef) :
    Keeps motive
      (InstrSel.closureLoop perNode (fuel + 1) stack onpath scope) := by
  cases stack with
  | nil =>
      rw [InstrSel.closureLoop]
      exact Keeps.pure ()
  | cons frame rest =>
      obtain ⟨node, expanded⟩ := frame
      have carryOn (onpath : NodeId → Bool) (stack : List Frame) :=
        emitters.closureLoop stack onpath scope
      rw [InstrSel.closureLoop]
      split
      · refine Keeps.get fun s => ?_
        split
        · exact carryOn _ _
        · refine (steps.emitted _).bind fun _ => ?_
          exact (emitters.selectRegion node).bind fun _ => carryOn _ _
      · split
        · exact (emitters.passThrough _ _).bind fun _ => carryOn _ _
        · split
          · refine Keeps.get fun s => ?_
            split
            · exact carryOn _ _
            · refine (steps.emitted _).bind fun _ => ?_
              split
              case h_1 => exact carryOn _ _
              case h_2 mi found =>
                obtain ⟨ni, member, same, -⟩ := mem_of_instrOf found
                exact (steps.instr mi (Or.inl ⟨ni, member, same⟩)).bind
                  fun _ => carryOn _ _
          · exact (emitters.pushInputs _ _ _ _ _).bind fun _ => carryOn _ _

theorem EmittersKeep.selectRegion_succ (phi : NodeId) :
    Keeps motive (emitSelectRegion perNode (fuel + 1) phi) := by
  have arm (calls : List NodeId) (proj : NodeRef) :
      Keeps motive (calls.forM fun call =>
        emitValueClosure perNode fuel (some call) proj) :=
    Keeps.forM fun call => emitters.closure _ _
  rw [emitSelectRegion]
  split
  · exact Keeps.pure ()
  · split
    · exact Keeps.pure ()
    · refine steps.selectLabels.bind fun labels => ?_
      refine (emitters.closure _ _).bind fun _ => ?_
      refine (steps.jz _ _).bind fun _ => ?_
      refine (emitters.closure _ _).bind fun _ => ?_
      refine (arm _ _).bind fun _ => ?_
      refine (steps.mov _ _).bind fun _ => ?_
      refine (steps.jmp _).bind fun _ => ?_
      refine (steps.label _).bind fun _ => ?_
      refine (emitters.closure _ _).bind fun _ => ?_
      refine (arm _ _).bind fun _ => ?_
      exact (steps.mov _ _).bind fun _ => steps.label _

theorem EmittersKeep.entry_succ (phi : NodeId) :
    Keeps motive (emitEntry perNode (fuel + 1) phi) := by
  rw [emitEntry]
  refine (steps.register _).bind fun result => ?_
  split
  · exact steps.framing (by simp)
  · split
    · exact steps.framing (by simp)
    · refine (emitters.closure _ _).bind fun _ => ?_
      exact (steps.register _).bind fun _ => steps.framing (by simp)

theorem EmittersKeep.loopRegion_succ (loop : NodeId) :
    Keeps motive (emitLoopRegion perNode (fuel + 1) loop) := by
  rw [emitLoopRegion]
  refine Keeps.get fun s => ?_
  split
  · exact Keeps.pure ()
  · refine (steps.loopEmitted _).bind fun _ => ?_
    refine steps.loopLabels.bind fun labels => ?_
    refine (Keeps.forM fun phi => emitters.entry phi).bind fun _ => ?_
    refine (steps.label _).bind fun _ => ?_
    refine (emitters.closure _ _).bind fun _ => ?_
    refine (Keeps.forM fun phi => emitters.closure _ _).bind fun _ => ?_
    refine (emitters.closure _ _).bind fun _ => ?_
    refine (steps.jz _ _).bind fun _ => ?_
    refine (steps.backEdges _).bind fun _ => ?_
    exact (steps.jmp _).bind fun _ => steps.label _

end Step

/-- All emitters preserve what their primitive steps preserve. -/
theorem StepsKeep.emitters {perNode : List NodeInstr}
    {motive : EmitState g → Prop} (steps : StepsKeep perNode motive)
    (fuel : Nat) : EmittersKeep perNode motive fuel := by
  induction fuel with
  | zero => exact EmittersKeep.noFuel
  | succ fuel ih =>
      exact {
        closure := ih.closure_succ
        passThrough := ih.passThrough_succ
        ensureLoop := ih.ensureLoop_succ
        tryPush := ih.tryPush_succ
        pushInputs := ih.pushInputs_succ
        closureLoop := ih.closureLoop_succ steps
        selectRegion := ih.selectRegion_succ steps
        entry := ih.entry_succ steps
        loopRegion := ih.loopRegion_succ steps }

section Schedules

variable {perNode : List NodeInstr} {motive : EmitState g → Prop}
  (steps : StepsKeep perNode motive)
include steps

theorem StepsKeep.collected (id : NodeId) :
    Keeps motive (emitCollected (g := g) perNode id) := by
  rw [emitCollected]
  split
  case h_1 => exact Keeps.pure ()
  case h_2 mi found =>
    obtain ⟨ni, member, same, -⟩ := mem_of_instrOf found
    exact steps.instr mi (Or.inl ⟨ni, member, same⟩)

theorem StepsKeep.flatSelect (fuel : Nat) (phi : NodeId)
    (visits : NodeId → Visit) :
    Keeps motive (flatSelect (g := g) perNode fuel phi visits) := by
  refine (steps.emitted _).bind fun _ => ?_
  refine ((steps.emitters fuel).selectRegion phi).bind fun _ => ?_
  exact Keeps.get fun _ => Keeps.pure _

theorem StepsKeep.flatLoop (owner : Owners) (fuel : Nat) (stack : List Frame)
    (visits : NodeId → Visit) :
    Keeps motive (flatLoop (g := g) perNode owner fuel stack visits) := by
  induction fuel generalizing stack visits with
  | zero =>
      rw [InstrSel.flatLoop]
      exact Keeps.outOfFuel
  | succ fuel ih =>
      cases stack with
      | nil =>
          rw [InstrSel.flatLoop]
          exact Keeps.pure _
      | cons frame rest =>
          rw [InstrSel.flatLoop]
          split
          · split
            · exact ih _ _
            · exact (steps.flatSelect fuel _ visits).bind fun _ => ih _ _
          · split
            · exact (steps.collected _).bind fun _ => ih _ _
            · split
              · exact ih _ _
              · simp only []
                split
                · exact (steps.collected _).bind fun _ => ih _ _
                · exact ih _ _

theorem StepsKeep.flatSchedule (owner : Owners) (fuel : Nat)
    (nodes : List NodeInstr) (visits : NodeId → Visit) :
    Keeps motive (flatSchedule (g := g) perNode owner fuel nodes visits) := by
  induction nodes generalizing visits with
  | nil =>
      rw [InstrSel.flatSchedule]
      exact Keeps.pure _
  | cons ni rest ih =>
      rw [InstrSel.flatSchedule]
      split
      · exact ih _
      · exact (steps.flatLoop owner fuel _ _).bind fun _ => ih _

theorem StepsKeep.params (nodes : List NodeInstr)
    (known : ∀ ni ∈ nodes, ni ∈ perNode) :
    Keeps motive (emitParams (g := g) nodes) := by
  induction nodes with
  | nil => exact Keeps.pure ()
  | cons ni rest ih =>
      have others := ih fun other member =>
        known other (List.mem_cons_of_mem _ member)
      have here := known ni List.mem_cons_self
      rw [emitParams]
      split
      · refine (steps.instr ni.mi (Or.inl ⟨ni, here, rfl⟩)).bind fun _ => ?_
        exact (steps.emitted _).bind fun _ => others
      · exact others

theorem StepsKeep.event (fuel : Nat) (event : NodeId) :
    Keeps motive (emitEvent (g := g) perNode fuel event) := by
  rw [emitEvent]
  split
  · split
    · exact Keeps.pure ()
    · exact (steps.emitters fuel).loopRegion _
  · exact (steps.emitters fuel).closure _ _

theorem StepsKeep.structured (fuel : Nat) :
    Keeps motive (emitStructuredLoops (g := g) perNode fuel) := by
  have emitters := steps.emitters fuel
  refine (steps.params perNode fun _ member => member).bind fun _ => ?_
  refine (Keeps.forM fun event => steps.event fuel event).bind fun _ => ?_
  refine (Keeps.forM fun loop => emitters.loopRegion loop).bind fun _ => ?_
  split
  case h_1 => exact Keeps.pure ()
  case h_2 ni found =>
    have member := List.mem_of_find?_eq_some found
    have last := steps.instr ni.mi (Or.inl ⟨ni, member, rfl⟩)
    simp only []
    split
    · refine (emitters.closure _ _).bind fun _ => ?_
      exact (emitters.closure _ _).bind fun _ => last
    · exact last

end Schedules

/-- Only emittable instructions so far. -/
def AllEmittable (perNode : List NodeInstr) (s : EmitState g) : Prop :=
  ∀ mi ∈ s.instrs, Emittable perNode mi

theorem allEmittable_steps (perNode : List NodeInstr) :
    StepsKeep (g := g) perNode (AllEmittable perNode) where
  instr mi emittable := by
    intro s value final run holds
    cases run
    intro other member
    rcases List.mem_append.mp member with earlier | last
    · exact holds other earlier
    · rw [List.mem_singleton.mp last]
      exact emittable
  register ref := by
    rw [vregOfNode]
    split
    · exact Keeps.pure _
    · intro s value final run holds
      cases run
      exact holds
  emitted _ := by
    intro s value final run holds
    cases run
    exact holds
  loopEmitted _ := by
    intro s value final run holds
    cases run
    exact holds
  selectLabels := by
    intro s value final run holds
    cases run
    exact holds
  loopLabels := by
    intro s value final run holds
    cases run
    exact holds

/-- A selected function consists of collected instructions and of the labels,
jumps and moves that frame the regions. -/
theorem lower_emittable {fuel : Nat} {name : String} {mf : MachineFunction}
    (selected : lower fuel g name = .ok mf) :
    ∀ mi ∈ mf.instrs, Emittable (collect g).perNode mi := by
  have steps := allEmittable_steps (g := g) (collect g).perNode
  have empty : AllEmittable (collect g).perNode
      ({ table := (collect g).table } : EmitState g) := by
    intro mi member
    cases member
  simp only [lower] at selected
  split at selected
  · split at selected
    case h_1 => cases selected
    case h_2 final run =>
      cases selected
      exact steps.structured fuel _ _ final run empty
  · split at selected
    case h_1 => cases selected
    case h_2 visits final run =>
      split at selected
      · cases selected
      · cases selected
        intro mi member
        exact steps.flatSchedule _ fuel _ _ _ _ final run empty mi
          (List.mem_of_mem_filter member)

end InstrSel

end Aegis
