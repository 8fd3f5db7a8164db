import AegisCompiler.LoweredBranch

/-!
# Lowering an `if` correctly

The bindings of the two branches are merged name by name.  The order in which
the entries are visited does not matter, because their names are distinct.
-/

namespace Aegis

namespace Lowerer

open ControlWalk TypeChecker AstEval

def phiNodeOf (region : NodeRef) (values : List NodeRef) : Node :=
  { kind := .phi, typeId := kInvalidTypeId, inputs := region :: values }

theorem not_readsCtrl_phiNodeOf {region : NodeRef} {values : List NodeRef}
    {slot ctrl : Nat} : ¬ ReadsCtrl (phiNodeOf region values) slot ctrl :=
  not_readsCtrl_of_kind nofun nofun nofun nofun

theorem wellPlaced_phiNodeOf {id region : Nat} (below : region < id)
    (values : List NodeRef) :
    WellPlaced id (phiNodeOf (some region) values) := by
  constructor
  · nofun
  · nofun
  · nofun
  · exact fun _ => ⟨region, rfl, below⟩

/-- What a name is bound to after the merge: the node of the first branch, or
a phi of both. -/
inductive MergedTo (region : NodeId) (afterElse : Bindings) (s t : LowerState)
    (name : SymbolId) (thenId : NodeId) : NodeId → Prop where
  | same (only : ∀ elseId, afterElse.get name = some (some elseId) →
      elseId = thenId) : MergedTo region afterElse s t name thenId thenId
  | phi {id elseId : NodeId} (new : s.graph.size ≤ id)
      (other : afterElse.get name = some (some elseId))
      (node : t.graph.node id =
        phiNodeOf (some region) [some thenId, some elseId]) :
      MergedTo region afterElse s t name thenId id

/-- The state after merging these entries. -/
structure Merged (region : NodeId) (afterElse : Bindings)
    (entries : Bindings) (s t : LowerState) : Prop where
  quiet : Quiet s t
  ready : ∀ pend, Ready pend [] s → Ready pend [] t
  kept : ∀ name, name ∉ entries.names →
    t.bindings.get name = s.bindings.get name
  merged : ∀ name thenId, (name, some thenId) ∈ entries →
    ∃ id, t.bindings.get name = some (some id) ∧ id < t.graph.size ∧
      MergedTo region afterElse s t name thenId id

theorem Frame.not_sees_nil (name : SymbolId) :
    ¬ TypeChecker.Frame.Sees [] name := by
  rintro ⟨⟩

/-- Merging one more entry in front, whatever it is bound to. -/
theorem Merged.cons {region : NodeId} {afterElse rest : Bindings}
    {s t u : LowerState} {name : SymbolId} {thenId id : NodeId}
    (absent : name ∉ rest.names) (data : DataStep s t)
    (inside : id < t.graph.size)
    (head : MergedTo region afterElse s t name thenId id)
    (tail : Merged region afterElse rest
      { t with bindings := t.bindings.insert name (some id) } u) :
    Merged region afterElse ((name, some thenId) :: rest) s u := by
  have size : t.graph.size ≤ u.graph.size := tail.quiet.size
  have old (node : Nat) (below : node < t.graph.size) :
      u.graph.node node = t.graph.node node := tail.quiet.old node below
  refine ⟨?_, ?_, ?_, ?_⟩
  · have bound : Quiet t
        { t with bindings := t.bindings.insert name (some id) } :=
      ⟨le_rfl, fun _ _ => rfl, (Quiet.refl t).quiet, rfl, rfl⟩
    exact data.toQuiet.trans (bound.trans tail.quiet)
  · intro pend ready
    exact tail.ready pend ((data.ready pend [] ready).bindName inside
      fun other seen => absurd seen (Frame.not_sees_nil other))
  · intro other notEntry
    simp only [Bindings.names, List.map_cons, List.mem_cons, not_or] at notEntry
    rw [tail.kept other notEntry.2]
    show (t.bindings.insert name (some id)).get other = _
    rw [Bindings.get_insert_of_ne _ _ notEntry.1, data.bindings]
  · intro other otherThen member
    rcases List.mem_cons.mp member with here | later
    · cases here
      refine ⟨id, ?_, Nat.lt_of_lt_of_le inside size, ?_⟩
      · rw [tail.kept name absent]
        exact Bindings.get_insert_self _ _ _
      · cases head with
        | same only => exact .same only
        | phi new other node =>
            exact .phi new other ((old id inside).trans node)
    · obtain ⟨node, found, below, target⟩ := tail.merged other otherThen later
      refine ⟨node, found, below, ?_⟩
      cases target with
      | same only => exact .same only
      | phi new elseEntry phiNode =>
          exact .phi (data.size.trans new) elseEntry phiNode

/-- Merging runs through all entries. -/
theorem mergeBindings_merged {region : NodeId} {afterElse : Bindings}
    (entries : Bindings) (nodup : entries.names.Nodup) {s : LowerState}
    (below : region < s.graph.size)
    (known : ∀ name ref, (name, ref) ∈ entries →
      ∃ id, ref = some id ∧ id < s.graph.size)
    (elseKnown : ∀ name ref, afterElse.get name = some ref →
      ∃ id, ref = some id ∧ id < s.graph.size) :
    ∃ t, mergeBindings region afterElse entries s = .ok () t ∧
      Merged region afterElse entries s t := by
  induction entries generalizing s with
  | nil =>
      exact ⟨s, rfl, Quiet.refl s, fun _ ready => ready, fun _ _ => rfl, nofun⟩
  | cons entry rest ih =>
      obtain ⟨name, ref⟩ := entry
      obtain ⟨thenId, rfl, thenInside⟩ := known name ref List.mem_cons_self
      simp only [Bindings.names, List.map_cons, List.nodup_cons] at nodup
      have later (t : LowerState) (size : s.graph.size ≤ t.graph.size) :
          ∃ u, mergeBindings region afterElse rest t = .ok () u ∧
            Merged region afterElse rest t u := by
        refine ih nodup.2 (Nat.lt_of_lt_of_le below size) ?_ ?_
        · intro other otherRef member
          obtain ⟨id, same, inside⟩ :=
            known other otherRef (List.mem_cons_of_mem _ member)
          exact ⟨id, same, Nat.lt_of_lt_of_le inside size⟩
        · intro other otherRef found
          obtain ⟨id, same, inside⟩ := elseKnown other otherRef found
          exact ⟨id, same, Nat.lt_of_lt_of_le inside size⟩
      have plain (only : ∀ elseId, afterElse.get name = some (some elseId) →
          elseId = thenId)
          (run : ∀ t, mergeBindings region afterElse
            ((name, some thenId) :: rest) t =
            mergeBindings region afterElse rest { t with
              bindings := t.bindings.insert name (some thenId) }) :
          ∃ t, mergeBindings region afterElse ((name, some thenId) :: rest) s =
              .ok () t ∧
            Merged region afterElse ((name, some thenId) :: rest) s t := by
        obtain ⟨u, ran, done⟩ := later
          { s with bindings := s.bindings.insert name (some thenId) } le_rfl
        exact ⟨u, (run s).trans ran,
          done.cons nodup.1 (DataStep.refl s) thenInside (.same only)⟩
      cases found : afterElse.get name with
      | none =>
          refine plain ?_ fun t => ?_
          · intro elseId bound
            rw [found] at bound
            cases bound
          · rw [mergeBindings, found]
            rfl
      | some elseRef =>
          obtain ⟨elseId, rfl, elseInside⟩ := elseKnown name elseRef found
          by_cases same : elseId = thenId
          · subst same
            refine plain ?_ fun t => ?_
            · intro other otherFound
              rw [found, Option.some.injEq, Option.some.injEq] at otherFound
              exact otherFound.symm
            · rw [mergeBindings, found]
              simp only [ne_eq, not_true_eq_false, if_false]
              rfl
          · let n := phiNodeOf (some region) [some thenId, some elseId]
            have notProj : NodeKind.phi ≠ .proj := by decide
            have data : DataStep s (pushed s n) :=
              DataStep.pushed s (wellPlaced_phiNodeOf below _)
                (fun _ _ => not_readsCtrl_phiNodeOf) notProj
            obtain ⟨u, ran, done⟩ := later { pushed s n with
              bindings := s.bindings.insert name (some s.graph.size) } data.size
            refine ⟨u, ?_, ?_⟩
            · have differ : some elseId ≠ some thenId := by simpa using same
              rw [mergeBindings, found]
              simp only [differ, if_true, ne_eq, not_false_eq_true]
              exact ran
            · refine Merged.cons nodup.1 data ?_ ?_ done
              · rw [pushed_size]
                exact Nat.lt_succ_self _
              · exact .phi le_rfl found (pushed_new s n)

def regionNodeOf (preds : List NodeRef) : Node :=
  { kind := .region, typeId := kInvalidTypeId, inputs := preds }

theorem Ready.seeing {pend : NodeId → Prop} {frame frame' : TypeChecker.Frame}
    {s : LowerState} (ready : Ready pend frame s)
    (sees : ∀ name, frame'.Sees name → name ∈ s.bindings.names) :
    Ready pend frame' s :=
  ⟨ready.wired, ready.table, ready.bound, ready.names, sees, ready.ctrl⟩

theorem readsCtrl_regionNodeOf {first second : NodeRef} {slot ctrl : Nat}
    (reads : ReadsCtrl (regionNodeOf [first, second]) slot ctrl) :
    slot = 0 ∧ first = some ctrl ∨ slot = 1 ∧ second = some ctrl := by
  obtain ⟨-, read⟩ := reads
  rcases slot with _ | _ | slot
  · exact Or.inl ⟨rfl, read⟩
  · exact Or.inr ⟨rfl, read⟩
  · cases read

/-- A region that joins two distinct unused controls fits. -/
theorem Fits.region {pend : NodeId → Prop} {g : Graph}
    (wired : Wired pend g) {first second : NodeRef}
    (firstFree : ∀ c, first = some c → c < g.size ∧ Unused pend g c)
    (secondFree : ∀ c, second = some c → c < g.size ∧ Unused pend g c)
    (distinct : ∀ c, first = some c → second ≠ some c) :
    Fits pend pend g (regionNodeOf [first, second]) where
  placed := by constructor <;> nofun
  same _ _ := Iff.rfl
  range id isPending := Nat.le_of_lt (wired.pending id isPending).1
  opened isPending := absurd (wired.pending _ isPending).1 (Nat.lt_irrefl _)
  below slot ctrl reads := by
    rcases readsCtrl_regionNodeOf reads with ⟨-, read⟩ | ⟨-, read⟩
    · exact (firstFree ctrl read).1
    · exact (secondFree ctrl read).1
  free slot ctrl reads _ := by
    rcases readsCtrl_regionNodeOf reads with ⟨-, read⟩ | ⟨-, read⟩
    · exact (firstFree ctrl read).2
    · exact (secondFree ctrl read).2
  once slot slot' ctrl reads reads' _ _ := by
    rcases readsCtrl_regionNodeOf reads with ⟨rfl, read⟩ | ⟨rfl, read⟩ <;>
      rcases readsCtrl_regionNodeOf reads' with ⟨rfl, read'⟩ | ⟨rfl, read'⟩
    · rfl
    · exact absurd read' (distinct ctrl read)
    · exact absurd read (distinct ctrl read')
    · rfl
  proj := nofun

/-- Entering the region gives a merged name the value it has in the branch the
walk comes from. -/
theorem value_mergedTo {region thenId elseId id : NodeId}
    {afterElse : Bindings} {joined t : LowerState} {name : SymbolId}
    (target : MergedTo region afterElse joined t name thenId id)
    (elseFound : afterElse.get name = some (some elseId))
    (thenBelow : thenId < region) {final : Graph} (wired : Wired noPending final)
    (settled : joined.graph.size ≤ id → final.node id = t.graph.node id)
    {slot : Nat} {chosen : NodeId}
    (comes : slot = 0 ∧ chosen = thenId ∨ slot = 1 ∧ chosen = elseId)
    {args : List Word} {phis : Phis} {v : Word}
    (here : value final args phis chosen = some v) :
    value final args (enter final args region (slot + 1) phis) id = some v := by
  cases target with
  | same only =>
      have isThen : chosen = thenId := by
        rcases comes with ⟨-, same⟩ | ⟨-, same⟩
        · exact same
        · exact same.trans (only elseId elseFound)
      have agree (id : Nat) (below : id < region) :
          enter final args region (slot + 1) phis id = phis id :=
        enter_below wired (Nat.le_of_lt below)
      rw [← here, isThen]
      exact value_congr wired.ordered agree thenBelow
  | phi new other node =>
      rw [elseFound, Option.some.injEq, Option.some.injEq] at other
      have finalNode := (settled new).trans node
      rw [value_phi wired.ordered _ (by rw [finalNode]; rfl),
        enter_phi (by rw [finalNode]; rfl) (by rw [finalNode]; rfl), finalNode]
      rcases comes with ⟨rfl, rfl⟩ | ⟨rfl, rfl⟩
      · exact here
      · rw [← other]
        exact here

section If

variable {pend : NodeId → Prop} {s : LowerState}

/-- The states an `if` passes through: after the condition and after each
branch. -/
structure IfStates (cond : LowerM NodeRef) (thenBranch elseBranch : LowerM Unit)
    (s : LowerState) where
  condId : NodeId
  afterCond : LowerState
  afterThen : LowerState
  afterElse : LowerState
  condRun : cond s = .ok (some condId) afterCond
  thenRun : thenBranch
    { branched afterCond (some condId) with
      ctrl := some (afterCond.graph.size + 1) } = .ok () afterThen
  elseRun : elseBranch
    { afterThen with
      ctrl := some (afterCond.graph.size + 2), eff := afterCond.eff
      bindings := afterCond.bindings } = .ok () afterElse

namespace IfStates

variable {cond : LowerM NodeRef} {thenBranch elseBranch : LowerM Unit}
variable (states : IfStates cond thenBranch elseBranch s)

def startThen : LowerState :=
  { branched states.afterCond (some states.condId) with
    ctrl := some (states.afterCond.graph.size + 1) }

def startElse : LowerState :=
  { states.afterThen with
    ctrl := some (states.afterCond.graph.size + 2), eff := states.afterCond.eff
    bindings := states.afterCond.bindings }

/-- The state at the region, before the bindings are merged. -/
def joined : LowerState :=
  { pushed states.afterElse
      (regionNodeOf [states.afterThen.ctrl, states.afterElse.ctrl]) with
    ctrl := some states.afterElse.graph.size
    eff := if states.afterThen.eff ≠ none then states.afterThen.eff
      else states.afterElse.eff }

theorem run (order : TableOrder) : lowerIf order cond thenBranch elseBranch s =
    mergeBindings states.afterElse.graph.size states.afterElse.bindings
      (order.enumerate states.afterThen.graph states.afterThen.bindings) states.joined := by
  rw [lowerIf, run_bind states.condRun, run_get]
  refine (run_branched _ _ _ _).trans ?_
  rw [run_setCtrl]
  refine (run_bind states.thenRun).trans ?_
  rw [run_get, run_setCtrl, run_setEff, run_setBindings]
  refine (run_bind states.elseRun).trans ?_
  rw [run_get, run_make, run_setCtrl, run_setEff]
  rfl

end IfStates

/-- Every part of an `if` is lowered correctly. -/
structure IfDone (pend : NodeId → Prop)
    (frame thenFrame elseFrame : TypeChecker.Frame)
    (evalCond : Env → Option Word) (evalThen evalElse : Env → StmtOutcome)
    (thenFree elseFree : Prop) {cond : LowerM NodeRef}
    {thenBranch elseBranch : LowerM Unit}
    (states : IfStates cond thenBranch elseBranch s) : Prop where
  ready : Ready pend frame states.afterCond
  condStep : DataStep s states.afterCond
  condMeans : ∀ final args phis env v,
    Completes pend states.afterCond.graph final →
    Represents final args frame s.bindings phis env →
    evalCond env = some v → value final args phis states.condId = some v
  thenDone : Lowered pend frame thenFrame evalThen thenFree states.startThen
    states.afterThen
  elseDone : Lowered pend frame elseFrame evalElse elseFree states.startElse
    states.afterElse

/-- Control never comes back to the second projection in the first branch. -/
theorem otherBranch_ready {frame thenFrame : TypeChecker.Frame}
    {evalThen : Env → StmtOutcome} {thenFree : Prop}
    {afterCond afterThen : LowerState} {condId : NodeId} (ready : Ready pend frame afterCond)
    (opened : Opened pend frame afterCond (branched afterCond (some condId)))
    (thenDone : Lowered pend frame thenFrame evalThen thenFree
      { branched afterCond (some condId) with
        ctrl := some (afterCond.graph.size + 1) } afterThen) :
    Ready pend frame { afterThen with
      ctrl := some (afterCond.graph.size + 2), eff := afterCond.eff
      bindings := afterCond.bindings } where
  wired := thenDone.ready.wired
  table := thenDone.ready.table
  bound name ref found := by
    obtain ⟨id, same, inside⟩ := ready.bound name ref found
    refine ⟨id, same, Nat.lt_of_lt_of_le inside ?_⟩
    exact opened.grows.size.trans thenDone.grows.size
  names := ready.names
  sees := ready.sees
  ctrl c same := by
    cases same
    obtain ⟨inside, unused⟩ := opened.right
    refine ⟨Nat.lt_of_lt_of_le inside thenDone.grows.size, ?_⟩
    refine thenDone.grows.unused inside (fun same => ?_) unused
    exact Nat.ne_of_lt (Nat.lt_succ_self _) (Option.some.inj same)

section Correctness

variable {frame thenFrame elseFrame frame' : TypeChecker.Frame}
variable {cond : LowerM NodeRef} {thenBranch elseBranch : LowerM Unit}
variable {evalCond : Env → Option Word} {evalThen evalElse : Env → StmtOutcome}
variable {thenFree elseFree : Prop}

/-- All parts run. -/
theorem ifDone_of_correct (condCorrect : CorrectExpr frame cond evalCond)
    (thenCorrect : Correct frame thenFrame thenBranch evalThen thenFree)
    (elseCorrect : Correct frame elseFrame elseBranch evalElse elseFree)
    (ready : Ready pend frame s) :
    ∃ states : IfStates cond thenBranch elseBranch s,
      IfDone pend frame thenFrame elseFrame evalCond evalThen evalElse thenFree
        elseFree states := by
  obtain ⟨condId, afterCond, condRun, condStep, condInside, condMeans⟩ :=
    condCorrect pend s ready
  have middle := condStep.ready pend frame ready
  have opened := branched_opened middle condId
  have startThen := opened.ready.setCtrl afterCond.eff opened.left.1
    opened.left.2
  obtain ⟨afterThen, thenRun, thenDone⟩ := thenCorrect pend _ startThen
  have startElse := otherBranch_ready middle opened thenDone
  obtain ⟨afterElse, elseRun, elseDone⟩ := elseCorrect pend _ startElse
  exact ⟨⟨condId, afterCond, afterThen, afterElse, condRun, thenRun, elseRun⟩,
    middle, condStep, condMeans, thenDone, elseDone⟩

variable {states : IfStates cond thenBranch elseBranch s}

namespace IfDone

variable (done : IfDone pend frame thenFrame elseFrame evalCond evalThen
  evalElse thenFree elseFree states)
include done

theorem opened : Opened pend frame states.afterCond
    (branched states.afterCond (some states.condId)) :=
  branched_opened done.ready states.condId

theorem grows_startThen : Grows s states.startThen :=
  done.condStep.grows.trans done.opened.grows

theorem grows_afterThen : Grows s states.afterThen :=
  done.grows_startThen.trans done.thenDone.grows

theorem grows_startElse : Grows s states.startElse := by
  refine done.grows_afterThen.resume states.afterCond.eff ?_ ?_
  · intro c same
    have size := done.condStep.size
    exact Or.inr (Option.some.inj same ▸ Nat.le_add_right_of_le size)
  · exact done.condStep.grows.names

theorem grows_afterElse : Grows s states.afterElse :=
  done.grows_startElse.trans done.elseDone.grows

/-- The first branch never ends at the second projection. -/
theorem end_ne_right {c : NodeId} (left : states.afterThen.ctrl = some c) :
    states.afterCond.graph.size + 2 ≠ c := by
  intro isRight
  rcases done.thenDone.grows.ctrl c left with first | late
  · have isLeft : states.afterCond.graph.size + 1 = c := Option.some.inj first
    exact Nat.ne_of_lt (Nat.lt_succ_self _) (isLeft.trans isRight.symm)
  · have size := branched_size states.afterCond (some states.condId)
    have late : (branched states.afterCond (some states.condId)).graph.size ≤
        c := late
    rw [size, ← isRight] at late
    exact Nat.not_succ_le_self _ late

/-- The controls at the ends of the branches differ. -/
theorem ends_differ (c : NodeId) (left : states.afterThen.ctrl = some c) :
    states.afterElse.ctrl ≠ some c := by
  intro right
  have inside := (done.thenDone.ready.ctrl c left).1
  rcases done.elseDone.grows.ctrl c right with start | late
  · exact done.end_ne_right left (Option.some.inj start)
  · exact Nat.not_lt_of_le late inside

/-- The region can be placed. -/
theorem region_fits : Fits pend pend states.afterElse.graph
    (regionNodeOf [states.afterThen.ctrl, states.afterElse.ctrl]) := by
  refine Fits.region done.elseDone.ready.wired ?_ done.elseDone.ready.ctrl
    done.ends_differ
  intro c left
  obtain ⟨inside, unused⟩ := done.thenDone.ready.ctrl c left
  refine ⟨Nat.lt_of_lt_of_le inside done.elseDone.grows.size, ?_⟩
  exact done.elseDone.grows.unused inside
    (fun start => done.end_ne_right left (Option.some.inj start)) unused

theorem joined_ready : Ready pend [] states.joined := by
  have seeing : Ready pend [] states.afterElse :=
    done.elseDone.ready.seeing fun name seen =>
      absurd seen (Frame.not_sees_nil name)
  refine ((seeing.stop states.afterElse.eff).pushed done.region_fits
    nofun).setCtrl _ ?_ ?_
  · show states.afterElse.graph.size < (pushed states.afterElse _).graph.size
    rw [pushed_size]
    exact Nat.lt_succ_self _
  · exact done.elseDone.ready.wired.unused_new done.region_fits

theorem grows_joined : Grows s states.joined := by
  refine (done.grows_afterElse.pushed ?_).resume _ ?_
    done.grows_afterElse.names
  · intro slot ctrl reads
    rcases readsCtrl_regionNodeOf reads with ⟨-, left⟩ | ⟨-, right⟩
    · exact (done.grows_afterThen.ctrl ctrl left).symm
    · exact (done.grows_afterElse.ctrl ctrl right).symm
  · intro c same
    exact Or.inr (Option.some.inj same ▸ done.grows_afterElse.size)

/-- Merging the bindings of an `if`. -/
theorem merge (order : TableOrder) :
    ∃ t, lowerIf order cond thenBranch elseBranch s = .ok () t ∧
      Merged states.afterElse.graph.size states.afterElse.bindings
        (order.enumerate states.afterThen.graph states.afterThen.bindings) states.joined t := by
  have size : states.joined.graph.size = states.afterElse.graph.size + 1 :=
    pushed_size _ _
  have perm := order.perm states.afterThen.graph states.afterThen.bindings
  rw [states.run]
  refine mergeBindings_merged _ ?_ ?_ ?_ ?_
  · exact (perm.map Prod.fst).nodup_iff.mpr done.thenDone.ready.names
  · rw [size]
    exact Nat.lt_succ_self _
  · intro name ref member
    have found := (Bindings.get_eq_some_iff done.thenDone.ready.names).mpr
      (perm.mem_iff.mp member)
    obtain ⟨id, same, inside⟩ := done.thenDone.ready.bound name ref found
    refine ⟨id, same, ?_⟩
    rw [size]
    exact Nat.lt_succ_of_lt (Nat.lt_of_lt_of_le inside done.elseDone.grows.size)
  · intro name ref found
    obtain ⟨id, same, inside⟩ := done.elseDone.ready.bound name ref found
    refine ⟨id, same, ?_⟩
    rw [size]
    exact Nat.lt_succ_of_lt inside

variable {order : TableOrder} {t : LowerState}
variable (merged : Merged states.afterElse.graph.size states.afterElse.bindings
  (order.enumerate states.afterThen.graph states.afterThen.bindings) states.joined t)
include merged

/-- A name the first branch binds is merged. -/
theorem merged_get {name : SymbolId} {thenId : NodeId}
    (found : states.afterThen.bindings.get name = some (some thenId)) :
    ∃ id, t.bindings.get name = some (some id) ∧ id < t.graph.size ∧
      MergedTo states.afterElse.graph.size states.afterElse.bindings
        states.joined t name thenId id := by
  refine merged.merged name thenId ?_
  rw [(order.perm states.afterThen.graph states.afterThen.bindings).mem_iff]
  exact (Bindings.get_eq_some_iff done.thenDone.ready.names).mp found

theorem merged_names {name : SymbolId}
    (bound : name ∈ states.afterThen.bindings.names ∨
      name ∈ states.afterElse.bindings.names) : name ∈ t.bindings.names := by
  rw [← Bindings.get_isSome_iff]
  by_cases inThen : name ∈ states.afterThen.bindings.names
  · obtain ⟨thenId, found, -⟩ := done.thenDone.ready.get inThen
    obtain ⟨id, here, -⟩ := done.merged_get merged found
    rw [here]
    rfl
  · have notEntry : name ∉
        (order.enumerate states.afterThen.graph states.afterThen.bindings).names := by
      rw [Bindings.names, ((order.perm _ _).map Prod.fst).mem_iff]
      exact inThen
    rw [merged.kept name notEntry, Bindings.get_isSome_iff]
    exact bound.resolve_left inThen

theorem grows : Grows s t := by
  refine done.grows_joined.trans (merged.quiet.grows fun name bound => ?_)
  exact done.merged_names merged (Or.inr bound)

variable {final : Graph} {args : List Word} {frame' : TypeChecker.Frame}
  (completes : Completes pend t.graph final)
  (sees : ∀ name, frame'.Sees name →
    thenFrame.Sees name ∧ elseFrame.Sees name)
include completes sees

/-- The walk goes on through the region from the end of a branch. -/
theorem follows_region {side : TypeChecker.Frame} {u : LowerState}
    {slot : Nat} (comes : slot = 0 ∧ u = states.afterThen ∧ side = thenFrame ∨
      slot = 1 ∧ u = states.afterElse ∧ side = elseFrame)
    {ctrl : NodeId} {phis : Phis} {env : Env} (here : u.ctrl = some ctrl)
    (eff : u.eff ≠ none)
    (represents : Represents final args side u.bindings phis env) :
    Follows final args frame' u t ctrl phis (.normal env) := by
  have joinedSize : states.joined.graph.size =
      states.afterElse.graph.size + 1 := pushed_size _ _
  have earlier := completes.earlier merged.quiet.size merged.quiet.old
  have region : final.node states.afterElse.graph.size =
      regionNodeOf [states.afterThen.ctrl, states.afterElse.ctrl] :=
    Completes.pushed (s := states.afterElse) earlier done.elseDone.ready.wired
  have kind : (final.node states.afterElse.graph.size).kind = .region := by
    rw [region]
    rfl
  have input : (final.node states.afterElse.graph.size).inputs.getD slot none =
      some ctrl := by
    rw [region]
    rcases comes with ⟨rfl, rfl, -⟩ | ⟨rfl, rfl, -⟩ <;> exact here
  have inside : u.graph.size ≤ states.afterElse.graph.size := by
    rcases comes with ⟨-, rfl, -⟩ | ⟨-, rfl, -⟩
    · exact done.elseDone.grows.size
    · exact le_rfl
  have settled (id : NodeId) (new : states.joined.graph.size ≤ id)
      (below : id < t.graph.size) : final.node id = t.graph.node id :=
    completes.node id below (done.joined_ready.wired.not_pending new)
  refine ⟨states.afterElse.graph.size, _, merged.quiet.ctrl, ?_,
    .single (step_region completes.wired kind input), ?_, ?_⟩
  · rw [merged.quiet.eff]
    show (if states.afterThen.eff ≠ none then states.afterThen.eff
      else states.afterElse.eff) ≠ none
    split
    case isTrue some => exact some
    case isFalse none =>
      rcases comes with ⟨-, rfl, -⟩ | ⟨-, rfl, -⟩
      · exact absurd eff none
      · exact eff
  · intro id below
    exact enter_below completes.wired
      (Nat.le_of_lt (Nat.lt_of_lt_of_le below inside))
  · intro name seen
    obtain ⟨inThen, inElse⟩ := sees name seen
    obtain ⟨thenId, thenFound, thenInside⟩ :=
      done.thenDone.ready.get (done.thenDone.ready.sees name inThen)
    obtain ⟨elseId, elseFound, elseInside⟩ :=
      done.elseDone.ready.get (done.elseDone.ready.sees name inElse)
    obtain ⟨id, found, below, target⟩ := done.merged_get merged thenFound
    refine ⟨id, found, ?_⟩
    have thenBelow : thenId < states.afterElse.graph.size :=
      Nat.lt_of_lt_of_le thenInside done.elseDone.grows.size
    rcases comes with ⟨rfl, rfl, rfl⟩ | ⟨rfl, rfl, rfl⟩
    · obtain ⟨chosen, chosenFound, value⟩ := represents name inThen
      rw [thenFound, Option.some.injEq, Option.some.injEq] at chosenFound
      exact value_mergedTo target elseFound thenBelow completes.wired
        (fun new => settled id new below) (Or.inl ⟨rfl, chosenFound.symm⟩) value
    · obtain ⟨chosen, chosenFound, value⟩ := represents name inElse
      rw [elseFound, Option.some.injEq, Option.some.injEq] at chosenFound
      exact value_mergedTo target elseFound thenBelow completes.wired
        (fun new => settled id new below) (Or.inr ⟨rfl, chosenFound.symm⟩) value

end IfDone

/-- An `if` is lowered correctly when its parts are. -/
theorem lowerIf_correct {frame' : TypeChecker.Frame} (order : TableOrder)
    (condCorrect : CorrectExpr frame cond evalCond)
    (thenCorrect : Correct frame thenFrame thenBranch evalThen thenFree)
    (elseCorrect : Correct frame elseFrame elseBranch evalElse elseFree)
    (sees : ∀ name, frame'.Sees name →
      thenFrame.Sees name ∧ elseFrame.Sees name) (returnFree : Prop) :
    Correct frame frame' (lowerIf order cond thenBranch elseBranch)
      (fun env => withValue (evalCond env) fun v =>
        if v ≠ 0 then evalThen env else evalElse env) returnFree := by
  intro pend s ready
  obtain ⟨states, done⟩ :=
    ifDone_of_correct condCorrect thenCorrect elseCorrect ready
  obtain ⟨t, ran, merged⟩ := done.merge order
  refine ⟨t, ran, ?_, done.grows merged, ?_, ?_⟩
  · refine (merged.ready pend done.joined_ready).seeing fun name seen => ?_
    refine done.merged_names merged (Or.inl ?_)
    exact done.thenDone.ready.sees name (sees name seen).1
  · intro _ _
    rw [merged.quiet.ctrl]
    exact Option.some_ne_none _
  · intro final args phis env ctrl here eff completes represents
    have atJoined := completes.earlier merged.quiet.size merged.quiet.old
    have atElse : Completes pend states.afterElse.graph final :=
      atJoined.earlier ((pushed_size _ _).symm ▸ Nat.le_succ _)
        fun id old => pushed_old states.afterElse _ old
    have atThen : Completes pend states.afterThen.graph final :=
      atElse.earlier done.elseDone.grows.size done.elseDone.grows.old
    have atStart : Completes pend
        (branched states.afterCond (some states.condId)).graph final :=
      atThen.earlier done.thenDone.grows.size done.thenDone.grows.old
    have atCond : Completes pend states.afterCond.graph final :=
      atStart.earlier (branched_size _ _ ▸ Nat.le_add_right _ 3)
        fun id old => branched_old states.afterCond _ old
    have sameBindings := done.condStep.bindings
    have current : states.afterCond.ctrl = some ctrl :=
      done.condStep.ctrl.trans here
    have effect : states.afterCond.eff ≠ none := by
      rw [done.condStep.eff]
      exact eff
    have size := done.condStep.size
    refine Follows.withValue fun v evaluated => ?_
    have walked := branched_step done.ready atStart current
      (done.condMeans final args phis env v atCond represents evaluated)
    rw [← sameBindings] at represents
    by_cases taken : v ≠ 0
    · rw [if_pos taken] at walked ⊢
      refine Follows.steps (t := states.startThen) walked
        done.grows_startThen.size (fun _ _ => rfl) ?_
      rw [← StmtOutcome.andThen_normal (evalThen env)]
      refine (done.thenDone.follows final args phis env _ rfl effect atThen
        represents).andThen done.thenDone.grows.size ?_
      intro env' ctrl' phis' here' eff' represents'
      exact done.follows_region merged completes sees
        (Or.inl ⟨rfl, rfl, rfl⟩) here' eff' represents'
    · rw [if_neg taken] at walked ⊢
      refine Follows.steps (t := states.startElse) walked
        done.grows_startElse.size (fun _ _ => rfl) ?_
      rw [← StmtOutcome.andThen_normal (evalElse env)]
      refine (done.elseDone.follows final args phis env _ rfl effect atElse
        represents).andThen done.elseDone.grows.size ?_
      intro env' ctrl' phis' here' eff' represents'
      exact done.follows_region merged completes sees
        (Or.inr ⟨rfl, rfl, rfl⟩) here' eff' represents'

end Correctness

end If

end Lowerer

end Aegis
