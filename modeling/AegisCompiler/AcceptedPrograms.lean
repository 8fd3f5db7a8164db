import AegisCompiler.AstEval
import AegisCompiler.TypeChecker

/-!
# What the type checker guarantees

A judgment for the statements of the call-free fragment that the checker
accepts: every name that is read is in the frame, every name that is bound is
new, and loop bodies do not return.
-/

namespace Aegis

namespace TypeChecker

open AstEval

/-- The name is visible. -/
def Frame.Sees (frame : Frame) (name : SymbolId) : Prop :=
  (frame.find name).isSome = true

/-- A pure expression over visible names. -/
inductive KnownExpr (frame : Frame) : Ast → Prop where
  | intLit (value : Word) : KnownExpr frame (.intLit value)
  | boolLit (value : Bool) : KnownExpr frame (.boolLit value)
  | ident {name : SymbolId} (sees : frame.Sees name) :
      KnownExpr frame (.ident name)
  | unary {op : TokenKind} {operand : Ast} (isOp : isUnaryOp op = true)
      (known : KnownExpr frame operand) :
      KnownExpr frame (.unaryExpr op operand)
  | binary {op : TokenKind} {lhs rhs : Ast} (isOp : isBinaryOp op = true)
      (left : KnownExpr frame lhs) (right : KnownExpr frame rhs) :
      KnownExpr frame (.binaryExpr op lhs rhs)

/-- An accepted statement, with the frame before and after it. -/
inductive Accepted : Frame → Ast → Frame → Prop where
  | letStmt {frame : Frame} {name : SymbolId} {typeAnn : Option Ast}
      {init : Ast} {isVar : Bool} (known : KnownExpr frame init)
      (fresh : ¬ frame.Sees name) :
      Accepted frame (.letStmt name typeAnn (some init) isVar)
        (frame ++ [⟨name, isVar⟩])
  | assign {frame : Frame} {op : TokenKind} {name : SymbolId} {value : Ast}
      (isOp : isAssignOp op = true) (known : KnownExpr frame value)
      (sees : frame.Sees name) :
      Accepted frame (.assignExpr op (.ident name) value) frame
  | blockNil {frame : Frame} : Accepted frame (.block []) frame
  | blockCons {frame middle final : Frame} {n : Ast} {ns : List Ast}
      (first : Accepted frame n middle)
      (rest : Accepted middle (.block ns) final) :
      Accepted frame (.block (n :: ns)) final
  | ifElse {frame thenFrame elseFrame : Frame} {cond thenBranch elseBranch : Ast}
      (known : KnownExpr frame cond)
      (left : Accepted frame thenBranch thenFrame)
      (right : Accepted frame elseBranch elseFrame) :
      Accepted frame (.ifStmt cond thenBranch (some elseBranch))
        (Check.mergeBranchFrames frame thenFrame elseFrame)
  | ifThen {frame thenFrame : Frame} {cond thenBranch : Ast}
      (known : KnownExpr frame cond)
      (left : Accepted frame thenBranch thenFrame) :
      Accepted frame (.ifStmt cond thenBranch none)
        (Check.mergeBranchFrames frame thenFrame frame)
  | forRange {frame bodyFrame : Frame} {varName : SymbolId} {lo hi body : Ast}
      (loKnown : KnownExpr frame lo) (hiKnown : KnownExpr frame hi)
      (fresh : ¬ frame.Sees varName)
      (returnFree : containsUnlowerable body = false)
      (inner : Accepted (frame ++ [⟨varName, false⟩]) body bodyFrame) :
      Accepted frame (.forStmt varName (.rangeExpr lo hi) body) frame
  | returnValue {frame : Frame} {value : Ast} (known : KnownExpr frame value) :
      Accepted frame (.returnStmt (some value)) frame
  | returnNone {frame : Frame} : Accepted frame (.returnStmt none) frame

namespace Check

theorem andThen_clean {first second : Check} {frame : Frame}
    (clean : (first.andThen second frame).2 = []) :
    (first frame).2 = [] ∧ (second (first frame).1).2 = [] := by
  simpa [andThen] using clean

theorem andThen_frame (first second : Check) (frame : Frame) :
    (first.andThen second frame).1 = (second (first frame).1).1 := rfl

theorem bindName_clean {messageId : BitVec 32} {name : SymbolId}
    {isMutable : Bool} {frame : Frame}
    (clean : (Check.bindName messageId name isMutable frame).2 = []) :
    ¬ frame.Sees name ∧
      (Check.bindName messageId name isMutable frame).1 =
        frame ++ [⟨name, isMutable⟩] := by
  unfold Check.bindName Frame.tryBind at clean ⊢
  by_cases sees : (frame.find name).isSome = true
  · simp [sees, reportSym, report] at clean
  · simp [Frame.Sees, sees]

end Check

theorem checkIdent_clean {name : SymbolId} {frame : Frame}
    (clean : (checkIdent name frame).2 = []) : frame.Sees name := by
  unfold checkIdent at clean
  split at clean
  case h_1 b found => simp [Frame.Sees, found]
  case h_2 => simp [Check.reportSym, Check.report] at clean

theorem checkMutable_clean {name : SymbolId} {frame : Frame}
    (clean : (checkMutable name frame).2 = []) :
    frame.Sees name ∧ (checkMutable name frame).1 = frame := by
  unfold checkMutable at clean ⊢
  cases found : frame.find name with
  | none => simp [found, Check.reportSym, Check.report] at clean
  | some b =>
      refine ⟨by simp [Frame.Sees, found], ?_⟩
      simp only
      split <;> rfl

variable {sigs : FnSigs}

/-- Checking a pure expression leaves the frame alone. -/
theorem knownExpr_of_check {frame : Frame} : (e : Ast) →
    pureExpr e = true → (checkExpr sigs e frame).2 = [] →
    KnownExpr frame e ∧ (checkExpr sigs e frame).1 = frame
  | .intLit value, _, _ => ⟨.intLit value, rfl⟩
  | .boolLit value, _, _ => ⟨.boolLit value, rfl⟩
  | .ident name, _, clean => by
      refine ⟨.ident (checkIdent_clean clean), ?_⟩
      show (checkIdent name frame).1 = frame
      unfold checkIdent
      split <;> rfl
  | .unaryExpr op operand, isPure, clean => by
      simp only [pureExpr, Bool.and_eq_true] at isPure
      obtain ⟨known, same⟩ := knownExpr_of_check operand isPure.2 clean
      exact ⟨.unary isPure.1 known, same⟩
  | .binaryExpr op lhs rhs, isPure, clean => by
      simp only [pureExpr, Bool.and_eq_true] at isPure
      obtain ⟨leftClean, rightClean⟩ := Check.andThen_clean clean
      obtain ⟨left, leftSame⟩ := knownExpr_of_check lhs isPure.1.2 leftClean
      rw [leftSame] at rightClean
      obtain ⟨right, rightSame⟩ := knownExpr_of_check rhs isPure.2 rightClean
      refine ⟨.binary isPure.1.1 left right, ?_⟩
      show (checkExpr sigs rhs (checkExpr sigs lhs frame).1).1 = frame
      rw [leftSame, rightSame]
  | .module _, isPure, _ | .fnDecl .., isPure, _ | .param .., isPure, _
  | .structDecl .., isPure, _ | .enumDecl .., isPure, _
  | .block _, isPure, _ | .letStmt .., isPure, _ | .exprStmt _, isPure, _
  | .returnStmt _, isPure, _ | .ifStmt .., isPure, _ | .forStmt .., isPure, _
  | .matchStmt .., isPure, _ | .callExpr .., isPure, _
  | .fieldExpr .., isPure, _ | .indexExpr .., isPure, _
  | .assignExpr .., isPure, _ | .floatLit _, isPure, _ | .strLit _, isPure, _
  | .pathExpr _, isPure, _ | .rangeExpr .., isPure, _ | .identPat _, isPure, _
  | .pathPat .., isPure, _ | .memberPat .., isPure, _ => by
      simp [pureExpr] at isPure

mutual

theorem accepted_of_check : (n : Ast) → {frame : Frame} →
    callFreeStmt n = true → (checkStmt sigs n frame).2 = [] →
    Accepted frame n (checkStmt sigs n frame).1
  | .letStmt name typeAnn (some init) isVar, frame, inside, clean => by
      simp only [callFreeStmt] at inside
      obtain ⟨initClean, bindClean⟩ := Check.andThen_clean clean
      obtain ⟨known, same⟩ := knownExpr_of_check init inside initClean
      obtain ⟨fresh, bound⟩ := Check.bindName_clean bindClean
      have after : (checkStmt sigs (.letStmt name typeAnn (some init) isVar)
          frame).1 = frame ++ [⟨name, isVar⟩] := by
        show (Check.bindName kErrDuplicateBinding name isVar
          (checkExpr sigs init frame).1).1 = _
        rw [bound, same]
      rw [after]
      exact .letStmt known (same ▸ fresh)
  | .assignExpr op target value, frame, inside, clean => by
      cases target with
      | ident name =>
          simp only [callFreeStmt, Bool.and_eq_true] at inside
          obtain ⟨valueClean, targetClean⟩ := Check.andThen_clean clean
          obtain ⟨known, same⟩ := knownExpr_of_check value inside.2 valueClean
          obtain ⟨sees, unchanged⟩ := checkMutable_clean targetClean
          have after : (checkStmt sigs (.assignExpr op (.ident name) value)
              frame).1 = frame := by
            show (checkMutable name (checkExpr sigs value frame).1).1 = _
            rw [unchanged, same]
          rw [after]
          exact .assign inside.1 known (same ▸ sees)
      | _ => simp [callFreeStmt] at inside
  | .block stmts, frame, inside, clean =>
      accepted_of_checkStmts stmts inside clean
  | .ifStmt cond thenBranch (some elseBranch), frame, inside, clean => by
      simp only [callFreeStmt, Bool.and_eq_true] at inside
      obtain ⟨condClean, branchesClean⟩ := Check.andThen_clean clean
      obtain ⟨known, same⟩ := knownExpr_of_check cond inside.1.1 condClean
      obtain ⟨leftClean, rightClean⟩ := List.append_eq_nil_iff.mp branchesClean
      rw [same] at leftClean rightClean
      have left := accepted_of_check thenBranch inside.1.2 leftClean
      have right := accepted_of_check elseBranch inside.2 rightClean
      have after : (checkStmt sigs (.ifStmt cond thenBranch (some elseBranch))
          frame).1 = Check.mergeBranchFrames frame
            (checkStmt sigs thenBranch frame).1
            (checkStmt sigs elseBranch frame).1 := by
        show (Check.branches (checkStmt sigs thenBranch)
          (checkStmt sigs elseBranch) (checkExpr sigs cond frame).1).1 = _
        rw [same]
        rfl
      rw [after]
      exact .ifElse known left right
  | .ifStmt cond thenBranch none, frame, inside, clean => by
      simp only [callFreeStmt, Bool.and_eq_true] at inside
      obtain ⟨condClean, branchesClean⟩ := Check.andThen_clean clean
      obtain ⟨known, same⟩ := knownExpr_of_check cond inside.1.1 condClean
      obtain ⟨leftClean, -⟩ := List.append_eq_nil_iff.mp branchesClean
      rw [same] at leftClean
      have left := accepted_of_check thenBranch inside.1.2 leftClean
      have after : (checkStmt sigs (.ifStmt cond thenBranch none) frame).1 =
          Check.mergeBranchFrames frame (checkStmt sigs thenBranch frame).1
            frame := by
        show (Check.branches (checkStmt sigs thenBranch) Check.skip
          (checkExpr sigs cond frame).1).1 = _
        rw [same]
        rfl
      rw [after]
      exact .ifThen known left
  | .forStmt varName iter body, frame, inside, clean => by
      cases iter with
      | rangeExpr lo hi =>
          simp only [callFreeStmt, Bool.and_eq_true] at inside
          obtain ⟨boundsClean, copyClean⟩ := Check.andThen_clean clean
          obtain ⟨loClean, hiClean⟩ := Check.andThen_clean boundsClean
          obtain ⟨loKnown, loSame⟩ := knownExpr_of_check lo inside.1.1 loClean
          rw [loSame] at hiClean
          obtain ⟨hiKnown, hiSame⟩ := knownExpr_of_check hi inside.1.2 hiClean
          have same : ((checkExpr sigs lo).andThen (checkExpr sigs hi) frame).1 =
              frame := by
            rw [Check.andThen_frame, loSame, hiSame]
          rw [same] at copyClean
          obtain ⟨bindClean, bodyClean⟩ := Check.andThen_clean copyClean
          obtain ⟨fresh, bound⟩ := Check.bindName_clean bindClean
          rw [bound] at bodyClean
          have returnFree : containsUnlowerable body = false := by
            by_contra unlowerable
            rw [Bool.not_eq_false] at unlowerable
            rw [if_pos unlowerable] at bodyClean
            cases bodyClean
          simp only [returnFree, Bool.false_eq_true, if_false] at bodyClean
          have after : (checkStmt sigs (.forStmt varName (.rangeExpr lo hi) body)
              frame).1 = frame := same
          rw [after]
          exact .forRange loKnown hiKnown fresh returnFree
            (accepted_of_check body inside.2 bodyClean)
      | _ => simp [callFreeStmt] at inside
  | .returnStmt (some value), frame, inside, clean => by
      simp only [callFreeStmt] at inside
      obtain ⟨known, same⟩ := knownExpr_of_check value inside clean
      have after : (checkStmt sigs (.returnStmt (some value)) frame).1 =
          frame := same
      rw [after]
      exact .returnValue known
  | .returnStmt none, frame, _, _ => .returnNone
  | .letStmt _ _ none _, _, inside, _ | .exprStmt _, _, inside, _
  | .matchStmt .., _, inside, _ | .module _, _, inside, _
  | .fnDecl .., _, inside, _ | .param .., _, inside, _
  | .structDecl .., _, inside, _ | .enumDecl .., _, inside, _
  | .binaryExpr .., _, inside, _ | .unaryExpr .., _, inside, _
  | .callExpr .., _, inside, _ | .fieldExpr .., _, inside, _
  | .indexExpr .., _, inside, _ | .ident _, _, inside, _
  | .intLit _, _, inside, _ | .floatLit _, _, inside, _
  | .strLit _, _, inside, _ | .boolLit _, _, inside, _
  | .pathExpr _, _, inside, _ | .rangeExpr .., _, inside, _
  | .identPat _, _, inside, _ | .pathPat .., _, inside, _
  | .memberPat .., _, inside, _ => by simp [callFreeStmt] at inside

theorem accepted_of_checkStmts : (ns : List Ast) → {frame : Frame} →
    callFreeStmts ns = true → (checkStmts sigs ns frame).2 = [] →
    Accepted frame (.block ns) (checkStmts sigs ns frame).1
  | [], _, _, _ => .blockNil
  | n :: ns, frame, inside, clean => by
      simp only [callFreeStmts, Bool.and_eq_true] at inside
      obtain ⟨firstClean, restClean⟩ := Check.andThen_clean clean
      exact .blockCons (accepted_of_check n inside.1 firstClean)
        (accepted_of_checkStmts ns inside.2 restClean)

end

theorem Frame.sees_iff {frame : Frame} {name : SymbolId} :
    frame.Sees name ↔ ∃ b ∈ frame, b.name = name := by
  simp [Frame.Sees, Frame.find, List.find?_isSome]

theorem Frame.sees_append {frame : Frame} {b : Binding} {name : SymbolId} :
    Frame.Sees (frame ++ [b]) name ↔ frame.Sees name ∨ b.name = name := by
  simp only [Frame.sees_iff, List.mem_append, List.mem_singleton, or_and_right,
    exists_or, exists_eq_left]

/-- What is visible after an `if`. -/
theorem sees_mergeBranchFrames {frame thenFrame elseFrame : Frame}
    {name : SymbolId} :
    Frame.Sees (Check.mergeBranchFrames frame thenFrame elseFrame) name ↔
      frame.Sees name ∨ thenFrame.Sees name ∧ elseFrame.Sees name := by
  unfold Check.mergeBranchFrames
  induction thenFrame generalizing frame with
  | nil => simp [Frame.sees_iff]
  | cons b rest ih =>
      have here : Frame.Sees (b :: rest) name ↔
          b.name = name ∨ Frame.Sees rest name := by
        simp [Frame.sees_iff]
      rw [List.foldl_cons, ih, here]
      by_cases before : (frame.find b.name).isSome = true
      · rw [if_pos before]
        by_cases same : b.name = name
        · have seen : frame.Sees name := same ▸ before
          simp [seen]
        · simp [same]
      · rw [if_neg before]
        by_cases both : (elseFrame.find b.name).isSome = true
        · rw [if_pos both, Frame.sees_append]
          by_cases same : b.name = name
          · have seen : elseFrame.Sees name := same ▸ both
            simp [same, seen]
          · simp [same]
        · rw [if_neg both]
          by_cases same : b.name = name
          · have unseen : ¬ elseFrame.Sees name := same ▸ both
            simp [unseen]
          · simp [same]

/-- A visible name stays visible. -/
theorem Accepted.sees {frame final : Frame} {n : Ast}
    (accepted : Accepted frame n final) {name : SymbolId}
    (seen : frame.Sees name) : final.Sees name := by
  induction accepted with
  | letStmt known fresh => exact Frame.sees_append.mpr (Or.inl seen)
  | assign isOp known sees => exact seen
  | blockNil => exact seen
  | blockCons first rest firstIh restIh => exact restIh (firstIh seen)
  | ifElse known left right leftIh rightIh =>
      exact sees_mergeBranchFrames.mpr (Or.inl seen)
  | ifThen known left leftIh =>
      exact sees_mergeBranchFrames.mpr (Or.inl seen)
  | forRange loKnown hiKnown fresh returnFree inner ih => exact seen
  | returnValue known => exact seen
  | returnNone => exact seen

/-- The outcome, if normal, leaves a name at this value. -/
def Leaves (name : SymbolId) (value : Word) : StmtOutcome → Prop
  | .normal env => env name = value
  | _ => True

theorem Leaves.andThen {name : SymbolId} {value : Word} {outcome : StmtOutcome}
    {next : Env → StmtOutcome} (left : Leaves name value outcome)
    (right : ∀ env, env name = value → Leaves name value (next env)) :
    Leaves name value (outcome.andThen next) := by
  cases outcome with
  | normal env => exact right env left
  | trap => trivial
  | returned result => trivial

theorem Leaves.withValue {name : SymbolId} {value : Word}
    {computed : Option Word} {next : Word → StmtOutcome}
    (each : ∀ v, Leaves name value (next v)) :
    Leaves name value (withValue computed next) := by
  cases computed with
  | none => trivial
  | some v => exact each v

theorem leaves_runLoop {name varName : SymbolId} {value : Word}
    {body : Env → StmtOutcome} (other : name ≠ varName)
    (inner : ∀ env, env name = value → Leaves name value (body env))
    (trips : Nat) (i : Word) (env : Env) (here : env name = value) :
    Leaves name value (runLoop varName body trips i env) := by
  induction trips generalizing i env with
  | zero => exact here
  | succ trips ih =>
      have bound : Function.update env varName i name = value := by
        rw [Function.update_of_ne other]
        exact here
      exact (inner _ bound).andThen fun last after => ih (i + 1) last after

/-- A visible name that a statement does not assign keeps its value: every
name it binds is new. -/
theorem Accepted.leaves {frame final : Frame} {n : Ast}
    (accepted : Accepted frame n final) {name : SymbolId}
    (seen : frame.Sees name) (unassigned : name ∉ Lowerer.assignedNames n)
    {env : Env} {value : Word} (here : env name = value) :
    Leaves name value (evalStmt n env) := by
  induction accepted generalizing env with
  | @letStmt frame bound typeAnn init isVar known fresh =>
      refine Leaves.withValue fun v => ?_
      have other : name ≠ bound := by
        rintro rfl
        exact fresh seen
      exact (Function.update_of_ne other ..).trans here
  | @assign frame op target assigned isOp known sees =>
      refine Leaves.withValue fun v => ?_
      have other : name ≠ target := by
        rintro rfl
        exact unassigned (by simp [Lowerer.assignedNames])
      exact (Function.update_of_ne other ..).trans here
  | blockNil => exact here
  | blockCons first rest firstIh restIh =>
      simp only [Lowerer.assignedNames, Lowerer.assignedNamesAll,
        List.mem_append, not_or] at unassigned restIh
      exact (firstIh seen unassigned.2 here).andThen fun middle after =>
        restIh (first.sees seen) unassigned.1 after
  | ifElse known left right leftIh rightIh =>
      simp only [Lowerer.assignedNames, List.mem_append, not_or] at unassigned
      refine Leaves.withValue fun v => ?_
      split
      · exact leftIh seen unassigned.1.2 here
      · exact rightIh seen unassigned.1.1 here
  | ifThen known left leftIh =>
      simp only [Lowerer.assignedNames, List.mem_append, not_or] at unassigned
      refine Leaves.withValue fun v => ?_
      split
      · exact leftIh seen unassigned.1.2 here
      · exact here
  | @forRange frame bodyFrame varName lo hi body loKnown hiKnown fresh
      returnFree inner ih =>
      simp only [Lowerer.assignedNames] at unassigned
      have other : name ≠ varName := by
        rintro rfl
        exact fresh seen
      refine Leaves.withValue fun loValue => Leaves.withValue fun hiValue => ?_
      have inner (env : Env) (here : env name = value) :
          Leaves name value (evalStmt body env) :=
        ih (Frame.sees_append.mpr (Or.inl seen)) unassigned here
      have loop := leaves_runLoop other inner (tripCount loValue hiValue) loValue
        env here
      refine loop.andThen fun last after => ?_
      exact (Function.update_of_ne other ..).trans after
  | returnValue known => exact Leaves.withValue fun v => trivial
  | returnNone => trivial

end TypeChecker

end Aegis
