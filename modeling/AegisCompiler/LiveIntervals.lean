import AegisCompiler.FlowSpans
import AegisCompiler.LinearScan
import Mathlib.Tactic.IntervalCases

/-!
# Intervals cover liveness

For instruction streams built from nested loops and forward select regions, the
widened interval of a register contains every position where the register is
live, back edges included.  An allocation without spills therefore keeps all
live registers apart.
-/

namespace Aegis

namespace LiveIntervals

open LinearScan FlowSpans

section Flow

variable (instrs : List MachineInstr)

/-- The label stands at a position. -/
def LabelAt (label : Int) (p : Nat) : Prop :=
  ∃ mi, instrs[p]? = some mi ∧ mi.op = .label ∧ mi.imm = some label

/-- A jump to the label stands at a position. -/
def JumpAt (op : MachineOp) (label : Int) (p : Nat) : Prop :=
  ∃ mi, instrs[p]? = some mi ∧ mi.op = op ∧ mi.imm = some label

/-- A jump at one position goes to a label at the other. -/
def Jumps (p q : Nat) : Prop :=
  ∃ mi label, instrs[p]? = some mi ∧ (mi.op = .jmp ∨ mi.op = .jz) ∧
    mi.imm = some label ∧ LabelAt instrs label q

/-- Control goes on at the next position. -/
def FallsThrough (p : Nat) : Prop :=
  ∃ mi, instrs[p]? = some mi ∧ mi.op ≠ .jmp ∧ mi.op ≠ .ret

/-- Control goes from one position to the other. -/
def Flows (p q : Nat) : Prop :=
  FallsThrough instrs p ∧ q = p + 1 ∨ Jumps instrs p q

def Defines (p : Nat) (v : VRegId) : Prop :=
  ∃ mi, instrs[p]? = some mi ∧ v ∈ mi.defs

def Reads (p : Nat) (v : VRegId) : Prop :=
  ∃ mi, instrs[p]? = some mi ∧ v ∈ mi.reads

/-- An instruction that is neither a label nor a jump. -/
def PlainAt (p : Nat) : Prop :=
  ∃ mi, instrs[p]? = some mi ∧ mi.op ≠ .label ∧ mi.op ≠ .jmp ∧ mi.op ≠ .jz

/-- The positions from one to the other hold plain instructions, loops and
select regions. -/
inductive Block : Nat → Nat → Prop
  | done {a : Nat} : Block a a
  | plain {a b : Nat} : PlainAt instrs a → Block (a + 1) b → Block a b
  | loop {a test tail b : Nat} {head exit : Int} :
      LabelAt instrs head a → Block (a + 1) test →
      JumpAt instrs .jz exit test → Block (test + 1) tail →
      JumpAt instrs .jmp head tail → LabelAt instrs exit (tail + 1) →
      Block (tail + 2) b → Block a b
  | select {a mid join b : Nat} {other next : Int} :
      JumpAt instrs .jz other a → Block (a + 1) mid →
      JumpAt instrs .jmp next mid → LabelAt instrs other (mid + 1) →
      Block (mid + 2) join → LabelAt instrs next join →
      Block (join + 1) b → Block a b

/-- No label stands at two positions. -/
def DistinctLabels : Prop :=
  ∀ label p q, LabelAt instrs label p → LabelAt instrs label q → p = q

/-- The whole stream is a block with distinct labels. -/
structure Structured : Prop where
  block : Block instrs 0 instrs.length
  labels : DistinctLabels instrs

/-- Nothing follows a return. -/
def ReturnsLast : Prop :=
  ∀ p, (∃ mi, instrs[p]? = some mi ∧ mi.op = .ret) → p + 1 = instrs.length

/-- Control reaches a position from the start of the stream. -/
def Reachable (p : Nat) : Prop :=
  Reaches (Flows instrs) (fun _ => True) p

end Flow

section Blocks

variable {instrs : List MachineInstr} {a b p q : Nat}

theorem Block.le (block : Block instrs a b) : a ≤ b := by
  induction block with
  | done => exact le_rfl
  | plain => omega
  | loop => omega
  | select => omega

theorem LabelAt.not_jumps {label : Int} (isLabel : LabelAt instrs label p) :
    ¬ Jumps instrs p q := by
  rintro ⟨mi, target, found, isJump, -⟩
  obtain ⟨other, same, isLabel, -⟩ := isLabel
  rw [found, Option.some.injEq] at same
  rw [← same] at isLabel
  rcases isJump with isJump | isJump <;>
    · rw [isJump] at isLabel
      cases isLabel

theorem PlainAt.not_jumps (plain : PlainAt instrs p) : ¬ Jumps instrs p q := by
  rintro ⟨mi, target, found, isJump, -⟩
  obtain ⟨other, same, -, notJmp, notJz⟩ := plain
  rw [found, Option.some.injEq] at same
  rw [← same] at notJmp notJz
  exact isJump.elim notJmp notJz

/-- A jump goes to the one position of its label. -/
theorem JumpAt.target (labels : DistinctLabels instrs) {op : MachineOp}
    {label : Int} (jump : JumpAt instrs op label p) {r : Nat}
    (isLabel : LabelAt instrs label r) (jumps : Jumps instrs p q) : q = r := by
  obtain ⟨mi, found, -, imm⟩ := jump
  obtain ⟨other, target, same, -, otherImm, atTarget⟩ := jumps
  rw [found, Option.some.injEq] at same
  rw [← same, imm, Option.some.injEq] at otherImm
  rw [← otherImm] at atTarget
  exact labels label q r atTarget isLabel

/-- How the jumps of a block are nested. -/
structure Nested (instrs : List MachineInstr) (a b : Nat) : Prop where
  inside : ∀ {p q}, a ≤ p → p < b → Jumps instrs p q → a ≤ q ∧ q < b
  /-- Only unconditional jumps go back. -/
  back : ∀ {p q}, a ≤ p → p < b → Jumps instrs p q → q ≤ p →
    q < p ∧ ∃ label, JumpAt instrs .jmp label p
  /-- One jump goes back to a position. -/
  single : ∀ {p q r}, a ≤ p → p < b → a ≤ r → r < b → Jumps instrs p q →
    Jumps instrs r q → q < p → q < r → p = r
  /-- No jump from outside enters a loop behind its head. -/
  closed : ∀ {tail head p q}, a ≤ tail → tail < b → Jumps instrs tail head →
    head < tail → a ≤ p → p < b → Jumps instrs p q → p < head ∨ tail < p →
    head < q → ¬ q ≤ tail

theorem nested_done : Nested instrs a a where
  inside := by omega
  back := by omega
  single := by omega
  closed := by omega

theorem nested_plain (plain : PlainAt instrs a)
    (rest : Nested instrs (a + 1) b) : Nested instrs a b := by
  have jumps {p q : Nat} (above : a ≤ p) (jump : Jumps instrs p q) : a + 1 ≤ p := by
    rcases Nat.lt_or_eq_of_le above with less | same
    · exact less
    · subst same
      exact absurd jump plain.not_jumps
  constructor
  case inside =>
    intro p q above below jump
    have := rest.inside (jumps above jump) below jump
    omega
  case back =>
    intro p q above below jump
    exact rest.back (jumps above jump) below jump
  case single =>
    intro p q r above below above' below' jump jump'
    exact rest.single (jumps above jump) below (jumps above' jump') below' jump
      jump'
  case closed =>
    intro tail head p q above below back less above' below' jump
    exact rest.closed (jumps above back) below back less (jumps above' jump)
      below' jump

/-- Both ends of a jump lie in the block. -/
def Within (a b p q : Nat) : Prop := a ≤ p ∧ p < b ∧ a ≤ q ∧ q < b

theorem Nested.within (nested : Nested instrs a b) (above : a ≤ p) (below : p < b)
    (jump : Jumps instrs p q) : Within a b p q :=
  have target := nested.inside above below jump
  ⟨above, below, target.1, target.2⟩

section Loop

variable (labels : DistinctLabels instrs) {test tail : Nat} {head exit : Int}
variable (atHead : LabelAt instrs head a) (leaves : JumpAt instrs .jz exit test)
variable (returns : JumpAt instrs .jmp head tail)
variable (atExit : LabelAt instrs exit (tail + 1))
variable (testBlock : Nested instrs (a + 1) test)
variable (bodyBlock : Nested instrs (test + 1) tail)
variable (restBlock : Nested instrs (tail + 2) b)
include labels atHead leaves returns atExit testBlock bodyBlock restBlock

/-- The jumps of a loop and of the block behind it. -/
theorem loop_jumps (above : a ≤ p) (below : p < b) (jump : Jumps instrs p q) :
    Within (a + 1) test p q ∨ (p = test ∧ q = tail + 1) ∨
      Within (test + 1) tail p q ∨ (p = tail ∧ q = a) ∨
        Within (tail + 2) b p q := by
  rcases Nat.lt_or_eq_of_le above with inside | same
  case inr =>
    subst same
    exact absurd jump atHead.not_jumps
  rcases Nat.lt_trichotomy p test with inTest | same | later
  · exact Or.inl (testBlock.within inside inTest jump)
  · subst same
    exact Or.inr (Or.inl ⟨rfl, leaves.target labels atExit jump⟩)
  rcases Nat.lt_trichotomy p tail with inBody | same | later
  · exact Or.inr (Or.inr (Or.inl (bodyBlock.within later inBody jump)))
  · subst same
    exact Or.inr (Or.inr (Or.inr (Or.inl
      ⟨rfl, returns.target labels atHead jump⟩)))
  rcases Nat.lt_or_eq_of_le later with behind | same
  · exact Or.inr (Or.inr (Or.inr (Or.inr (restBlock.within behind below jump))))
  · subst same
    exact absurd jump atExit.not_jumps

theorem nested_loop (testLe : a + 1 ≤ test) (bodyLe : test + 1 ≤ tail)
    (restLe : tail + 2 ≤ b) : Nested instrs a b := by
  have jumps {p q : Nat} (above : a ≤ p) (below : p < b)
      (jump : Jumps instrs p q) :=
    loop_jumps labels atHead leaves returns atExit testBlock bodyBlock restBlock
      above below jump
  unfold Within at jumps
  constructor
  case inside =>
    intro p q above below jump
    rcases jumps above below jump with h | h | h | h | h <;> omega
  case back =>
    intro p q above below jump goesBack
    rcases jumps above below jump with h | h | h | h | h
    · exact testBlock.back h.1 h.2.1 jump goesBack
    · omega
    · exact bodyBlock.back h.1 h.2.1 jump goesBack
    · obtain ⟨rfl, rfl⟩ := h
      exact ⟨by omega, head, returns⟩
    · exact restBlock.back h.1 h.2.1 jump goesBack
  case single =>
    intro p q r above below above' below' jump jump' goesBack goesBack'
    rcases jumps above below jump with h | h | h | h | h <;>
      rcases jumps above' below' jump' with h' | h' | h' | h' | h' <;>
      first
      | omega
      | exact testBlock.single h.1 h.2.1 h'.1 h'.2.1 jump jump' goesBack goesBack'
      | exact bodyBlock.single h.1 h.2.1 h'.1 h'.2.1 jump jump' goesBack goesBack'
      | exact restBlock.single h.1 h.2.1 h'.1 h'.2.1 jump jump' goesBack goesBack'
  case closed =>
    intro tail' head' p q above below goesBack less above' below' jump outside
      behind
    rcases jumps above below goesBack with h | h | h | h | h <;>
      rcases jumps above' below' jump with h' | h' | h' | h' | h' <;>
      first
      | omega
      | exact testBlock.closed h.1 h.2.1 goesBack less h'.1 h'.2.1 jump outside
          behind
      | exact bodyBlock.closed h.1 h.2.1 goesBack less h'.1 h'.2.1 jump outside
          behind
      | exact restBlock.closed h.1 h.2.1 goesBack less h'.1 h'.2.1 jump outside
          behind

end Loop

section Select

variable (labels : DistinctLabels instrs) {mid join : Nat} {other next : Int}
variable (branches : JumpAt instrs .jz other a)
variable (skips : JumpAt instrs .jmp next mid)
variable (atOther : LabelAt instrs other (mid + 1))
variable (atNext : LabelAt instrs next join)
variable (leftBlock : Nested instrs (a + 1) mid)
variable (rightBlock : Nested instrs (mid + 2) join)
variable (restBlock : Nested instrs (join + 1) b)
include labels branches skips atOther atNext leftBlock rightBlock restBlock

/-- The jumps of a select region and of the block behind it. -/
theorem select_jumps (above : a ≤ p) (below : p < b) (jump : Jumps instrs p q) :
    (p = a ∧ q = mid + 1) ∨ Within (a + 1) mid p q ∨ (p = mid ∧ q = join) ∨
      Within (mid + 2) join p q ∨ Within (join + 1) b p q := by
  rcases Nat.lt_or_eq_of_le above with inside | same
  case inr =>
    subst same
    exact Or.inl ⟨rfl, branches.target labels atOther jump⟩
  rcases Nat.lt_trichotomy p mid with inLeft | same | later
  · exact Or.inr (Or.inl (leftBlock.within inside inLeft jump))
  · subst same
    exact Or.inr (Or.inr (Or.inl ⟨rfl, skips.target labels atNext jump⟩))
  rcases Nat.lt_or_eq_of_le later with behind | same
  case inr =>
    subst same
    exact absurd jump atOther.not_jumps
  rcases Nat.lt_trichotomy p join with inRight | same | later
  · exact Or.inr (Or.inr (Or.inr (Or.inl
      (rightBlock.within behind inRight jump))))
  · subst same
    exact absurd jump atNext.not_jumps
  · exact Or.inr (Or.inr (Or.inr (Or.inr (restBlock.within later below jump))))

theorem nested_select (leftLe : a + 1 ≤ mid) (rightLe : mid + 2 ≤ join)
    (restLe : join + 1 ≤ b) : Nested instrs a b := by
  have jumps {p q : Nat} (above : a ≤ p) (below : p < b)
      (jump : Jumps instrs p q) :=
    select_jumps labels branches skips atOther atNext leftBlock rightBlock
      restBlock above below jump
  unfold Within at jumps
  constructor
  case inside =>
    intro p q above below jump
    rcases jumps above below jump with h | h | h | h | h <;> omega
  case back =>
    intro p q above below jump goesBack
    rcases jumps above below jump with h | h | h | h | h
    · omega
    · exact leftBlock.back h.1 h.2.1 jump goesBack
    · omega
    · exact rightBlock.back h.1 h.2.1 jump goesBack
    · exact restBlock.back h.1 h.2.1 jump goesBack
  case single =>
    intro p q r above below above' below' jump jump' goesBack goesBack'
    rcases jumps above below jump with h | h | h | h | h <;>
      rcases jumps above' below' jump' with h' | h' | h' | h' | h' <;>
      first
      | omega
      | exact leftBlock.single h.1 h.2.1 h'.1 h'.2.1 jump jump' goesBack goesBack'
      | exact rightBlock.single h.1 h.2.1 h'.1 h'.2.1 jump jump' goesBack goesBack'
      | exact restBlock.single h.1 h.2.1 h'.1 h'.2.1 jump jump' goesBack goesBack'
  case closed =>
    intro tail' head' p q above below goesBack less above' below' jump outside
      behind
    rcases jumps above below goesBack with h | h | h | h | h <;>
      rcases jumps above' below' jump with h' | h' | h' | h' | h' <;>
      first
      | omega
      | exact leftBlock.closed h.1 h.2.1 goesBack less h'.1 h'.2.1 jump outside
          behind
      | exact rightBlock.closed h.1 h.2.1 goesBack less h'.1 h'.2.1 jump outside
          behind
      | exact restBlock.closed h.1 h.2.1 goesBack less h'.1 h'.2.1 jump outside
          behind

end Select

theorem Block.nested (labels : DistinctLabels instrs) (block : Block instrs a b) :
    Nested instrs a b := by
  induction block with
  | done => exact nested_done
  | plain isPlain rest ih => exact nested_plain isPlain ih
  | loop atHead test leaves body returns atExit rest testIh bodyIh restIh =>
      exact nested_loop labels atHead leaves returns atExit testIh bodyIh restIh
        test.le body.le rest.le
  | select branches left skips atOther right atNext rest leftIh rightIh restIh =>
      exact nested_select labels branches skips atOther atNext leftIh rightIh
        restIh left.le right.le rest.le

end Blocks

section Spans

variable {instrs : List MachineInstr}

theorem lt_length_of_getElem? {mi : MachineInstr} {p : Nat}
    (found : instrs[p]? = some mi) : p < instrs.length :=
  (List.getElem?_eq_some_iff.mp found).1

theorem loopSpan_eq_some {head : Nat} {span : Nat × Nat}
    (found : loopSpan instrs head = some span) :
    span.1 = head ∧ head < span.2 ∧ Jumps instrs span.2 head := by
  cases here : instrs[head]? with
  | none =>
      rw [loopSpan, here] at found
      cases found
  | some mi =>
      cases imm : mi.imm with
      | none =>
          rw [loopSpan, here] at found
          simp [imm] at found
      | some label =>
          rw [loopSpan, here] at found
          simp only [bind, Option.bind_some, imm, pure] at found
          split at found
          case isFalse => cases found
          case isTrue isLabel =>
            obtain ⟨tail, jump, same⟩ := Option.bind_eq_some_iff.mp found
            cases same
            have holds := List.find?_some jump
            rw [Bool.and_eq_true, decide_eq_true_eq, Option.any_eq_true] at holds
            obtain ⟨later, mj, foundTail, isJump⟩ := holds
            have isJump := of_decide_eq_true isJump
            exact ⟨rfl, later, mj, label, foundTail, Or.inl isJump.1, isJump.2,
              mi, here, isLabel, imm⟩

theorem loopSpans_sorted :
    (loopSpans instrs).Pairwise fun left right => left.1 < right.1 := by
  rw [loopSpans, List.pairwise_filterMap]
  refine List.pairwise_lt_range.imp ?_
  intro v w less left leftFound right rightFound
  rw [(loopSpan_eq_some leftFound).1, (loopSpan_eq_some rightFound).1]
  exact less

theorem mem_loopSpans {head tail : Nat}
    (member : (head, tail) ∈ loopSpans instrs) :
    head < tail ∧ Jumps instrs tail head := by
  obtain ⟨start, -, found⟩ := List.mem_filterMap.mp member
  obtain ⟨rfl, later, jumps⟩ := loopSpan_eq_some found
  exact ⟨later, jumps⟩

/-- The only jump back to a label makes a span. -/
theorem loopSpans_of_back {head tail : Nat} {label : Int} (less : head < tail)
    (jump : JumpAt instrs .jmp label tail) (atHead : LabelAt instrs label head)
    (only : ∀ p, head < p → Jumps instrs p head → p = tail) :
    (head, tail) ∈ loopSpans instrs := by
  obtain ⟨mi, here, isLabel, imm⟩ := atHead
  obtain ⟨mj, foundTail, isJmp, immTail⟩ := jump
  have inside := lt_length_of_getElem? foundTail
  refine List.mem_filterMap.mpr
    ⟨head, List.mem_range.mpr (Nat.lt_trans less inside), ?_⟩
  have closes : backJump instrs head label = some tail := by
    cases search : backJump instrs head label with
    | none =>
        have never := List.find?_eq_none.mp search tail
          (List.mem_range.mpr inside)
        refine absurd ?_ never
        rw [Bool.and_eq_true, decide_eq_true_eq, foundTail]
        exact ⟨less, decide_eq_true ⟨isJmp, immTail⟩⟩
    | some p =>
        have holds := List.find?_some search
        rw [Bool.and_eq_true, decide_eq_true_eq, Option.any_eq_true] at holds
        obtain ⟨later, mp, found, isJump⟩ := holds
        have isJump := of_decide_eq_true isJump
        rw [only p later ⟨mp, label, found, Or.inl isJump.1, isJump.2, mi, here,
          isLabel, imm⟩]
  rw [loopSpan, here]
  simp only [bind, Option.bind_some, imm, pure]
  rw [if_pos isLabel, closes]
  rfl

/-- Structured streams are entered and left as their spans say. -/
theorem Structured.singleEntry (structured : Structured instrs) :
    SingleEntry (Flows instrs) (loopSpans instrs) := by
  have nested := structured.block.nested structured.labels
  have inside {p q : Nat} (jump : Jumps instrs p q) : p < instrs.length := by
    obtain ⟨mi, label, found, -⟩ := jump
    exact lt_length_of_getElem? found
  constructor
  case ordered => exact fun member => (mem_loopSpans member).1
  case forward =>
    rintro p q (⟨-, rfl⟩ | jump)
    · exact Or.inl (Nat.lt_succ_self p)
    · by_cases goesBack : q ≤ p
      · right
        obtain ⟨less, label, atTail⟩ :=
          nested.back (Nat.zero_le p) (inside jump) jump goesBack
        have atHead : LabelAt instrs label q := by
          obtain ⟨mi, target, found, -, imm, atTarget⟩ := jump
          obtain ⟨mi', found', -, imm'⟩ := atTail
          rw [found, Option.some.injEq] at found'
          rw [← found', imm, Option.some.injEq] at imm'
          exact imm' ▸ atTarget
        refine loopSpans_of_back less atTail atHead fun r later jump' => ?_
        exact nested.single (Nat.zero_le r) (inside jump') (Nat.zero_le p)
          (inside jump) jump' jump later less
      · exact Or.inl (Nat.not_le.mp goesBack)
  case enter =>
    rintro head tail member p q (⟨-, rfl⟩ | jump) outside above below
    · omega
    · obtain ⟨less, back⟩ := mem_loopSpans member
      by_contra behind
      exact nested.closed (Nat.zero_le tail) (inside back) back less
        (Nat.zero_le p) (inside jump) jump outside
        (Nat.lt_of_le_of_ne above (Ne.symm behind)) below

theorem le_widen (first last : Nat) (span : Nat × Nat) :
    last ≤ widen first last span := by
  unfold widen
  split <;> omega

theorem le_widenAll (spans : List (Nat × Nat)) (first last : Nat) :
    last ≤ widenAll spans first last := by
  induction spans generalizing last with
  | nil => exact le_rfl
  | cons span spans ih => exact (le_widen first last span).trans (ih _)

/-- Spans behind the last position change nothing. -/
theorem widenAll_behind {spans : List (Nat × Nat)} {first last : Nat}
    (behind : ∀ span ∈ spans, last < span.1) :
    widenAll spans first last = last := by
  induction spans with
  | nil => rfl
  | cons span spans ih =>
      have unchanged : widen first last span = last := by
        have := behind span List.mem_cons_self
        unfold widen
        split <;> omega
      change widenAll spans first (widen first last span) = last
      rw [unchanged]
      exact ih fun other member => behind other (List.mem_cons_of_mem _ member)

/-- One pass over spans sorted by their heads widens to the end of every span
that is lived through. -/
theorem widenAll_spanned {spans : List (Nat × Nat)} {first last : Nat}
    (sorted : spans.Pairwise fun left right => left.1 < right.1)
    {span : Nat × Nat} (member : span ∈ spans) (before : first < span.1)
    (active : span.1 ≤ widenAll spans first last) :
    span.2 ≤ widenAll spans first last := by
  induction spans generalizing last with
  | nil => cases member
  | cons head rest ih =>
      obtain ⟨later, sorted⟩ := List.pairwise_cons.mp sorted
      change span.1 ≤ widenAll rest first (widen first last head) at active
      change span.2 ≤ widenAll rest first (widen first last head)
      rcases List.mem_cons.mp member with rfl | inRest
      · by_cases lived : span.1 ≤ last
        · refine le_trans ?_ (le_widenAll rest first _)
          unfold widen
          split <;> omega
        · -- What ends before this head also ends before all later ones.
          have unchanged : widen first last span = last := by
            unfold widen
            split <;> omega
          rw [unchanged, widenAll_behind] at active
          · omega
          · intro other inRest
            have := later other inRest
            omega
      · exact ih sorted inRest active

end Spans

section Extents

/-- The register is written or read at a position. -/
def Mentions (instrs : List MachineInstr) (p : Nat) (v : VRegId) : Prop :=
  Defines instrs p v ∨ Reads instrs p v

theorem touchAll_apply (i : Nat) (rc : RegClass) (vregs : List VRegId)
    (extents : Extents) (v : VRegId) :
    vregs.foldl (touch i rc) extents v =
      if v ∈ vregs then some ⟨((extents v).map Extent.first).getD i, i, rc⟩
      else extents v := by
  induction vregs generalizing extents with
  | nil => rfl
  | cons w rest ih =>
      rw [List.foldl_cons, ih]
      by_cases same : v = w
      · subst same
        simp [touch]
      · simp [touch, same]

theorem touchInstr_apply (extents : Extents) (mi : MachineInstr) (i : Nat)
    (v : VRegId) : touchInstr extents (mi, i) v =
      if v ∈ mi.reads ∨ v ∈ mi.defs then
        some ⟨((extents v).map Extent.first).getD i, i, mi.rc⟩
      else extents v := by
  rw [touchInstr, touchAll_apply, touchAll_apply]
  by_cases isRead : v ∈ mi.reads <;> by_cases isDef : v ∈ mi.defs <;>
    simp [isRead, isDef]

/-- The extents grow: a register keeps its first mention, and its last mention
only moves on. -/
theorem firstLast_from (instrs : List MachineInstr) (start : Nat)
    (extents : Extents)
    (bounded : ∀ v e, extents v = some e → e.first ≤ start ∧ e.last ≤ start)
    (v : VRegId) :
    let out := (instrs.zipIdx start).foldl touchInstr extents
    (∀ e, extents v = some e →
        ∃ e', out v = some e' ∧ e'.first = e.first ∧ e.last ≤ e'.last) ∧
      ∀ p, Mentions instrs p v →
        ∃ e, out v = some e ∧ e.first ≤ start + p ∧ start + p ≤ e.last := by
  induction instrs generalizing start extents with
  | nil =>
      refine ⟨fun e found => ⟨e, found, rfl, le_rfl⟩, ?_⟩
      rintro p (⟨mi, found, -⟩ | ⟨mi, found, -⟩) <;>
        simp at found
  | cons mi rest ih =>
      intro out
      have apply := touchInstr_apply extents mi start
      have bounded' (w : VRegId) (e : Extent)
          (found : touchInstr extents (mi, start) w = some e) :
          e.first ≤ start + 1 ∧ e.last ≤ start + 1 := by
        rw [apply] at found
        split at found
        · cases found
          cases known : extents w with
          | none => simp
          | some e =>
              have := bounded w e known
              simp only [Option.map_some, Option.getD_some]
              omega
        · have := bounded w e found
          omega
      obtain ⟨keeps, covers⟩ :=
        ih (start + 1) (touchInstr extents (mi, start)) bounded'
      have outEq : out = (rest.zipIdx (start + 1)).foldl touchInstr
          (touchInstr extents (mi, start)) := rfl
      rw [outEq]
      constructor
      · intro e known
        have := bounded v e known
        by_cases mentioned : v ∈ mi.reads ∨ v ∈ mi.defs
        · have touched := apply v
          rw [if_pos mentioned, known] at touched
          obtain ⟨e', found, first, last⟩ := keeps _ touched
          exact ⟨e', found, first, this.2.trans last⟩
        · have touched := apply v
          rw [if_neg mentioned, known] at touched
          exact keeps e touched
      · intro p mentions
        cases p with
        | zero =>
            have mentioned : v ∈ mi.reads ∨ v ∈ mi.defs := by
              rcases mentions with ⟨other, found, isDef⟩ | ⟨other, found, isRead⟩
              · cases found
                exact Or.inr isDef
              · cases found
                exact Or.inl isRead
            have touched := apply v
            rw [if_pos mentioned] at touched
            obtain ⟨e, found, first, last⟩ := keeps _ touched
            refine ⟨e, found, ?_, last⟩
            rw [first]
            cases known : extents v with
            | none => exact le_rfl
            | some e => exact (bounded v e known).1
        | succ p =>
            have later : Mentions rest p v := mentions
            obtain ⟨e, found, bounds⟩ := covers p later
            refine ⟨e, found, ?_⟩
            omega

theorem firstLast_mentions {instrs : List MachineInstr} {p : Nat} {v : VRegId}
    (mentions : Mentions instrs p v) :
    ∃ e, firstLast instrs v = some e ∧ e.first ≤ p ∧ p ≤ e.last := by
  obtain ⟨-, covers⟩ := firstLast_from instrs 0 (fun _ => none) nofun v
  have covered := covers p mentions
  rw [Nat.zero_add] at covered
  exact covered

theorem le_foldl_max (vregs : List VRegId) (top : VRegId) :
    top ≤ vregs.foldl max top ∧ ∀ v ∈ vregs, v ≤ vregs.foldl max top := by
  induction vregs generalizing top with
  | nil => exact ⟨le_rfl, nofun⟩
  | cons w rest ih =>
      obtain ⟨above, all⟩ := ih (max top w)
      refine ⟨(le_max_left top w).trans above, fun v member => ?_⟩
      rcases List.mem_cons.mp member with rfl | inRest
      · exact (le_max_right top v).trans above
      · exact all v inRest

theorem le_maxVReg_from (instrs : List MachineInstr) (top : VRegId) :
    let out := instrs.foldl (fun top mi =>
      mi.reads.foldl max (mi.defs.foldl max top)) top
    top ≤ out ∧ ∀ mi ∈ instrs, ∀ v, v ∈ mi.defs ∨ v ∈ mi.reads → v ≤ out := by
  induction instrs generalizing top with
  | nil => exact ⟨le_rfl, nofun⟩
  | cons mi rest ih =>
      obtain ⟨above, all⟩ := ih (mi.reads.foldl max (mi.defs.foldl max top))
      have defs := le_foldl_max mi.defs top
      have reads := le_foldl_max mi.reads (mi.defs.foldl max top)
      refine ⟨(defs.1.trans reads.1).trans above, ?_⟩
      intro other member v mentioned
      rcases List.mem_cons.mp member with rfl | inRest
      · rcases mentioned with isDef | isRead
        · exact ((defs.2 v isDef).trans reads.1).trans above
        · exact (reads.2 v isRead).trans above
      · exact all other inRest v mentioned

theorem le_maxVReg {instrs : List MachineInstr} {p : Nat} {v : VRegId}
    (mentions : Mentions instrs p v) : v ≤ maxVReg instrs := by
  obtain ⟨-, all⟩ := le_maxVReg_from instrs 0
  rcases mentions with ⟨mi, found, isDef⟩ | ⟨mi, found, isRead⟩
  · exact all mi (List.mem_of_getElem? found) v (Or.inl isDef)
  · exact all mi (List.mem_of_getElem? found) v (Or.inr isRead)

/-- A register that is mentioned has an interval that contains all its mentions
and reaches the end of every loop it is live through. -/
theorem interval_of_mention {mf : MachineFunction} {p : Nat} {v : VRegId}
    (mentions : Mentions mf.instrs p v) :
    ∃ iv ∈ computeIntervals mf, iv.vreg = v ∧
      (∀ q, Mentions mf.instrs q v → iv.start ≤ q ∧ q < iv.stop) ∧
      ∀ {head tail}, (head, tail) ∈ loopSpans mf.instrs → iv.start < head →
        head < iv.stop → tail < iv.stop := by
  obtain ⟨e, found, -⟩ := firstLast_mentions mentions
  have interval : ∃ iv, intervalOf mf.instrs v = some iv ∧ iv.vreg = v ∧
      iv.start = e.first ∧
        iv.stop = widenAll (loopSpans mf.instrs) e.first e.last + 1 := by
    rw [intervalOf, found]
    exact ⟨_, rfl, rfl, rfl, rfl⟩
  obtain ⟨iv, isInterval, vreg, start, stop⟩ := interval
  refine ⟨iv, ?_, vreg, ?_, ?_⟩
  · have inside := Nat.lt_succ_of_le (le_maxVReg mentions)
    exact List.mem_filterMap.mpr ⟨v, List.mem_range.mpr inside, isInterval⟩
  · intro q here
    obtain ⟨other, same, first, last⟩ := firstLast_mentions here
    rw [found, Option.some.injEq] at same
    subst same
    have := le_widenAll (loopSpans mf.instrs) e.first e.last
    omega
  · intro head tail member before active
    rw [start] at before
    rw [stop] at active ⊢
    exact Nat.lt_succ_of_le
      (widenAll_spanned loopSpans_sorted member before (Nat.le_of_lt_succ active))

end Extents

section Reachability

variable {instrs : List MachineInstr} {a b p : Nat}

theorem Reachable.step (reachable : Reachable instrs a)
    (flows : Flows instrs a b) : Reachable instrs b :=
  Reaches.step reachable trivial flows

theorem LabelAt.fallsThrough {label : Int} (isLabel : LabelAt instrs label p) :
    FallsThrough instrs p := by
  obtain ⟨mi, found, isLabel, -⟩ := isLabel
  exact ⟨mi, found, by simp [isLabel], by simp [isLabel]⟩

theorem JumpAt.fallsThrough {label : Int} (jump : JumpAt instrs .jz label p) :
    FallsThrough instrs p := by
  obtain ⟨mi, found, isJz, -⟩ := jump
  exact ⟨mi, found, by simp [isJz], by simp [isJz]⟩

theorem FallsThrough.next (falls : FallsThrough instrs p)
    (reachable : Reachable instrs p) : Reachable instrs (p + 1) :=
  reachable.step (Or.inl ⟨falls, rfl⟩)

theorem JumpAt.taken {op : MachineOp} {label : Int}
    (jump : JumpAt instrs op label p) (isJump : op = .jmp ∨ op = .jz) {q : Nat}
    (target : LabelAt instrs label q) (reachable : Reachable instrs p) :
    Reachable instrs q := by
  obtain ⟨mi, found, same, imm⟩ := jump
  exact reachable.step (Or.inr ⟨mi, label, found, same ▸ isJump, imm, target⟩)

theorem JumpAt.inside {op : MachineOp} {label : Int}
    (jump : JumpAt instrs op label p) : p < instrs.length := by
  obtain ⟨mi, found, -⟩ := jump
  exact lt_length_of_getElem? found

theorem LabelAt.inside {label : Int} (isLabel : LabelAt instrs label p) :
    p < instrs.length := by
  obtain ⟨mi, found, -⟩ := isLabel
  exact lt_length_of_getElem? found

/-- Without early returns control reaches every position of a block. -/
theorem Block.reachable (returnsLast : ReturnsLast instrs)
    (block : Block instrs a b) (entered : Reachable instrs a) :
    ∀ p, a ≤ p → p ≤ b → p < instrs.length → Reachable instrs p := by
  induction block with
  | done =>
      intro p above upTo _
      exact Nat.le_antisymm upTo above ▸ entered
  | @plain a b isPlain rest ih =>
      intro p above upTo inside
      rcases Nat.lt_or_eq_of_le above with later | rfl
      · obtain ⟨mi, found, -, notJmp, -⟩ := isPlain
        have falls : FallsThrough instrs a := by
          refine ⟨mi, found, notJmp, fun isReturn => ?_⟩
          have := returnsLast a ⟨mi, found, isReturn⟩
          omega
        exact ih (falls.next entered) p later upTo inside
      · exact entered
  | @loop a test tail b head exit atHead testBlock leaves bodyBlock returns atExit
      restBlock testIh bodyIh restIh =>
      intro p above upTo inside
      have inTest := testIh (atHead.fallsThrough.next entered)
      have atTest := inTest test testBlock.le le_rfl leaves.inside
      have inBody := bodyIh (leaves.fallsThrough.next atTest)
      have left := leaves.taken (Or.inr rfl) atExit atTest
      have behind := restIh (atExit.fallsThrough.next left)
      have testLe := testBlock.le
      have bodyLe := bodyBlock.le
      rcases Nat.lt_or_eq_of_le above with later | rfl
      case inr => exact entered
      rcases Nat.lt_or_ge test p with pastTest | upToTest
      case inr => exact inTest p later upToTest inside
      rcases Nat.lt_or_ge tail p with pastTail | upToTail
      case inr => exact inBody p pastTest upToTail inside
      rcases Nat.lt_or_eq_of_le pastTail with pastExit | rfl
      · exact behind p pastExit upTo inside
      · exact left
  | @select a mid join b other next branches leftBlock skips atOther rightBlock
      atNext restBlock leftIh rightIh restIh =>
      intro p above upTo inside
      have inLeft := leftIh (branches.fallsThrough.next entered)
      have taken := branches.taken (Or.inr rfl) atOther entered
      have inRight := rightIh (atOther.fallsThrough.next taken)
      have atJoin := inRight join rightBlock.le le_rfl atNext.inside
      have behind := restIh (atNext.fallsThrough.next atJoin)
      have rightLe := rightBlock.le
      rcases Nat.lt_or_eq_of_le above with later | rfl
      case inr => exact entered
      rcases Nat.lt_or_ge mid p with pastLeft | upToLeft
      case inr => exact inLeft p later upToLeft inside
      rcases Nat.lt_or_eq_of_le pastLeft with pastOther | rfl
      case inr => exact taken
      rcases Nat.lt_or_ge join p with pastJoin | upToJoin
      case inr => exact inRight p pastOther upToJoin inside
      exact behind p pastJoin upTo inside

end Reachability

section Allocation

/-- The register is live before or after an instruction. -/
def LiveAt (instrs : List MachineInstr) (v : VRegId) (p : Nat) : Prop :=
  LiveBefore (Flows instrs) (Defines instrs) (Reads instrs) v p ∨
    LiveAfter (Flows instrs) (Defines instrs) (Reads instrs) v p

/-- What is live is mentioned somewhere. -/
theorem LiveBefore.mentioned {instrs : List MachineInstr} {v : VRegId} {p : Nat}
    (live : LiveBefore (Flows instrs) (Defines instrs) (Reads instrs) v p) :
    ∃ q, Mentions instrs q v := by
  induction live with
  | use reads => exact ⟨_, Or.inr reads⟩
  | pass _ _ _ ih => exact ih

variable {regs : Registers} {order : IntervalOrder} {mf : MachineFunction}

/-- The positions an interval covers. -/
def Covers (iv : LiveInterval) (p : Nat) : Prop := iv.start ≤ p ∧ p < iv.stop

theorem interval_of_live (structured : Structured mf.instrs)
    (wellDefined : DefinedBeforeUse (Flows mf.instrs) (Defines mf.instrs)
      (Reads mf.instrs)) {p : Nat} (reachable : Reachable mf.instrs p)
    {v : VRegId} (live : LiveAt mf.instrs v p) :
    ∃ iv ∈ computeIntervals mf, iv.vreg = v ∧ Covers iv p := by
  have mentioned : ∃ q, Mentions mf.instrs q v := by
    rcases live with before | ⟨q, -, after⟩
    · exact LiveBefore.mentioned before
    · exact LiveBefore.mentioned after
  obtain ⟨q, mentions⟩ := mentioned
  obtain ⟨iv, member, vreg, contains, spanned⟩ := interval_of_mention mentions
  have single := structured.singleEntry
  have opens (q : Nat) (isDef : Defines mf.instrs q v) :
      iv.start ≤ q ∧ q ≤ iv.stop - 1 := by
    have := contains q (Or.inl isDef)
    omega
  have closes (q : Nat) (isRead : Reads mf.instrs q v) : q ≤ iv.stop - 1 := by
    have := contains q (Or.inr isRead)
    omega
  have here := contains q mentions
  have spans {head tail : Nat} (span : (head, tail) ∈ loopSpans mf.instrs)
      (before : iv.start < head) (active : head ≤ iv.stop - 1) :
      tail ≤ iv.stop - 1 := by
    have := spanned span before (by omega)
    omega
  refine ⟨iv, member, vreg, ?_⟩
  rcases live with before | after
  · have := LiveBefore.covered single wellDefined (fun q isDef => (opens q isDef).1)
      closes spans reachable before
    exact ⟨by omega, by omega⟩
  · have := LiveAfter.covered single wellDefined opens closes spans reachable after
    exact ⟨this.1, by omega⟩

/-- Registers whose intervals cover a common position are kept apart. -/
theorem assignment_ne_of_covers (gpr : regs.numGpr ≤ kLinearScanMaxPRegs)
    (fpr : regs.numFpr ≤ kLinearScanMaxPRegs)
    (noSpills : (run regs order mf).spills = 0) {a b : LiveInterval}
    (aMember : a ∈ computeIntervals mf) (bMember : b ∈ computeIntervals mf)
    {p : Nat} (aCovers : Covers a p) (bCovers : Covers b p)
    (differ : a.vreg ≠ b.vreg) :
    (run regs order mf).assignment a.vreg ≠
      (run regs order mf).assignment b.vreg := by
  obtain ⟨-, unspilled⟩ := unspilled_of_spills _ _ noSpills
  have kept (v : VRegId) : (run regs order mf).spilled v = false :=
    congrFun unspilled v
  have overlap : a.Overlaps b :=
    ⟨Nat.lt_of_le_of_lt aCovers.1 bCovers.2,
      Nat.lt_of_le_of_lt bCovers.1 aCovers.2⟩
  exact (run_apart gpr fpr a aMember b bMember differ overlap (kept _) (kept _))

/-- In a structured stream that defines registers before it uses them, an
allocation without spills gives different registers to what is live at the same
instruction, and to what an instruction writes and what is live after it.  This
holds at every instruction that control reaches, and at every instruction at all
if nothing follows a return. -/
theorem allocation_separates_live (gpr : regs.numGpr ≤ kLinearScanMaxPRegs)
    (fpr : regs.numFpr ≤ kLinearScanMaxPRegs)
    (structured : Structured mf.instrs)
    (wellDefined : DefinedBeforeUse (Flows mf.instrs) (Defines mf.instrs)
      (Reads mf.instrs)) (noSpills : (run regs order mf).spills = 0) {p : Nat}
    (inside : p < mf.instrs.length)
    (executes : Reachable mf.instrs p ∨ ReturnsLast mf.instrs) :
    (∀ v w, v ≠ w → LiveAt mf.instrs v p → LiveAt mf.instrs w p →
        (run regs order mf).assignment v ≠ (run regs order mf).assignment w) ∧
      ∀ d v, Defines mf.instrs p d → v ≠ d →
        LiveAfter (Flows mf.instrs) (Defines mf.instrs) (Reads mf.instrs) v p →
          (run regs order mf).assignment d ≠
            (run regs order mf).assignment v := by
  have reachable : Reachable mf.instrs p := by
    rcases executes with reachable | returnsLast
    · exact reachable
    · exact structured.block.reachable returnsLast .start p (Nat.zero_le p)
        (Nat.le_of_lt inside) inside
  constructor
  · intro v w differ vLive wLive
    obtain ⟨a, aMember, rfl, aCovers⟩ :=
      interval_of_live structured wellDefined reachable vLive
    obtain ⟨b, bMember, rfl, bCovers⟩ :=
      interval_of_live structured wellDefined reachable wLive
    exact assignment_ne_of_covers gpr fpr noSpills aMember bMember aCovers
      bCovers differ
  · intro d v isDef differ live
    obtain ⟨a, aMember, rfl, contains, -⟩ := interval_of_mention (Or.inl isDef)
    obtain ⟨b, bMember, rfl, bCovers⟩ :=
      interval_of_live structured wellDefined reachable (Or.inr live)
    exact assignment_ne_of_covers gpr fpr noSpills aMember bMember
      (contains p (Or.inl isDef)) bCovers differ.symm

/-- A loop behind a return, which control never reaches. -/
def deadLoop : MachineFunction where
  instrs := [
    { op := .movImm, result := some 0, imm := some 7 },
    { op := .ret, uses := [some 0] },
    { op := .label, imm := some 0 },
    { op := .jz, uses := [some 1], imm := some 1 },
    { op := .movImm, result := some 2, imm := some 5 },
    { op := .mov, result := some 3, uses := [some 2] },
    { op := .jmp, imm := some 0 },
    { op := .label, imm := some 1 },
    { op := .ret, uses := [some 0] }]

theorem deadLoop_structured : Structured deadLoop.instrs where
  block := by
    refine .plain ⟨_, rfl, by decide⟩ (.plain ⟨_, rfl, by decide⟩ ?_)
    refine @Block.loop _ 2 3 6 9 0 1 ⟨_, rfl, rfl, rfl⟩ .done ⟨_, rfl, rfl, rfl⟩ ?_
      ⟨_, rfl, rfl, rfl⟩ ⟨_, rfl, rfl, rfl⟩ ?_
    · exact .plain ⟨_, rfl, by decide⟩ (.plain ⟨_, rfl, by decide⟩ .done)
    · exact .plain ⟨_, rfl, by decide⟩ .done
  labels := by
    have known {label : Int} {p : Nat} (isLabel : LabelAt deadLoop.instrs label p) :
        p = 2 ∧ label = 0 ∨ p = 7 ∧ label = 1 := by
      have inside : p < 9 := isLabel.inside
      obtain ⟨mi, found, isLabel, imm⟩ := isLabel
      interval_cases p <;> cases found <;> cases isLabel <;> cases imm <;> simp
    intro label p q atP atQ
    have := known atP
    have := known atQ
    omega

/-- Control ends at the first return. -/
theorem deadLoop_flows {p q : Nat} (flows : Flows deadLoop.instrs p q) (early : p ≤ 1) :
    p = 0 ∧ q = 1 := by
  interval_cases p
  · rcases flows with ⟨-, rfl⟩ | ⟨mi, label, found, isJump, -⟩
    · exact ⟨rfl, rfl⟩
    · cases found
      cases isJump <;> contradiction
  · rcases flows with ⟨⟨mi, found, -, notRet⟩, -⟩ | ⟨mi, label, found, isJump, -⟩
    · cases found
      exact absurd rfl notRet
    · cases found
      cases isJump <;> contradiction

theorem deadLoop_definedBeforeUse : DefinedBeforeUse (Flows deadLoop.instrs)
    (Defines deadLoop.instrs) (Reads deadLoop.instrs) := by
  have early {v : VRegId} {p : Nat} (reaches : Reaches (Flows deadLoop.instrs)
      (fun q => ¬ Defines deadLoop.instrs q v) p) : p ≤ 1 := by
    induction reaches with
    | start => exact Nat.zero_le 1
    | step _ _ edge ih => exact (deadLoop_flows edge ih).2.le
  rintro p v ⟨mi, found, isRead⟩ reaches
  have upTo := early reaches
  interval_cases p <;> cases found
  · cases isRead
  · obtain rfl : v = 0 := by simpa [MachineInstr.reads] using isRead
    cases reaches with
    | @step q _ before undefined edge =>
        obtain ⟨rfl, -⟩ := deadLoop_flows edge (early before)
        exact undefined ⟨_, rfl, by decide⟩

/-- In the loop that is never reached, the exit test reads a register in every iteration
that another one shares. -/
theorem deadLoop_shares : Structured deadLoop.instrs ∧
    DefinedBeforeUse (Flows deadLoop.instrs) (Defines deadLoop.instrs)
      (Reads deadLoop.instrs) ∧
    (run ⟨4, 0, 0⟩ .inserted deadLoop).spills = 0 ∧
    LiveAt deadLoop.instrs 1 5 ∧ LiveAt deadLoop.instrs 2 5 ∧
      (run ⟨4, 0, 0⟩ .inserted deadLoop).assignment 1 =
        (run ⟨4, 0, 0⟩ .inserted deadLoop).assignment 2 := by
  have untouched {p : Nat} : ¬ Defines deadLoop.instrs p 1 := by
    rintro ⟨mi, found, isDef⟩
    have inside : p < 9 := lt_length_of_getElem? found
    interval_cases p <;> cases found <;> simp [MachineInstr.defs] at isDef
  have next {p : Nat} (falls : FallsThrough deadLoop.instrs p) :
      Flows deadLoop.instrs p (p + 1) := Or.inl ⟨falls, rfl⟩
  have toHead : Flows deadLoop.instrs 6 2 :=
    Or.inr ⟨_, 0, rfl, Or.inl rfl, rfl, _, rfl, rfl, rfl⟩
  have tested : LiveAt deadLoop.instrs 1 5 := by
    left
    refine .pass untouched (next ⟨_, rfl, by decide, by decide⟩) ?_
    refine .pass untouched toHead ?_
    refine .pass untouched (next ⟨_, rfl, by decide, by decide⟩) ?_
    exact .use ⟨_, rfl, by decide⟩
  have copied : LiveAt deadLoop.instrs 2 5 := Or.inl (.use ⟨_, rfl, by decide⟩)
  exact ⟨deadLoop_structured, deadLoop_definedBeforeUse, by decide, tested, copied, by decide⟩

/-- Double a number until it passes a bound. -/
def doubling : MachineFunction where
  instrs := [
    { op := .param, result := some 0, imm := some 0 },
    { op := .movImm, result := some 1, imm := some 1 },
    { op := .label, imm := some 0 },
    { op := .cmpLt, result := some 2, uses := [some 1, some 0] },
    { op := .jz, uses := [some 2], imm := some 1 },
    { op := .add, result := some 3, uses := [some 1, some 1] },
    { op := .mov, result := some 1, uses := [some 3] },
    { op := .jmp, imm := some 0 },
    { op := .label, imm := some 1 },
    { op := .ret, uses := [some 1] }]

theorem doubling_structured : Structured doubling.instrs where
  block := by
    refine .plain ⟨_, rfl, by decide⟩ (.plain ⟨_, rfl, by decide⟩ ?_)
    refine @Block.loop _ 2 4 7 10 0 1 ⟨_, rfl, rfl, rfl⟩
      (.plain ⟨_, rfl, by decide⟩ .done) ⟨_, rfl, rfl, rfl⟩ ?_
      ⟨_, rfl, rfl, rfl⟩ ⟨_, rfl, rfl, rfl⟩ ?_
    · exact .plain ⟨_, rfl, by decide⟩ (.plain ⟨_, rfl, by decide⟩ .done)
    · exact .plain ⟨_, rfl, by decide⟩ .done
  labels := by
    have known {label : Int} {p : Nat}
        (isLabel : LabelAt doubling.instrs label p) :
        p = 2 ∧ label = 0 ∨ p = 8 ∧ label = 1 := by
      have inside : p < 10 := isLabel.inside
      obtain ⟨mi, found, isLabel, imm⟩ := isLabel
      interval_cases p <;> cases found <;> cases isLabel <;> cases imm <;> simp
    intro label p q atP atQ
    have := known atP
    have := known atQ
    omega

/-- Code that runs straight up to a definition does not get past it. -/
theorem reaches_le {instrs : List MachineInstr} {v : VRegId} {d p : Nat}
    (isDef : Defines instrs d v)
    (straight : ∀ q r, q < d → Jumps instrs q r → r ≤ d)
    (reaches : Reaches (Flows instrs) (fun q => ¬ Defines instrs q v) p) :
    p ≤ d := by
  induction reaches with
  | start => exact Nat.zero_le d
  | @step q r _ undefined edge ih =>
      have before : q < d := by
        refine Nat.lt_of_le_of_ne ih ?_
        rintro rfl
        exact undefined isDef
      rcases edge with ⟨-, rfl⟩ | jump
      · exact before
      · exact straight q r before jump

/-- A jump in the example is at the exit test or at the back edge. -/
theorem doubling_jumps {p q : Nat} (jump : Jumps doubling.instrs p q) :
    p = 4 ∧ q = 8 ∨ p = 7 ∧ q = 2 := by
  obtain ⟨mi, label, found, isJump, imm, atTarget⟩ := jump
  have inside : p < 10 := lt_length_of_getElem? found
  have insideTarget : q < 10 := atTarget.inside
  obtain ⟨mj, foundTarget, isLabel, immTarget⟩ := atTarget
  interval_cases p <;> cases found <;> simp at isJump imm
  all_goals
    subst imm
    interval_cases q <;> cases foundTarget <;> simp_all

theorem doubling_definedBeforeUse : DefinedBeforeUse (Flows doubling.instrs)
    (Defines doubling.instrs) (Reads doubling.instrs) := by
  have early {v d p : Nat} (isDef : Defines doubling.instrs d v) (before : d ≤ 4)
      (reaches : Reaches (Flows doubling.instrs)
        (fun q => ¬ Defines doubling.instrs q v) p) : p ≤ d := by
    refine reaches_le isDef (fun q r below jump => ?_) reaches
    have := doubling_jumps jump
    omega
  rintro p v ⟨mi, found, isRead⟩ reaches
  have inside : p < 10 := lt_length_of_getElem? found
  have first (p : Nat) (reaches : Reaches (Flows doubling.instrs)
      (fun q => ¬ Defines doubling.instrs q 0) p) : p ≤ 0 :=
    early ⟨_, rfl, by decide⟩ (by decide) reaches
  have second (p : Nat) (reaches : Reaches (Flows doubling.instrs)
      (fun q => ¬ Defines doubling.instrs q 1) p) : p ≤ 1 :=
    early ⟨_, rfl, by decide⟩ (by decide) reaches
  have third (p : Nat) (reaches : Reaches (Flows doubling.instrs)
      (fun q => ¬ Defines doubling.instrs q 2) p) : p ≤ 3 :=
    early ⟨_, rfl, by decide⟩ (by decide) reaches
  have fourth (reaches : Reaches (Flows doubling.instrs)
      (fun q => ¬ Defines doubling.instrs q 3) 6) : False := by
    cases reaches with
    | @step q _ _ undefined edge =>
        rcases edge with ⟨-, same⟩ | jump
        · have here : q = 5 := by omega
          subst here
          exact undefined ⟨_, rfl, by decide⟩
        · have := doubling_jumps jump
          omega
  interval_cases p <;> cases found <;>
    simp [MachineInstr.reads] at isRead
  · rcases isRead with rfl | rfl
    · exact absurd (second 3 reaches) (by decide)
    · exact absurd (first 3 reaches) (by decide)
  · subst isRead
    exact absurd (third 4 reaches) (by decide)
  · subst isRead
    exact absurd (second 5 reaches) (by decide)
  · subst isRead
    exact fourth reaches
  · subst isRead
    exact absurd (second 9 reaches) (by decide)

/-- The bound is read again in the next iteration, so the sum of the body does
not take its register. -/
theorem allocation_separates_live_doubling :
    (run ⟨4, 0, 0⟩ .inserted doubling).assignment 0 ≠
      (run ⟨4, 0, 0⟩ .inserted doubling).assignment 3 := by
  have returnsLast : ReturnsLast doubling.instrs := by
    rintro p ⟨mi, found, isReturn⟩
    have inside : p < 10 := lt_length_of_getElem? found
    interval_cases p <;> cases found <;> cases isReturn
    rfl
  have untouched {p : Nat} (other : p ≠ 0) : ¬ Defines doubling.instrs p 0 := by
    rintro ⟨mi, found, isDef⟩
    have inside : p < 10 := lt_length_of_getElem? found
    interval_cases p <;> cases found <;> simp [MachineInstr.defs] at isDef other
  have toHead : Flows doubling.instrs 7 2 :=
    Or.inr ⟨_, 0, rfl, Or.inl rfl, rfl, _, rfl, rfl, rfl⟩
  have next {p : Nat} (falls : FallsThrough doubling.instrs p) :
      Flows doubling.instrs p (p + 1) := Or.inl ⟨falls, rfl⟩
  have bound : LiveAt doubling.instrs 0 6 := by
    left
    refine .pass (untouched (by decide)) (next ⟨_, rfl, by decide, by decide⟩) ?_
    refine .pass (untouched (by decide)) toHead ?_
    refine .pass (untouched (by decide)) (next ⟨_, rfl, by decide, by decide⟩) ?_
    exact .use ⟨_, rfl, by decide⟩
  have sum : LiveAt doubling.instrs 3 6 := Or.inl (.use ⟨_, rfl, by decide⟩)
  exact (allocation_separates_live (by decide) (by decide) doubling_structured
    doubling_definedBeforeUse (by decide) (by decide) (Or.inr returnsLast)).1 0 3
    (by decide) bound sum

end Allocation

end LiveIntervals

end Aegis
