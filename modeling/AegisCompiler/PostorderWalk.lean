import Mathlib.Algebra.Order.BigOperators.Group.List
import Mathlib.Algebra.Order.Ring.Nat
import Mathlib.Data.List.Nodup

/-!
# Depth-first walks over a stack

A node is taken from the stack, opened above the children that have not been started
yet, and finished when it comes to the top again.  When the children of a node have
smaller ranks, every node is finished behind its children, and only once.
-/

namespace Postorder

variable {α : Type*}

/-- The stack, with a flag for the nodes that are open; the nodes that were started;
and the finished nodes in order. -/
structure State (α : Type*) where
  stack : List (α × Bool)
  started : α → Bool
  out : List α

/-- One step takes the top of the stack. -/
inductive Step [DecidableEq α] (children : α → List α) : State α → State α → Prop where
  | drop {a rest started out} (finished : a ∈ out) :
      Step children ⟨(a, false) :: rest, started, out⟩ ⟨rest, started, out⟩
  | expand {a rest started out} {new : List α} (fresh : a ∉ out)
      (unstarted : ∀ c, c ∈ new ↔ c ∈ children a ∧ started c = false ∧ c ≠ a)
      (few : new.length ≤ (children a).length) :
      Step children ⟨(a, false) :: rest, started, out⟩
        ⟨new.map (·, false) ++ (a, true) :: rest, fun b => started b || decide (b = a), out⟩
  | finish {a rest started out} :
      Step children ⟨(a, true) :: rest, started, out⟩ ⟨rest, started, out ++ [a]⟩

/-- Every node stands behind its children. -/
def Ordered (children : α → List α) (out : List α) : Prop :=
  ∀ before a after, out = before ++ a :: after → ∀ c ∈ children a, c ∈ before

theorem Ordered.nil {children : α → List α} : Ordered children [] := by
  intro before a after same
  exact absurd same (by simp)

theorem Ordered.snoc {children : α → List α} {out : List α} (ordered : Ordered children out)
    {a : α} (finished : ∀ c ∈ children a, c ∈ out) : Ordered children (out ++ [a]) := by
  intro before b after same c child
  rcases List.eq_nil_or_concat after with rfl | ⟨init, last, rfl⟩
  · obtain ⟨rfl, tail⟩ := List.append_inj' same rfl
    rw [← (List.cons.inj tail).1] at child
    exact finished c child
  · rw [List.concat_eq_append, ← List.cons_append, ← List.append_assoc] at same
    exact ordered before b init (List.append_inj' same rfl).1 c child

/-- What is above an open node leads up to it, and its children are finished or above
it. -/
def Opened (children : α → List α) (rank : α → Nat) (out : List α) (stack : List (α × Bool)) :
    Prop :=
  ∀ above a below, stack = above ++ (a, true) :: below →
    a ∉ out ∧ (∀ entry ∈ above, rank entry.1 < rank a) ∧
      ∀ c ∈ children a, c ∈ out ∨ ∃ flag, (c, flag) ∈ above

section Open

variable {children : α → List α} {rank : α → Nat} {out : List α} {rest : List (α × Bool)}
variable {a b : α}

/-- What an open node below the top knows. -/
theorem Opened.below {flag : Bool} (opened : Opened children rank out ((a, flag) :: rest))
    {above below : List (α × Bool)} (split : rest = above ++ (b, true) :: below) :
    b ∉ out ∧ rank a < rank b ∧ (∀ entry ∈ above, rank entry.1 < rank b) ∧
      ∀ c ∈ children b, c ∈ out ∨ c = a ∨ ∃ flag, (c, flag) ∈ above := by
  have whole : (a, flag) :: rest = ((a, flag) :: above) ++ (b, true) :: below := by
    rw [split]
    rfl
  obtain ⟨absent, ranks, each⟩ := opened _ b below whole
  refine ⟨absent, ranks (a, flag) List.mem_cons_self,
    fun entry member => ranks entry (List.mem_cons_of_mem _ member), fun c child => ?_⟩
  rcases each c child with old | ⟨flag, member⟩
  · exact Or.inl old
  · rcases List.mem_cons.mp member with top | member
    · exact Or.inr (Or.inl (congrArg Prod.fst top))
    · exact Or.inr (Or.inr ⟨flag, member⟩)

theorem Opened.drop (opened : Opened children rank out ((a, false) :: rest))
    (finished : a ∈ out) : Opened children rank out rest := by
  intro above b below split
  obtain ⟨absent, -, ranks, each⟩ := opened.below split
  refine ⟨absent, ranks, fun c child => ?_⟩
  rcases each c child with old | rfl | above
  · exact Or.inl old
  · exact Or.inl finished
  · exact Or.inr above

theorem Opened.finish (opened : Opened children rank out ((a, true) :: rest)) :
    Opened children rank (out ++ [a]) rest := by
  intro above b below split
  obtain ⟨absent, under, ranks, each⟩ := opened.below split
  refine ⟨fun member => ?_, ranks, fun c child => ?_⟩
  · rcases List.mem_append.mp member with old | last
    · exact absent old
    · rw [List.mem_singleton.mp last] at under
      exact Nat.lt_irrefl _ under
  · rcases each c child with old | rfl | above
    · exact Or.inl (List.mem_append_left _ old)
    · exact Or.inl (List.mem_append_right _ List.mem_cons_self)
    · exact Or.inr above

/-- An open node below waiting ones is below all of them. -/
theorem split_waiting {new : List α} {above below : List (α × Bool)}
    (same : new.map (·, false) ++ rest = above ++ (a, true) :: below) :
    ∃ middle, above = new.map (·, false) ++ middle ∧ rest = middle ++ (a, true) :: below := by
  induction new generalizing above with
  | nil => exact ⟨above, rfl, same⟩
  | cons c new ih =>
      cases above with
      | nil => simp at same
      | cons entry above =>
          simp only [List.map_cons, List.cons_append, List.cons.injEq] at same
          obtain ⟨rfl, same⟩ := same
          obtain ⟨middle, rfl, rest⟩ := ih same
          exact ⟨middle, rfl, rest⟩

/-- The new children go above the node that is opened. -/
theorem Opened.expand (opened : Opened children rank out ((a, false) :: rest))
    {new : List α} (fresh : a ∉ out) (ranks : ∀ c ∈ new, rank c < rank a)
    (each : ∀ c ∈ children a, c ∈ out ∨ c ∈ new) :
    Opened children rank out (new.map (·, false) ++ (a, true) :: rest) := by
  intro above b below split
  have entries : ∀ entry ∈ new.map (·, false), rank entry.1 < rank a := by
    intro entry member
    obtain ⟨c, isNew, rfl⟩ := List.mem_map.mp member
    exact ranks c isNew
  obtain ⟨middle, rfl, opening⟩ := split_waiting split
  cases middle with
  | nil =>
      cases opening
      rw [List.append_nil]
      refine ⟨fresh, entries, fun c child => ?_⟩
      exact (each c child).imp_right fun isNew => ⟨false, List.mem_map_of_mem isNew⟩
  | cons top middle =>
      obtain ⟨rfl, later⟩ := List.cons.inj opening
      obtain ⟨absent, under, upper, children⟩ := opened.below later
      refine ⟨absent, fun entry member => ?_, fun c child => ?_⟩
      · rcases List.mem_append.mp member with isNew | member
        · exact Nat.lt_trans (entries entry isNew) under
        · rcases List.mem_cons.mp member with rfl | member
          · exact under
          · exact upper entry member
      · rcases children c child with old | rfl | ⟨flag, member⟩
        · exact Or.inl old
        · exact Or.inr ⟨true, List.mem_append_right _ List.mem_cons_self⟩
        · exact Or.inr ⟨flag, List.mem_append_right _ (List.mem_cons_of_mem _ member)⟩

end Open

/-- The invariant of a walk over some nodes. -/
structure Inv (children : α → List α) (rank : α → Nat) (nodes : List α) (s : State α) :
    Prop where
  ordered : Ordered children s.out
  nodup : s.out.Nodup
  started : ∀ a, s.started a = true ↔ a ∈ s.out ∨ (a, true) ∈ s.stack
  opened : Opened children rank s.out s.stack
  stacked : ∀ entry ∈ s.stack, entry.1 ∈ nodes
  finished : ∀ a ∈ s.out, a ∈ nodes

section Invariant

variable {children : α → List α} {rank : α → Nat} {nodes : List α}
variable {a : α} {rest : List (α × Bool)} {started : α → Bool} {out : List α}

/-- An open node below the top has a larger rank. -/
theorem Inv.rank_lt {flag : Bool} (inv : Inv children rank nodes ⟨(a, flag) :: rest, started, out⟩)
    {b : α} (below : (b, true) ∈ rest) : rank a < rank b := by
  obtain ⟨above, under, split⟩ := List.append_of_mem below
  exact (inv.opened.below split).2.1

/-- What waits on top and is not finished was not started. -/
theorem Inv.unstarted (inv : Inv children rank nodes ⟨(a, false) :: rest, started, out⟩)
    (fresh : a ∉ out) : started a = false := by
  rw [← Bool.not_eq_true, inv.started]
  rintro (finished | below)
  · exact fresh finished
  · rcases List.mem_cons.mp below with same | below
    · cases same
    · exact Nat.lt_irrefl _ (inv.rank_lt below)

theorem Inv.drop (inv : Inv children rank nodes ⟨(a, false) :: rest, started, out⟩)
    (finished : a ∈ out) : Inv children rank nodes ⟨rest, started, out⟩ where
  ordered := inv.ordered
  nodup := inv.nodup
  started b := by
    rw [inv.started b]
    apply or_congr_right
    simp
  opened := inv.opened.drop finished
  stacked entry member := inv.stacked entry (List.mem_cons_of_mem _ member)
  finished := inv.finished

theorem Inv.finish (inv : Inv children rank nodes ⟨(a, true) :: rest, started, out⟩) :
    Inv children rank nodes ⟨rest, started, out ++ [a]⟩ := by
  obtain ⟨absent, -, above⟩ := inv.opened [] a rest rfl
  have finished : ∀ c ∈ children a, c ∈ out := fun c child =>
    (above c child).resolve_right fun ⟨_, member⟩ => List.not_mem_nil member
  refine ⟨inv.ordered.snoc finished, ?_, fun b => ?_, inv.opened.finish,
    fun entry member => inv.stacked entry (List.mem_cons_of_mem _ member), fun b member => ?_⟩
  · rw [List.nodup_append]
    refine ⟨inv.nodup, List.nodup_singleton a, ?_⟩
    rintro b old c last rfl
    rw [List.mem_singleton] at last
    exact absent (last ▸ old)
  · rw [inv.started b]
    simp only [List.mem_cons, Prod.mk.injEq, and_true, List.mem_append, List.not_mem_nil,
      or_false]
    tauto
  · rcases List.mem_append.mp member with old | last
    · exact inv.finished b old
    · rw [List.mem_singleton.mp last]
      exact inv.stacked (a, true) List.mem_cons_self

/-- A walk starts with one node on the stack. -/
theorem Inv.push (inv : Inv children rank nodes ⟨[], started, out⟩) (member : a ∈ nodes) :
    Inv children rank nodes ⟨[(a, false)], started, out⟩ where
  ordered := inv.ordered
  nodup := inv.nodup
  started b := by
    rw [inv.started b]
    simp
  opened above b below split := by
    cases above <;> simp at split
  stacked entry top := by
    rw [List.mem_singleton.mp top]
    exact member
  finished := inv.finished

variable [DecidableEq α]

theorem Inv.expand (inv : Inv children rank nodes ⟨(a, false) :: rest, started, out⟩)
    (lower : ∀ c ∈ children a, rank c < rank a) (inside : ∀ c ∈ children a, c ∈ nodes)
    {new : List α} (fresh : a ∉ out)
    (unstarted : ∀ c, c ∈ new ↔ c ∈ children a ∧ started c = false ∧ c ≠ a) :
    Inv children rank nodes
      ⟨new.map (·, false) ++ (a, true) :: rest, fun b => started b || decide (b = a), out⟩ where
  ordered := inv.ordered
  nodup := inv.nodup
  started b := by
    have before := inv.started b
    simp only [List.mem_cons, Prod.mk.injEq, Bool.true_eq_false, and_false, false_or] at before
    simp [before]
    tauto
  opened := by
    refine inv.opened.expand fresh (fun c isNew => lower c ((unstarted c).mp isNew).1)
      fun c child => ?_
    cases known : started c with
    | false =>
        have apart : c ≠ a := by
          rintro rfl
          exact Nat.lt_irrefl _ (lower c child)
        exact Or.inr ((unstarted c).mpr ⟨child, known, apart⟩)
    | true =>
        -- An open node has no smaller rank, so the child is finished.
        rcases (inv.started c).mp known with finished | below
        · exact Or.inl finished
        · rcases List.mem_cons.mp below with top | below
          · cases top
          · exact absurd (lower c child) (Nat.lt_asymm (inv.rank_lt below))
  stacked entry member := by
    rcases List.mem_append.mp member with pushed | member
    · obtain ⟨c, isNew, rfl⟩ := List.mem_map.mp pushed
      exact inside c ((unstarted c).mp isNew).1
    · rcases List.mem_cons.mp member with rfl | member
      · exact inv.stacked (a, false) List.mem_cons_self
      · exact inv.stacked entry (List.mem_cons_of_mem _ member)
  finished := inv.finished

/-- Every step keeps the invariant. -/
theorem Step.inv (lower : ∀ a ∈ nodes, ∀ c ∈ children a, rank c < rank a)
    (inside : ∀ a ∈ nodes, ∀ c ∈ children a, c ∈ nodes) {s t : State α}
    (step : Step children s t) (inv : Inv children rank nodes s) :
    Inv children rank nodes t := by
  cases step with
  | drop finished => exact inv.drop finished
  | @expand a _ _ _ _ fresh unstarted _ =>
      have member : a ∈ nodes := inv.stacked (a, false) List.mem_cons_self
      exact inv.expand (lower a member) (inside a member) fresh unstarted
  | finish => exact inv.finish

end Invariant

section Progress

/-- What is left to do: the entries of the stack, and the opening of every node that
was not started. -/
def weight (children : α → List α) (nodes : List α) (s : State α) : Nat :=
  s.stack.length +
    ((nodes.filter fun a => !s.started a).map fun a => (children a).length + 2).sum

/-- A sum over fewer elements loses what each of the others contributes. -/
theorem sum_filter_add_le (f : α → Nat) {first second : α → Bool}
    (fewer : ∀ b, second b = true → first b = true) {nodes : List α} {a : α}
    (member : a ∈ nodes) (isFirst : first a = true) (notSecond : second a = false) :
    ((nodes.filter second).map f).sum + f a ≤ ((nodes.filter first).map f).sum := by
  have each (others : List α) :
      ((others.filter second).map f).sum ≤ ((others.filter first).map f).sum :=
    ((List.monotone_filter_right others fewer).map f).sum_le_sum fun _ _ => Nat.zero_le _
  induction nodes with
  | nil => cases member
  | cons b nodes ih =>
      rcases List.mem_cons.mp member with rfl | member
      · rw [List.filter_cons_of_neg (by simp [notSecond]), List.filter_cons_of_pos isFirst,
          List.map_cons, List.sum_cons]
        have rest := each nodes
        omega
      · have rest := ih member
        by_cases isSecond : second b = true
        · rw [List.filter_cons_of_pos isSecond, List.filter_cons_of_pos (fewer b isSecond),
            List.map_cons, List.map_cons, List.sum_cons, List.sum_cons]
          omega
        · rw [List.filter_cons_of_neg isSecond]
          have more := ((List.sublist_cons_self b nodes).filter first).map f
          exact Nat.le_trans rest (more.sum_le_sum fun _ _ => Nat.zero_le _)

variable [DecidableEq α] {children : α → List α} {rank : α → Nat} {nodes : List α}

/-- Every step leaves less to do. -/
theorem Step.weight_lt {s t : State α} (step : Step children s t)
    (inv : Inv children rank nodes s) : weight children nodes t < weight children nodes s := by
  cases step with
  | drop => simp [weight]
  | @expand a rest started out new fresh _ few =>
      have unstarted := inv.unstarted fresh
      have member : a ∈ nodes := inv.stacked (a, false) List.mem_cons_self
      have fewer (b : α) (isLeft : (!(started b || decide (b = a))) = true) :
          (!started b) = true := by
        rw [Bool.not_or, Bool.and_eq_true] at isLeft
        exact isLeft.1
      have less := sum_filter_add_le (fun b => (children b).length + 2) fewer member
        (by simp [unstarted]) (by simp)
      simp only [weight, List.length_append, List.length_map, List.length_cons]
      omega
  | finish => simp [weight]

/-- What is finished or on the stack stays so. -/
theorem Step.keeps {s t : State α} (step : Step children s t) {a : α}
    (known : a ∈ s.out ∨ ∃ flag, (a, flag) ∈ s.stack) :
    a ∈ t.out ∨ ∃ flag, (a, flag) ∈ t.stack := by
  rcases known with finished | ⟨flag, stacked⟩
  · cases step with
    | drop => exact Or.inl finished
    | expand => exact Or.inl finished
    | finish => exact Or.inl (List.mem_append_left _ finished)
  · cases step with
    | drop finished =>
        rcases List.mem_cons.mp stacked with top | stacked
        · cases top
          exact Or.inl finished
        · exact Or.inr ⟨flag, stacked⟩
    | expand =>
        rcases List.mem_cons.mp stacked with top | stacked
        · cases top
          exact Or.inr ⟨true, List.mem_append_right _ List.mem_cons_self⟩
        · exact Or.inr ⟨flag, List.mem_append_right _ (List.mem_cons_of_mem _ stacked)⟩
    | finish =>
        rcases List.mem_cons.mp stacked with top | stacked
        · cases top
          exact Or.inl (List.mem_append_right _ List.mem_cons_self)
        · exact Or.inr ⟨flag, stacked⟩

end Progress

end Postorder
