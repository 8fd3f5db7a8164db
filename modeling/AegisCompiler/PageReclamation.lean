import AegisCompiler.MemManager

/-!
# Reclaimed pages

The records of the manager are those of the mapped buffers, in the same order, and the mapped
buffers have no addresses in common.  With this every unmapping call affects the one buffer
of its record.
-/

namespace Aegis.MemManager

variable {sysconf : BitVec 64} {w : World} {a b : Allocation} {ledger : List Allocation}
  {op : Operation}

/-- The buffers that a list of calls has unmapped are those that meet one of them. -/
theorem foldl_munmap (calls : List (Address × BitVec 64)) (ledger : List Allocation) :
    calls.foldl munmap ledger = ledger.map fun a =>
      if a.mapped = true ∧ ∃ call ∈ calls, a.region.Meets (regionOf call.1 call.2) then
        { a with mapped := false } else a := by
  induction calls generalizing ledger with
  | nil => simp
  | cons call calls ih =>
      rw [List.foldl_cons, ih, munmap, List.map_map]
      apply List.map_congr_left
      intro a _
      simp only [Function.comp_apply, List.mem_cons, exists_eq_or_imp]
      by_cases mapped : a.mapped = true
      · by_cases here : a.region.Meets (regionOf call.1 call.2)
        · simp [mapped, here]
        · simp [mapped, here]
      · simp [mapped]

/-- The record that the manager has of a mapped buffer. -/
def Allocation.page (a : Allocation) : Page :=
  ⟨a.base, a.size, a.released.getD a.stamp, a.released.isNone⟩

/-- Two buffers are not mapped at the same addresses. -/
def Allocation.Apart (a b : Allocation) : Prop :=
  a.mapped = true → b.mapped = true → ¬a.region.Meets b.region

structure Recorded (w : World) : Prop where
  records : w.manager.pages = (w.ledger.filter (·.mapped)).map Allocation.page
  apart : w.ledger.Pairwise Allocation.Apart
  nonempty : ∀ a ∈ w.ledger, a.size ≠ 0
  epoch : w.manager.globalEpoch = BitVec.ofNat 64 (1 + w.advances)
  past : ∀ a ∈ w.ledger, a.mapped = false →
    ∃ epoch, a.released = some epoch ∧ epoch.toNat < 1 + w.advances

theorem recorded_init : Recorded {} := by
  refine ⟨rfl, List.Pairwise.nil, ?_, rfl, ?_⟩
  · exact fun a member => absurd member List.not_mem_nil
  · exact fun a member => absurd member List.not_mem_nil

theorem size_pos (nonempty : a.size ≠ 0) : 0 < a.region.size :=
  Nat.pos_of_ne_zero fun zero => nonempty (BitVec.eq_of_toNat_eq zero)

theorem Recorded.unique (recorded : Recorded w) {i j : Nat} (first : w.ledger[i]? = some a)
    (second : w.ledger[j]? = some b) (mapped : a.mapped = true) (mapped' : b.mapped = true)
    (meets : a.region.Meets b.region) : i = j := by
  obtain ⟨inside, rfl⟩ := List.getElem?_eq_some_iff.mp first
  obtain ⟨inside', rfl⟩ := List.getElem?_eq_some_iff.mp second
  have apart := List.pairwise_iff_getElem.mp recorded.apart
  rcases Nat.lt_trichotomy i j with before | same | behind
  · exact absurd meets (apart i j inside inside' before mapped mapped')
  · exact same
  · exact absurd meets.symm (apart j i inside' inside behind mapped' mapped)

/-- Mapped buffers with one base are one buffer. -/
theorem Recorded.eq_of_base (recorded : Recorded w) (member : a ∈ w.ledger)
    (member' : b ∈ w.ledger) (mapped : a.mapped = true) (mapped' : b.mapped = true)
    (same : a.base = b.base) : a = b := by
  obtain ⟨i, first⟩ := List.getElem?_of_mem member
  obtain ⟨j, second⟩ := List.getElem?_of_mem member'
  have meets : a.region.Meets b.region := by
    have positive := size_pos (recorded.nonempty a member)
    have positive' := size_pos (recorded.nonempty b member')
    have start : a.region.start = b.region.start := congrArg BitVec.toNat same
    unfold Region.Meets Region.stop
    omega
  obtain rfl := recorded.unique first second mapped mapped' meets
  exact Option.some.inj (first.symm.trans second)

theorem reclaims_page (w : World) (a : Allocation) :
    w.manager.reclaims a.page = true ↔ w.Old a := by
  unfold reclaims Allocation.page World.Old
  cases released : a.released with
  | none => simp
  | some epoch =>
      simp only [Option.isNone_some, Bool.false_eq_true, if_false, Option.getD_some,
        Option.some.injEq, exists_eq_left']
      by_cases late : w.manager.globalEpoch ≤ epoch
      · rw [if_pos late]
        exact iff_of_false Bool.false_ne_true (BitVec.not_lt.mpr late)
      · rw [if_neg late]
        exact iff_of_true rfl (BitVec.not_le.mp late)

theorem Recorded.munmapCalls (recorded : Recorded w) :
    w.manager.munmapCalls =
      (w.ledger.filter fun a => a.mapped && w.manager.reclaims a.page).map fun a =>
        (a.base, a.size) := by
  rw [MemManager.munmapCalls, recorded.records, List.filter_map, List.map_map,
    List.filter_filter]
  congr 1
  apply List.filter_congr
  intro a _
  exact Bool.and_comm _ _

theorem Recorded.mem_munmapCalls (recorded : Recorded w) {call : Address × BitVec 64} :
    call ∈ w.manager.munmapCalls ↔
      ∃ a ∈ w.ledger, a.mapped = true ∧ w.Old a ∧ (a.base, a.size) = call := by
  rw [recorded.munmapCalls, List.mem_map]
  simp only [List.mem_filter, Bool.and_eq_true, reclaims_page]
  constructor
  · rintro ⟨a, ⟨member, mapped, old⟩, same⟩
    exact ⟨a, member, mapped, old, same⟩
  · rintro ⟨a, member, mapped, old, same⟩
    exact ⟨a, ⟨member, mapped, old⟩, same⟩

/-- A mapped buffer meets one of the calls exactly if it is old. -/
theorem Recorded.meets_call_iff (recorded : Recorded w) (member : a ∈ w.ledger)
    (mapped : a.mapped = true) :
    (∃ call ∈ w.manager.munmapCalls, a.region.Meets (regionOf call.1 call.2)) ↔ w.Old a := by
  constructor
  · rintro ⟨call, among, meets⟩
    obtain ⟨b, member', mapped', old, rfl⟩ := recorded.mem_munmapCalls.mp among
    obtain ⟨i, first⟩ := List.getElem?_of_mem member
    obtain ⟨j, second⟩ := List.getElem?_of_mem member'
    obtain rfl := recorded.unique first second mapped mapped' meets
    obtain rfl := Option.some.inj (first.symm.trans second)
    exact old
  · intro old
    exact ⟨(a.base, a.size), recorded.mem_munmapCalls.mpr ⟨a, member, mapped, old, rfl⟩,
      Region.meets_self (size_pos (recorded.nonempty a member))⟩

open Classical in
/-- Reclaiming unmaps the old buffers. -/
theorem Recorded.reclaimed (recorded : Recorded w) :
    (step sysconf w .reclaimOldPages).ledger = w.ledger.map fun a =>
      if w.Old a then { a with mapped := false } else a := by
  rw [step, foldl_munmap]
  apply List.map_congr_left
  intro a member
  by_cases mapped : a.mapped = true
  · have same := recorded.meets_call_iff member mapped
    by_cases old : w.Old a
    · rw [if_pos ⟨mapped, same.mpr old⟩, if_pos old]
    · rw [if_neg fun both => old (same.mp both.2), if_neg old]
  · rw [if_neg fun both => mapped both.1]
    split
    · rw [Bool.not_eq_true] at mapped
      rw [← mapped]
    · rfl

theorem releaseFirst_map (ptr : Address) (epoch : BitVec 64) (buffers : List Allocation)
    (different : buffers.Pairwise fun a b => a.base ≠ b.base) :
    releaseFirst ptr epoch (buffers.map Allocation.page) =
      (buffers.map fun a => if a.base = ptr then { a with released := some epoch } else a).map
        Allocation.page := by
  induction buffers with
  | nil => rfl
  | cons a buffers ih =>
      obtain ⟨others, rest⟩ := List.pairwise_cons.mp different
      rw [List.map_cons, List.map_cons, List.map_cons, releaseFirst]
      by_cases here : a.base = ptr
      · have kept : (buffers.map fun b =>
            if b.base = ptr then { b with released := some epoch } else b) = buffers := by
          refine (List.map_congr_left fun b member => ?_).trans (List.map_id' buffers)
          exact if_neg fun same => others b member (here.trans same.symm)
        rw [if_pos (show a.page.base = ptr from here), if_pos here, kept]
        rfl
      · rw [if_neg (show ¬a.page.base = ptr from here), if_neg here, ih rest]

theorem Recorded.different (recorded : Recorded w) :
    (w.ledger.filter (·.mapped)).Pairwise fun a b => a.base ≠ b.base := by
  rw [List.pairwise_filter]
  refine recorded.apart.imp_of_mem fun {a b} member member' apart mapped mapped' same => ?_
  obtain rfl := recorded.eq_of_base member member' mapped mapped' same
  exact apart mapped mapped' (Region.meets_self (size_pos (recorded.nonempty a member)))

theorem filter_map_release (ptr : Address) (epoch : BitVec 64) (ledger : List Allocation) :
    ((ledger.map fun a =>
      if a.mapped = true ∧ a.base = ptr then { a with released := some epoch } else a).filter
        (·.mapped)) =
      (ledger.filter (·.mapped)).map fun a =>
        if a.base = ptr then { a with released := some epoch } else a := by
  rw [List.filter_map]
  have same : ((fun a : Allocation => a.mapped) ∘ fun a : Allocation =>
      if a.mapped = true ∧ a.base = ptr then { a with released := some epoch } else a) =
      fun a => a.mapped := by
    funext a
    simp only [Function.comp_apply]
    split <;> rfl
  rw [same]
  apply List.map_congr_left
  intro a member
  have mapped : a.mapped = true := (List.mem_filter.mp member).2
  simp only [mapped, true_and]

open Classical in
/-- The records that stay are those of the buffers that stay mapped. -/
theorem Recorded.remaining (recorded : Recorded w) :
    w.manager.reclaimOldPages.pages =
      ((w.ledger.map fun a => if w.Old a then { a with mapped := false } else a).filter
        (·.mapped)).map Allocation.page := by
  have kept : (w.ledger.map fun a => if w.Old a then { a with mapped := false } else a).filter
      (·.mapped) = w.ledger.filter fun a => a.mapped && !w.manager.reclaims a.page := by
    induction w.ledger with
    | nil => rfl
    | cons a ledger ih =>
        rw [List.map_cons, List.filter_cons, List.filter_cons, ih]
        by_cases old : w.Old a
        · rw [if_pos old, (reclaims_page w a).mpr old]
          simp
        · have other : w.manager.reclaims a.page = false := by
            rw [← Bool.not_eq_true]
            exact mt (reclaims_page w a).mp old
          rw [if_neg old, other, Bool.not_false, Bool.and_true]
  rw [kept, reclaimOldPages]
  simp only
  rw [recorded.records, List.filter_map, List.filter_filter]
  congr 1
  apply List.filter_congr
  intro a _
  exact Bool.and_comm _ _

/-- Each call is about one old buffer, and no call before it was about this one. -/
theorem Recorded.call_exact (recorded : Recorded w) {before rest : List (Address × BitVec 64)}
    {call : Address × BitVec 64} (split : w.manager.munmapCalls = before ++ call :: rest) :
    ∃ (i : Nat) (a : Allocation), (before.foldl munmap w.ledger)[i]? = some a ∧
      a.mapped = true ∧ w.Old a ∧ (a.base, a.size) = call ∧
      ∀ (j : Nat) (b : Allocation), (before.foldl munmap w.ledger)[j]? = some b →
        b.mapped = true → b.region.Meets (regionOf call.1 call.2) → j = i := by
  have among : call ∈ w.manager.munmapCalls := by
    rw [split]
    exact List.mem_append_right _ List.mem_cons_self
  obtain ⟨a, member, mapped, old, rfl⟩ := recorded.mem_munmapCalls.mp among
  obtain ⟨i, found⟩ := List.getElem?_of_mem member
  have separate : w.manager.munmapCalls.Pairwise fun c d =>
      ¬(regionOf c.1 c.2).Meets (regionOf d.1 d.2) := by
    rw [recorded.munmapCalls, List.pairwise_map, List.pairwise_filter]
    refine recorded.apart.imp fun {c d} apart first second => apart ?_ ?_
    · exact (Bool.and_eq_true_iff.mp first).1
    · exact (Bool.and_eq_true_iff.mp second).1
  rw [split] at separate
  have earlier (c : Address × BitVec 64) (first : c ∈ before) :
      ¬a.region.Meets (regionOf c.1 c.2) := fun meets =>
    (List.pairwise_append.mp separate).2.2 c first _ List.mem_cons_self meets.symm
  rw [foldl_munmap]
  refine ⟨i, a, ?_, mapped, old, rfl, fun j b found' mapped' meets => ?_⟩
  · rw [List.getElem?_map, found, Option.map_some, if_neg]
    rintro ⟨_, c, first, meets⟩
    exact earlier c first meets
  · rw [List.getElem?_map] at found'
    obtain ⟨b, standing, rfl⟩ := Option.map_eq_some_iff.mp found'
    split at mapped'
    case isTrue => cases mapped'
    case isFalse kept =>
      rw [if_neg kept] at meets
      exact recorded.unique standing found mapped' mapped meets

theorem recorded_step (recorded : Recorded w) (legal : Legal sysconf w op) :
    Recorded (step sysconf w op) := by
  cases op with
  | allocate size epoch mmap =>
      cases mmap with
      | none =>
          have same : step sysconf w (.allocate size epoch none) = w := by
            rw [step, Option.map_none, Option.toList_none, List.append_nil, allocate]
          rw [same]
          exact recorded
      | some mem =>
          obtain ⟨positive, apart⟩ := legal
          constructor
          · simp [step, allocate, recorded.records, Allocation.page]
          · refine List.pairwise_append.mpr ⟨recorded.apart, List.pairwise_singleton _ _, ?_⟩
            intro a member b new mapped _
            obtain rfl := List.mem_singleton.mp new
            exact apart a member mapped
          · intro a member
            rcases List.mem_append.mp member with old | new
            · exact recorded.nonempty a old
            · obtain rfl := List.mem_singleton.mp new
              exact positive
          · exact recorded.epoch
          · intro a member unmapped
            rcases List.mem_append.mp member with old | new
            · exact recorded.past a old unmapped
            · obtain rfl := List.mem_singleton.mp new
              cases unmapped
  | release ptr epoch =>
      have origin (a : Allocation)
          (member : a ∈ (step sysconf w (.release ptr epoch)).ledger) :
          ∃ b ∈ w.ledger, a.mapped = b.mapped ∧ a.size = b.size ∧
            (b.mapped = false → a = b) := by
        obtain ⟨b, old, rfl⟩ := List.mem_map.mp member
        refine ⟨b, old, ?_⟩
        split
        case isTrue both => exact ⟨rfl, rfl, fun unmapped => absurd both.1 (by simp [unmapped])⟩
        case isFalse => exact ⟨rfl, rfl, fun _ => rfl⟩
      constructor
      · rw [step]
        simp only
        rw [filter_map_release, release, recorded.records]
        exact releaseFirst_map ptr epoch _ recorded.different
      · refine List.pairwise_map.mpr (recorded.apart.imp fun {a b} apart => ?_)
        have same (c : Allocation) (update : Allocation)
            (cases : update = { c with released := some epoch } ∨ update = c) :
            update.mapped = c.mapped ∧ update.region = c.region := by
          rcases cases with rfl | rfl
          · exact ⟨rfl, rfl⟩
          · exact ⟨rfl, rfl⟩
        obtain ⟨mapped, region⟩ := same a
          (if a.mapped = true ∧ a.base = ptr then { a with released := some epoch } else a)
          (ite_eq_or_eq _ _ _)
        obtain ⟨mapped', region'⟩ := same b
          (if b.mapped = true ∧ b.base = ptr then { b with released := some epoch } else b)
          (ite_eq_or_eq _ _ _)
        rw [Allocation.Apart, mapped, mapped', region, region']
        exact apart
      · intro a member
        obtain ⟨b, old, _, size, _⟩ := origin a member
        rw [size]
        exact recorded.nonempty b old
      · exact recorded.epoch
      · intro a member unmapped
        obtain ⟨b, old, mapped, _, same⟩ := origin a member
        rw [same (mapped ▸ unmapped)]
        exact recorded.past b old (mapped ▸ unmapped)
  | advanceEpoch =>
      refine ⟨recorded.records, recorded.apart, recorded.nonempty, ?_, ?_⟩
      · rw [step, advanceEpoch]
        simp only
        rw [recorded.epoch, ← Nat.add_assoc, BitVec.ofNat_add (1 + w.advances)]
        rfl
      · intro a member unmapped
        obtain ⟨epoch, released, below⟩ := recorded.past a member unmapped
        exact ⟨epoch, released, below.trans (Nat.lt_succ_self _)⟩
  | reclaimOldPages =>
      classical
      have origin (a : Allocation) (member : a ∈ (step sysconf w .reclaimOldPages).ledger) :
          ∃ b ∈ w.ledger, a.size = b.size ∧ a.released = b.released ∧
            (a.mapped = false → b.mapped = false ∨ w.Old b) := by
        rw [recorded.reclaimed] at member
        obtain ⟨b, old, rfl⟩ := List.mem_map.mp member
        refine ⟨b, old, ?_⟩
        split
        case isTrue reclaimed => exact ⟨rfl, rfl, fun _ => Or.inr reclaimed⟩
        case isFalse => exact ⟨rfl, rfl, Or.inl⟩
      constructor
      · rw [recorded.reclaimed]
        exact recorded.remaining
      · rw [recorded.reclaimed]
        refine List.pairwise_map.mpr (recorded.apart.imp fun {a b} apart => ?_)
        intro mapped mapped'
        split at mapped
        case isTrue => cases mapped
        case isFalse old =>
          split at mapped'
          case isTrue => cases mapped'
          case isFalse old' =>
            rw [if_neg old, if_neg old']
            exact apart mapped mapped'
      · intro a member
        obtain ⟨b, old, size, _⟩ := origin a member
        rw [size]
        exact recorded.nonempty b old
      · exact recorded.epoch
      · intro a member unmapped
        obtain ⟨b, before, _, released, cause⟩ := origin a member
        rw [released]
        rcases cause unmapped with gone | ⟨epoch, stamped, below⟩
        · exact recorded.past b before gone
        · refine ⟨epoch, stamped, ?_⟩
          rw [BitVec.lt_def, recorded.epoch, BitVec.toNat_ofNat] at below
          exact below.trans_le (Nat.mod_le _ _)

theorem safeStep_of_recorded (recorded : Recorded w) (legal : Legal sysconf w op) :
    SafeStep sysconf w op := by
  classical
  have after := recorded_step recorded legal
  constructor
  · intro i a found mapped young
    cases op with
    | allocate size epoch mmap =>
        refine ⟨a, ?_, mapped⟩
        exact (List.getElem?_append_left (List.getElem?_eq_some_iff.mp found).1).trans found
    | release ptr epoch =>
        refine ⟨_, (List.getElem?_map ..).trans (congrArg _ found), ?_⟩
        beta_reduce
        split
        · exact mapped
        · exact mapped
    | advanceEpoch => exact ⟨a, found, mapped⟩
    | reclaimOldPages =>
        rw [recorded.reclaimed]
        refine ⟨_, (List.getElem?_map ..).trans (congrArg _ found), ?_⟩
        beta_reduce
        rw [if_neg young]
        exact mapped
  · rintro rfl before call rest split
    exact recorded.call_exact split
  · rintro rfl i a found
    rw [recorded.reclaimed]
    refine ⟨_, (List.getElem?_map ..).trans (congrArg _ found), ?_⟩
    beta_reduce
    split
    case isTrue old => exact ⟨rfl, iff_of_true rfl (Or.inr old)⟩
    case isFalse young => exact ⟨rfl, (or_iff_left young).symm⟩
  · rintro rfl few i a' found
    have global : w.manager.globalEpoch.toNat = 1 + w.advances := by
      rw [recorded.epoch, BitVec.toNat_ofNat, Nat.mod_eq_of_lt (by omega)]
    constructor
    · intro unmapped
      obtain ⟨epoch, released, below⟩ := after.past a' (List.mem_of_getElem? found) unmapped
      exact ⟨epoch, released, BitVec.lt_def.mpr (global ▸ below)⟩
    · rintro ⟨epoch, released, below⟩
      rw [recorded.reclaimed, List.getElem?_map] at found
      obtain ⟨a, _, rfl⟩ := Option.map_eq_some_iff.mp found
      split at released
      case isTrue old => rw [if_pos old]
      case isFalse young => exact absurd ⟨epoch, released, below⟩ young
  · intro p member
    rw [after.records] at member
    obtain ⟨a, among, rfl⟩ := List.mem_map.mp member
    obtain ⟨inside, mapped⟩ := List.mem_filter.mp among
    exact ⟨a, inside, mapped, rfl, rfl⟩

theorem safe_of_recorded (recorded : Recorded w) (ops : List Operation) : Safe sysconf w ops := by
  induction ops generalizing w with
  | nil => trivial
  | cons op ops ih =>
      exact fun legal => ⟨safeStep_of_recorded recorded legal, ih (recorded_step recorded legal)⟩

/-- Every run of the manager unmaps old buffers only, each of them once, and all of them. -/
theorem reclamation_safe (sysconf : BitVec 64) (ops : List Operation) : Safe sysconf {} ops :=
  safe_of_recorded recorded_init ops

end Aegis.MemManager
