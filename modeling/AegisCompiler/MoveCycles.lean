import AegisCompiler.ParallelMoves
import AegisCompiler.TopologicalOrders

/-!
# Cycles of moves

The search for a safe order fails when some moves wait for each other in a circle.
Staging the source of the first move in RAX helps against circles through that move,
and against no others.
-/

namespace Aegis

namespace ExecEncoder

open TopologicalOrders
open X86 (Reg)

/-- The first move reads what the second one overwrites, so it has to come before it. -/
def Reads (reader writer : Move) : Prop :=
  reader.src = writer.dst ∧ reader.src ≠ reader.dst

theorem Reads.irrefl (move : Move) : ¬ Reads move move :=
  fun reads => reads.2 reads.1

/-- Moves that wait for each other: each overwrites what another one of them reads. -/
def Circular (moves : List Move) : Prop := Blocked Reads moves

/-- The relation of the moves with two indices. -/
def ReadsAt (moves : List Move) (reader writer : Nat) : Prop :=
  Reads (moves.getD reader default) (moves.getD writer default)

theorem ordersOf_complete {order indices : List Nat} (perm : order.Perm indices) :
    order ∈ ordersOf indices.length indices := by
  induction order generalizing indices with
  | nil =>
      rw [List.nil_perm.mp perm]
      exact List.mem_singleton_self []
  | cons i order ih =>
      have inside : i ∈ indices := perm.subset List.mem_cons_self
      have rest : order.Perm (indices.erase i) :=
        List.cons_perm_iff_perm_erase.mp perm |>.2
      have length : indices.length = (indices.erase i).length + 1 := by
        rw [List.length_erase_of_mem inside]
        have positive := List.length_pos_of_mem inside
        omega
      rw [length, ordersOf, List.mem_flatMap]
      refine ⟨i, inside, List.mem_map_of_mem ?_⟩
      exact ih rest

theorem isSafe_iff (moves : List Move) (order : List Nat) :
    isSafe moves order = true ↔ Ordered (ReadsAt moves) order := by
  have pair (reader writer : Move) :
      (!(decide (writer.dst = reader.src) && decide (reader.src ≠ reader.dst))) = true ↔
        ¬ Reads reader writer := by
    rw [Reads, @eq_comm _ reader.src writer.dst]
    simp [imp_iff_not_or]
  have at_ {k : Nat} (inside : k < order.length) : order.getD k 0 = order[k] := by
    rw [List.getD_eq_getElem?_getD, List.getElem?_eq_getElem inside, Option.getD_some]
  rw [Ordered, List.pairwise_iff_getElem]
  simp only [isSafe, List.all_eq_true, List.mem_range, pair]
  constructor
  · intro safe j i insideJ insideI before
    have here := safe i insideI j before
    rwa [at_ insideI, at_ insideJ] at here
  · intro ordered i insideI j before
    have insideJ : j < order.length := before.trans insideI
    rw [at_ insideI, at_ insideJ]
    exact ordered j i insideJ insideI before

theorem safeOrder_eq_none_iff {moves : List Move} :
    safeOrder moves = none ↔
      ∃ waiting ⊆ List.range moves.length, Blocked (ReadsAt moves) waiting := by
  have irrefl (i : Nat) : ¬ ReadsAt moves i i := Reads.irrefl _
  have search : (∃ order, order.Perm (List.range moves.length) ∧
      Ordered (ReadsAt moves) order) ↔ safeOrder moves ≠ none := by
    rw [safeOrder, ← Option.isSome_iff_ne_none, List.find?_isSome]
    constructor
    · rintro ⟨order, perm, ordered⟩
      refine ⟨order, ?_, (isSafe_iff moves order).mpr ordered⟩
      have complete := ordersOf_complete perm
      rwa [List.length_range] at complete
    · rintro ⟨order, member, safe⟩
      exact ⟨order, ordersOf_perm List.length_range member, (isSafe_iff moves order).mp safe⟩
  rw [exists_ordered_iff irrefl] at search
  rw [← not_iff_not, ← ne_eq, ← search]
  push Not
  rfl

theorem circular_of_blocked {moves : List Move} {waiting : List Nat}
    (blocked : Blocked (ReadsAt moves) waiting) :
    Circular (waiting.map fun i => moves.getD i default) := by
  refine ⟨fun empty => blocked.1 (List.map_eq_nil_iff.mp empty), fun move member => ?_⟩
  obtain ⟨i, inside, rfl⟩ := List.mem_map.mp member
  obtain ⟨j, within, reads⟩ := blocked.2 i inside
  exact ⟨_, List.mem_map_of_mem within, reads⟩

/-- The search fails exactly when some of the moves are circular. -/
theorem safeOrder_none_iff {moves : List Move} :
    safeOrder moves = none ↔ ∃ cycle ⊆ moves, Circular cycle := by
  classical
  rw [safeOrder_eq_none_iff]
  constructor
  · rintro ⟨waiting, inside, blocked⟩
    refine ⟨_, fun move member => ?_, circular_of_blocked blocked⟩
    obtain ⟨i, within, rfl⟩ := List.mem_map.mp member
    have bound : i < moves.length := List.mem_range.mp (inside within)
    rw [List.getD_eq_getElem?_getD, List.getElem?_eq_getElem bound, Option.getD_some]
    exact List.getElem_mem bound
  · rintro ⟨cycle, inside, nonempty, waits⟩
    -- The indices of the moves of the cycle.
    let waiting := (List.range moves.length).filter fun i => moves.getD i default ∈ cycle
    have index {move : Move} (member : move ∈ cycle) :
        ∃ i ∈ waiting, moves.getD i default = move := by
      obtain ⟨i, bound, rfl⟩ := List.getElem_of_mem (inside member)
      have here : moves.getD i default = moves[i] := by
        rw [List.getD_eq_getElem?_getD, List.getElem?_eq_getElem bound, Option.getD_some]
      refine ⟨i, List.mem_filter.mpr ⟨List.mem_range.mpr bound, ?_⟩, here⟩
      rw [here]
      exact decide_eq_true member
    refine ⟨waiting, List.filter_subset_self _, ?_, fun i within => ?_⟩
    · obtain ⟨move, member⟩ := List.exists_mem_of_ne_nil cycle nonempty
      obtain ⟨i, within, -⟩ := index member
      exact List.ne_nil_of_mem within
    · obtain ⟨reader, member, reads⟩ := waits _ (of_decide_eq_true (List.mem_filter.mp within).2)
      obtain ⟨j, inside, same⟩ := index member
      refine ⟨j, inside, ?_⟩
      rw [ReadsAt, same]
      exact reads

/-- Once the first source is in RAX, only the other moves can be circular. -/
theorem circular_staged_iff {first : Move} {rest : List Move}
    (dstRax : ∀ move ∈ first :: rest, move.dst ≠ kRegRax) :
    (∃ cycle ⊆ { first with src := kRegRax } :: rest, Circular cycle) ↔
      ∃ cycle ⊆ rest, Circular cycle := by
  classical
  constructor
  · rintro ⟨cycle, inside, nonempty, waits⟩
    have dst {move : Move} (member : move ∈ cycle) : move.dst ≠ kRegRax := by
      rcases List.mem_cons.mp (inside member) with rfl | later
      · exact dstRax first List.mem_cons_self
      · exact dstRax move (List.mem_cons_of_mem _ later)
    -- The reader of a destination is not the staged move.
    have others {writer : Move} (member : writer ∈ cycle) :
        ∃ reader ∈ cycle.filter (· ∈ rest), Reads reader writer := by
      obtain ⟨reader, within, reads⟩ := waits writer member
      refine ⟨reader, List.mem_filter.mpr ⟨within, decide_eq_true ?_⟩, reads⟩
      refine (List.mem_cons.mp (inside within)).resolve_left ?_
      rintro rfl
      exact dst member reads.1.symm
    refine ⟨cycle.filter (· ∈ rest), ?_, ?_, ?_⟩
    · intro move member
      exact of_decide_eq_true (List.mem_filter.mp member).2
    · obtain ⟨move, member⟩ := List.exists_mem_of_ne_nil cycle nonempty
      obtain ⟨reader, within, -⟩ := others member
      exact List.ne_nil_of_mem within
    · intro writer member
      exact others (List.mem_filter.mp member).1
  · rintro ⟨cycle, inside, circular⟩
    exact ⟨cycle, fun move member => List.mem_cons_of_mem _ (inside member), circular⟩

/-- The moves are resolved exactly when none but the first are circular. -/
theorem parallelMove_eq_none_iff {moves : List Move}
    (dstRax : ∀ move ∈ moves, move.dst ≠ kRegRax) :
    parallelMove moves = none ↔ ∃ cycle ⊆ moves.tail, Circular cycle := by
  cases moves with
  | nil =>
      constructor
      · intro failed
        cases failed
      · rintro ⟨cycle, inside, nonempty, -⟩
        exact absurd (List.subset_nil.mp inside) nonempty
  | cons first rest =>
      rw [List.tail_cons, ← circular_staged_iff dstRax, ← safeOrder_none_iff]
      unfold parallelMove
      constructor
      · intro failed
        split at failed
        case h_1 => cases failed
        case h_2 => exact Option.map_eq_none_iff.mp failed
      · intro failed
        have none : safeOrder (first :: rest) = none := by
          obtain ⟨cycle, inside, circular⟩ :=
            (circular_staged_iff dstRax).mp (safeOrder_none_iff.mp failed)
          exact safeOrder_none_iff.mpr
            ⟨cycle, fun move member => List.mem_cons_of_mem _ (inside member), circular⟩
        rw [none]
        exact Option.map_eq_none_iff.mpr failed

theorem map_snd_zip_eq {α β : Type} (xs : List α) (ys : List β) :
    (xs.zip ys).map Prod.snd = ys.take xs.length := by
  induction xs generalizing ys with
  | nil => rfl
  | cons x xs ih =>
      cases ys with
      | nil => rfl
      | cons y ys => exact congrArg (y :: ·) (ih ys)

/-- The arguments of a call, up to the first unset slot. -/
def argUses (mi : MachineInstr) : List (Option VRegId) :=
  ((List.range kMaxUsesPerInstr).map (useAt mi)).takeWhile (·.isSome)

theorem argUses_length_le (mi : MachineInstr) : (argUses mi).length ≤ 4 := by
  have within := (List.takeWhile_prefix
    (·.isSome) (l := (List.range kMaxUsesPerInstr).map (useAt mi))).length_le
  rwa [List.length_map, List.length_range] at within

theorem argMoves_dst {ra : LinearScan.ScanState} {ctx : String} {mi : MachineInstr}
    {moves : List Move} (found : argMoves ra ctx mi = .ok moves) :
    ∃ n ≤ 4, moves.map Move.dst = kAbiArgRegs.take n := by
  refine ⟨(argUses mi).length, argUses_length_le mi, ?_⟩
  rw [← map_snd_zip_eq]
  refine map_of_mapM ?_ found
  rintro ⟨use, reg⟩ move made
  obtain ⟨home, -, same⟩ := except_bind_ok.mp made
  cases same
  rfl

theorem argMoves_src {ra : LinearScan.ScanState} {ctx : String} {mi : MachineInstr}
    {moves : List Move} (found : argMoves ra ctx mi = .ok moves) :
    ∀ move ∈ moves, move.src ∈ kHomeRegs := by
  intro move member
  obtain ⟨⟨use, reg⟩, -, made⟩ := mem_of_mapM found member
  obtain ⟨home, found, same⟩ := except_bind_ok.mp made
  cases same
  exact (home_apart found).1

/-- The second and the fourth argument each sit where the other one has to go. -/
def SwapsSecondAndFourth (moves : List Move) : Prop :=
  moves[1]?.map Move.src = some kRegRcx ∧ moves[3]?.map Move.src = some kRegRsi

/-- With at most four arguments there is one circle that avoids the first. -/
theorem circular_tail_iff {moves : List Move} {n : Nat} (small : n ≤ 4)
    (dsts : moves.map Move.dst = kAbiArgRegs.take n)
    (homes : ∀ move ∈ moves, move.src ∈ kHomeRegs) :
    (∃ cycle ⊆ moves.tail, Circular cycle) ↔ SwapsSecondAndFourth moves := by
  have length : moves.length = n := by
    have same := congrArg List.length dsts
    rw [List.length_map, List.length_take] at same
    exact same.trans (Nat.min_eq_left (small.trans (by decide)))
  have dst (i : Nat) (inside : i < moves.length) : moves[i].dst = kAbiArgRegs.getD i 0 := by
    have here := congrArg (·[i]?) dsts
    simp only [List.getElem?_map, List.getElem?_eq_getElem inside, Option.map_some,
      List.getElem?_take, length ▸ inside, if_true] at here
    rw [List.getD_eq_getElem?_getD, ← here, Option.getD_some]
  constructor
  · rintro ⟨cycle, inside, nonempty, waits⟩
    -- Nothing reads RDX, so the third argument is in no circle.
    have odd {move : Move} (member : move ∈ cycle) :
        (moves[1]? = some move ∧ move.dst = kRegRsi) ∨
          (moves[3]? = some move ∧ move.dst = kRegRcx) := by
      obtain ⟨i, bound, rfl⟩ := List.getElem_of_mem (inside member)
      rw [List.length_tail] at bound
      have later : i + 1 < moves.length := by omega
      have goes := dst (i + 1) later
      rw [List.getElem_tail]
      obtain rfl | rfl | rfl : i = 0 ∨ i = 1 ∨ i = 2 := by omega
      · exact .inl ⟨List.getElem?_eq_getElem later, goes⟩
      · obtain ⟨reader, within, reads, -⟩ := waits _ member
        rw [List.getElem_tail, goes] at reads
        have home : ∀ r ∈ kHomeRegs, r ≠ kAbiArgRegs.getD 2 0 := by decide
        exact absurd reads (home _ (homes reader (List.mem_of_mem_tail (inside within))))
      · exact .inr ⟨List.getElem?_eq_getElem later, goes⟩
    have next {writer : Move} (member : writer ∈ cycle) : ∃ reader ∈ cycle,
        (moves[1]? = some writer ∧ moves[3]? = some reader ∧ reader.src = kRegRsi) ∨
          (moves[3]? = some writer ∧ moves[1]? = some reader ∧ reader.src = kRegRcx) := by
      obtain ⟨reader, within, reads, apart⟩ := waits writer member
      refine ⟨reader, within, ?_⟩
      rcases odd member with ⟨here, goes⟩ | ⟨here, goes⟩ <;>
        rcases odd within with ⟨there, goes'⟩ | ⟨there, goes'⟩
      · exact absurd (reads.trans (goes.trans goes'.symm)) apart
      · exact .inl ⟨here, there, reads.trans goes⟩
      · exact .inr ⟨here, there, reads.trans goes⟩
      · exact absurd (reads.trans (goes.trans goes'.symm)) apart
    have same {i j : Nat} {move : Move} (differ : kAbiArgRegs.getD i 0 ≠ kAbiArgRegs.getD j 0)
        (one : moves[i]? = some move) (two : moves[j]? = some move) : False := by
      obtain ⟨bound, rfl⟩ := List.getElem?_eq_some_iff.mp one
      obtain ⟨bound', equal⟩ := List.getElem?_eq_some_iff.mp two
      exact differ (by rw [← dst i bound, ← dst j bound', equal])
    obtain ⟨writer, member⟩ := List.exists_mem_of_ne_nil cycle nonempty
    obtain ⟨reader, within, here⟩ := next member
    obtain ⟨last, -, there⟩ := next within
    have differ : kAbiArgRegs.getD 1 0 ≠ kAbiArgRegs.getD 3 0 := by decide
    rcases here with ⟨-, fourth, fromRsi⟩ | ⟨-, second, fromRcx⟩
    · rcases there with ⟨wrong, -⟩ | ⟨-, second, fromRcx⟩
      · exact (same differ wrong fourth).elim
      · exact ⟨by rw [second, Option.map_some, fromRcx], by rw [fourth, Option.map_some, fromRsi]⟩
    · rcases there with ⟨-, fourth, fromRsi⟩ | ⟨wrong, -⟩
      · exact ⟨by rw [second, Option.map_some, fromRcx], by rw [fourth, Option.map_some, fromRsi]⟩
      · exact (same differ second wrong).elim
  · rintro ⟨second, fourth⟩
    obtain ⟨low, atOne, fromRcx⟩ := Option.map_eq_some_iff.mp second
    obtain ⟨high, atThree, fromRsi⟩ := Option.map_eq_some_iff.mp fourth
    obtain ⟨boundOne, rfl⟩ := List.getElem?_eq_some_iff.mp atOne
    obtain ⟨boundThree, rfl⟩ := List.getElem?_eq_some_iff.mp atThree
    have goesOne : moves[1].dst = kRegRsi := dst 1 boundOne
    have goesThree : moves[3].dst = kRegRcx := dst 3 boundThree
    refine ⟨[moves[1], moves[3]], ?_, List.cons_ne_nil _ _, ?_⟩
    · intro move member
      have inTail (i : Nat) (bound : i + 1 < moves.length) : moves[i + 1] ∈ moves.tail := by
        rw [← List.getElem_tail (h := by rw [List.length_tail]; omega)]
        exact List.getElem_mem _
      rcases List.mem_pair.mp member with rfl | rfl
      · exact inTail 0 boundOne
      · exact inTail 2 boundThree
    · have differ : kRegRcx ≠ kRegRsi := by decide
      intro writer member
      rcases List.mem_pair.mp member with rfl | rfl
      · refine ⟨moves[3], List.mem_cons_of_mem _ (List.mem_singleton_self _), ?_, ?_⟩
        · rw [fromRsi, goesOne]
        · rw [fromRsi, goesThree]
          exact differ.symm
      · refine ⟨moves[1], List.mem_cons_self, ?_, ?_⟩
        · rw [fromRcx, goesThree]
        · rw [fromRcx, goesOne]
          exact differ

theorem mapM_ok_of_imp {α β ε : Type} {f g : α → Except ε β}
    (same : ∀ x y, f x = .ok y → g x = .ok y) {xs : List α} {ys : List β}
    (mapped : xs.mapM f = .ok ys) : xs.mapM g = .ok ys := by
  induction xs generalizing ys with
  | nil => exact mapped
  | cons x xs ih =>
      rw [List.mapM_cons] at mapped ⊢
      obtain ⟨first, here, mapped⟩ := except_bind_ok.mp mapped
      obtain ⟨rest, later, done⟩ := except_bind_ok.mp mapped
      exact except_bind_ok.mpr ⟨first, same x first here,
        except_bind_ok.mpr ⟨rest, ih later, done⟩⟩

theorem argMoves_ctx {ra : LinearScan.ScanState} {ctx : String} {mi : MachineInstr}
    {moves : List Move} (found : argMoves ra ctx mi = .ok moves) (other : String) :
    argMoves ra other mi = .ok moves := by
  refine mapM_ok_of_imp ?_ found
  rintro ⟨use, reg⟩ move made
  obtain ⟨home, here, same⟩ := except_bind_ok.mp made
  exact except_bind_ok.mpr ⟨home, homeOf_ctx here other, same⟩

theorem parallelMove_found_iff {moves : List Move}
    (dstRax : ∀ move ∈ moves, move.dst ≠ kRegRax) :
    (∃ code, parallelMove moves = some code) ↔
      ¬ ∃ cycle ⊆ moves.tail, Circular cycle := by
  rw [← parallelMove_eq_none_iff dstRax, ← ne_eq, Option.ne_none_iff_exists']

/-- A call whose operands have homes is encoded unless its second and fourth argument
have to be exchanged; the moves of the parameters are encoded unless there is a circle
that avoids the first of them. -/
theorem moves_encoded_iff (ra : LinearScan.ScanState) (enc : Encoder) (idx : Nat) :
    (∀ (mi : MachineInstr) (moves pmoves : List Move) (res : Reg), mi.op = .call →
      mi.imm ≠ none → argMoves ra "" mi = .ok moves → homeOf ra mi.result "" = .ok res →
        ((∃ after, encodeInstr ra pmoves enc (mi, idx) = .ok after) ↔
          ¬ SwapsSecondAndFourth moves)) ∧
    ∀ (mi : MachineInstr) (instrs : List MachineInstr) (pmoves : List Move),
      mi.op = .param → enc.paramBlockEmitted = false → paramMoves ra instrs = .ok pmoves →
        ((∃ after, encodeInstr ra pmoves enc (mi, idx) = .ok after) ↔
          ¬ ∃ cycle ⊆ pmoves.tail, Circular cycle) := by
  constructor
  · intro mi moves pmoves res op imm found result
    obtain ⟨callee, given⟩ := Option.ne_none_iff_exists'.mp imm
    obtain ⟨n, small, dsts⟩ := argMoves_dst found
    rw [← circular_tail_iff small dsts (argMoves_src found),
      ← parallelMove_found_iff fun move member => (argMoves_rax found move member).1]
    simp only [encodeInstr, op, given]
    constructor
    · rintro ⟨after, encoded⟩
      obtain ⟨moves', found', encoded⟩ := except_bind_ok.mp encoded
      obtain rfl := Except.ok.inj ((argMoves_ctx found _).symm.trans found')
      split at encoded
      case h_1 => cases encoded
      case h_2 code resolved => exact ⟨code, resolved⟩
    · rintro ⟨code, resolved⟩
      simp only [argMoves_ctx found, homeOf_ctx result, resolved, bind, Except.bind]
      exact ⟨_, rfl⟩
  · intro mi instrs pmoves op fresh found
    rw [← parallelMove_found_iff fun move member => (paramMoves_rax found move member).1]
    simp only [encodeInstr, op, fresh]
    constructor
    · rintro ⟨after, encoded⟩
      split at encoded
      case isTrue impossible => cases impossible
      case isFalse =>
        split at encoded
        case h_1 => cases encoded
        case h_2 code resolved => exact ⟨code, resolved⟩
    · rintro ⟨code, resolved⟩
      rw [resolved]
      exact ⟨_, rfl⟩

/-- A function of four parameters that passes them on with the second and the last
one exchanged. -/
def swapping : MachineFunction where
  name := "f"
  instrs := [{ op := .param, result := some 0, imm := some 0 },
    { op := .param, result := some 1, imm := some 1 },
    { op := .param, result := some 2, imm := some 2 },
    { op := .param, result := some 3, imm := some 3 },
    { op := .call, result := some 4, uses := [some 0, some 3, some 2, some 1],
      imm := some 7 },
    { op := .ret, uses := [some 4] }]

/-- The first, second and fourth parameter stay in RDI, RSI and RCX. -/
def swappingHomes : LinearScan.ScanState where
  assignment := fun v => [2, 1, 3, 0, 4].getD v 0

/-- Its parameters on the way to their homes. -/
def swappingMoves : List Move := [⟨7, 7⟩, ⟨6, 6⟩, ⟨2, 8⟩, ⟨1, 1⟩]

theorem swapping_unresolved :
    encodeOne swapping swappingHomes =
      .error { text := "instr 4 (call): call argument move cycle unresolvable" } := rfl

/-- The parameters are encoded, and so is a call that passes them on in turn. -/
theorem moves_encoded_iff_rotated :
    (∃ after, encodeInstr swappingHomes swappingMoves {}
      ({ op := .call, result := some 4, uses := [some 1, some 2, some 3, some 0],
         imm := some 7 }, 4) = .ok after) ∧
      ∃ after, encodeInstr swappingHomes swappingMoves {}
        ({ op := .param, result := some 0, imm := some 0 }, 4) = .ok after := by
  obtain ⟨calls, params⟩ := moves_encoded_iff swappingHomes {} 4
  constructor
  · refine (calls _ [⟨6, 7⟩, ⟨8, 6⟩, ⟨1, 2⟩, ⟨7, 1⟩] _ 9 rfl (by decide) rfl rfl).mpr ?_
    rintro ⟨second, -⟩
    exact absurd second (by decide)
  · refine (params _ swapping.instrs _ rfl rfl rfl).mpr ?_
    rintro ⟨cycle, inside, circular⟩
    obtain ⟨move, member⟩ := List.exists_mem_of_ne_nil cycle circular.1
    -- No move reads what another one overwrites.
    have apart : ∀ writer ∈ swappingMoves, ∀ reader ∈ swappingMoves,
        ¬ (reader.src = writer.dst ∧ reader.src ≠ reader.dst) := by decide
    obtain ⟨reader, within, reads⟩ := circular.2 move member
    exact apart move (List.mem_of_mem_tail (inside member)) reader
      (List.mem_of_mem_tail (inside within)) reads

end ExecEncoder

end Aegis
