import AegisCompiler.BranchPlaces

/-!
# The layout of a linked module

The image of a module is its functions one after the other, with the jumps
filled in by each function and the calls by the linker.
-/

namespace Aegis

namespace ExecEncoder

open X86 (Byte)

theorem fill_shift (filling : Filling) (pos offset : Nat) (items : List Item) :
    fill (fun q => filling (q - offset)) (offset + pos) items =
      fill filling pos items := by
  induction items generalizing pos with
  | nil => rfl
  | cons item items ih =>
      rw [fill, fill, Nat.add_assoc, ih]
      have here : item.bytes (fun q => filling (q - offset)) (offset + pos) =
          item.bytes filling pos := by
        cases item with
        | instr | label => rfl
        | branch kind target =>
            rw [Item.bytes, Item.bytes, Nat.add_assoc, Nat.add_sub_cancel_left]
      rw [here]

theorem fixups_shift (calls : Bool) (pos offset : Nat) (items : List Item) :
    fixups calls (offset + pos) items =
      (fixups calls pos items).map fun fixup => (offset + fixup.1, fixup.2) := by
  induction items generalizing pos with
  | nil => rfl
  | cons item items ih =>
      rw [fixups, fixups, Nat.add_assoc, ih, List.map_append]
      have here : item.fixups calls (offset + pos) =
          (item.fixups calls pos).map fun fixup => (offset + fixup.1, fixup.2) := by
        cases item with
        | instr | label => rfl
        | branch kind target =>
            rw [Item.fixups, Item.fixups, Nat.add_assoc]
            split <;> rfl
      rw [here]

theorem labels_shift (pos offset : Nat) (items : List Item) :
    labels (offset + pos) items =
      (labels pos items).map fun label => (label.1, offset + label.2) := by
  induction items generalizing pos with
  | nil => rfl
  | cons item items ih =>
      rw [labels, labels, Nat.add_assoc, ih, List.map_append]
      have here : item.labels (offset + pos) =
          (item.labels pos).map fun label => (label.1, offset + label.2) := by
        cases item with
        | instr | branch => rfl
        | label id =>
            rw [Item.labels, Item.labels]
            split <;> rfl
      rw [here]

theorem rel32_shift (dispPos target offset : Nat) :
    rel32 (offset + dispPos) (offset + target) = rel32 dispPos target := by
  have same : ((offset + target : Nat) : Int) - ((offset + dispPos : Nat) + kRel32DispBytes) =
      target - (dispPos + kRel32DispBytes) := by
    omega
  simp only [rel32, same]

theorem lookup_map_snd {α β : Type} (shift : α → β) (id : Int) (entries : List (Int × α)) :
    (entries.map fun entry => (entry.1, shift entry.2)).lookup id =
      (entries.lookup id).map shift := by
  induction entries with
  | nil => rfl
  | cons entry entries ih =>
      rw [List.map_cons, List.lookup_cons, List.lookup_cons, ih]
      cases id == entry.1 <;> rfl

/-- Jumps stay resolved when the function moves. -/
theorem Resolved.shift {filling : Filling} {items : List Item}
    (resolved : Resolved filling 0 items) (offset : Nat) :
    Resolved (fun q => filling (q - offset)) offset items := by
  intro fixup member
  rw [← Nat.add_zero offset, fixups_shift, List.mem_map] at member
  obtain ⟨fixup, member, rfl⟩ := member
  obtain ⟨target, found, fits⟩ := resolved fixup member
  refine ⟨offset + target, ?_, ?_⟩
  · rw [← Nat.add_zero offset, labels_shift, lookup_map_snd, Nat.add_zero, found]
    rfl
  · rw [rel32_shift, fits]
    exact congrArg (some <| filling ·) (Nat.add_sub_cancel_left _ _).symm

/-- Whether the jumps are resolved depends on the filling at jumps only. -/
theorem Resolved.congr {filling other : Filling} {pos : Nat} {items : List Item}
    (resolved : Resolved filling pos items)
    (agree : ∀ fixup ∈ fixups false pos items, other fixup.1 = filling fixup.1) :
    Resolved other pos items := by
  intro fixup member
  obtain ⟨target, found, fits⟩ := resolved fixup member
  exact ⟨target, found, by rw [agree fixup member, fits]⟩

/-- The offset and the calls of each function. -/
def emittedOf : Nat → List (List Item) → List Emitted
  | _, [] => []
  | pos, items :: functions =>
      ⟨pos, fixups true 0 items⟩ :: emittedOf (pos + sizeOf items) functions

/-- The jumps of each function are resolved. -/
def AllResolved (filling : Filling) : Nat → List (List Item) → Prop
  | _, [] => True
  | pos, items :: functions =>
      Resolved filling pos items ∧ AllResolved filling (pos + sizeOf items) functions

/-- A prologue and a body. -/
def IsFunction (items : List Item) : Prop := ∃ body, Body body ∧ items = prologueItems ++ body

theorem emittedOf_append (pos : Nat) (functions more : List (List Item)) :
    emittedOf pos (functions ++ more) =
      emittedOf pos functions ++ emittedOf (pos + sizeOf functions.flatten) more := by
  induction functions generalizing pos with
  | nil => simp [emittedOf]
  | cons items functions ih => simp [emittedOf, ih, Nat.add_assoc]

theorem AllResolved.append {filling : Filling} {pos : Nat}
    {functions more : List (List Item)} (first : AllResolved filling pos functions)
    (second : AllResolved filling (pos + sizeOf functions.flatten) more) :
    AllResolved filling pos (functions ++ more) := by
  induction functions generalizing pos with
  | nil => simpa using second
  | cons items functions ih =>
      refine ⟨first.1, ih first.2 ?_⟩
      simpa [Nat.add_assoc] using second

theorem AllResolved.congr {filling other : Filling} {pos : Nat}
    {functions : List (List Item)} (resolved : AllResolved filling pos functions)
    (agree : ∀ fixup ∈ fixups false pos functions.flatten,
      other fixup.1 = filling fixup.1) : AllResolved other pos functions := by
  induction functions generalizing pos with
  | nil => trivial
  | cons items functions ih =>
      rw [List.flatten_cons, fixups_append] at agree
      exact ⟨resolved.1.congr fun fixup member => agree fixup (List.mem_append_left _ member),
        ih resolved.2 fun fixup member => agree fixup (List.mem_append_right _ member)⟩

/-- The emitted functions, before the calls are patched. -/
structure LaidOut (state : List Byte × List Emitted) (functions : List (List Item)) :
    Prop where
  shaped : ∀ items ∈ functions, IsFunction items
  emitted : state.2 = emittedOf 0 functions
  filled : ∃ filling, state.1 = fill filling 0 functions.flatten ∧
    AllResolved filling 0 functions

theorem LaidOut.length {state : List Byte × List Emitted} {functions : List (List Item)}
    (laidOut : LaidOut state functions) : state.1.length = sizeOf functions.flatten := by
  obtain ⟨filling, bytes, -⟩ := laidOut.filled
  rw [bytes, fill_length]

theorem emitFunction_laidOut {state after : List Byte × List Emitted}
    {f : ModuleFunction}
    (near : ∀ mf ra, f.mf = some mf → f.ra = some ra → NearFunction mf ra)
    (emitted : emitFunction state f = .ok after)
    {functions : List (List Item)} (laidOut : LaidOut state functions) :
    ∃ items, LaidOut after (functions ++ [items]) := by
  unfold emitFunction at emitted
  split at emitted
  case h_2 => cases emitted
  case h_1 mf ra given given' =>
    obtain ⟨⟨buf, calls⟩, encoded, same⟩ := except_bind_ok.mp emitted
    cases same
    obtain ⟨enc, body, filling', -, described, bytes, resolved, rfl⟩ :=
      encodeOne_items (near mf ra given given') encoded
    have isBody := described.shaped
    obtain ⟨filling, before, allResolved⟩ := laidOut.filled
    let offset := sizeOf functions.flatten
    let joined : Filling := fun q => if q < offset then filling q else filling' (q - offset)
    have later (q : Nat) (beyond : offset ≤ q) : joined q = filling' (q - offset) :=
      if_neg (Nat.not_lt.mpr beyond)
    have earlier (q : Nat) (below : q < offset) : joined q = filling q := if_pos below
    refine ⟨prologueItems ++ body, fun items member => ?_, ?_, joined, ?_, ?_⟩
    · rcases List.mem_append.mp member with old | new
      · exact laidOut.shaped items old
      · rw [List.mem_singleton] at new
        exact ⟨body, isBody, new⟩
    · rw [emittedOf_append, ← laidOut.emitted, laidOut.length, Nat.zero_add]
      rfl
    · rw [List.flatten_append, List.flatten_singleton, fill_append, before, bytes]
      have old : fill filling 0 functions.flatten = fill joined 0 functions.flatten :=
        fill_congr fun q _ high => (earlier q (by rwa [Nat.zero_add] at high)).symm
      have new : fill filling' 0 (prologueItems ++ body) =
          fill joined (0 + offset) (prologueItems ++ body) := by
        rw [← fill_shift filling' 0 offset, Nat.zero_add, Nat.add_zero]
        exact fill_congr fun q low _ => (later q low).symm
      rw [old, new]
    · refine (allResolved.congr fun fixup member => ?_).append ⟨?_, trivial⟩
      · have within := fixups_within member
        have before : fixup.1 + kRel32DispBytes ≤ offset := by simpa using within.2
        exact earlier fixup.1 (Nat.lt_of_lt_of_le (Nat.lt_add_of_pos_right (by decide)) before)
      · rw [Nat.zero_add]
        refine (resolved.shift offset).congr fun fixup member => ?_
        have within := fixups_within member
        exact later fixup.1 (Nat.le_of_lt within.1)

theorem emitFunctions_laidOut {fns : List ModuleFunction} (near : Near fns)
    {state after : List Byte × List Emitted}
    (emitted : fns.foldlM emitFunction state = .ok after)
    {functions : List (List Item)} (laidOut : LaidOut state functions) :
    ∃ more, LaidOut after (functions ++ more) := by
  induction fns generalizing state functions with
  | nil =>
      cases emitted
      exact ⟨[], by rwa [List.append_nil]⟩
  | cons f fns ih =>
      rw [List.foldlM_cons] at emitted
      obtain ⟨mid, first, rest⟩ := except_bind_ok.mp emitted
      obtain ⟨items, here⟩ := emitFunction_laidOut (near f List.mem_cons_self) first laidOut
      obtain ⟨more, later⟩ := ih (fun g member => near g (List.mem_cons_of_mem _ member)) rest here
      exact ⟨items :: more, by rwa [List.append_assoc] at later⟩

/-- The offsets of the functions. -/
def entriesOf (functions : List (List Item)) : List Nat :=
  (emittedOf 0 functions).map (·.offset)

/-- The calls of the image, with the position of each displacement. -/
theorem calls_of_emitted (pos : Nat) (functions : List (List Item)) :
    (emittedOf pos functions).flatMap (fun e =>
      e.calls.map fun call => (e.offset + call.1, call.2)) =
        fixups true pos functions.flatten := by
  induction functions generalizing pos with
  | nil => rfl
  | cons items functions ih =>
      rw [emittedOf, List.flatMap_cons, ih, List.flatten_cons, fixups_append,
        ← fixups_shift true 0 pos, Nat.add_zero]

theorem resolveCall_patch {fns : List ModuleFunction} {emitted : List Emitted}
    {offset : Nat} {out after : List Byte} {call : Nat × Int}
    (resolved : resolveCall fns emitted offset out call = .ok after) :
    ∃ rel, (∃ target ∈ emitted.map (·.offset),
      rel32 (offset + call.1) target = some rel) ∧ after = patch out (offset + call.1) rel := by
  unfold resolveCall at resolved
  split at resolved
  case h_1 => cases resolved
  case h_2 target found =>
    obtain ⟨entry, first, rfl⟩ := Option.map_eq_some_iff.mp found
    have member := (List.of_mem_zip (List.mem_of_find?_eq_some first)).2
    split at resolved
    case h_1 => cases resolved
    case h_2 rel fits =>
      cases resolved
      exact ⟨rel, ⟨_, List.mem_map_of_mem member, fits⟩, rfl⟩

/-- Linking the functions one after the other is one pass over all calls. -/
theorem foldlM_resolveCall (fns : List ModuleFunction) (emitted todo : List Emitted)
    (out : List Byte) :
    (todo.foldlM (fun out e => e.calls.foldlM (resolveCall fns emitted e.offset) out) out) =
      (todo.flatMap fun e => e.calls.map fun call => (e.offset + call.1, call.2)).foldlM
        (resolveCall fns emitted 0) out := by
  induction todo generalizing out with
  | nil => rfl
  | cons e todo ih =>
      rw [List.foldlM_cons, List.flatMap_cons, List.foldlM_append, List.foldlM_map]
      have same : (fun out call => resolveCall fns emitted e.offset out call) =
          fun out (call : Nat × Int) =>
            resolveCall fns emitted 0 out (e.offset + call.1, call.2) := by
        funext out call
        simp only [resolveCall, Nat.zero_add]
      rw [show resolveCall fns emitted e.offset = _ from same]
      exact congrArg _ (funext ih)

/-- The image of a module: its functions in order, with jumps to labels of their
function and calls to functions. -/
structure Layout (image : List Byte) (functions : List (List Item))
    (filling : Filling) : Prop where
  bytes : image = fill filling 0 functions.flatten
  shaped : ∀ items ∈ functions, IsFunction items
  jumps : AllResolved filling 0 functions
  calls : ∀ fixup ∈ fixups true 0 functions.flatten, ∃ target ∈ entriesOf functions,
    rel32 fixup.1 target = some (filling fixup.1)

/-- Encoding a module of near functions lays them out. -/
theorem encodeModule_layout {fns : List ModuleFunction} (near : Near fns) {image : List Byte}
    {entries : List Nat} (encoded : encodeModule fns = .ok (image, entries)) :
    ∃ functions filling, Layout image functions filling ∧ entries = entriesOf functions := by
  unfold encodeModule at encoded
  split at encoded
  case isTrue => cases encoded
  case isFalse =>
    obtain ⟨⟨out, emitted⟩, laid, encoded⟩ := except_bind_ok.mp encoded
    obtain ⟨patched, resolved, same⟩ := except_bind_ok.mp encoded
    cases same
    have start : LaidOut ([], []) [] := ⟨nofun, rfl, fun _ => 0, rfl, trivial⟩
    obtain ⟨functions, laidOut⟩ := emitFunctions_laidOut near laid start
    rw [List.nil_append] at laidOut
    obtain ⟨filling, bytes, jumps⟩ := laidOut.filled
    have offsets : emitted = emittedOf 0 functions := laidOut.emitted
    rw [foldlM_resolveCall, offsets, calls_of_emitted, ← offsets,
      show out = _ from bytes] at resolved
    obtain ⟨filled, rfl, fitted, others⟩ := patches_fill
      (fun fixup _ out after patched => by
        have found := resolveCall_patch patched
        simpa only [Nat.zero_add, Nat.sub_zero] using found)
      (fixups_ascending _ _ _) (fun _ member => member) resolved
    refine ⟨functions, filled, ⟨rfl, laidOut.shaped, jumps.congr fun jump isJump => ?_, ?_⟩, ?_⟩
    · apply others
      intro call isCall
      have apart := fixups_apart isJump isCall
      simp only [kRel32DispBytes] at apart
      omega
    · rw [offsets] at fitted
      exact fitted
    · rw [offsets]
      rfl

end ExecEncoder

end Aegis
