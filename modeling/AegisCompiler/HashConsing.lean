import AegisCompiler.SeaOfNodesGraph

/-!
# Hash-consing

Pure operations are created through a table keyed by kind, type, payload and a
hash of the inputs, so that equal operations share one node.
-/

namespace Aegis

/-- The bits of a node id as they enter the hash. -/
def refBits : NodeRef → Word
  | some id => BitVec.ofNat 64 id
  | none => 0xFFFFFFFF

/-- The FNV-1a hash of the inputs. -/
def hashInputs (inputs : List NodeRef) : Word :=
  inputs.foldl (fun h input => (h ^^^ refBits input) * 0x100000001b3)
    0xcbf29ce484222325

/-- The multiplier of the hash is odd. -/
theorem prime_cancel {x y : Word}
    (same : x * 0x100000001b3 = y * 0x100000001b3) : x = y := by
  have inverse (z : Word) : z * 0x100000001b3 * 0xce965057aff6957b = z := by
    rw [BitVec.mul_assoc]
    exact BitVec.mul_one z
  rw [← inverse x, same, inverse]

theorem shift_xor_small {x : Word} {id : Nat} (small : id < 2 ^ 24) :
    (x ^^^ BitVec.ofNat 64 id).toNat / 2 ^ 24 = x.toNat / 2 ^ 24 := by
  have low : id % 2 ^ 64 = id := Nat.mod_eq_of_lt (by omega)
  rw [BitVec.toNat_xor, BitVec.toNat_ofNat, low, ← Nat.shiftRight_eq_div_pow,
    Nat.shiftRight_xor_distrib, Nat.shiftRight_eq_div_pow id,
    Nat.div_eq_of_lt small, Nat.xor_zero, Nat.shiftRight_eq_div_pow]

/-- Words whose distance is far from 0 differ in their high bits. -/
theorem far_apart {start step : Nat} (high : 2 ^ 24 < step)
    (low : step < 2 ^ 64 - 2 ^ 24) :
    start % 2 ^ 64 / 2 ^ 24 ≠ (start + step) % 2 ^ 64 / 2 ^ 24 := by
  omega

/-- Multiplying by the prime moves close words far apart. -/
theorem mul_prime_far {x y : Nat} (less : x < y) (near : y < x + 2 ^ 24) :
    x * 0x100000001b3 % 2 ^ 64 / 2 ^ 24 ≠ y * 0x100000001b3 % 2 ^ 64 / 2 ^ 24 := by
  obtain ⟨gap, rfl⟩ := Nat.exists_eq_add_of_le less.le
  rw [Nat.add_mul x gap]
  exact far_apart (by omega) (by omega)

theorem mul_prime_high {x y : Word} (high : x.toNat / 2 ^ 24 = y.toNat / 2 ^ 24)
    (same : (x * 0x100000001b3).toNat / 2 ^ 24 =
      (y * 0x100000001b3).toNat / 2 ^ 24) : x = y := by
  rw [BitVec.toNat_mul, BitVec.toNat_mul] at same
  apply BitVec.eq_of_toNat_eq
  rcases Nat.lt_trichotomy x.toNat y.toNat with less | equal | more
  · exact absurd same (mul_prime_far less (by omega))
  · exact equal
  · exact absurd same.symm (mul_prime_far more (by omega))

/-- One step of the hash tells small ids apart, whatever follows it shares its
high bits. -/
theorem hash_step_inj {h : Word} {a b : Nat} (aSmall : a < 2 ^ 24)
    (bSmall : b < 2 ^ 24)
    (same : ((h ^^^ refBits (some a)) * 0x100000001b3).toNat / 2 ^ 24 =
      ((h ^^^ refBits (some b)) * 0x100000001b3).toNat / 2 ^ 24) : a = b := by
  have high : (h ^^^ refBits (some a)).toNat / 2 ^ 24 =
      (h ^^^ refBits (some b)).toNat / 2 ^ 24 := by
    rw [refBits, refBits, shift_xor_small aSmall, shift_xor_small bSmall]
  have bits := BitVec.xor_right_inj h |>.mp (mul_prime_high high same)
  have nats := congrArg BitVec.toNat bits
  rw [refBits, refBits, BitVec.toNat_ofNat, BitVec.toNat_ofNat] at nats
  omega

/-- The signature an operation is looked up by. -/
structure HashKey where
  kind : NodeKind
  typeId : TypeId
  payload : NodePayload
  inputsHash : Word
  deriving DecidableEq, Repr

/-- The table of the operations created so far. -/
abbrev HashCons := List (HashKey × NodeId)

namespace HashCons

/-- The node recorded under a key. -/
def find (table : HashCons) (key : HashKey) : Option NodeId :=
  (List.find? (fun entry => entry.1 = key) table).map Prod.snd

/-- Return the node with this signature, or create and record it. -/
def lookupOrInsert (table : HashCons) (g : Graph) (kind : NodeKind)
    (inputs : List NodeRef) (typeId : TypeId) (payload : NodePayload) :
    NodeId × HashCons × Graph :=
  let key : HashKey := ⟨kind, typeId, payload, hashInputs inputs⟩
  match table.find key with
  | some existing => (existing, table, g)
  | none =>
      let made := g.makeNode kind inputs typeId payload
      (made.1, table ++ [(key, made.1)], made.2)

end HashCons

end Aegis
