import Mathlib.Tactic.Ring

/-! Integer types of a fixed width, with and without sign.

    A value of a type is an integer in its range. In memory it is its bit pattern, in two's complement,
    and the pattern gives it back (`ofBits_bits`, `bits_ofBits`). Conversion to another type takes the
    value of that type that is the same modulo two to its width; between the types of one width it
    leaves the pattern alone (`bits_cast`). -/

namespace FixedWidth

/-- Width in bytes, one at least, and whether there is a sign. -/
structure IntType where
  bytes : ℕ
  signed : Bool
  pos : 0 < bytes

namespace IntType

def min (t : IntType) : ℤ := if t.signed then -2 ^ (8 * t.bytes - 1) else 0

def max (t : IntType) : ℤ := if t.signed then 2 ^ (8 * t.bytes - 1) - 1 else 2 ^ (8 * t.bytes) - 1

/-- The type of the same width without sign. -/
def makeUnsigned (t : IntType) : IntType := { t with signed := false }

theorem bits_pos (t : IntType) : 0 < 8 * t.bytes := Nat.mul_pos (by decide) t.pos

theorem modulus_pos (t : IntType) : (0 : ℤ) < (2 ^ (8 * t.bytes) : ℕ) :=
  Int.natCast_pos.mpr (Nat.two_pow_pos _)

end IntType

@[ext] structure Value (t : IntType) where
  val : ℤ
  ge : t.min ≤ val
  le : val ≤ t.max
  deriving DecidableEq

variable {t : IntType}

/-- The bit pattern of a value. -/
def Value.bits (n : Value t) : BitVec (8 * t.bytes) := BitVec.ofInt _ n.val

/-- The value with a given bit pattern. -/
def ofBits (t : IntType) (x : BitVec (8 * t.bytes)) : Value t where
  val := if t.signed then x.toInt else x.toNat
  ge := by
    rw [IntType.min]
    split
    · exact BitVec.le_toInt x
    · exact Int.natCast_nonneg _
  le := by
    rw [IntType.max]
    split
    · exact Int.le_sub_one_of_lt BitVec.toInt_lt
    · exact Int.le_sub_one_of_lt (by exact_mod_cast x.isLt)

/-- Conversion: the value of the type that equals `z` modulo two to its width. -/
def cast (t : IntType) (z : ℤ) : Value t where
  val := if t.signed then z.bmod (2 ^ (8 * t.bytes)) else z % (2 ^ (8 * t.bytes) : ℕ)
  ge := by
    rw [IntType.min]
    split
    · rw [← BitVec.toInt_ofInt]
      exact BitVec.le_toInt _
    · exact Int.emod_nonneg _ (Int.ne_of_gt t.modulus_pos)
  le := by
    rw [IntType.max]
    split
    · rw [← BitVec.toInt_ofInt]
      exact Int.le_sub_one_of_lt BitVec.toInt_lt
    · exact Int.le_sub_one_of_lt (by exact_mod_cast Int.emod_lt_of_pos z t.modulus_pos)

theorem ofBits_bits (n : Value t) : ofBits t n.bits = n := by
  obtain ⟨z, hge, hle⟩ := n
  rw [IntType.min] at hge
  rw [IntType.max] at hle
  apply Value.ext
  show (if t.signed then (BitVec.ofInt _ z).toInt else (BitVec.ofInt _ z).toNat) = z
  cases hs : t.signed with
  | true =>
    rw [if_pos hs] at hge hle
    exact BitVec.toInt_ofInt_eq_self t.bits_pos hge (Int.lt_of_le_sub_one hle)
  | false =>
    rw [hs, if_neg Bool.false_ne_true] at hge hle
    have hmod := Int.emod_nonneg z (Int.ne_of_gt t.modulus_pos)
    rw [if_neg Bool.false_ne_true, BitVec.toNat_ofInt, Int.toNat_of_nonneg hmod]
    exact Int.emod_eq_of_lt hge (by exact_mod_cast Int.lt_of_le_sub_one hle)

theorem bits_ofBits (x : BitVec (8 * t.bytes)) : (ofBits t x).bits = x := by
  show BitVec.ofInt _ (if t.signed then x.toInt else x.toNat) = x
  split
  · exact BitVec.ofInt_toInt
  · rw [BitVec.ofInt_natCast, BitVec.ofNat_toNat, BitVec.setWidth_eq]

/-- The pattern of a converted value is that of the number itself. -/
theorem bits_cast (t : IntType) (z : ℤ) : (cast t z).bits = BitVec.ofInt _ z := by
  apply BitVec.eq_of_toInt_eq
  rw [Value.bits, BitVec.toInt_ofInt, BitVec.toInt_ofInt]
  show (if t.signed then z.bmod _ else z % _).bmod _ = _
  split
  · exact Int.bmod_bmod
  · exact Int.emod_bmod ..

end FixedWidth
