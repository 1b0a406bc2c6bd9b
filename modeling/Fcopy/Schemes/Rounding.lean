import Mathlib.Data.Int.Log
import Mathlib.Data.Rat.Floor
import Mathlib.Tactic.Linarith
import Mathlib.Tactic.NormNum

/-! Rounding to a binary floating point format.

    The numbers of a format have so many binary digits, and none behind a certain place. What lies
    between two of them goes to the nearer one, and from the middle to the one with an even last digit:

        ──┼─────────┼─────────┼──      2 ^ k apart, where `k` is the place of the last digit of `q`
          ◀── q

    A result that is too large for the exponents of the format is out of range, and so is one that is too
    small for them and not exact. -/

namespace Rounding

/-- The nearest integer, and of two the even one. -/
def nearestEven (x : ℚ) : ℤ :=
  let n := ⌊x⌋
  if x - n < 1 / 2 then n
  else if 1 / 2 < x - n then n + 1
  else if n % 2 = 0 then n else n + 1

/-- The nearest multiple of `2 ^ k`. -/
def roundAt (k : ℤ) (q : ℚ) : ℚ := nearestEven (q / 2 ^ k) * 2 ^ k

/-- The numbers `m * 2 ^ e` with `|m| < 2 ^ digits`, `minExp - digits ≤ e` and `e ≤ maxExp - digits`. -/
structure Format where
  digits : ℕ
  minExp : ℤ
  maxExp : ℤ

namespace Format
variable (f : Format)

/-- The place of the last of `digits` digits. -/
def lastPlace (q : ℚ) : ℤ := Int.log 2 |q| + 1 - f.digits

def round (q : ℚ) : ℚ := roundAt (max (f.lastPlace q) (f.minExp - f.digits)) q

def Overflows (q : ℚ) : Prop := 2 ^ f.maxExp ≤ |f.round q|

/-- With all its digits the result is below those with the least exponent, and it loses some. -/
def Underflows (q : ℚ) : Prop :=
  |roundAt (f.lastPlace q) q| < 2 ^ (f.minExp - 1) ∧ f.round q ≠ q

def OutOfRange (q : ℚ) : Prop := f.Overflows q ∨ f.Underflows q

instance (q : ℚ) : Decidable (f.Overflows q) := inferInstanceAs (Decidable (_ ≤ _))

instance (q : ℚ) : Decidable (f.Underflows q) := inferInstanceAs (Decidable (_ ∧ _))

instance (q : ℚ) : Decidable (f.OutOfRange q) := inferInstanceAs (Decidable (_ ∨ _))

end Format

/-! ### To a multiple of a power -/

theorem nearestEven_intCast (n : ℤ) : nearestEven n = n := by
  rw [nearestEven, Int.floor_intCast, sub_self, if_pos (by norm_num)]

/-- An integer below stays below. -/
theorem le_nearestEven {n : ℤ} {x : ℚ} (h : (n : ℚ) ≤ x) : n ≤ nearestEven x := by
  have hfloor : n ≤ ⌊x⌋ := Int.le_floor.mpr h
  simp only [nearestEven]
  split
  · exact hfloor
  split
  · omega
  split
  · exact hfloor
  · omega

theorem roundAt_of_multiple {k : ℤ} (n : ℤ) : roundAt k (n * 2 ^ k) = n * 2 ^ k := by
  have hpow : (2 : ℚ) ^ k ≠ 0 := zpow_ne_zero k (by norm_num)
  rw [roundAt, mul_div_cancel_right₀ _ hpow, nearestEven_intCast]

/-- Powers of two that are multiples stay below. -/
theorem two_zpow_le_roundAt {j k : ℤ} (hkj : k ≤ j) {q : ℚ} (h : (2 : ℚ) ^ j ≤ q) :
    (2 : ℚ) ^ j ≤ roundAt k q := by
  obtain ⟨n, rfl⟩ := Int.le.dest hkj
  have hpow : (0 : ℚ) < 2 ^ k := zpow_pos (by norm_num) k
  have hsplit : (2 : ℚ) ^ (k + (n : ℤ)) = ((2 ^ n : ℤ) : ℚ) * 2 ^ k := by
    rw [zpow_add₀ (by norm_num), zpow_natCast, mul_comm]
    push_cast
    rfl
  rw [hsplit] at h ⊢
  have hle : (2 ^ n : ℤ) ≤ nearestEven (q / 2 ^ k) := le_nearestEven ((le_div_iff₀ hpow).mpr h)
  exact mul_le_mul_of_nonneg_right (by exact_mod_cast hle) hpow.le

/-! ### To a format -/

variable {f : Format}

/-- CORRECT (exact): integers with no more digits than the format has are in it. -/
theorem Format.round_natCast (hdigits : 0 < f.digits) (hexp : f.minExp ≤ f.digits) {n : ℕ}
    (hn : n < 2 ^ f.digits) : f.round n = n := by
  have hlog : f.lastPlace n ≤ 0 := by
    have hlt : Nat.log 2 n < f.digits := Nat.log_lt_of_lt_pow' hdigits.ne' hn
    rw [lastPlace, Nat.abs_cast, Int.log_natCast]
    omega
  have hk : max (f.lastPlace n) (f.minExp - f.digits) ≤ 0 := max_le hlog (by omega)
  rw [round]
  generalize max (f.lastPlace n) (f.minExp - f.digits) = k at hk
  obtain ⟨m, hm⟩ := Int.le.dest hk
  have hmul : (n : ℚ) = ((n * 2 ^ m : ℤ) : ℚ) * 2 ^ k := by
    obtain rfl : k = -(m : ℤ) := by omega
    push_cast
    rw [zpow_neg, zpow_natCast, mul_assoc, mul_inv_cancel₀ (by positivity), mul_one]
  rw [hmul]
  exact roundAt_of_multiple _

/-- CORRECT (monotone at powers): rounding does not lead below a power of two of the format. -/
theorem Format.two_zpow_le_round (hdigits : 0 < f.digits) {j : ℤ} (hj : f.minExp - f.digits ≤ j) {q : ℚ}
    (h : (2 : ℚ) ^ j ≤ q) : (2 : ℚ) ^ j ≤ f.round q := by
  have hpos : 0 < q := (zpow_pos (by norm_num) j).trans_le h
  have hlog : j ≤ Int.log 2 q := (Int.zpow_le_iff_le_log (by norm_num) hpos).mp (by exact_mod_cast h)
  have hself : (2 : ℚ) ^ Int.log 2 q ≤ q := by
    have := Int.zpow_log_le_self (b := 2) (by norm_num) hpos
    exact_mod_cast this
  have hplace : max (f.lastPlace q) (f.minExp - f.digits) ≤ Int.log 2 q := by
    rw [lastPlace, abs_of_pos hpos]
    omega
  calc (2 : ℚ) ^ j ≤ 2 ^ Int.log 2 q := zpow_le_zpow_right₀ (by norm_num) hlog
    _ ≤ f.round q := two_zpow_le_roundAt hplace hself

end Rounding
