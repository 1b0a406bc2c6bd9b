import Mathlib.Data.Nat.Notation
import Mathlib.Data.Nat.Bitwise
import Mathlib.Data.List.Induction
import Mathlib.Tactic.Ring

/-! Fixed-width integers as byte strings.

    `be w n` and `le w n` are the low `w` bytes of `n`, most and least significant first; `ofBe` reads
    a byte string back, most significant first. A machine word of `w` bytes is a `BitVec (8 * w)`, laid
    out in memory by `store` and read back by `load` in the byte order of the host. `byteSwap` is the
    usual shift-and-mask loop; on a little-endian host it turns the memory layout of a word into its
    big-endian representation (`store_byteSwap`), so words swapped before they are stored read the
    same on every host. -/

namespace Endian

/-- Low `w` bytes of `n`, most significant first. -/
def be : ℕ → ℕ → List UInt8
  | 0, _ => []
  | w + 1, n => be w (n / 256) ++ [UInt8.ofNat n]

/-- Low `w` bytes of `n`, least significant first. -/
def le : ℕ → ℕ → List UInt8
  | 0, _ => []
  | w + 1, n => UInt8.ofNat n :: le w (n / 256)

/-- The number a byte string denotes, most significant byte first. -/
def ofBe (l : List UInt8) : ℕ := l.foldl (fun a b => a * 256 + b.toNat) 0

theorem length_be : ∀ w n, (be w n).length = w
  | 0, _ => rfl
  | w + 1, n => by rw [be, List.length_append, length_be w]; rfl

theorem length_le : ∀ w n, (le w n).length = w
  | 0, _ => rfl
  | w + 1, n => by rw [le, List.length_cons, length_le w]

theorem ofBe_concat (l : List UInt8) (b : UInt8) : ofBe (l ++ [b]) = ofBe l * 256 + b.toNat := by
  simp [ofBe]

theorem ofBe_cons (b : UInt8) (l : List UInt8) :
    ofBe (b :: l) = b.toNat * 256 ^ l.length + ofBe l := by
  induction l using List.reverseRecOn with
  | nil => simp [ofBe]
  | append_singleton l c ih =>
    rw [← List.cons_append, ofBe_concat, ih, ofBe_concat, List.length_append, List.length_singleton,
      pow_succ]
    ring

theorem le_reverse : ∀ w n, (le w n).reverse = be w n
  | 0, _ => rfl
  | w + 1, n => by rw [le, List.reverse_cons, le_reverse w, be]

theorem be_reverse (w n : ℕ) : (be w n).reverse = le w n := by
  rw [← le_reverse, List.reverse_reverse]

/-- Splitting off the low byte of a number taken modulo `256 ^ (w + 1)`. -/
theorem mod_pow_succ (n w : ℕ) : n % 256 ^ (w + 1) = n / 256 % 256 ^ w * 256 + n % 256 := by
  rw [pow_succ', Nat.mod_mul]
  ring

theorem ofBe_be : ∀ w n, ofBe (be w n) = n % 256 ^ w
  | 0, n => by simp [be, ofBe, Nat.mod_one]
  | w + 1, n => by rw [be, ofBe_concat, ofBe_be w, UInt8.toNat_ofNat', mod_pow_succ]

theorem ofBe_lt (l : List UInt8) : ofBe l < 256 ^ l.length := by
  induction l using List.reverseRecOn with
  | nil => simp [ofBe]
  | append_singleton l b ih =>
    have hb := b.toNat_lt
    rw [ofBe_concat, List.length_append, List.length_singleton, pow_succ]
    omega

/-- Reading a byte string and writing it back at its own width changes nothing. -/
theorem be_ofBe (l : List UInt8) : be l.length (ofBe l) = l := by
  induction l using List.reverseRecOn with
  | nil => rfl
  | append_singleton l b ih =>
    have hb := b.toNat_lt
    have hdiv : (ofBe l * 256 + b.toNat) / 256 = ofBe l := by omega
    have hbyte : UInt8.ofNat (ofBe l * 256 + b.toNat) = b := by
      apply UInt8.toNat_inj.mp
      rw [UInt8.toNat_ofNat']
      omega
    rw [List.length_append, List.length_singleton, be, ofBe_concat, hdiv, hbyte, ih]

theorem be_mod (w n : ℕ) : be w (n % 256 ^ w) = be w n := by
  have h := be_ofBe (be w n)
  rwa [length_be, ofBe_be] at h

/-! ### Words and hosts -/

/-- Byte order of a host. -/
inductive Host where | little | big
  deriving DecidableEq

/-- Memory image of a word. -/
def store {w : ℕ} : Host → BitVec (8 * w) → List UInt8
  | .little, x => le w x.toNat
  | .big, x => be w x.toNat

/-- Word whose memory image is `l`. -/
def load (w : ℕ) : Host → List UInt8 → BitVec (8 * w)
  | .little, l => BitVec.ofNat _ (ofBe l.reverse)
  | .big, l => BitVec.ofNat _ (ofBe l)

/-- `i` rounds of the swap: move the low byte of `x` to the bottom of `ret`. -/
def swapLoop {n : ℕ} : ℕ → BitVec n → BitVec n → BitVec n
  | 0, ret, _ => ret
  | i + 1, ret, x => swapLoop i (ret <<< 8 ||| (x &&& 0xFF)) (x >>> 8)

/-- Swap the bytes of a word on a little-endian host, leave it alone on a big-endian one. -/
def byteSwap {w : ℕ} : Host → BitVec (8 * w) → BitVec (8 * w)
  | .little, x => swapLoop w 0 x
  | .big, x => x

theorem pow_256 (w : ℕ) : 2 ^ (8 * w) = 256 ^ w := by rw [pow_mul]; rfl

theorem toNat_lt {w : ℕ} (x : BitVec (8 * w)) : x.toNat < 256 ^ w := pow_256 w ▸ x.isLt

/-- One round of the swap, on numbers. -/
theorem toNat_swap_round {w : ℕ} (r x : BitVec (8 * (w + 1))) :
    (r <<< 8 ||| (x &&& 0xFF)).toNat = (r.toNat * 256 + x.toNat % 256) % 256 ^ (w + 1) := by
  have hff : (0xFF : BitVec (8 * (w + 1))).toNat = 2 ^ 8 - 1 := by
    show 255 % 2 ^ (8 * (w + 1)) = 255
    rw [pow_256]
    exact Nat.mod_eq_of_lt (lt_of_lt_of_le (by decide) (Nat.pow_le_pow_right (by decide) w.succ_pos))
  have hsh : r.toNat <<< 8 % 2 ^ (8 * (w + 1)) = (r.toNat % 256 ^ w) <<< 8 := by
    rw [Nat.shiftLeft_eq, Nat.shiftLeft_eq, pow_256, pow_succ]
    exact Nat.mul_mod_mul_right ..
  have hdiv : (r.toNat * 256 + x.toNat % 256) / 256 = r.toNat := by omega
  rw [BitVec.toNat_or, BitVec.toNat_and, BitVec.toNat_shiftLeft, hff, Nat.and_two_pow_sub_one_eq_mod,
    hsh, ← Nat.shiftLeft_add_eq_or_of_lt (Nat.mod_lt _ (by decide)), Nat.shiftLeft_eq, mod_pow_succ,
    hdiv]
  omega

/-- `i` rounds append the `i` low bytes of `x`, the lowest first, below `ret`. -/
theorem toNat_swapLoop {w : ℕ} : ∀ (i : ℕ) (r x : BitVec (8 * (w + 1))),
    (swapLoop i r x).toNat = (r.toNat * 256 ^ i + ofBe (le i x.toNat)) % 256 ^ (w + 1)
  | 0, r, x => by simp [swapLoop, le, ofBe, Nat.mod_eq_of_lt (toNat_lt r)]
  | i + 1, r, x => by
    have hshift : (x >>> 8).toNat = x.toNat / 256 := by
      rw [BitVec.toNat_ushiftRight, Nat.shiftRight_eq_div_pow]
    rw [swapLoop, toNat_swapLoop i, toNat_swap_round, hshift, le, ofBe_cons, length_le,
      UInt8.toNat_ofNat', Nat.add_mod, Nat.mod_mul_mod, ← Nat.add_mod, pow_succ' 256 i]
    congr 1
    ring

theorem toNat_byteSwap_little {w : ℕ} (x : BitVec (8 * w)) :
    (byteSwap .little x).toNat = ofBe (le w x.toNat) := by
  cases w with
  | zero => rw [le]; exact Nat.lt_one_iff.mp (toNat_lt _)
  | succ w =>
    have hlt := ofBe_lt (le (w + 1) x.toNat)
    rw [length_le] at hlt
    rw [byteSwap, toNat_swapLoop]
    simpa using Nat.mod_eq_of_lt hlt

/-- A word swapped and then stored is its big-endian representation, whatever the host. -/
theorem store_byteSwap {w : ℕ} (h : Host) (x : BitVec (8 * w)) :
    store h (byteSwap h x) = be w x.toNat := by
  cases h with
  | big => rfl
  | little =>
    have hb := be_ofBe (le w x.toNat)
    rw [length_le] at hb
    rw [store, toNat_byteSwap_little, ← be_reverse, hb, ← be_reverse, List.reverse_reverse]

/-- A word loaded and then swapped is the big-endian value of the bytes, whatever the host. -/
theorem byteSwap_load (h : Host) (l : List UInt8) :
    byteSwap h (load l.length h l) = BitVec.ofNat (8 * l.length) (ofBe l) := by
  cases h with
  | big => rfl
  | little =>
    have hlt := ofBe_lt l.reverse
    have hb := be_ofBe l.reverse
    rw [List.length_reverse] at hlt hb
    apply BitVec.eq_of_toNat_eq
    rw [toNat_byteSwap_little, load, BitVec.toNat_ofNat, BitVec.toNat_ofNat, pow_256,
      Nat.mod_eq_of_lt hlt, Nat.mod_eq_of_lt (ofBe_lt l), ← be_reverse, hb, List.reverse_reverse]

end Endian
