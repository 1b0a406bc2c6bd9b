import Mathlib.Data.List.Basic

/-! Contents of a file.

    A file is a list of values; reading behind its end gives `none`. `writeAt` overwrites at a position
    and fills a gap before it with the blank value, `resize` cuts or extends with blanks. Both are
    described by what they leave at each position, so contents are compared position by position. -/

namespace Content

variable {α : Type*} (z : α)

/-- Write `d` at `off`. Writing nothing changes nothing. -/
def writeAt (b : List α) (off : ℕ) (d : List α) : List α :=
  if d = [] then b
  else b.take off ++ List.replicate (off - b.length) z ++ d ++ b.drop (off + d.length)

/-- Cut or extend to length `n`. -/
def resize (b : List α) (n : ℕ) : List α := b.take n ++ List.replicate (n - b.length) z

variable {z}

@[simp] theorem writeAt_nil (b : List α) (off : ℕ) : writeAt z b off [] = b := if_pos rfl

theorem length_writeAt (b : List α) (off : ℕ) {d : List α} (hd : d ≠ []) :
    (writeAt z b off d).length = max b.length (off + d.length) := by
  rw [writeAt, if_neg hd]
  simp only [List.length_append, List.length_take, List.length_replicate, List.length_drop]
  omega

/-- What is at a position after a write: the data inside its range, what was there before outside. -/
theorem getElem?_writeAt (b : List α) (off : ℕ) {d : List α} (hd : d ≠ []) (i : ℕ) :
    (writeAt z b off d)[i]? =
      if off ≤ i ∧ i < off + d.length then d[i - off]?
      else if i < b.length then b[i]?
      else if i < off then some z else none := by
  rw [writeAt, if_neg hd]
  have hpre : (b.take off ++ List.replicate (off - b.length) z).length = off := by
    simp only [List.length_append, List.length_take, List.length_replicate]
    omega
  rcases Nat.lt_or_ge i off with hi | hi
  · -- before the data
    rw [if_neg (by omega), List.append_assoc, List.getElem?_append_left (by omega)]
    by_cases hb : i < b.length
    · rw [if_pos hb, List.getElem?_append_left (by rw [List.length_take]; omega),
        List.getElem?_take_of_lt hi]
    · rw [if_neg hb, if_pos hi, List.getElem?_append_right (by rw [List.length_take]; omega),
        List.getElem?_replicate, if_pos (by rw [List.length_take]; omega)]
  · rw [List.append_assoc, List.getElem?_append_right (by omega), hpre]
    by_cases hin : i < off + d.length
    · rw [if_pos ⟨hi, hin⟩, List.getElem?_append_left (by omega)]
    · -- behind the data
      rw [if_neg (by omega), List.getElem?_append_right (by omega), List.getElem?_drop,
        show off + d.length + (i - off - d.length) = i by omega]
      by_cases hb : i < b.length
      · rw [if_pos hb]
      · rw [if_neg hb, if_neg (by omega), List.getElem?_eq_none (by omega)]

/-- What is at a position of the data after only its first `n` values were written, with some more
    behind it. -/
theorem getElem?_writeAt_take (b : List α) (off : ℕ) (d pad : List α) (n : ℕ) {k : ℕ}
    (hk : k < d.length) :
    (writeAt z b off ((d ++ pad).take n))[off + k]? = if k < n then d[k]? else b[off + k]? := by
  rcases Nat.eq_zero_or_pos n with rfl | hn
  · rw [List.take_zero, writeAt_nil, if_neg (Nat.not_lt_zero k)]
  have hlen : ((d ++ pad).take n).length = min n (d.length + pad.length) := by
    rw [List.length_take, List.length_append]
  have hne : (d ++ pad).take n ≠ [] := List.ne_nil_of_length_pos (by omega)
  rw [getElem?_writeAt b off hne, hlen, Nat.add_sub_cancel_left]
  by_cases hkn : k < n
  · rw [if_pos (by omega), if_pos hkn, List.getElem?_take_of_lt hkn, List.getElem?_append_left hk]
  · rw [if_neg (by omega), if_neg hkn, if_neg (by omega : ¬off + k < off)]
    split
    · rfl
    · rw [List.getElem?_eq_none (by omega)]

/-- A value outside the range of a write stays. -/
theorem getElem?_writeAt_outside {b : List α} {off : ℕ} {d : List α} {i : ℕ} {v : α}
    (hi : ¬(off ≤ i ∧ i < off + d.length)) (hv : b[i]? = some v) : (writeAt z b off d)[i]? = some v := by
  rcases eq_or_ne d [] with rfl | hd
  · rw [writeAt_nil, hv]
  · rw [getElem?_writeAt b off hd, if_neg hi, if_pos (List.getElem?_eq_some_iff.mp hv).1, hv]

/-- Behind data that is followed by blanks, the first `n` values leave blanks. -/
theorem getElem?_writeAt_blank (b : List α) (off : ℕ) {d : List α} {m n i : ℕ} (hn : n ≤ d.length + m)
    (hlow : off + d.length ≤ i) (hhigh : i < off + n) :
    (writeAt z b off ((d ++ List.replicate m z).take n))[i]? = some z := by
  have hlen : ((d ++ List.replicate m z).take n).length = n := by
    rw [List.length_take, List.length_append, List.length_replicate]
    omega
  have hne : (d ++ List.replicate m z).take n ≠ [] := List.ne_nil_of_length_pos (by omega)
  rw [getElem?_writeAt b off hne, hlen, if_pos (by omega), List.getElem?_take_of_lt (by omega),
    List.getElem?_append_right (by omega), List.getElem?_replicate, if_pos (by omega)]

/-- Writing the same data again changes nothing. -/
theorem writeAt_writeAt (b : List α) (off : ℕ) (d : List α) :
    writeAt z (writeAt z b off d) off d = writeAt z b off d := by
  by_cases hd : d = []
  · rw [hd, writeAt_nil, writeAt_nil]
  apply List.ext_getElem?
  intro i
  have hlen := length_writeAt (z := z) b off hd
  rw [getElem?_writeAt _ off hd]
  by_cases hin : off ≤ i ∧ i < off + d.length
  · rw [if_pos hin, getElem?_writeAt b off hd, if_pos hin]
  rw [if_neg hin]
  by_cases hi : i < (writeAt z b off d).length
  · rw [if_pos hi]
  · rw [if_neg hi, if_neg (by omega), List.getElem?_eq_none (by omega)]

theorem length_resize (b : List α) (n : ℕ) : (resize z b n).length = n := by
  simp only [resize, List.length_append, List.length_take, List.length_replicate]
  omega

theorem getElem?_resize (b : List α) (n i : ℕ) :
    (resize z b n)[i]? = if n ≤ i then none else if i < b.length then b[i]? else some z := by
  by_cases hn : n ≤ i
  · rw [if_pos hn, List.getElem?_eq_none (by rw [length_resize]; exact hn)]
  rw [if_neg hn, resize]
  by_cases hb : i < b.length
  · rw [if_pos hb, List.getElem?_append_left (by rw [List.length_take]; omega),
      List.getElem?_take_of_lt (by omega)]
  · rw [if_neg hb, List.getElem?_append_right (by rw [List.length_take]; omega),
      List.getElem?_replicate, if_pos (by rw [List.length_take]; omega)]

theorem resize_zero (b : List α) : resize z b 0 = [] := by
  simp [resize]

end Content
