import Mathlib.Data.Rat.Floor
import Mathlib.Tactic.NormNum
import Fcopy.Schemes.Numerals
import Fcopy.Schemes.Rounding
import Fcopy.Server.LoadConfig
import Fcopy.Server.Paths

/-! Sizes in the configuration (`parse_size` in `server/load_config.cpp`).

    `std::stold` reads as much of the argument as is a number, rounds it to a `long double`, and says where
    it stopped. One letter there selects the power of two the number is multiplied with:

        1 0 K                       1 0
            ▲ pos, 2 ^ 10               ▲ pos, at the end: 2 ^ 1

    The power for no letter, and for `B`, is 2 ^ 1 and not 2 ^ 0; and nothing looks behind the letter. -/

namespace Fcopy
open Numerals Rounding

/-! ### `std::stold` -/

inductive LongDouble where
  | finite (q : ℚ)
  | infinite
  | nan
  deriving DecidableEq

def LongDouble.neg : LongDouble → LongDouble
  | .finite q => .finite (-q)
  | u => u

/-- `long double` on x86-64: `LDBL_MANT_DIG`, `LDBL_MIN_EXP` and `LDBL_MAX_EXP`. -/
def longDouble : Format := ⟨64, -16381, 16384⟩

/-- `none` is `std::out_of_range`, for results too large and for results too small to be exact. -/
def LongDouble.rounded : LongDouble → Option LongDouble
  | .finite q => if longDouble.OutOfRange q then none else some (.finite (longDouble.round q))
  | u => some u

/-- The digits of a numeral with a point somewhere: all of them, how many are behind the point, and what
    follows. There is at least one. -/
def mantissa (isDig : UInt8 → Bool) (t : Bytes) : Option (Bytes × ℕ × Bytes) :=
  let whole := t.takeWhile isDig
  let (frac, rest) :=
    match t.dropWhile isDig with
    | 46 :: t => (t.takeWhile isDig, t.dropWhile isDig)
    | t => ([], t)
  if whole ++ frac = [] then none else some (whole ++ frac, frac.length, rest)

/-- An exponent behind its letter. Without digits it is none, and the letter is not read. -/
def exponent (isMark : UInt8 → Bool) : Bytes → ℤ × Bytes
  | [] => (0, [])
  | c :: t =>
    let (minus, t') := sign t
    if isMark c ∧ digits t' ≠ [] then
      (if minus then -(value (digits t') : ℤ) else value (digits t'), rest t')
    else (0, c :: t)

def decimalFloat (t : Bytes) : Option (LongDouble × Bytes) :=
  (mantissa isDigit t).map fun (ds, places, t) =>
    let (e, t) := exponent (fun c => c = 101 ∨ c = 69) t
    (.finite ((value ds : ℚ) * 10 ^ (e - places)), t)

def hexDigit (c : UInt8) : Option ℕ :=
  if isDigit c then some (c.toNat - 48)
  else if 97 ≤ c ∧ c ≤ 102 then some (c.toNat - 87)
  else if 65 ≤ c ∧ c ≤ 70 then some (c.toNat - 55)
  else none

/-- What follows `0x`. -/
def hexFloat (t : Bytes) : Option (LongDouble × Bytes) :=
  (mantissa (fun c => (hexDigit c).isSome) t).map fun (ds, places, t) =>
    let (e, t) := exponent (fun c => c = 112 ∨ c = 80) t
    let m := ds.foldl (fun v d => 16 * v + (hexDigit d).getD 0) 0
    (.finite ((m : ℚ) * 2 ^ (e - 4 * places)), t)

def lower (c : UInt8) : UInt8 := if 65 ≤ c ∧ c ≤ 90 then c + 32 else c

/-- The text behind a word, whatever its case. -/
def dropWord : Bytes → Bytes → Option Bytes
  | [], t => some t
  | _, [] => none
  | w :: word, c :: t => if lower c = w then dropWord word t else none

/-- What may stand in parentheses behind `nan`. -/
def dropTag (t : Bytes) : Bytes :=
  match t with
  | 40 :: t' =>
    match t'.dropWhile fun c => (hexDigit c).isSome ∨ 65 ≤ c ∧ c ≤ 90 ∨ 97 ≤ c ∧ c ≤ 122 ∨ c = 95 with
    | 41 :: t'' => t''
    | _ => t
  | t => t

/-- A number without its sign, exactly, and what follows. -/
def unsigned (t : Bytes) : Option (LongDouble × Bytes) :=
  match dropWord (text "infinity") t, dropWord (text "inf") t, dropWord (text "nan") t with
  | some t, _, _ => some (.infinite, t)
  | _, some t, _ => some (.infinite, t)
  | _, _, some t => some (.nan, dropTag t)
  | _, _, _ =>
    match (dropWord (text "0x") t).bind hexFloat with
    | some r => some r
    | none => decimalFloat t

/-- The value and the position behind it; `none` is an exception. -/
def stold (s : Bytes) : Option (LongDouble × ℕ) :=
  let (minus, t) := sign ((cString s).dropWhile isSpace)
  (unsigned t).bind fun (u, rest) =>
    u.rounded.map fun u => (if minus then u.neg else u, (cString s).length - rest.length)

/-! ### `parse_size` -/

/-- The exponent that a letter selects. -/
def sizeExponent (c : UInt8) : Option ℕ :=
  if c = 66 then some 1
  else if c = 75 then some 10
  else if c = 77 then some 20
  else if c = 71 then some 30
  else if c = 84 then some 40
  else none

/-- `none` is a result of -1, a size is stored with a result of 0. -/
def parseSize (args : List Bytes) : Option ℕ :=
  match args with
  | [arg] =>
    match stold arg with
    | none => none
    | some (u, pos) =>
      let m := if pos ≠ arg.length then arg[pos]?.bind sizeExponent else some 1
      match m, u with
      | some m, .finite q =>
        let size := ⌈q * 2 ^ m⌉
        if size < 0 ∨ size > 2 ^ 50 then none else some size.toNat
      | _, _ => none
  | _ => none

/-- Too small for a `long double`, and too close to 1024 to be told apart from it. -/
example : parseSize [text "1e-5000"] = none ∧
    parseSize [text "1024.0000000000000000001T"] = some (2 ^ 50) := by
  decide +kernel

/-! ### A numeral and what follows -/

variable {ds t : Bytes} {m : ℕ}

/-- What may follow the digits: nothing, or a letter of the switch, which selects the power. -/
inductive Behind : Bytes → ℕ → Prop
  | nothing : Behind [] 1
  | letter (c : UInt8) (t : Bytes) (m : ℕ) (h : sizeExponent c = some m) : Behind (c :: t) m

theorem sizeExponent_letter {c : UInt8} (h : sizeExponent c = some m) :
    c = 66 ∨ c = 75 ∨ c = 77 ∨ c = 71 ∨ c = 84 := by
  simp only [sizeExponent] at h
  split at h
  · exact .inl ‹_›
  split at h
  · exact .inr (.inl ‹_›)
  split at h
  · exact .inr (.inr (.inl ‹_›))
  split at h
  · exact .inr (.inr (.inr (.inl ‹_›)))
  split at h
  · exact .inr (.inr (.inr (.inr ‹_›)))
  · cases h

/-- A letter is not part of a number. -/
theorem Behind.stops (h : Behind t m) : ∀ c ∈ t.head?, isDigit c = false ∧ c ≠ 46 ∧ c ≠ 101 ∧ c ≠ 69 ∧
    c ≠ 0 ∧ lower c ≠ 120 := by
  cases h with
  | nothing => simp
  | letter c t m h =>
    intro c' hc
    cases hc
    rcases sizeExponent_letter h with rfl | rfl | rfl | rfl | rfl <;> decide

/-- A digit is not the letter that a word begins with. -/
theorem dropWord_digit {d w : UInt8} (hd : isDigit d = true) (hw : isDigit w = false) (word t : Bytes) :
    dropWord (w :: word) (d :: t) = none := by
  have hlower : lower d = d := by
    have := digit_bounds hd
    rw [lower, if_neg]
    rintro ⟨h, _⟩
    rw [UInt8.le_iff_toNat_le] at h
    exact absurd (h.trans this.2) (by decide)
  rw [dropWord, hlower, if_neg]
  rintro rfl
  rw [hd] at hw
  cases hw

theorem dropWord_hex (hds : AllDigits ds) (hne : ds ≠ []) (ht : Behind t m) :
    dropWord (text "0x") (ds ++ t) = none := by
  have hx : ∀ u : Bytes, (∀ c ∈ u.head?, lower c ≠ 120) → dropWord [120] u = none := by
    intro u hu
    cases u with
    | nil => rfl
    | cons c u => exact if_neg (hu c rfl)
  have hhead : ∀ c ∈ (ds.tail ++ t).head?, lower c ≠ 120 := by
    intro c hc
    cases htail : ds.tail with
    | nil =>
      rw [htail] at hc
      exact (ht.stops c hc).2.2.2.2.2
    | cons d tail =>
      rw [htail] at hc
      cases hc
      have hd := digit_bounds (hds c (List.mem_of_mem_tail (htail ▸ List.mem_cons_self)))
      rw [lower]
      split
      · rename_i h
        rw [UInt8.le_iff_toNat_le] at h
        exact absurd (h.1.trans hd.2) (by decide)
      · rintro rfl
        exact absurd hd.2 (by decide)
  obtain ⟨d, tail, rfl⟩ := List.exists_cons_of_ne_nil hne
  simp only [show text "0x" = [48, 120] from rfl, List.cons_append, dropWord]
  split
  · exact hx _ hhead
  · rfl

theorem mantissa_numeral (hds : AllDigits ds) (hne : ds ≠ []) (ht : Behind t m) :
    mantissa isDigit (ds ++ t) = some (ds, 0, t) := by
  obtain ⟨hwhole, hrest⟩ := digits_append hds fun c hc => (ht.stops c hc).1
  rw [digits] at hwhole
  rw [rest] at hrest
  simp only [mantissa, hwhole, hrest]
  cases ht with
  | nothing => simp [hne]
  | letter c t m h =>
    have hpoint : c ≠ 46 := ((Behind.letter c t m h).stops c rfl).2.1
    split
    · rename_i heq
      cases heq
      exact absurd rfl hpoint
    · simp [hne]

theorem exponent_letter (ht : Behind t m) : exponent (fun c => c = 101 ∨ c = 69) t = (0, t) := by
  cases ht with
  | nothing => rfl
  | letter c t m h =>
    have hstops := (Behind.letter c t m h).stops c rfl
    simp [exponent, hstops.2.2.1, hstops.2.2.2.1]

theorem unsigned_numeral (hds : AllDigits ds) (hne : ds ≠ []) (ht : Behind t m) :
    unsigned (ds ++ t) = some (.finite (value ds), t) := by
  have hhex := dropWord_hex hds hne ht
  have hmantissa := mantissa_numeral hds hne ht
  obtain ⟨d, tail, rfl⟩ := List.exists_cons_of_ne_nil hne
  have hd := hds d List.mem_cons_self
  have hword : ∀ w word, isDigit w = false → dropWord (w :: word) (d :: tail ++ t) = none :=
    fun w word hw => dropWord_digit hd hw word _
  simp only [unsigned, show text "infinity" = 105 :: text "nfinity" from rfl,
    show text "inf" = 105 :: text "nf" from rfl, show text "nan" = 110 :: text "an" from rfl,
    hword 105 _ (by decide), hword 110 _ (by decide), hhex, Option.bind_none, decimalFloat, hmantissa,
    Option.map_some, exponent_letter ht]
  norm_num

theorem Behind.cString (ht : Behind t m) : Behind (cString t) m := by
  cases ht with
  | nothing => exact .nothing
  | letter c t m h =>
    have hc : c ≠ 0 := ((Behind.letter c t m h).stops c rfl).2.2.2.2.1
    rw [Fcopy.cString, List.takeWhile_cons_of_pos (by simpa using hc)]
    exact .letter c _ m h

theorem cString_numeral (hds : AllDigits ds) (t : Bytes) : cString (ds ++ t) = ds ++ cString t := by
  refine List.takeWhile_append_of_pos fun d hd => ?_
  have := digit_bounds (hds d hd)
  rw [decide_eq_true_eq]
  rintro rfl
  exact absurd this.1 (by decide)

theorem isSpace_digit {d : UInt8} (hd : isDigit d = true) : isSpace d = false := by
  have hbounds := digit_bounds hd
  rw [isSpace, decide_eq_false_iff_not]
  rintro (rfl | ⟨_, hle⟩)
  · exact absurd hbounds.1 (by decide)
  · rw [UInt8.le_iff_toNat_le] at hle
    exact absurd (hbounds.1.trans hle) (by decide)

theorem dropWhile_numeral (hds : AllDigits ds) (hne : ds ≠ []) (t : Bytes) :
    (ds ++ t).dropWhile isSpace = ds ++ t := by
  obtain ⟨d, tail, rfl⟩ := List.exists_cons_of_ne_nil hne
  refine List.dropWhile_cons_of_neg ?_
  rw [isSpace_digit (hds d List.mem_cons_self)]
  exact Bool.false_ne_true

/-- The number ends where the digits end. -/
theorem stold_numeral (hds : AllDigits ds) (hne : ds ≠ []) (ht : Behind t m) :
    stold (ds ++ t) = (LongDouble.finite (value ds)).rounded.map fun u => (u, ds.length) := by
  simp only [stold, cString_numeral hds, dropWhile_numeral hds hne, sign_digits hds hne,
    unsigned_numeral hds hne ht.cString, Option.bind_some, List.length_append, Nat.add_sub_cancel,
    Bool.false_eq_true, if_false]

/-- Integers of 64 digits are exact. -/
theorem rounded_natCast {v : ℕ} (hv : v < 2 ^ 64) :
    (LongDouble.finite v).rounded = some (.finite v) := by
  have hround : longDouble.round v = v := Format.round_natCast (by decide) (by decide) hv
  have hover : ¬longDouble.Overflows v := by
    have hmax : (2 : ℚ) ^ (64 : ℕ) ≤ 2 ^ longDouble.maxExp :=
      (zpow_natCast (2 : ℚ) 64).symm.le.trans (zpow_le_zpow_right₀ (by norm_num) (by decide))
    rw [Format.Overflows, hround, Nat.abs_cast, not_le]
    exact lt_of_lt_of_le (by exact_mod_cast hv) hmax
  have hrange : ¬longDouble.OutOfRange v := not_or.mpr ⟨hover, fun h => h.2 hround⟩
  simp only [LongDouble.rounded]
  rw [if_neg hrange, hround]

/-- Larger ones stay so, or they are out of range. -/
theorem rounded_large {v : ℕ} (hv : 2 ^ 64 ≤ v) : (LongDouble.finite v).rounded = none ∨
    ∃ q, (LongDouble.finite v).rounded = some (.finite q) ∧ 2 ^ 64 ≤ q := by
  simp only [LongDouble.rounded]
  split
  · exact .inl rfl
  · refine .inr ⟨_, rfl, ?_⟩
    have hle : (2 : ℚ) ^ (64 : ℤ) ≤ v := by exact_mod_cast hv
    exact (zpow_natCast (2 : ℚ) 64).symm.le.trans
      (Format.two_zpow_le_round (by decide) (by decide) hle)

theorem ceil_scaled (n m : ℕ) : ⌈(n : ℚ) * 2 ^ m⌉ = ((n * 2 ^ m : ℕ) : ℤ) := by
  rw [← Int.ceil_natCast (R := ℚ)]
  push_cast
  rfl

/-- CORRECT (numeral): the size of a numeral, with the power that what follows it selects. -/
theorem parseSize_numeral (hds : AllDigits ds) (hne : ds ≠ []) (ht : Behind t m) :
    parseSize [ds ++ t] =
      if value ds * 2 ^ m ≤ 2 ^ 50 then some (value ds * 2 ^ m) else none := by
  have hm : (if ds.length ≠ (ds ++ t).length then (ds ++ t)[ds.length]?.bind sizeExponent else some 1) =
      some m := by
    cases ht with
    | nothing => simp
    | letter c t m h => simp [h]
  simp only [parseSize, stold_numeral hds hne ht]
  rcases Nat.lt_or_ge (value ds) (2 ^ 64) with hsmall | hlarge
  · simp only [rounded_natCast hsmall, Option.map_some, hm, ceil_scaled]
    have hcast : ((value ds * 2 ^ m : ℕ) : ℤ) > 2 ^ 50 ↔ ¬value ds * 2 ^ m ≤ 2 ^ 50 := by
      rw [Nat.not_le]
      exact_mod_cast Iff.rfl
    by_cases hle : value ds * 2 ^ m ≤ 2 ^ 50
    · rw [if_neg, if_pos hle, Int.toNat_natCast]
      rintro (hneg | hbig)
      · exact absurd hneg (Int.not_lt.mpr (Int.natCast_nonneg _))
      · exact hcast.mp hbig hle
    · rw [if_pos (.inr (hcast.mpr hle)), if_neg hle]
  · -- however it is rounded, it is too large
    have hscaled := Nat.le_mul_of_pos_right (value ds) (Nat.two_pow_pos m)
    have hpow : 2 ^ 50 < 2 ^ 64 := by decide
    rw [if_neg (Nat.not_le.mpr (hpow.trans_le (hlarge.trans hscaled)))]
    rcases rounded_large hlarge with hnone | ⟨q, hq, hle⟩
    · rw [hnone, Option.map_none]
    · simp only [hq, Option.map_some, hm]
      refine if_pos (.inr (Int.lt_ceil.mpr ?_))
      have hone : (1 : ℚ) ≤ 2 ^ m := one_le_pow₀ (by norm_num)
      push_cast
      nlinarith

/-! ### What an argument should mean -/

/-- What may follow the number. -/
inductive SizeUnit where
  | none
  | B
  | K
  | M
  | G
  | T
  deriving DecidableEq

def SizeUnit.text : SizeUnit → Bytes
  | .none => []
  | .B => [66]
  | .K => [75]
  | .M => [77]
  | .G => [71]
  | .T => [84]

def SizeUnit.factor : SizeUnit → ℕ
  | .none | .B => 1
  | .K => 2 ^ 10
  | .M => 2 ^ 20
  | .G => 2 ^ 30
  | .T => 2 ^ 40

/-- The argument `ds` with a unit, and something behind it, means what it says. -/
def SizeMeant (ds : Bytes) (unit : SizeUnit) (behind : Bytes) : Prop :=
  if behind = [] then
    parseSize [ds ++ unit.text] =
      if value ds * unit.factor ≤ 2 ^ 50 then some (value ds * unit.factor) else .none
  else parseSize [ds ++ unit.text ++ behind] = .none

/-- The power that a unit selects. -/
def SizeUnit.power : SizeUnit → ℕ
  | .none | .B => 1
  | .K => 10
  | .M => 20
  | .G => 30
  | .T => 40

theorem SizeUnit.behind {unit : SizeUnit} {behind : Bytes} (h : unit = .none → behind = []) :
    Behind (unit.text ++ behind) unit.power := by
  cases unit with
  | none =>
    rw [h rfl]
    exact .nothing
  | B => exact .letter _ _ _ rfl
  | K => exact .letter _ _ _ rfl
  | M => exact .letter _ _ _ rfl
  | G => exact .letter _ _ _ rfl
  | T => exact .letter _ _ _ rfl

/-- Where twice the number is the number, or both are too large. -/
theorem doubled_iff (v : ℕ) :
    (if v * 2 ≤ 2 ^ 50 then some (v * 2) else none) = (if v ≤ 2 ^ 50 then some v else none) ↔
      v = 0 ∨ 2 ^ 50 < v := by
  split <;> split <;> simp <;> omega

theorem refused_iff (v : ℕ) : (if v ≤ 2 ^ 50 then some v else none) = none ↔ 2 ^ 50 < v := by
  split <;> simp <;> omega

/-- CORRECT (exact condition): an argument with nothing behind its unit is read as it says exactly for
    the units from `K` on, for 0, and for numbers above 2 ^ 50; one with something behind it is refused
    exactly if its number, twice that for `B`, is too large anyway. -/
theorem size_meant_iff (ds : Bytes) (hds : AllDigits ds) (hne : ds ≠ []) (unit : SizeUnit)
    (behind : Bytes) (hb : unit = .none → behind = []) :
    SizeMeant ds unit behind ↔
      behind = [] ∧ (unit ≠ .none ∧ unit ≠ .B ∨ value ds = 0 ∨ 2 ^ 50 < value ds) ∨
      behind ≠ [] ∧ 2 ^ 50 < value ds * (if unit = .B then 2 else unit.factor) := by
  have hparse := parseSize_numeral hds hne (SizeUnit.behind hb)
  rw [← List.append_assoc] at hparse
  rcases eq_or_ne behind [] with rfl | hbehind
  · rw [List.append_nil] at hparse
    rw [SizeMeant, if_pos rfl, hparse]
    cases unit with
    | none => simpa [SizeUnit.power, SizeUnit.factor] using doubled_iff (value ds)
    | B => simpa [SizeUnit.power, SizeUnit.factor] using doubled_iff (value ds)
    | K => exact iff_of_true rfl (.inl ⟨rfl, .inl (by decide)⟩)
    | M => exact iff_of_true rfl (.inl ⟨rfl, .inl (by decide)⟩)
    | G => exact iff_of_true rfl (.inl ⟨rfl, .inl (by decide)⟩)
    | T => exact iff_of_true rfl (.inl ⟨rfl, .inl (by decide)⟩)
  · have hunit : unit ≠ .none := fun h => hbehind (hb h)
    have hscale : value ds * 2 ^ unit.power = value ds * (if unit = .B then 2 else unit.factor) := by
      cases unit <;> first | rfl | exact absurd rfl hunit
    rw [SizeMeant, if_neg hbehind, hparse, hscale, refused_iff]
    exact ⟨fun h => .inr ⟨hbehind, h⟩, fun h => (h.resolve_left fun h => hbehind h.1).2⟩

/-- 128 MiB. -/
theorem size_meant_iff_megabytes : SizeMeant (text "128") .M [] :=
  (size_meant_iff _ (by decide +kernel) (by decide +kernel) .M [] fun _ => rfl).mpr
    (.inl ⟨rfl, .inl (by decide)⟩)

/-- `10` is read as 20, and `10Kx` as 10240. -/
theorem size_doubled :
    parseSize [text "10"] = some 20 ∧ ¬SizeMeant (text "10") .none [] ∧
      parseSize [text "10Kx"] = some 10240 ∧ ¬SizeMeant (text "10") .K (text "x") := by
  have hdigits : AllDigits (text "10") := by decide +kernel
  have hten : parseSize [text "10"] = some 20 :=
    (parseSize_numeral hdigits (by decide +kernel) .nothing).trans (by decide +kernel)
  have hmore : parseSize [text "10Kx"] = some 10240 :=
    (parseSize_numeral hdigits (by decide +kernel) (.letter 75 (text "x") 10 rfl)).trans
      (by decide +kernel)
  refine ⟨hten, fun h => ?_, hmore, fun h => ?_⟩
  · have hplain : parseSize [text "10"] = some 10 := h.trans (by decide +kernel)
    rw [hten] at hplain
    cases hplain
  · have hrefused : parseSize [text "10Kx"] = none := h
    rw [hmore] at hrefused
    cases hrefused

end Fcopy
