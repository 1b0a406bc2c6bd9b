import Mathlib.Data.List.TakeWhile
import Mathlib.Data.Nat.Notation

/-! Decimal numerals in texts of bytes.

    The digits at the start of a text, or behind a sign, are its numeral; what follows is left to the caller:

        1 2 3 0 M x
        └─────┘          value 1230, and "Mx" remains

    Leading zeros count for nothing. The digits of a number have that number for their value
    (`value_toDigits`). -/

namespace Numerals

def isDigit (b : UInt8) : Bool := 48 ≤ b ∧ b ≤ 57

def AllDigits (ds : List UInt8) : Prop := ∀ d ∈ ds, isDigit d = true

instance (ds : List UInt8) : Decidable (AllDigits ds) :=
  List.decidableBAll (fun d => isDigit d = true) ds

def value (ds : List UInt8) : ℕ := ds.foldl (fun v d => 10 * v + (d.toNat - 48)) 0

/-- An optional sign: whether it is a minus, and what follows. -/
def sign : List UInt8 → Bool × List UInt8
  | 43 :: t => (false, t)
  | 45 :: t => (true, t)
  | t => (false, t)

/-- The digits at the start, and the rest. -/
def digits (t : List UInt8) : List UInt8 := t.takeWhile isDigit

def rest (t : List UInt8) : List UInt8 := t.dropWhile isDigit

variable {ds t : List UInt8}

theorem digits_append (hds : AllDigits ds) (ht : ∀ b ∈ t.head?, isDigit b = false) :
    digits (ds ++ t) = ds ∧ rest (ds ++ t) = t := by
  rw [digits, rest, List.takeWhile_append_of_pos hds, List.dropWhile_append_of_pos hds]
  cases t with
  | nil => exact ⟨List.append_nil ds, rfl⟩
  | cons b t =>
    have hb : isDigit b = false := ht b rfl
    rw [List.takeWhile_cons, List.dropWhile_cons, hb]
    exact ⟨List.append_nil ds, rfl⟩

theorem digit_bounds {d : UInt8} (hd : isDigit d = true) : 48 ≤ d.toNat ∧ d.toNat ≤ 57 := by
  simp only [isDigit, decide_eq_true_eq, UInt8.le_iff_toNat_le] at hd
  exact hd

/-- A digit is no sign. -/
theorem sign_digits (hds : AllDigits ds) (hne : ds ≠ []) (t : List UInt8) :
    sign (ds ++ t) = (false, ds ++ t) := by
  obtain ⟨d, tail, rfl⟩ := List.exists_cons_of_ne_nil hne
  have hd := digit_bounds (hds d List.mem_cons_self)
  rw [List.cons_append]
  unfold sign
  split
  · rename_i heq
    cases heq
    exact absurd hd.1 (by decide)
  · rename_i heq
    cases heq
    exact absurd hd.1 (by decide)
  · rfl

/-- A decimal digit as a byte. -/
theorem toNat_digit {c : Char} (hc : c.isDigit = true) :
    48 ≤ c.toNat ∧ c.toNat ≤ 57 ∧ (UInt8.ofNat c.toNat).toNat = c.toNat := by
  simp only [Char.isDigit, Bool.and_eq_true, decide_eq_true_eq] at hc
  have hlow : 48 ≤ c.toNat := hc.1
  have hhigh : c.toNat ≤ 57 := hc.2
  refine ⟨hlow, hhigh, ?_⟩
  rw [UInt8.toNat_ofNat']
  omega

theorem allDigits_toDigits (n : ℕ) :
    AllDigits ((Nat.toDigits 10 n).map fun c => UInt8.ofNat c.toNat) := by
  intro d hd
  obtain ⟨c, hc, rfl⟩ := List.mem_map.mp hd
  have hbyte := toNat_digit (Nat.isDigit_of_mem_toDigits (by decide) (by decide) hc)
  simp only [isDigit, UInt8.le_iff_toNat_le, hbyte.2.2, decide_eq_true_eq]
  exact ⟨hbyte.1, hbyte.2.1⟩

theorem value_toDigits (n : ℕ) :
    value ((Nat.toDigits 10 n).map fun c => UInt8.ofNat c.toNat) = n := by
  have hstep : ∀ (cs : List Char) (v : ℕ), (∀ c ∈ cs, c.isDigit = true) →
      (cs.map fun c => UInt8.ofNat c.toNat).foldl (fun v d => 10 * v + (d.toNat - 48)) v =
        Nat.ofDigitChars 10 cs v := by
    intro cs
    induction cs with
    | nil => exact fun v _ => (Nat.ofDigitChars_nil).symm
    | cons c cs ih =>
      intro v hcs
      have hbyte := (toNat_digit (hcs c List.mem_cons_self)).2.2
      rw [List.map_cons, List.foldl_cons, Nat.ofDigitChars_cons, hbyte,
        ih _ fun d hd => hcs d (List.mem_cons_of_mem _ hd)]
      rfl
  rw [value, hstep _ 0 fun c hc => Nat.isDigit_of_mem_toDigits (by decide) (by decide) hc,
    Nat.ofDigitChars_ten_toDigits]

end Numerals
