import Fcopy.Schemes.Endian

/-! Integers and strings on the wire (`common/message.cpp`).

    `appendInt` swaps a word and copies its memory; `decodeInt` checks the length, copies the memory
    back and swaps. Strings carry a 32-bit length in front. Decoders take the whole body and a position,
    as the source does; `At s pos rest` says what is left to read there, and each decoder has one lemma
    for each direction: what it makes of the bytes its encoder appends, and what it must have read when
    it succeeds. -/

namespace Fcopy
open Endian

abbrev Bytes := List UInt8

def appendInt (h : Host) (w : ℕ) (s : Bytes) (n : BitVec (8 * w)) : Bytes :=
  s ++ store h (byteSwap h n)

/-- The length is narrowed to `uint32_t` before it is appended. -/
def appendString (h : Host) (s o : Bytes) : Bytes :=
  appendInt h 4 s (BitVec.ofNat 32 o.length) ++ o

/-- `none` is the source's `-1`; otherwise the value and the position behind it. -/
def decodeInt (h : Host) (w : ℕ) (s : Bytes) (pos : ℕ) : Option (BitVec (8 * w) × ℕ) :=
  if pos + w > s.length then none
  else some (byteSwap h (load w h ((s.drop pos).take w)), pos + w)

def decodeString (h : Host) (s : Bytes) (pos : ℕ) : Option (Bytes × ℕ) := do
  let (n, pos) ← decodeInt h 4 s pos
  if pos + n.toNat > s.length then none
  else some ((s.drop pos).take n.toNat, pos + n.toNat)

/-- The bytes `appendInt` appends for an integer of `w` bytes. -/
def int (w : ℕ) (n : BitVec (8 * w)) : Bytes := be w n.toNat

/-- The bytes `appendString` appends. -/
def str (o : Bytes) : Bytes := be 4 o.length ++ o

theorem length_int (w : ℕ) (n : BitVec (8 * w)) : (int w n).length = w := length_be ..

theorem length_str (o : Bytes) : (str o).length = 4 + o.length := by
  rw [str, List.length_append, length_be]

theorem appendInt_eq (h : Host) (w : ℕ) (s : Bytes) (n : BitVec (8 * w)) :
    appendInt h w s n = s ++ int w n := by
  rw [appendInt, store_byteSwap, int]

theorem appendString_eq (h : Host) (s o : Bytes) : appendString h s o = s ++ str o := by
  have hlen : be 4 (BitVec.ofNat 32 o.length).toNat = be 4 o.length := by
    rw [BitVec.toNat_ofNat]
    exact be_mod 4 o.length
  rw [appendString, appendInt_eq, int, hlen, str, List.append_assoc]

/-! ### Reading at a position -/

/-- `rest` is what is left of `s` from position `pos` on. -/
structure At (s : Bytes) (pos : ℕ) (rest : Bytes) : Prop where
  le : pos ≤ s.length
  drop : s.drop pos = rest

theorem at_zero (s : Bytes) : At s 0 s := ⟨Nat.zero_le _, rfl⟩

theorem At.length {s rest : Bytes} {pos : ℕ} (hat : At s pos rest) :
    s.length = pos + rest.length := by
  have := hat.le
  rw [← hat.drop, List.length_drop]
  omega

/-- Reading `a` moves the position past it. -/
theorem At.skip {s a rest : Bytes} {pos : ℕ} (hat : At s pos (a ++ rest)) :
    At s (pos + a.length) rest := by
  refine ⟨?_, ?_⟩
  · have := hat.length
    rw [List.length_append] at this
    omega
  · rw [← List.drop_drop, hat.drop, List.drop_left]

theorem At.end_iff {s rest : Bytes} {pos : ℕ} (hat : At s pos rest) :
    pos = s.length ↔ rest = [] := by
  rw [hat.length, ← List.length_eq_zero_iff]
  omega

theorem decodeInt_of_append {s rest : Bytes} {pos : ℕ} (h : Host) (w : ℕ) {n : BitVec (8 * w)}
    (hat : At s pos (int w n ++ rest)) :
    decodeInt h w s pos = some (n, pos + w) ∧ At s (pos + w) rest := by
  have hlen := hat.length
  have hskip := hat.skip
  rw [List.length_append, length_int] at hlen
  rw [length_int] at hskip
  refine ⟨?_, hskip⟩
  have htake : (s.drop pos).take w = int w n := by
    rw [hat.drop]
    exact List.take_left' (length_int w n)
  have hval : byteSwap h (load w h (int w n)) = n := by
    have hl := byteSwap_load h (int w n)
    have ho : ofBe (int w n) = n.toNat := by
      rw [int, ofBe_be, Nat.mod_eq_of_lt (toNat_lt n)]
    rw [ho] at hl
    have hw := length_int w n
    generalize int w n = l at hl hw
    subst hw
    rw [hl, BitVec.ofNat_toNat, BitVec.setWidth_eq]
  rw [decodeInt, if_neg (by omega), htake, hval]

theorem decodeInt_eq_some {s rest : Bytes} {pos w pos' : ℕ} {h : Host} {n : BitVec (8 * w)}
    (hat : At s pos rest) (hd : decodeInt h w s pos = some (n, pos')) :
    pos' = pos + w ∧ ∃ rest', rest = int w n ++ rest' ∧ At s pos' rest' := by
  rw [decodeInt] at hd
  split at hd
  · cases hd
  rename_i hle
  simp only [Option.some.injEq, Prod.mk.injEq] at hd
  obtain ⟨hn, rfl⟩ := hd
  have hlen := hat.length
  have htake : (rest.take w).length = w := by
    rw [List.length_take]
    omega
  have hint : int w n = rest.take w := by
    have hl := byteSwap_load h (rest.take w)
    have hb := be_ofBe (rest.take w)
    rw [hat.drop] at hn
    generalize rest.take w = l at hl hb htake hn
    subst htake
    rw [← hn, hl, int, BitVec.toNat_ofNat, pow_256, be_mod, hb]
  have hsplit : rest = int w n ++ rest.drop w := by rw [hint, List.take_append_drop]
  refine ⟨rfl, rest.drop w, hsplit, ?_⟩
  rw [hsplit] at hat
  have := hat.skip
  rwa [length_int] at this

theorem decodeString_of_append {s o rest : Bytes} {pos : ℕ} (h : Host) (ho : o.length < 2 ^ 32)
    (hat : At s pos (str o ++ rest)) :
    decodeString h s pos = some (o, pos + 4 + o.length) ∧ At s (pos + 4 + o.length) rest := by
  have hn : (BitVec.ofNat 32 o.length).toNat = o.length := Nat.mod_eq_of_lt ho
  have hstr : str o = int 4 (BitVec.ofNat 32 o.length) ++ o := by rw [str, int, hn]
  rw [hstr, List.append_assoc] at hat
  obtain ⟨hd, hat'⟩ := decodeInt_of_append h 4 hat
  have hlen := hat'.length
  rw [List.length_append] at hlen
  refine ⟨?_, hat'.skip⟩
  rw [decodeString, hd, Option.bind_eq_bind, Option.bind_some]
  simp only [hn]
  rw [if_neg (by omega), hat'.drop, List.take_left]

/-- A string that ends the input leaves the position at the end. -/
theorem decodeString_last {s o : Bytes} {pos : ℕ} (h : Host) (ho : o.length < 2 ^ 32)
    (hat : At s pos (str o)) : decodeString h s pos = some (o, s.length) := by
  rw [← List.append_nil (str o)] at hat
  obtain ⟨hd, hat'⟩ := decodeString_of_append h ho hat
  rw [hd, hat'.end_iff.mpr rfl]

theorem decodeString_eq_some {s o rest : Bytes} {pos pos' : ℕ} {h : Host} (hat : At s pos rest)
    (hd : decodeString h s pos = some (o, pos')) :
    pos' = pos + 4 + o.length ∧ o.length < 2 ^ 32 ∧ ∃ rest', rest = str o ++ rest' ∧ At s pos' rest' := by
  rw [decodeString] at hd
  obtain ⟨⟨n, pos₁⟩, hi, hs⟩ := Option.bind_eq_some_iff.mp hd
  obtain ⟨rfl, rest₁, rfl, hat₁⟩ := decodeInt_eq_some hat hi
  simp only at hs
  split at hs
  · cases hs
  rename_i hle
  simp only [Option.some.injEq, Prod.mk.injEq] at hs
  obtain ⟨ho, rfl⟩ := hs
  have hlen := hat₁.length
  rw [hat₁.drop] at ho
  have hol : o.length = n.toNat := by
    rw [← ho, List.length_take]
    omega
  have hstr : str o = int 4 n ++ o := by rw [str, int, hol]
  have hsplit : rest₁ = o ++ rest₁.drop n.toNat := by rw [← ho, List.take_append_drop]
  refine ⟨by omega, hol ▸ n.isLt, rest₁.drop n.toNat, ?_, ?_⟩
  · rw [hstr, List.append_assoc, ← hsplit]
  · rw [hsplit] at hat₁
    have := hat₁.skip
    rwa [hol] at this

/-- A decoder that goes on behind an integer. -/
theorem bind_decodeInt {α : Type} {s rest : Bytes} {pos w : ℕ} {h : Host} {a : α}
    {f : BitVec (8 * w) × ℕ → Option α} (hat : At s pos rest)
    (hd : (decodeInt h w s pos).bind f = some a) :
    ∃ n rest', rest = int w n ++ rest' ∧ At s (pos + w) rest' ∧ f (n, pos + w) = some a := by
  obtain ⟨⟨n, pos'⟩, hint, hf⟩ := Option.bind_eq_some_iff.mp hd
  obtain ⟨rfl, rest', hrest, hat'⟩ := decodeInt_eq_some hat hint
  exact ⟨n, rest', hrest, hat', hf⟩

/-- A decoder that goes on behind a string. -/
theorem bind_decodeString {α : Type} {s rest : Bytes} {pos : ℕ} {h : Host} {a : α}
    {f : Bytes × ℕ → Option α} (hat : At s pos rest)
    (hd : (decodeString h s pos).bind f = some a) :
    ∃ o rest', o.length < 2 ^ 32 ∧ rest = str o ++ rest' ∧ At s (pos + 4 + o.length) rest' ∧
      f (o, pos + 4 + o.length) = some a := by
  obtain ⟨⟨o, pos'⟩, hstr, hf⟩ := Option.bind_eq_some_iff.mp hd
  obtain ⟨rfl, hlen, rest', hrest, hat'⟩ := decodeString_eq_some hat hstr
  exact ⟨o, rest', hlen, hrest, hat', hf⟩

/-- A decoder that accepts only at the end of the input. -/
theorem accepted_at_end {α : Type} {s rest : Bytes} {pos : ℕ} {a b : α} (hat : At s pos rest)
    (hd : (if pos = s.length then some a else none) = some b) : rest = [] ∧ a = b := by
  split at hd
  · rename_i hend
    exact ⟨hat.end_iff.mp hend, Option.some.inj hd⟩
  · cases hd

end Fcopy
