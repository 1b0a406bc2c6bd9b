import Fcopy.Schemes.Content

/-! A file put together from chunks.

    A source `F` is cut into chunks of `ch` values. Each is written at its place, perhaps with blanks
    behind it but never more than `ch` values (`Piece`), so a write puts nothing wrong within the length
    of `F`, and the chunks may come in any order, and more than once:

        F   │ chunk 0 │ chunk 1 │ ch│            written:  │ chunk 1 │   │ ch│▒▒▒▒▒│   │ chunk 0 │

    Once all are there, what lies within the length of `F` is `F`. -/

namespace Content

variable {α : Type*}

/-- The chunk of `F` at `off`; the last one may be shorter. -/
def chunk (F : List α) (ch off : ℕ) : List α := (F.drop off).take ch

/-- `d` is the chunk of `F` at `off` with blanks behind it, and no longer than a chunk. -/
structure Piece (z : α) (F : List α) (ch off : ℕ) (d : List α) : Prop where
  inside : off < F.length
  padded : ∃ n, d = chunk F ch off ++ List.replicate n z
  length : d.length ≤ ch

/-- `b` holds the chunks of `F` at the offsets in `done`. -/
def Holds (F : List α) (ch : ℕ) (done : ℕ → Prop) (b : List α) : Prop :=
  ∀ off i, done off → off ≤ i → i < off + ch → i < F.length → b[i]? = F[i]?

variable {z : α} {F : List α} {ch : ℕ}

theorem length_chunk (F : List α) (ch off : ℕ) : (chunk F ch off).length = min ch (F.length - off) := by
  rw [chunk, List.length_take, List.length_drop]

theorem getElem?_chunk {off i : ℕ} (hi : off ≤ i) (hlt : i < off + ch) :
    (chunk F ch off)[i - off]? = F[i]? := by
  rw [chunk, List.getElem?_take_of_lt (by omega), List.getElem?_drop, Nat.add_sub_cancel' hi]

/-- CORRECT (one write): a piece adds its chunk and leaves the others. -/
theorem Holds.writeAt {done : ℕ → Prop} {b d : List α} {off : ℕ} (hb : Holds F ch done b)
    (hp : Piece z F ch off d) :
    Holds F ch (fun off' => done off' ∨ off' = off) (writeAt z b off d) := by
  obtain ⟨n, hd⟩ := hp.padded
  have hlen : (chunk F ch off).length = min ch (F.length - off) := length_chunk F ch off
  have hdlen : d.length = (chunk F ch off).length + n := by
    rw [hd, List.length_append, List.length_replicate]
  intro off' i hoff hi hlt hF
  have hinside := hp.inside
  have hne : d ≠ [] := by
    intro h0
    rw [h0, List.length_nil] at hdlen
    omega
  rw [getElem?_writeAt b off hne]
  by_cases hin : off ≤ i ∧ i < off + d.length
  · -- the blanks lie behind `F`
    have hlt' : i < off + ch := by
      have := hp.length
      omega
    rw [if_pos hin, hd, List.getElem?_append_left (by omega), getElem?_chunk hin.1 hlt']
  · rw [if_neg hin]
    rcases hoff with hoff | rfl
    · have hget := hb off' i hoff hi hlt hF
      have : i < b.length := by
        by_contra hge
        rw [List.getElem?_eq_none (by omega), List.getElem?_eq_getElem hF] at hget
        cases hget
      rw [if_pos this, hget]
    · omega

/-- CORRECT (assembly): with all chunks there, cutting to the length of `F` leaves `F`. -/
theorem Holds.resize {b : List α} (hb : Holds F ch (fun off => ch ∣ off ∧ off < F.length) b)
    (hpos : 0 < ch) : resize z b F.length = F := by
  apply List.ext_getElem?
  intro i
  rw [getElem?_resize]
  by_cases hi : F.length ≤ i
  · rw [if_pos hi, List.getElem?_eq_none hi]
  · have hdiv := Nat.div_mul_le_self i ch
    have hlt : i < i / ch * ch + ch := by
      have := Nat.lt_div_mul_add hpos (a := i)
      omega
    have hget := hb (i / ch * ch) i ⟨Nat.dvd_mul_left .., by omega⟩ hdiv hlt (by omega)
    have : i < b.length := by
      by_contra hge
      rw [List.getElem?_eq_none (by omega), List.getElem?_eq_getElem (by omega)] at hget
      cases hget
    rw [if_neg hi, if_pos this, hget]

end Content
