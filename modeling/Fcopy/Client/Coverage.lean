import Fcopy.Client.SendFile

/-! What the acknowledged requests of `send_file` cover.

    The cursor moves by `chunk_size` whatever `pread` returns, and the request carries only the bytes
    read. Each offset is claimed once, so a short read before the end of the file leaves a gap that no
    other request fills:

        claimed   |<---- chunk ---->|<---- chunk ---->|
        sent      |<-- read -->     |<---- read ----->|
                               ^ gap, and `send_file` returns 0 -/

namespace Fcopy

/-- Each position of the file is in the range of an acknowledged request. -/
def Covers (size : BitVec 64) (t : Transfer) : Prop :=
  ∀ pos < size.toNat, ∃ o m, (o, m, 0) ∈ t.answered ∧ o.toNat ≤ pos ∧ pos < o.toNat + m

/-- Each `pread` that succeeded read a whole chunk, or up to the end of the file. -/
def FullReads (size : BitVec 64) (chunk : BitVec 32) (t : Transfer) : Prop :=
  ∀ o d, (o, d) ∈ t.sent → min chunk.toNat (size.toNat - o.toNat) ≤ d.length

variable {size : BitVec 64} {chunk : BitVec 32} {n : ℕ} {t : Transfer}

/-- The end of a short read is covered by no request. -/
theorem Transferred.fullReads (ht : Transferred size chunk n t) (hcov : Covers size t) :
    FullReads size chunk t := by
  intro o d hd
  by_contra hshort
  obtain ⟨⟨v, hv⟩, hlen⟩ := ht.requests.claimed o d hd
  obtain ⟨k, hk⟩ := List.getElem?_of_mem hv
  obtain ⟨ho, hlt⟩ := ht.claims.offset k _ hk
  have hlt' : o.toNat < size.toNat := hlt
  -- the first position that was not read
  obtain ⟨o', m, ha, hle, hpos⟩ := hcov (o.toNat + d.length) (by omega)
  obtain ⟨d', hd', rfl⟩ := ht.requests.source o' m 0 ha
  obtain ⟨⟨v', hv'⟩, hlen'⟩ := ht.requests.claimed o' d' hd'
  obtain ⟨k', hk'⟩ := List.getElem?_of_mem hv'
  have ho' := (ht.claims.offset k' _ hk').1
  simp only at ho ho'
  -- the request that covers it is for the same chunk
  have hkk : k' = k := by
    refine Nat.le_antisymm (Nat.lt_succ_iff.mp ?_) (Nat.lt_succ_iff.mp ?_) <;>
      refine Nat.lt_of_mul_lt_mul_right (a := chunk.toNat) ?_ <;> rw [Nat.succ_mul] <;> omega
  subst hkk
  rw [hk] at hk'
  cases hk'
  cases List.inj_on_of_nodup_map ht.requests.nodup hd hd' rfl
  omega

/-- A position is in the chunk it is claimed with. -/
theorem Transferred.covers (ht : Transferred size chunk n t) (hchunk : 0 < chunk.toNat)
    (hcount : t.claimed.length = chunkCount size chunk)
    (hread : ∀ v o, (v, o) ∈ t.claimed → ∃ d, (o, d) ∈ t.sent)
    (hack : ∀ o d, (o, d) ∈ t.sent → (o, d.length, 0) ∈ t.answered)
    (hfull : FullReads size chunk t) : Covers size t := by
  intro pos hpos
  have hk : pos / chunk.toNat < t.claimed.length := by
    rw [hcount, chunkCount, ← Nat.succ_le_iff, Nat.succ_eq_add_one, ← Nat.add_div_right pos hchunk]
    exact Nat.div_le_div_right (by omega)
  obtain ⟨⟨v, o⟩, hx⟩ : ∃ x, t.claimed[pos / chunk.toNat]? = some x :=
    ⟨_, List.getElem?_eq_getElem hk⟩
  have ho : o.toNat = pos / chunk.toNat * chunk.toNat := (ht.claims.offset _ _ hx).1
  obtain ⟨d, hd⟩ := hread v o (List.mem_of_getElem? hx)
  have hlen := hfull o d hd
  have hmod := Nat.div_add_mod' pos chunk.toNat
  have hlt := Nat.mod_lt pos hchunk
  exact ⟨o, d.length, hack o d hd, by omega, by omega⟩

/-- CORRECT (coverage): a run of `send_file` that has returned meets "0 means that the acknowledged
    requests cover the file" exactly when something has failed or no `pread` was short. -/
theorem send_file_covers_iff {ls : List (ℕ × SendLabel)} {e : ℤ} (hsize : size.toNat < 2 ^ 63)
    (hchunk : 0 < chunk.toNat) (hn : 0 < n) (hr : TransferRuns size chunk n {} ls t)
    (hcoded : ∀ w l, (w, l) ∈ ls → l.Coded) (he : t.returned n = some e) :
    (e = 0 → Covers size t) ↔ (∃ w l, (w, l) ∈ ls ∧ l.Fails) ∨ FullReads size chunk t := by
  have ht := hr.transferred hsize hchunk hcoded
  obtain ⟨hleft, rfl⟩ := Transfer.returned_eq he
  rw [← hr.fails_iff hcoded]
  by_cases hf : t.Failed
  · exact iff_of_true (fun hzero => absurd hzero ((Transfer.failed_iff hleft ht.ending.idle).mp hf)) (.inl hf)
  · have hzero : t.error = 0 := by
      by_contra hne
      exact hf (.inl hne)
    obtain ⟨hcount, hread, hack⟩ := ht.complete hchunk hn hleft hf
    refine ⟨fun h => .inr (ht.fullReads (h hzero)), fun h _ => ?_⟩
    exact ht.covers hchunk hcount hread hack (h.resolve_left hf)

/-- A file of three bytes, sent in chunks of two, is covered. -/
theorem send_file_covers_iff_two : ∃ t, TransferRuns 3 2 1 {} sampleTransfer t ∧
    t.returned 1 = some 0 ∧ ((0 = (0 : ℤ) → Covers 3 t) ↔
      (∃ w l, (w, l) ∈ sampleTransfer ∧ l.Fails) ∨ FullReads 3 2 t) := by
  have hrun : (Run.exec (transferStep 3 2 1) {} sampleTransfer).any
      (fun t => t.returned 1 = some 0) = true := by decide +kernel
  obtain ⟨t, hr, hret⟩ := Run.steps_of_any hrun
  have hret' := of_decide_eq_true hret
  have hcoded : ∀ x ∈ sampleTransfer, x.2.Coded := by simp [sampleTransfer, SendLabel.Coded]
  exact ⟨t, hr, hret', send_file_covers_iff (by decide) (by decide) (by decide) hr
    (fun w l => hcoded (w, l)) hret'⟩

/-- The first `pread` returns one byte of two; `send_file` returns 0, and no request has the byte at
    position 1. -/
theorem short_read_gap : ∃ ls t, TransferRuns 3 2 1 {} ls t ∧
    (∀ x ∈ ls, x.2.Coded) ∧ t.returned 1 = some 0 ∧ ¬Covers 3 t := by
  let ls : List (ℕ × SendLabel) :=
    [(0, .alloc), (0, .check), (0, .claim), (0, .read [1]), (0, .reply 0), (0, .check), (0, .claim),
      (0, .read [3]), (0, .reply 0), (0, .check), (0, .claim), (0, .leave)]
  have hrun : (Run.exec (transferStep 3 2 1) {} ls).any (fun t =>
      t.returned 1 = some 0 ∧ t.answered = [(0, 1, 0), (2, 1, 0)]) = true := by decide +kernel
  obtain ⟨t, hr, hcheck⟩ := Run.steps_of_any hrun
  obtain ⟨hret, hans⟩ := of_decide_eq_true hcheck
  refine ⟨ls, t, hr, by simp [ls, SendLabel.Coded], hret, fun hcov => ?_⟩
  obtain ⟨o, m, ha, hle, hlt⟩ := hcov 1 (by decide)
  rw [hans] at ha
  simp only [List.mem_cons, Prod.mk.injEq, and_true, List.not_mem_nil, or_false] at ha
  rcases ha with ⟨rfl, rfl⟩ | ⟨rfl, rfl⟩
  · exact absurd hlt (by decide)
  · exact absurd hle (by decide)

end Fcopy
