import Fcopy.Client.Chunks
import Fcopy.Client.FileSender

/-! The workers of `parallel_send`.

    `cur_offset` runs through the offsets of the chunks, and each chunk it has passed is accounted for:
    it has been acknowledged, or a worker still owes it, or there is an error (`Working`). An error
    stays, so a sender that returns 0 has had all its chunks acknowledged. What an acknowledgement
    means plays no part here; `acked` is any property of offsets. -/

namespace Fcopy
open Function Content

/-- The worker has still to deal with the chunk, or is about to report an error. -/
def Worker.Owes (offset : BitVec 64) : Worker → Prop
  | .reading o | .requesting o _ => o = offset
  | .leaving e => e ≠ 0
  | _ => False

/-- What a worker holds is a chunk of the source, and it gives up only on an error or at the end. -/
def Worker.Sane (p : SenderParams) (source : Bytes) (f : FileSender) : Worker → Prop
  | .reading offset => p.chunkSize.toNat ∣ offset.toNat ∧ offset.toNat < source.length
  | .requesting offset data => IsChunk source p.chunkSize.toNat offset data
  | .leaving e => e = 0 → f.error ≠ 0 ∨ source.length ≤ f.curOffset.toNat
  | .left => f.error ≠ 0 ∨ source.length ≤ f.curOffset.toNat
  | _ => True

structure Working (p : SenderParams) (source : Bytes) (acked : BitVec 64 → Prop) (f : FileSender) :
    Prop where
  aligned : p.chunkSize.toNat ∣ f.curOffset.toNat
  bounded : f.curOffset.toNat < source.length + p.chunkSize.toNat
  sane : ∀ w, (f.workers w).Sane p source f
  chunks : ∀ offset : BitVec 64, p.chunkSize.toNat ∣ offset.toNat → offset.toNat < source.length →
    offset.toNat < f.curOffset.toNat →
      f.error ≠ 0 ∨ acked offset ∨ ∃ w < p.parallel, (f.workers w).Owes offset

/-- Workers report errors that are not zero, and `pread` reads a chunk or up to the end of the file. -/
def WorkerAssumed (p : SenderParams) (source : Bytes) (f : FileSender) (w : ℕ) : WorkerLabel → Prop
  | .allocFailed e | .readFailed e | .lost e => e ≠ 0
  | .read n => ∀ offset, f.workers w = .reading offset →
    (source.drop offset.toNat).take n = chunk source p.chunkSize.toNat offset.toNat
  | _ => True

variable {p : SenderParams} {source : Bytes} {acked acked' : BitVec 64 → Prop} {f f' : FileSender}

theorem Worker.Sane.mono {x : Worker} (hx : x.Sane p source f)
    (hend : f.error ≠ 0 ∨ source.length ≤ f.curOffset.toNat →
      f'.error ≠ 0 ∨ source.length ≤ f'.curOffset.toNat) : x.Sane p source f' := by
  cases x with
  | leaving e => exact fun he => hend (hx he)
  | left => exact hend hx
  | _ => exact hx

theorem Working.mono (h : Working p source acked f) (hacked : ∀ offset, acked offset → acked' offset) :
    Working p source acked' f :=
  { h with
    chunks := fun offset hdvd hlt hcur => (h.chunks offset hdvd hlt hcur).imp_right fun h =>
      h.imp_left (hacked offset) }

theorem Working.start (hpos : 0 < p.chunkSize.toNat) (hcur : f.curOffset = 0)
    (hworkers : f.workers = fun _ => .start) : Working p source acked f where
  aligned := by rw [hcur]; exact dvd_zero _
  bounded := by
    rw [hcur]
    exact Nat.lt_of_lt_of_le hpos (Nat.le_add_left ..)
  sane w := by rw [hworkers]; trivial
  chunks offset _ _ h := by
    rw [hcur] at h
    exact absurd h (Nat.not_lt_zero _)

/-! ### One worker -/

/-- A worker moves on. -/
theorem Working.set (h : Working p source acked f) {w : ℕ} {x : Worker} (hx : x.Sane p source f)
    (howes : ∀ offset, (f.workers w).Owes offset → f.error ≠ 0 ∨ acked offset ∨ x.Owes offset) :
    Working p source acked (f.setWorker w x) := by
  refine ⟨h.aligned, h.bounded, fun v => ?_, fun offset hdvd hlt hcur => ?_⟩
  · by_cases hvw : v = w
    · subst hvw
      simp only [FileSender.setWorker, update_self]
      exact hx
    · simp only [FileSender.setWorker, update_of_ne hvw]
      exact h.sane v
  · rcases h.chunks offset hdvd hlt hcur with herr | hack | ⟨v, hvn, hv⟩
    · exact .inl herr
    · exact .inr (.inl hack)
    · by_cases hvw : v = w
      · subst hvw
        refine (howes offset hv).imp_right fun h => h.imp_right fun hx => ⟨v, hvn, ?_⟩
        simp only [FileSender.setWorker, update_self]
        exact hx
      · refine .inr (.inr ⟨v, hvn, ?_⟩)
        simp only [FileSender.setWorker, update_of_ne hvw]
        exact hv

/-- An error accounts for everything. -/
theorem Working.fail (h : Working p source acked f) {e : ℤ} (he : e ≠ 0) :
    Working p source acked { f with error := e } :=
  { h with
    sane := fun w => (h.sane w).mono fun _ => .inl he
    chunks := fun _ _ _ _ => .inl he }

theorem fileSize_toNat (hsource : source.length < 2 ^ 63) :
    (fileSize source).toNat = source.length := by
  rw [fileSize, BitVec.toNat_ofNat, Nat.mod_eq_of_lt (by omega)]

/-- A worker has claimed the chunk at `cur_offset`. -/
theorem Working.advance (h : Working p source acked f) (hsource : source.length < 2 ^ 63) {w : ℕ}
    (hw : w < p.parallel) (hx : f.workers w = .reading f.curOffset)
    (hlt : f.curOffset.toNat < source.length) : Working p source acked
      { f with curOffset := f.curOffset + p.chunkSize.setWidth 64 } := by
  have hsum : (f.curOffset + p.chunkSize.setWidth 64).toNat =
      f.curOffset.toNat + p.chunkSize.toNat := by
    have := p.chunkSize.isLt
    rw [BitVec.toNat_add, BitVec.toNat_setWidth, Nat.mod_eq_of_lt (a := p.chunkSize.toNat) (by omega),
      Nat.mod_eq_of_lt (by omega)]
  refine ⟨?_, ?_, fun v => ?_, ?_⟩ <;> simp only [hsum]
  · exact Nat.dvd_add h.aligned (dvd_refl _)
  · omega
  · exact (h.sane v).mono fun hend => hend.imp_right fun hle => by simp only [hsum]; omega
  · intro offset hdvd hin hcur
    rcases Nat.lt_or_ge offset.toNat f.curOffset.toNat with hlt' | hge
    · exact h.chunks offset hdvd hin hlt'
    · -- within one chunk of an aligned offset, only that offset is aligned
      have hzero := Nat.eq_zero_of_dvd_of_lt (Nat.dvd_sub hdvd h.aligned) (by omega)
      refine .inr (.inr ⟨w, hw, ?_⟩)
      rw [hx]
      exact BitVec.eq_of_toNat_eq (by omega)

/-! ### Steps -/

variable {conf : Addr → Conf} {net net' : Net}

/-- CORRECT (one step of a worker): every chunk passed stays accounted for. -/
theorem Working.preserved (h : Working p source acked f) (hsource : source.length < 2 ^ 63) {w : ℕ}
    (hw : w < p.parallel) {l : WorkerLabel} (hl : WorkerAssumed p source f w l)
    (hreply : ∀ offset i s r, net.served (addrOf p 0) i = some s →
      (net.servers (addrOf p 0)).handlers i = .finished r → s.origin = .client offset.toNat →
      wireError r.error = 0 → acked offset)
    (hstep : workerStep p source conf net f w l = some (net', f')) : Working p source acked f' := by
  have hsane := h.sane w
  cases l with
  | alloc =>
    rw [workerStep] at hstep
    split at hstep <;> cases hstep
    rename_i hx
    exact h.set trivial fun _ ho => by rw [hx] at ho; exact ho.elim
  | allocFailed e =>
    rw [workerStep] at hstep
    split at hstep <;> cases hstep
    rename_i hx
    exact (h.fail hl).set (x := .left) (.inl hl) fun _ ho => by rw [hx] at ho; exact ho.elim
  | check =>
    rw [workerStep] at hstep
    split at hstep <;> cases hstep
    rename_i hx
    refine h.set ?_ fun _ ho => by rw [hx] at ho; exact ho.elim
    split
    · trivial
    · exact fun _ => .inl ‹_›
  | claim =>
    rw [workerStep] at hstep
    split at hstep
    · rename_i hx
      have howes : ∀ {offset P}, (f.workers w).Owes offset → P :=
        fun ho => by rw [hx] at ho; exact ho.elim
      split at hstep <;> cases hstep
      · rename_i hlt
        rw [BitVec.lt_def, fileSize_toNat hsource] at hlt
        have hset := h.set (w := w) (x := .reading f.curOffset) ⟨h.aligned, hlt⟩ fun _ => howes
        exact hset.advance hsource hw (update_self ..) hlt
      · rename_i hge
        rw [BitVec.lt_def, fileSize_toNat hsource, not_lt] at hge
        exact h.set (fun _ => .inr hge) fun _ => howes
    · cases hstep
  | read n =>
    rw [workerStep] at hstep
    split at hstep
    · rename_i offset hx
      split at hstep <;> cases hstep
      rw [hx] at hsane
      refine h.set ⟨hsane.1, hsane.2, hl offset hx⟩ fun offset' ho => ?_
      rw [hx] at ho
      exact .inr (.inr ho)
    · cases hstep
  | readFailed e =>
    rw [workerStep] at hstep
    split at hstep <;> cases hstep
    exact h.set (fun h0 => absurd h0 hl) fun _ _ => .inr (.inr hl)
  | request i =>
    rw [workerStep] at hstep
    split at hstep
    · obtain ⟨net₁, _, heq⟩ := Option.map_eq_some_iff.mp hstep
      cases heq
      exact h
    · cases hstep
  | reply i =>
    rw [workerStep] at hstep
    split at hstep
    · rename_i offset _ s r hx hs hr
      split at hstep <;> cases hstep
      rename_i ho
      by_cases hzero : wireError r.error = 0
      · rw [if_pos hzero]
        refine h.set trivial fun offset' ho' => ?_
        rw [hx] at ho'
        cases show offset = offset' from ho'
        exact .inr (.inl (hreply offset i s r hs hr ho hzero))
      · rw [if_neg hzero]
        exact h.set (fun h0 => absurd h0 hzero) fun _ _ => .inr (.inr hzero)
    · cases hstep
  | lost e =>
    rw [workerStep] at hstep
    split at hstep <;> cases hstep
    exact h.set (fun h0 => absurd h0 hl) fun _ _ => .inr (.inr hl)
  | leave =>
    rw [workerStep] at hstep
    split at hstep <;> cases hstep
    rename_i e hx
    rw [hx] at hsane
    by_cases he : e = 0
    · subst he
      simp only [ne_eq, not_true_eq_false, if_false]
      exact h.set (x := .left) (hsane rfl) fun _ ho => by rw [hx] at ho; exact absurd rfl ho
    · simp only [ne_eq, he, not_false_eq_true, if_true]
      exact (h.fail he).set (x := .left) (.inl he) fun _ _ => .inl he

/-- CORRECT (all workers have left): without an error, every chunk has been acknowledged. -/
theorem Working.all_acked (h : Working p source acked f) (hpar : 1 ≤ p.parallel)
    (hleft : ∀ w < p.parallel, f.workers w = .left) (herr : f.error = 0) (offset : BitVec 64)
    (hdvd : p.chunkSize.toNat ∣ offset.toNat) (hlt : offset.toNat < source.length) : acked offset := by
  have hcur : source.length ≤ f.curOffset.toNat := by
    have h₀ := h.sane 0
    rw [hleft 0 hpar] at h₀
    exact h₀.resolve_left fun hne => hne herr
  rcases h.chunks offset hdvd hlt (by omega) with hne | hack | ⟨w, hw, ho⟩
  · exact absurd herr hne
  · exact hack
  · rw [hleft w hw] at ho
    exact ho.elim

end Fcopy
