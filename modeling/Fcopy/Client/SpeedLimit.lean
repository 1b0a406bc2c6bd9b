import Fcopy.Client.SendFile

/-! What the speed limit is charged (`parallel_send`, and the files in `main`).

    One limiter for all files. A worker that has read `nbytes` gets `nbytes / MB` tokens before it sends
    them, so what is over a whole number of MiB is free:

        read     4 MiB     512 KiB  ║  512 KiB     next file
        tokens   4         0        ║  0
                                       5 MiB sent, 4 tokens

    The files go through one after another, each as in `send_file`. -/

namespace Fcopy

/-- The constant in `parallel_send`. -/
def MB : ℕ := 1024 * 1024

/-- The client with the file it sends: its size, and the sender. `requested` has the arguments of `get`,
    `sent` the lengths of what is sent, over all files. -/
structure Client where
  sending : Option (BitVec 64 × Transfer) := none
  requested : List ℕ := []
  sent : List ℕ := []

inductive ClientLabel where
  | upload (size : BitVec 64)
  | worker (w : ℕ) (l : SendLabel)
  deriving DecidableEq

/-- The arguments of `get` in a step of a worker. -/
def SendLabel.charges : SendLabel → List ℕ
  | .read data => if data.length > 0 then [data.length / MB] else []
  | _ => []

/-- The loop of `main` goes on when the file has been sent without an error. -/
def Client.goesOn (n : ℕ) (c : Client) : Bool := c.sending.all fun x => x.2.returned n = some 0

section
variable (chunk : BitVec 32) (n : ℕ)

def clientStep (c : Client) : ClientLabel → Option Client
  | .upload size => if c.goesOn n then some { c with sending := some (size, {}) } else none
  | .worker w l =>
    match c.sending with
    | none => none
    | some (size, t) =>
      (transferStep size chunk n t (w, l)).map fun t' =>
        { sending := some (size, t')
          requested := c.requested ++ l.charges
          sent := c.sent ++ (t.sends w l).map fun x => x.2.length }

abbrev ClientRuns : Client → List ClientLabel → Client → Prop :=
  Run.Steps (Run.ofStep (clientStep chunk n))

end

/-- As many tokens have been requested as whole MiB have been sent. -/
def Client.Charged (c : Client) : Prop := c.sent.sum / MB ≤ c.requested.sum

/-- How much is read in a step. -/
def ClientLabel.reads : ClientLabel → List ℕ
  | .worker _ (.read data) => [data.length]
  | _ => []

/-! ### Rounding down -/

theorem sum_div_add_mod (d : ℕ) (l : List ℕ) :
    d * (l.map (· / d)).sum + (l.map (· % d)).sum = l.sum := by
  induction l with
  | nil => rfl
  | cons x l ih =>
    have hx := Nat.div_add_mod x d
    simp only [List.map_cons, List.sum_cons, Nat.mul_add]
    omega

/-- What the parts lose by rounding down each for itself. -/
theorem sum_div_le_iff {d : ℕ} (hd : 0 < d) (l : List ℕ) :
    l.sum / d ≤ (l.map (· / d)).sum ↔ (l.map (· % d)).sum < d := by
  rw [← Nat.div_eq_zero_iff_lt hd, ← sum_div_add_mod d l, Nat.mul_add_div hd,
    add_le_iff_nonpos_right, nonpos_iff_eq_zero]

/-! ### Charges -/

variable {chunk : BitVec 32} {n : ℕ} {c c' : Client} {l : ClientLabel} {ls : List ClientLabel}

/-- CORRECT (one step): what is read is sent, and charged for its whole MiB. -/
theorem clientStep_charges (h : clientStep chunk n c l = some c') :
    c'.sent = c.sent ++ l.reads ∧
      c'.requested.sum = c.requested.sum + (l.reads.map (· / MB)).sum := by
  cases l with
  | upload size =>
    rw [clientStep] at h
    split at h <;> cases h
    exact ⟨(List.append_nil _).symm, rfl⟩
  | worker w l =>
    rw [clientStep] at h
    split at h
    · cases h
    rename_i size t _
    obtain ⟨t', ht, rfl⟩ := Option.map_eq_some_iff.mp h
    obtain ⟨_, hmoved⟩ := transferStep_moved ht
    cases hmoved with
    | read offset data hx =>
      refine ⟨?_, ?_⟩
      · simp [SendFile.sends, hx, ClientLabel.reads]
      · simp only [SendLabel.charges, ClientLabel.reads, List.sum_append]
        split
        · rfl
        · have hzero : data.length = 0 := by omega
          simp [hzero]
    | _ => simp [SendFile.sends, SendLabel.charges, ClientLabel.reads]

theorem ClientRuns.charges (hr : ClientRuns chunk n c ls c') :
    c'.sent = c.sent ++ ls.flatMap (·.reads) ∧
      c'.requested.sum = c.requested.sum + ((ls.flatMap (·.reads)).map (· / MB)).sum := by
  induction hr with
  | nil c => simp
  | @cons c d c' l ls hl hls ih =>
    obtain ⟨hsent, hrequested⟩ := clientStep_charges hl
    rw [ih.1, ih.2, hsent, hrequested]
    simp [Nat.add_assoc]

/-- CORRECT (exact condition): a run is charged exactly when what its reads are over whole MiB is less
    than one MiB together. -/
theorem speed_limit_iff (hr : ClientRuns chunk n {} ls c) :
    c.Charged ↔ ((ls.flatMap (·.reads)).map (· % MB)).sum < MB := by
  obtain ⟨hsent, hrequested⟩ := hr.charges
  rw [Client.Charged, hsent, hrequested]
  simpa using sum_div_le_iff (d := MB) (by decide) (ls.flatMap (·.reads))

/-- The client sends a file as `send_file` does. -/
theorem TransferRuns.client {size : BitVec 64} {t t' : Transfer} {ls : List (ℕ × SendLabel)}
    (hr : TransferRuns size chunk n t ls t') (hc : c.sending = some (size, t)) :
    ∃ c', ClientRuns chunk n c (ls.map fun x => .worker x.1 x.2) c' ∧ c'.sending = some (size, t') := by
  induction hr generalizing c with
  | nil t => exact ⟨c, .nil c, hc⟩
  | @cons t u t' x ls hx hls ih =>
    let d : Client :=
      { sending := some (size, u)
        requested := c.requested ++ x.2.charges
        sent := c.sent ++ (t.sends x.1 x.2).map fun y => y.2.length }
    have hstep : clientStep chunk n c (.worker x.1 x.2) = some d := by
      simp only [clientStep, hc]
      rw [show transferStep size chunk n t (x.1, x.2) = some u from hx]
      rfl
    obtain ⟨c', hc', hsending⟩ := ih (c := d) rfl
    exact ⟨c', .cons hstep hc', hsending⟩

/-- One worker sends the only chunk of a file. -/
def sampleOne (data : Bytes) : List (ℕ × SendLabel) :=
  [(0, .alloc), (0, .check), (0, .claim), (0, .read data), (0, .reply 0), (0, .check), (0, .claim),
    (0, .leave)]

theorem sampleOne_runs {size : BitVec 64} {data : Bytes} (hpos : 0#64 < size)
    (hend : ¬chunk.setWidth 64 < size) (hdata : data.length ≤ chunk.toNat) :
    ∃ t, TransferRuns size chunk 1 {} (sampleOne data) t ∧ t.returned 1 = some 0 := by
  have hrun : (Run.exec (transferStep size chunk 1) {} (sampleOne data)).any
      (fun t => t.returned 1 = some 0) = true := by
    simp [sampleOne, Run.exec, transferStep, SendFile.move, SendFile.claims, SendFile.sends,
      SendFile.answers, eq_true hpos, eq_false hend, hdata, Transfer.returned]
  obtain ⟨t, hr, hret⟩ := Run.steps_of_any hrun
  exact ⟨t, hr, of_decide_eq_true hret⟩

/-- The client comes to a file of `k` zeros. -/
def sampleFile (k : ℕ) : List ClientLabel :=
  .upload (BitVec.ofNat 64 k) :: (sampleOne (List.replicate k 0)).map fun x => .worker x.1 x.2

theorem sampleFile_reads (k : ℕ) : (sampleFile k).flatMap (·.reads) = [k] := by
  simp [sampleFile, sampleOne, ClientLabel.reads]

theorem sampleFile_runs {k : ℕ} (hc : c.goesOn 1 = true) (hpos : 0 < k) (hle : k ≤ 4194304) :
    ∃ c', ClientRuns 4194304 1 c (sampleFile k) c' ∧ c'.goesOn 1 = true := by
  have hsize : (BitVec.ofNat 64 k).toNat = k := Nat.mod_eq_of_lt (by omega)
  have hend : ¬(4194304#32).setWidth 64 < BitVec.ofNat 64 k := by
    rw [BitVec.lt_def, hsize]
    exact Nat.not_lt.mpr hle
  have hstart : 0#64 < BitVec.ofNat 64 k := by
    rw [BitVec.lt_def, hsize]
    exact hpos
  have hdata : (List.replicate k (0 : UInt8)).length ≤ (4194304#32).toNat := by
    rw [List.length_replicate]
    exact hle
  obtain ⟨t, ht, hret⟩ := sampleOne_runs hstart hend hdata
  obtain ⟨c', hc', hsending⟩ := ht.client (c := { c with sending := some (BitVec.ofNat 64 k, {}) }) rfl
  refine ⟨c', .cons (if_pos hc) hc', ?_⟩
  rw [Client.goesOn, hsending]
  exact decide_eq_true hret

/-- A file of one MiB. -/
theorem speed_limit_iff_mebibyte : ∃ c,
    ClientRuns 4194304 1 {} (sampleFile 1048576) c ∧ c.Charged := by
  obtain ⟨c, hr, _⟩ := sampleFile_runs (c := {}) rfl (show 0 < 1048576 by decide) (by decide)
  refine ⟨c, hr, (speed_limit_iff hr).mpr ?_⟩
  rw [sampleFile_reads]
  decide

/-- Two files of 512 KiB are sent without a token. -/
theorem small_files_free : ∃ c,
    ClientRuns 4194304 1 {} (sampleFile 524288 ++ sampleFile 524288) c ∧
      c.sent = [524288, 524288] ∧ c.requested.sum = 0 ∧ ¬c.Charged := by
  obtain ⟨c, hc, hgo⟩ := sampleFile_runs (c := {}) rfl (show 0 < 524288 by decide) (by decide)
  obtain ⟨c', hc', _⟩ := sampleFile_runs hgo (show 0 < 524288 by decide) (by decide)
  obtain ⟨hsent, hrequested⟩ := ClientRuns.charges (hc.append hc')
  rw [List.flatMap_append, sampleFile_reads] at hsent hrequested
  refine ⟨c', hc.append hc', hsent, hrequested, ?_⟩
  rw [Client.Charged, hsent, hrequested]
  decide

end Fcopy
