import Mathlib.Algebra.BigOperators.Group.Finset.Basic
import Fcopy.Client.FileSender

/-! `send_file` by itself (`FileSender::parallel_send`).

    The workers as in the system, with every answer of the outside left open: an allocation, a `pread`
    and a request may each fail with any code, and a `pread` that succeeds gives any bytes up to the size
    of a chunk. Whatever a worker does in the system it does here (`workerStep_move`).

    `claimed`, `sent` and `answered` are not part of the sender: the offsets taken under the mutex, the
    requests with the content read for them, and what they were answered. -/

namespace Fcopy
open Function

/-- What the workers share, and where they are. -/
structure SendFile where
  error : ℤ := 0
  curOffset : BitVec 64 := 0
  workers : ℕ → Worker := fun _ => .start

inductive SendLabel where
  | alloc
  | allocFailed (e : ℤ)
  | check
  | claim
  | read (data : Bytes)
  | readFailed (e : ℤ)
  | reply (e : ℤ)
  | leave
  deriving DecidableEq

/-- The code of a failure is not zero. -/
def SendLabel.Coded : SendLabel → Prop
  | .allocFailed e | .readFailed e => e ≠ 0
  | _ => True

/-- A buffer, a `pread`, a request or its reply has failed. -/
def SendLabel.Fails : SendLabel → Prop
  | .allocFailed _ | .readFailed _ => True
  | .reply e => e ≠ 0
  | _ => False

section
variable (size : BitVec 64) (chunk : BitVec 32)

/-- One step of worker `w`. -/
def SendFile.move (f : SendFile) (w : ℕ) : SendLabel → Option SendFile
  | .alloc =>
    if f.workers w = .start then some { f with workers := update f.workers w .checking } else none
  | .allocFailed e =>
    if f.workers w = .start then some { f with workers := update f.workers w .left, error := e }
    else none
  | .check =>
    if f.workers w = .checking then
      some { f with workers := update f.workers w (if f.error = 0 then .claiming else .leaving 0) }
    else none
  | .claim =>
    if f.workers w = .claiming then
      if f.curOffset < size then
        some { f with
          workers := update f.workers w (.reading f.curOffset)
          curOffset := f.curOffset + chunk.setWidth 64 }
      else some { f with workers := update f.workers w (.leaving 0) }
    else none
  | .read data =>
    match f.workers w with
    | .reading offset =>
      if data.length ≤ chunk.toNat then
        some { f with workers := update f.workers w (.requesting offset data) }
      else none
    | _ => none
  | .readFailed e =>
    match f.workers w with
    | .reading _ => some { f with workers := update f.workers w (.leaving e) }
    | _ => none
  | .reply e =>
    match f.workers w with
    | .requesting _ _ =>
      some { f with workers := update f.workers w (if e = 0 then .checking else .leaving e) }
    | _ => none
  | .leave =>
    match f.workers w with
    | .leaving e =>
      some { f with workers := update f.workers w .left, error := if e ≠ 0 then e else f.error }
    | _ => none

structure Transfer extends SendFile where
  claimed : List (ℕ × BitVec 64) := []
  sent : List (BitVec 64 × Bytes) := []
  answered : List (BitVec 64 × ℕ × ℤ) := []

def SendFile.claims (f : SendFile) (w : ℕ) : SendLabel → List (ℕ × BitVec 64)
  | .claim => if f.curOffset < size then [(w, f.curOffset)] else []
  | _ => []

def SendFile.sends (f : SendFile) (w : ℕ) : SendLabel → List (BitVec 64 × Bytes)
  | .read data =>
    match f.workers w with
    | .reading offset => [(offset, data)]
    | _ => []
  | _ => []

def SendFile.answers (f : SendFile) (w : ℕ) : SendLabel → List (BitVec 64 × ℕ × ℤ)
  | .reply e =>
    match f.workers w with
    | .requesting offset data => [(offset, data.length, e)]
    | _ => []
  | _ => []

/-- A step of one of `n` workers. -/
def transferStep (n : ℕ) (t : Transfer) : ℕ × SendLabel → Option Transfer
  | (w, l) =>
    if w < n then
      (t.move size chunk w l).map fun f =>
        ⟨f, t.claimed ++ t.claims size w l, t.sent ++ t.sends w l, t.answered ++ t.answers w l⟩
    else none

/-- Runs of the `n` workers. -/
abbrev TransferRuns (n : ℕ) : Transfer → List (ℕ × SendLabel) → Transfer → Prop :=
  Run.Steps (Run.ofStep (transferStep size chunk n))

/-- What `send_file` returns, once all workers have left. -/
def Transfer.returned (n : ℕ) (t : Transfer) : Option ℤ :=
  if (List.range n).all (fun w => t.workers w = .left) then some t.error else none

/-- How many chunks there are, the last one rounded up. -/
def chunkCount : ℕ := (size.toNat + chunk.toNat - 1) / chunk.toNat

/-! ### What a worker does -/

/-- The steps, one by one. -/
inductive Moved (t : Transfer) (w : ℕ) : SendLabel → Transfer → Prop
  | alloc (h : t.workers w = .start) :
      Moved t w .alloc { t with workers := update t.workers w .checking }
  | allocFailed (e : ℤ) (h : t.workers w = .start) :
      Moved t w (.allocFailed e) { t with workers := update t.workers w .left, error := e }
  | goOn (h : t.workers w = .checking) (he : t.error = 0) :
      Moved t w .check { t with workers := update t.workers w .claiming }
  | stop (h : t.workers w = .checking) (he : t.error ≠ 0) :
      Moved t w .check { t with workers := update t.workers w (.leaving 0) }
  | claim (h : t.workers w = .claiming) (hlt : t.curOffset < size) :
      Moved t w .claim { t with
        workers := update t.workers w (.reading t.curOffset)
        curOffset := t.curOffset + chunk.setWidth 64
        claimed := t.claimed ++ [(w, t.curOffset)] }
  | finish (h : t.workers w = .claiming) (hge : size ≤ t.curOffset) :
      Moved t w .claim { t with workers := update t.workers w (.leaving 0) }
  | read (offset : BitVec 64) (data : Bytes) (h : t.workers w = .reading offset)
      (hlen : data.length ≤ chunk.toNat) :
      Moved t w (.read data) { t with
        workers := update t.workers w (.requesting offset data)
        sent := t.sent ++ [(offset, data)] }
  | readFailed (offset : BitVec 64) (e : ℤ) (h : t.workers w = .reading offset) :
      Moved t w (.readFailed e) { t with workers := update t.workers w (.leaving e) }
  | acked (offset : BitVec 64) (data : Bytes) (h : t.workers w = .requesting offset data) :
      Moved t w (.reply 0) { t with
        workers := update t.workers w .checking
        answered := t.answered ++ [(offset, data.length, 0)] }
  | refused (offset : BitVec 64) (data : Bytes) (e : ℤ) (he : e ≠ 0)
      (h : t.workers w = .requesting offset data) :
      Moved t w (.reply e) { t with
        workers := update t.workers w (.leaving e)
        answered := t.answered ++ [(offset, data.length, e)] }
  | leave (h : t.workers w = .leaving 0) :
      Moved t w .leave { t with workers := update t.workers w .left }
  | report (e : ℤ) (he : e ≠ 0) (h : t.workers w = .leaving e) :
      Moved t w .leave { t with workers := update t.workers w .left, error := e }

end

variable {size : BitVec 64} {chunk : BitVec 32} {n w : ℕ} {l : SendLabel} {t t' : Transfer}

/-- CORRECT (inversion): every step is one of the above. -/
theorem transferStep_moved (h : transferStep size chunk n t (w, l) = some t') :
    w < n ∧ Moved size chunk t w l t' := by
  rw [transferStep] at h
  split at h
  · rename_i hw
    refine ⟨hw, ?_⟩
    obtain ⟨f, hf, rfl⟩ := Option.map_eq_some_iff.mp h
    cases l <;> simp only [SendFile.move, SendFile.claims, SendFile.sends, SendFile.answers,
      List.append_nil] at hf ⊢
    case alloc =>
      split at hf <;> cases hf
      exact .alloc ‹_›
    case allocFailed e =>
      split at hf <;> cases hf
      exact .allocFailed e ‹_›
    case check =>
      split at hf <;> cases hf
      by_cases he : t.error = 0
      · rw [if_pos he]
        exact .goOn ‹_› he
      · rw [if_neg he]
        exact .stop ‹_› he
    case claim =>
      split at hf
      · split at hf <;> cases hf
        · rw [if_pos ‹_›]
          exact .claim ‹_› ‹_›
        · rw [if_neg ‹_›, List.append_nil]
          exact .finish ‹_› (BitVec.not_lt.mp ‹_›)
      · cases hf
    case read data =>
      split at hf
      · rename_i offset hx
        split at hf <;> cases hf
        exact .read offset data hx ‹_›
      · cases hf
    case readFailed e =>
      split at hf
      · rename_i offset hx
        cases hf
        exact .readFailed offset e hx
      · cases hf
    case reply e =>
      split at hf
      · rename_i offset data hx
        cases hf
        by_cases he : e = 0
        · subst he
          exact .acked offset data hx
        · rw [if_neg he]
          exact .refused offset data e he hx
      · cases hf
    case leave =>
      split at hf
      · rename_i e hx
        cases hf
        by_cases he : e = 0
        · subst he
          exact .leave hx
        · rw [if_pos he]
          exact .report e he hx
      · cases hf
  · cases h

/-- A worker of the system moves as one does here; that its request is delivered is not a move of its
    own. -/
theorem workerStep_move {p : SenderParams} {source : Bytes} {conf : Addr → Conf} {net net' : Net}
    {f f' : FileSender} {wl : WorkerLabel} (h : workerStep p source conf net f w wl = some (net', f'))
    (hlost : ∀ e, wl = .lost e → e ≠ 0) : (∃ i, wl = .request i ∧ f' = f) ∨ ∃ l,
      SendFile.move (fileSize source) p.chunkSize ⟨f.error, f.curOffset, f.workers⟩ w l =
        some ⟨f'.error, f'.curOffset, f'.workers⟩ := by
  cases wl <;> simp only [workerStep] at h
  case alloc =>
    split at h <;> cases h
    exact .inr ⟨.alloc, if_pos ‹_›⟩
  case allocFailed e =>
    split at h <;> cases h
    exact .inr ⟨.allocFailed e, if_pos ‹_›⟩
  case check =>
    split at h <;> cases h
    exact .inr ⟨.check, if_pos ‹_›⟩
  case claim =>
    refine .inr ⟨.claim, ?_⟩
    simp only [SendFile.move]
    split at h
    · rw [if_pos ‹_›]
      split at h <;> cases h
      · rw [if_pos ‹_›]
        rfl
      · rw [if_neg ‹_›]
        rfl
    · cases h
  case read m =>
    split at h
    · rename_i offset hx
      split at h <;> cases h
      refine .inr ⟨.read ((source.drop offset.toNat).take m), ?_⟩
      simp only [SendFile.move, hx]
      exact if_pos ((List.length_take_le _ _).trans ‹_›)
    · cases h
  case readFailed e =>
    split at h
    · rename_i offset hx
      cases h
      exact .inr ⟨.readFailed e, by simp only [SendFile.move, hx]; rfl⟩
    · cases h
  case request i =>
    split at h
    · obtain ⟨net'', _, heq⟩ := Option.map_eq_some_iff.mp h
      cases heq
      exact .inl ⟨i, rfl, rfl⟩
    · cases h
  case reply i =>
    split at h
    · rename_i offset data s r hx _ _
      split at h <;> cases h
      exact .inr ⟨.reply (wireError r.error), by simp only [SendFile.move, hx]; rfl⟩
    · cases h
  case lost e =>
    split at h
    · rename_i offset data hx
      cases h
      refine .inr ⟨.reply e, ?_⟩
      simp only [SendFile.move, hx, if_neg (hlost e rfl)]
      rfl
    · cases h
  case leave =>
    split at h
    · rename_i e hx
      cases h
      exact .inr ⟨.leave, by simp only [SendFile.move, hx]; rfl⟩
    · cases h

/-- The other workers stay where they are. -/
theorem Moved.elsewhere (h : Moved size chunk t w l t') {v : ℕ} (hvw : v ≠ w) :
    t'.workers v = t.workers v := by
  cases h <;> exact update_of_ne hvw ..

/-- There are no other workers. -/
theorem TransferRuns.idle {ls : List (ℕ × SendLabel)} (hr : TransferRuns size chunk n {} ls t) :
    ∀ v, n ≤ v → t.workers v = .start := by
  refine Run.Steps.invariant (P := fun u : Transfer => ∀ v, n ≤ v → u.workers v = .start)
    (fun u x u' hu h v hv => ?_) hr fun v _ => rfl
  obtain ⟨hw, hmoved⟩ := transferStep_moved (l := x.2) h
  rw [hmoved.elsewhere (by omega), hu v hv]

/-! ### Failures -/

/-- Some worker is about to report an error. -/
def Reporting (f : ℕ → Worker) : Prop := ∃ v e, f v = .leaving e ∧ e ≠ 0

/-- Something has failed: it is in `error`, or about to get there. -/
def Transfer.Failed (t : Transfer) : Prop := t.error ≠ 0 ∨ Reporting t.workers

theorem reporting_update {f : ℕ → Worker} {x : Worker} (h : ∀ e, f w = .leaving e → e = 0) :
    Reporting (update f w x) ↔ (∃ e, x = .leaving e ∧ e ≠ 0) ∨ Reporting f := by
  constructor
  · rintro ⟨v, e, hv, he⟩
    by_cases hvw : v = w
    · subst hvw
      rw [update_self] at hv
      exact .inl ⟨e, hv, he⟩
    · rw [update_of_ne hvw] at hv
      exact .inr ⟨v, e, hv, he⟩
  · rintro (⟨e, rfl, he⟩ | ⟨v, e, hv, he⟩)
    · exact ⟨w, e, update_self .., he⟩
    · have hvw : v ≠ w := by
        rintro rfl
        exact he (h e hv)
      exact ⟨v, e, by rw [update_of_ne hvw, hv], he⟩

/-- A step adds its own failure and forgets none. -/
theorem Moved.failed_iff (h : Moved size chunk t w l t') (hl : l.Coded) :
    t'.Failed ↔ t.Failed ∨ l.Fails := by
  -- a worker that moves was not about to report an error, unless it does so now
  have hset : ∀ x : Worker, (∀ e, t.workers w = .leaving e → e = 0) →
      (t.error ≠ 0 ∨ Reporting (update t.workers w x) ↔
        t.Failed ∨ ∃ e, x = .leaving e ∧ e ≠ 0) := fun x hx => by
    rw [reporting_update hx, Transfer.Failed, or_assoc]
    exact or_congr_right or_comm
  cases h with
  | allocFailed e => exact iff_of_true (.inl hl) (.inr trivial)
  | report e he hx => exact iff_of_true (.inl he) (.inl (.inr ⟨w, e, hx, he⟩))
  | refused offset data e he hx =>
    exact iff_of_true (.inr ⟨w, e, update_self .., he⟩) (.inr he)
  | readFailed offset e hx => exact iff_of_true (.inr ⟨w, e, update_self .., hl⟩) (.inr trivial)
  | leave hx => exact (hset _ (by simp [hx])).trans (by simp [SendLabel.Fails])
  | alloc hx => exact (hset _ (by simp [hx])).trans (by simp [SendLabel.Fails])
  | goOn hx => exact (hset _ (by simp [hx])).trans (by simp [SendLabel.Fails])
  | stop hx => exact (hset _ (by simp [hx])).trans (by simp [SendLabel.Fails])
  | claim hx => exact (hset _ (by simp [hx])).trans (by simp [SendLabel.Fails])
  | finish hx => exact (hset _ (by simp [hx])).trans (by simp [SendLabel.Fails])
  | read offset data hx => exact (hset _ (by simp [hx])).trans (by simp [SendLabel.Fails])
  | acked offset data hx => exact (hset _ (by simp [hx])).trans (by simp [SendLabel.Fails])

/-- CORRECT (failures): a failure of a run is still known at its end, and nothing else is. -/
theorem TransferRuns.failed_iff {ls : List (ℕ × SendLabel)} (hr : TransferRuns size chunk n t ls t')
    (hl : ∀ w l, (w, l) ∈ ls → l.Coded) :
    t'.Failed ↔ t.Failed ∨ ∃ w l, (w, l) ∈ ls ∧ l.Fails := by
  induction hr with
  | nil t => simp
  | @cons t u t' x ls hx hls ih =>
    obtain ⟨w, l⟩ := x
    rw [ih fun v m hm => hl v m (List.mem_cons_of_mem _ hm),
      (transferStep_moved hx).2.failed_iff (hl w l List.mem_cons_self), or_assoc]
    refine or_congr_right ⟨?_, ?_⟩
    · rintro (h | ⟨v, m, hm, h⟩)
      · exact ⟨w, l, List.mem_cons_self, h⟩
      · exact ⟨v, m, List.mem_cons_of_mem _ hm, h⟩
    · rintro ⟨v, m, hm, h⟩
      rcases List.mem_cons.mp hm with heq | hm
      · cases heq
        exact .inl h
      · exact .inr ⟨v, m, hm, h⟩

theorem TransferRuns.fails_iff {ls : List (ℕ × SendLabel)} (hr : TransferRuns size chunk n {} ls t)
    (hl : ∀ w l, (w, l) ∈ ls → l.Coded) : t.Failed ↔ ∃ w l, (w, l) ∈ ls ∧ l.Fails :=
  (hr.failed_iff hl).trans (or_iff_right (by simp [Transfer.Failed, Reporting]))

/-! ### Claims -/

/-- The worker has claimed the offset and its chunk is not acknowledged yet. -/
def Worker.Holds (offset : BitVec 64) : Worker → Prop
  | .reading o | .requesting o _ => o = offset
  | _ => False

theorem holds_update {f : ℕ → Worker} {x : Worker} (hx : ∀ o, x.Holds o → (f w).Holds o) {v : ℕ}
    {o : BitVec 64} (h : (update f w x v).Holds o) : (f v).Holds o := by
  by_cases hv : v = w
  · subst hv
    rw [update_self] at h
    exact hx o h
  · rwa [update_of_ne hv] at h

/-- The claims are the multiples of the chunk size, one after the other. -/
structure Claims (size : BitVec 64) (chunk : BitVec 32) (t : Transfer) : Prop where
  cur : t.curOffset.toNat = t.claimed.length * chunk.toNat
  offset : ∀ (k : ℕ) x, t.claimed[k]? = some x → x.2.toNat = k * chunk.toNat ∧ x.2 < size
  holds : ∀ v o, (t.workers v).Holds o → (v, o) ∈ t.claimed

/-- `cur_offset` does not wrap: it is at most a chunk beyond a file that is shorter than `2 ^ 63`. -/
theorem advance_toNat {cur : BitVec 64} (hsize : size.toNat < 2 ^ 63) (hlt : cur < size) :
    (cur + chunk.setWidth 64).toNat = cur.toNat + chunk.toNat := by
  have := chunk.isLt
  have hlt' : cur.toNat < size.toNat := hlt
  rw [BitVec.toNat_add, toNat_size, Nat.mod_eq_of_lt (by omega)]

theorem Moved.claims (h : Moved size chunk t w l t') (hsize : size.toNat < 2 ^ 63)
    (ht : Claims size chunk t) : Claims size chunk t' := by
  -- a worker that claims nothing new holds what it held
  have hset : ∀ x : Worker, (∀ o, x.Holds o → (t.workers w).Holds o) →
      ∀ v o, (update t.workers w x v).Holds o → (v, o) ∈ t.claimed :=
    fun x hx v o ho => ht.holds v o (holds_update hx ho)
  cases h with
  | claim hx hlt =>
    refine ⟨?_, fun k y hy => ?_, fun v o ho => ?_⟩
    · rw [advance_toNat hsize hlt, ht.cur, List.length_append, List.length_singleton, Nat.succ_mul]
    · rcases Nat.lt_or_ge k t.claimed.length with hk | hk
      · rw [List.getElem?_append_left hk] at hy
        exact ht.offset k y hy
      · rw [List.getElem?_append_right hk] at hy
        obtain ⟨hk', rfl⟩ := List.getElem?_eq_some_iff.mp hy
        have hkl : k = t.claimed.length := by
          rw [List.length_singleton] at hk'
          omega
        rw [List.getElem_singleton, ht.cur, hkl]
        exact ⟨rfl, hlt⟩
    · by_cases hv : v = w
      · subst hv
        simp only [update_self] at ho
        cases ho
        exact List.mem_append_right _ List.mem_cons_self
      · simp only [update_of_ne hv] at ho
        exact List.mem_append_left _ (ht.holds v o ho)
  | read offset data hx => exact ⟨ht.cur, ht.offset, hset _ fun o ho => by rw [hx]; exact ho⟩
  | _ => exact ⟨ht.cur, ht.offset, hset _ fun o ho => ho.elim⟩

theorem Claims.unique (ht : Claims size chunk t) (hchunk : 0 < chunk.toNat) {j k : ℕ}
    {x y : ℕ × BitVec 64} (hx : t.claimed[j]? = some x) (hy : t.claimed[k]? = some y)
    (h : x.2 = y.2) : j = k := by
  have hj := (ht.offset j x hx).1
  have hk := (ht.offset k y hy).1
  rw [h, hk] at hj
  exact (Nat.eq_of_mul_eq_mul_right hchunk hj).symm

/-- No offset is claimed twice. -/
theorem Claims.nodup (ht : Claims size chunk t) (hchunk : 0 < chunk.toNat) :
    (t.claimed.map Prod.snd).Nodup := by
  rw [List.nodup_iff_getElem?_ne_getElem?]
  intro j k hjk hk heq
  rw [List.length_map] at hk
  have hj : j < t.claimed.length := hjk.trans hk
  simp only [List.getElem?_map, List.getElem?_eq_getElem hj, List.getElem?_eq_getElem hk,
    Option.map_some, Option.some.injEq] at heq
  exact hjk.ne (ht.unique hchunk (List.getElem?_eq_getElem hj) (List.getElem?_eq_getElem hk) heq)

/-- Only one worker holds an offset. -/
theorem Claims.holder (ht : Claims size chunk t) (hchunk : 0 < chunk.toNat) {v v' : ℕ}
    {o : BitVec 64} (h : (v, o) ∈ t.claimed) (h' : (v', o) ∈ t.claimed) : v = v' := by
  obtain ⟨j, hj⟩ := List.getElem?_of_mem h
  obtain ⟨k, hk⟩ := List.getElem?_of_mem h'
  obtain rfl := ht.unique hchunk hj hk rfl
  rw [hj] at hk
  cases hk
  rfl

/-- The offset about to be claimed is new. -/
theorem Claims.fresh (ht : Claims size chunk t) (hchunk : 0 < chunk.toNat) (v : ℕ) :
    (v, t.curOffset) ∉ t.claimed := by
  intro hmem
  obtain ⟨k, hk⟩ := List.getElem?_of_mem hmem
  have heq := (ht.offset k _ hk).1
  rw [ht.cur] at heq
  have hlt := (List.getElem?_eq_some_iff.mp hk).1
  exact hlt.ne (Nat.eq_of_mul_eq_mul_right hchunk heq).symm

/-! ### Requests -/

/-- Each claimed chunk is read once, each chunk read is one request, and each request is answered, as
    long as nothing has failed. -/
structure Requests (chunk : BitVec 32) (t : Transfer) : Prop where
  nodup : (t.sent.map Prod.fst).Nodup
  claimed : ∀ o d, (o, d) ∈ t.sent → (∃ v, (v, o) ∈ t.claimed) ∧ d.length ≤ chunk.toNat
  fresh : ∀ v o, t.workers v = .reading o → ∀ d, (o, d) ∉ t.sent
  out : ∀ v o d, t.workers v = .requesting o d → (o, d) ∈ t.sent
  read : ∀ v o, (v, o) ∈ t.claimed → t.Failed ∨ t.workers v = .reading o ∨ ∃ d, (o, d) ∈ t.sent
  answered : ∀ o d, (o, d) ∈ t.sent →
    t.Failed ∨ (∃ v, t.workers v = .requesting o d) ∨ (o, d.length, 0) ∈ t.answered
  source : ∀ o m e, (o, m, e) ∈ t.answered → ∃ d, (o, d) ∈ t.sent ∧ d.length = m

/-- A request that is out stays out until it is answered. -/
theorem Moved.requesting (h : Moved size chunk t w l t') (hl : l.Coded) {v : ℕ} {o : BitVec 64}
    {d : Bytes} (hv : t.workers v = .requesting o d) :
    t'.Failed ∨ t'.workers v = .requesting o d ∨ (o, d.length, 0) ∈ t'.answered := by
  have hfail := fun hf => (h.failed_iff hl).mpr (.inr hf)
  cases h <;> grind [update_apply, SendLabel.Fails]

/-- A claimed chunk stays with its worker until it is read. -/
theorem Moved.reading (h : Moved size chunk t w l t') (hl : l.Coded) {v : ℕ} {o : BitVec 64}
    (hv : t.workers v = .reading o) :
    t'.Failed ∨ t'.workers v = .reading o ∨ ∃ d, (o, d) ∈ t'.sent := by
  have hfail := fun hf => (h.failed_iff hl).mpr (.inr hf)
  cases h <;> grind [update_apply, SendLabel.Fails]

theorem Moved.sent_subset (h : Moved size chunk t w l t') : t.sent ⊆ t'.sent := by
  cases h <;> grind

theorem Moved.answered_subset (h : Moved size chunk t w l t') : t.answered ⊆ t'.answered := by
  cases h <;> grind

theorem Moved.requests (h : Moved size chunk t w l t') (hl : l.Coded) (hchunk : 0 < chunk.toNat)
    (hc : Claims size chunk t) (ht : Requests chunk t) : Requests chunk t' where
  nodup := by
    cases h with
    | read offset data hx hlen =>
      rw [List.map_append, List.map_singleton, List.nodup_append_comm, List.singleton_append,
        List.nodup_cons]
      refine ⟨fun hmem => ?_, ht.nodup⟩
      obtain ⟨⟨o, d⟩, hd, rfl⟩ := List.mem_map.mp hmem
      exact ht.fresh w o hx d hd
    | _ => exact ht.nodup
  claimed o d hd := by
    cases h with
    | claim hx hlt =>
      obtain ⟨⟨v, hv⟩, hlen⟩ := ht.claimed o d hd
      exact ⟨⟨v, List.mem_append_left _ hv⟩, hlen⟩
    | read offset data hx hlen =>
      rcases List.mem_append.mp hd with hd | hd
      · exact ht.claimed o d hd
      · cases List.mem_singleton.mp hd
        exact ⟨⟨w, hc.holds w o (by rw [hx]; rfl)⟩, hlen⟩
    | _ => exact ht.claimed o d hd
  fresh v o hv d hd := by
    have hold := ht.fresh v o
    cases h with
    | claim hx hlt =>
      by_cases hvw : v = w
      · subst hvw
        simp only [update_self, Worker.reading.injEq] at hv
        obtain ⟨⟨v', hv'⟩, _⟩ := ht.claimed o d hd
        exact hc.fresh hchunk v' (hv ▸ hv')
      · simp only [update_of_ne hvw] at hv
        exact hold hv d hd
    | read offset data hx hlen =>
      have hvw : v ≠ w := by
        rintro rfl
        simp only [update_self, reduceCtorEq] at hv
      simp only [update_of_ne hvw] at hv
      rcases List.mem_append.mp hd with hd | hd
      · exact hold hv d hd
      · cases List.mem_singleton.mp hd
        exact hvw (hc.holder hchunk (hc.holds v o (by rw [hv]; rfl)) (hc.holds w o (by rw [hx]; rfl)))
    | _ => grind [update_apply]
  out v o d hv := by
    have hold := ht.out v o d
    cases h <;> grind [update_apply]
  read v o hv := by
    have hold : (v, o) ∈ t.claimed → t'.Failed ∨ t'.workers v = .reading o ∨ ∃ d, (o, d) ∈ t'.sent := by
      intro hmem
      rcases ht.read v o hmem with hf | hx | ⟨d, hd⟩
      · exact .inl ((h.failed_iff hl).mpr (.inl hf))
      · exact h.reading hl hx
      · exact .inr (.inr ⟨d, h.sent_subset hd⟩)
    cases h with
    | claim hx hlt =>
      rcases List.mem_append.mp hv with hv | hv
      · exact hold hv
      · cases List.mem_singleton.mp hv
        exact .inr (.inl (update_self ..))
    | _ => exact hold hv
  answered o d hd := by
    have hold : (o, d) ∈ t.sent →
        t'.Failed ∨ (∃ v, t'.workers v = .requesting o d) ∨ (o, d.length, 0) ∈ t'.answered := by
      intro hmem
      rcases ht.answered o d hmem with hf | ⟨v, hx⟩ | ha
      · exact .inl ((h.failed_iff hl).mpr (.inl hf))
      · exact (h.requesting hl hx).imp_right fun hv => hv.imp_left fun hv => ⟨v, hv⟩
      · exact .inr (.inr (h.answered_subset ha))
    cases h with
    | read offset data hx hlen =>
      rcases List.mem_append.mp hd with hd | hd
      · exact hold hd
      · cases List.mem_singleton.mp hd
        exact .inr (.inl ⟨w, update_self ..⟩)
    | _ => exact hold hd
  source o m e ha := by
    have hold : (o, m, e) ∈ t.answered → ∃ d, (o, d) ∈ t'.sent ∧ d.length = m := by
      intro hmem
      obtain ⟨d, hd, hlen⟩ := ht.source o m e hmem
      exact ⟨d, h.sent_subset hd, hlen⟩
    have hout := ht.out w
    cases h <;> grind

/-! ### The end -/

/-- Workers leave on an error or when there is nothing left to claim; there are `n` of them. -/
structure Ending (size : BitVec 64) (n : ℕ) (t : Transfer) : Prop where
  stopped : ∀ v, t.workers v = .left ∨ t.workers v = .leaving 0 →
    t.Failed ∨ size.toNat ≤ t.curOffset.toNat
  idle : ∀ v, n ≤ v → t.workers v = .start

theorem Moved.ending (h : Moved size chunk t w l t') (hl : l.Coded) (hw : w < n)
    (hsize : size.toNat < 2 ^ 63) (ht : Ending size n t) : Ending size n t' where
  stopped v hv := by
    have hfailed := h.failed_iff hl
    have hold := ht.stopped v
    cases h with
    | claim hx hlt =>
      by_cases hvw : v = w
      · subst hvw
        simp [update_self] at hv
      · simp only [update_of_ne hvw] at hv
        refine (hold hv).imp (fun hf => hfailed.mpr (.inl hf)) fun hle => ?_
        simp only [advance_toNat hsize hlt]
        omega
    | finish hx hge => exact .inr hge
    | leave hx => exact (ht.stopped w (.inr hx)).imp_left fun hf => hfailed.mpr (.inl hf)
    | stop hx he => exact .inl (hfailed.mpr (.inl (.inl he)))
    | allocFailed e => exact .inl (hfailed.mpr (.inr trivial))
    | readFailed offset e => exact .inl (hfailed.mpr (.inr trivial))
    | refused offset data e he => exact .inl (hfailed.mpr (.inr he))
    | report e he hx => exact .inl (hfailed.mpr (.inl (.inr ⟨w, e, hx, he⟩)))
    | _ =>
      by_cases hvw : v = w
      · subst hvw
        simp [update_self] at hv
      · simp only [update_of_ne hvw] at hv
        exact (hold hv).imp_left fun hf => hfailed.mpr (.inl hf)
  idle v hv := by rw [h.elsewhere (show v ≠ w by omega), ht.idle v hv]

/-- What holds after any run. -/
structure Transferred (size : BitVec 64) (chunk : BitVec 32) (n : ℕ) (t : Transfer) : Prop where
  claims : Claims size chunk t
  requests : Requests chunk t
  ending : Ending size n t

theorem transferred_start : Transferred size chunk n {} where
  claims := ⟨by simp, by simp, fun v o h => h.elim⟩
  requests := by
    refine ⟨List.nodup_nil, ?_, ?_, ?_, ?_, ?_, ?_⟩ <;> simp
  ending := ⟨by simp, fun v _ => rfl⟩

/-- CORRECT (one step): what holds of the claims, requests and workers still does after a step. -/
theorem Transferred.preserved (ht : Transferred size chunk n t) (hsize : size.toNat < 2 ^ 63)
    (hchunk : 0 < chunk.toNat) (hl : l.Coded)
    (h : transferStep size chunk n t (w, l) = some t') :
    Transferred size chunk n t' := by
  obtain ⟨hw, hm⟩ := transferStep_moved h
  exact ⟨hm.claims hsize ht.claims, hm.requests hl hchunk ht.claims ht.requests,
    hm.ending hl hw hsize ht.ending⟩

theorem TransferRuns.transferred {ls : List (ℕ × SendLabel)}
    (hr : TransferRuns size chunk n {} ls t) (hsize : size.toNat < 2 ^ 63) (hchunk : 0 < chunk.toNat)
    (hl : ∀ w l, (w, l) ∈ ls → l.Coded) : Transferred size chunk n t :=
  hr.guarded (G := fun _ x => x.2.Coded)
    (fun _ _ _ ht hl h => ht.preserved hsize hchunk hl h)
    (hr.everyStep_label_iff.mpr fun x hx => hl x.1 x.2 hx) transferred_start

/-! ### All chunks -/

theorem Claims.length_lt (ht : Claims size chunk t) (hchunk : 0 < chunk.toNat)
    (hlt : t.curOffset < size) : t.claimed.length < chunkCount size chunk := by
  have hcur : t.curOffset.toNat < size.toNat := hlt
  rw [ht.cur] at hcur
  rw [chunkCount, ← Nat.succ_le_iff, Nat.le_div_iff_mul_le hchunk, Nat.succ_mul]
  omega

theorem Claims.length_eq (ht : Claims size chunk t) (hchunk : 0 < chunk.toNat)
    (hge : size.toNat ≤ t.curOffset.toNat) : t.claimed.length = chunkCount size chunk := by
  rw [ht.cur] at hge
  refine Nat.le_antisymm ?_ ?_
  · -- the last claim was below the end
    cases hlen : t.claimed.length with
    | zero => exact Nat.zero_le _
    | succ k =>
      have hk : k < t.claimed.length := by omega
      obtain ⟨heq, hlt⟩ := ht.offset k _ (List.getElem?_eq_getElem hk)
      have hlt' : k * chunk.toNat < size.toNat := heq ▸ hlt
      rw [chunkCount, Nat.le_div_iff_mul_le hchunk, Nat.succ_mul]
      omega
  · rw [chunkCount, ← Nat.lt_succ_iff, Nat.div_lt_iff_lt_mul hchunk, Nat.succ_mul]
    omega

/-- Without a failure a sender that is done has had every chunk claimed, sent and acknowledged. -/
theorem Transferred.complete (ht : Transferred size chunk n t) (hchunk : 0 < chunk.toNat)
    (hn : 0 < n) (hleft : ∀ v < n, t.workers v = .left) (hf : ¬t.Failed) :
    t.claimed.length = chunkCount size chunk ∧
      (∀ v o, (v, o) ∈ t.claimed → ∃ d, (o, d) ∈ t.sent) ∧
      ∀ o d, (o, d) ∈ t.sent → (o, d.length, 0) ∈ t.answered := by
  have hend := (ht.ending.stopped 0 (.inl (hleft 0 hn))).resolve_left hf
  -- a worker has left or never started
  have hnone : ∀ v, t.workers v = .left ∨ t.workers v = .start := by
    intro v
    rcases Nat.lt_or_ge v n with hv | hv
    · exact .inl (hleft v hv)
    · exact .inr (ht.ending.idle v hv)
  refine ⟨ht.claims.length_eq hchunk hend, fun v o hv => ?_, fun o d hd => ?_⟩
  · rcases ht.requests.read v o hv with h | h | h
    · exact absurd h hf
    · rcases hnone v with h' | h' <;> rw [h] at h' <;> cases h'
    · exact h
  · rcases ht.requests.answered o d hd with h | ⟨v, h⟩ | h
    · exact absurd h hf
    · rcases hnone v with h' | h' <;> rw [h] at h' <;> cases h'
    · exact h

theorem Transferred.sent_length (ht : Transferred size chunk n t) (hchunk : 0 < chunk.toNat)
    (hall : ∀ v o, (v, o) ∈ t.claimed → ∃ d, (o, d) ∈ t.sent) :
    t.sent.length = t.claimed.length := by
  have hperm : (t.sent.map Prod.fst).Perm (t.claimed.map Prod.snd) := by
    rw [List.perm_ext_iff_of_nodup ht.requests.nodup (ht.claims.nodup hchunk)]
    intro o
    constructor
    · intro ho
      obtain ⟨⟨o, d⟩, hd, rfl⟩ := List.mem_map.mp ho
      obtain ⟨⟨v, hv⟩, _⟩ := ht.requests.claimed o d hd
      exact List.mem_map_of_mem hv
    · intro ho
      obtain ⟨⟨v, o⟩, hv, rfl⟩ := List.mem_map.mp ho
      obtain ⟨d, hd⟩ := hall v o hv
      exact List.mem_map_of_mem hd
  simpa using hperm.length_eq

/-! ### Loops end -/

/-- The steps a worker still has before it claims again. -/
def Worker.weight : Worker → ℕ
  | .left => 0
  | .leaving _ => 1
  | .claiming => 2
  | .checking => 3
  | .start | .requesting _ _ => 4
  | .reading _ => 5

/-- The steps `n` workers can still take. -/
def Transfer.rank (size : BitVec 64) (chunk : BitVec 32) (n : ℕ) (t : Transfer) : ℕ :=
  4 * (chunkCount size chunk - t.claimed.length) + ∑ v ∈ Finset.range n, (t.workers v).weight

theorem weight_update {f : ℕ → Worker} (x : Worker) (hw : w < n) :
    ∑ v ∈ Finset.range n, (update f w x v).weight + (f w).weight =
      ∑ v ∈ Finset.range n, (f v).weight + x.weight := by
  have hmem : w ∈ Finset.range n := Finset.mem_range.mpr hw
  have hrest : ∑ v ∈ (Finset.range n).erase w, (update f w x v).weight =
      ∑ v ∈ (Finset.range n).erase w, (f v).weight :=
    Finset.sum_congr rfl fun v hv => by rw [update_of_ne (Finset.ne_of_mem_erase hv)]
  rw [← Finset.sum_erase_add _ _ hmem, ← Finset.sum_erase_add _ (fun v => (f v).weight) hmem, hrest,
    update_self]
  omega

/-- CORRECT (termination): every step uses up some of the rank. -/
theorem Moved.rank_lt (h : Moved size chunk t w l t') (hw : w < n) (hchunk : 0 < chunk.toNat)
    (hc : Claims size chunk t) : t'.rank size chunk n < t.rank size chunk n := by
  have hset : ∀ x : Worker, x.weight < (t.workers w).weight →
      ∑ v ∈ Finset.range n, (update t.workers w x v).weight <
        ∑ v ∈ Finset.range n, (t.workers v).weight := by
    intro x hx
    have := weight_update (f := t.workers) x hw
    omega
  simp only [Transfer.rank]
  cases h with
  | claim hx hlt =>
    have hsum := weight_update (f := t.workers) (.reading t.curOffset) hw
    have hlen := hc.length_lt hchunk hlt
    rw [hx] at hsum
    simp only [Worker.weight, List.length_append, List.length_singleton] at hsum ⊢
    omega
  | _ => exact Nat.add_lt_add_left (hset _ (by simp [Worker.weight, *])) _

/-- A worker that has not left can go on. -/
theorem transferStep_progress (hw : w < n) (hleft : t.workers w ≠ .left) :
    ∃ l, (transferStep size chunk n t (w, l)).isSome = true := by
  simp only [transferStep, if_pos hw, Option.isSome_map]
  cases hx : t.workers w with
  | start => exact ⟨.alloc, by simp [SendFile.move, hx]⟩
  | checking => exact ⟨.check, by simp [SendFile.move, hx]⟩
  | claiming =>
    refine ⟨.claim, ?_⟩
    simp only [SendFile.move, if_pos hx]
    split <;> rfl
  | reading offset => exact ⟨.read [], by simp [SendFile.move, hx]⟩
  | requesting offset data => exact ⟨.reply 0, by simp [SendFile.move, hx]⟩
  | leaving e => exact ⟨.leave, by simp [SendFile.move, hx]⟩
  | left => exact absurd hx hleft

theorem Transfer.returned_eq {e : ℤ} (h : t.returned n = some e) :
    (∀ v < n, t.workers v = .left) ∧ t.error = e := by
  rw [Transfer.returned] at h
  split at h
  · rename_i hall
    cases h
    exact ⟨fun v hv => by simpa using List.all_eq_true.mp hall v (List.mem_range.mpr hv), rfl⟩
  · cases h

/-- Once all workers have left, a failure is in `error`. -/
theorem Transfer.failed_iff (hleft : ∀ v < n, t.workers v = .left)
    (hidle : ∀ v, n ≤ v → t.workers v = .start) : t.Failed ↔ t.error ≠ 0 := by
  refine ⟨?_, .inl⟩
  rintro (h | ⟨v, e, hv, _⟩)
  · exact h
  · rcases Nat.lt_or_ge v n with hvn | hvn
    · rw [hleft v hvn] at hv
      cases hv
    · rw [hidle v hvn] at hv
      cases hv

/-- CORRECT (workers): in every run of the workers the claims are different multiples of the chunk size
    below the size of the file and `cur_offset` counts them without wrapping; the run has at most so
    many steps, and a worker that has not left can take one; and `send_file` returns non-zero after a
    failure, and 0 only when every chunk was sent in one request and that was answered with 0. -/
theorem send_file_claims {ls : List (ℕ × SendLabel)} (hsize : size.toNat < 2 ^ 63)
    (hchunk : 0 < chunk.toNat) (hn : 0 < n) (hr : TransferRuns size chunk n {} ls t)
    (hcoded : ∀ w l, (w, l) ∈ ls → l.Coded) :
    ((∀ w o, (w, o) ∈ t.claimed → chunk.toNat ∣ o.toNat ∧ o < size) ∧
      (t.claimed.map Prod.snd).Nodup ∧
      t.curOffset.toNat = t.claimed.length * chunk.toNat) ∧
    (ls.length ≤ 4 * chunkCount size chunk + 4 * n ∧
      ∀ w < n, t.workers w ≠ .left → ∃ l, (transferStep size chunk n t (w, l)).isSome = true) ∧
    ∀ e, t.returned n = some e →
      ((∃ w l, (w, l) ∈ ls ∧ l.Fails) → e ≠ 0) ∧
      (e = 0 → t.sent.length = chunkCount size chunk ∧
        ∀ o d, (o, d) ∈ t.sent → (o, d.length, 0) ∈ t.answered) := by
  have ht := hr.transferred hsize hchunk hcoded
  refine ⟨⟨fun w o ho => ?_, ht.claims.nodup hchunk, ht.claims.cur⟩,
    ⟨?_, fun w hw hleft => transferStep_progress hw hleft⟩, fun e he => ?_⟩
  · obtain ⟨k, hk⟩ := List.getElem?_of_mem ho
    obtain ⟨heq, hlt⟩ := ht.claims.offset k _ hk
    exact ⟨⟨k, by rw [heq, Nat.mul_comm]⟩, hlt⟩
  · have hrank : ∀ (u : Transfer) (x : ℕ × SendLabel) (u' : Transfer), Transferred size chunk n u →
        Run.ofStep (transferStep size chunk n) u x u' →
          Transfer.rank size chunk n u' < Transfer.rank size chunk n u := by
      intro u x u' hu h
      obtain ⟨hw, hmoved⟩ := transferStep_moved (l := x.2) h
      exact hmoved.rank_lt hw hchunk hu.claims
    have hlen := hr.length_add_rank_le (G := fun _ x => x.2.Coded)
      (fun _ _ _ ht hl h => ht.preserved hsize hchunk hl h) hrank
      (hr.everyStep_label_iff.mpr fun x hx => hcoded x.1 x.2 hx) transferred_start
    have hstart : Transfer.rank size chunk n {} = 4 * chunkCount size chunk + 4 * n := by
      simp [Transfer.rank, Worker.weight, Nat.mul_comm]
    omega
  · obtain ⟨hleft, rfl⟩ := Transfer.returned_eq he
    have herror := Transfer.failed_iff hleft ht.ending.idle
    refine ⟨fun hfail => herror.mp ((hr.fails_iff hcoded).mpr hfail), fun hzero => ?_⟩
    have hf : ¬t.Failed := fun hf => herror.mp hf hzero
    obtain ⟨hcount, hread, hack⟩ := ht.complete hchunk hn hleft hf
    exact ⟨(ht.sent_length hchunk hread).trans hcount, hack⟩

/-- A file of three bytes, sent in chunks of two by one worker. -/
def sampleTransfer : List (ℕ × SendLabel) :=
  [(0, .alloc), (0, .check), (0, .claim), (0, .read [1, 2]), (0, .reply 0), (0, .check), (0, .claim),
    (0, .read [3]), (0, .reply 0), (0, .check), (0, .claim), (0, .leave)]

theorem send_file_claims_two : ∃ t, TransferRuns 3 2 1 {} sampleTransfer t ∧
    t.returned 1 = some 0 ∧ t.sent.length = chunkCount 3 2 := by
  have hrun : (Run.exec (transferStep 3 2 1) {} sampleTransfer).any
      (fun t => t.returned 1 = some 0) = true := by decide +kernel
  obtain ⟨t, hr, hret⟩ := Run.steps_of_any hrun
  have hret' := of_decide_eq_true hret
  have hcoded : ∀ x ∈ sampleTransfer, x.2.Coded := by simp [sampleTransfer, SendLabel.Coded]
  exact ⟨t, hr, hret',
    (((send_file_claims (by decide) (by decide) (by decide) hr fun w l => hcoded (w, l)).2.2 0 hret').2 rfl).1⟩

end Fcopy
