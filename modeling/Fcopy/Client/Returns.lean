import Fcopy.Client.SendFile
import Fcopy.Client.Batch
import Fcopy.Client.Topology
import Fcopy.Network.Completion

/-! An upload returns (`upload_file` and the `FileSender` it drives).

    Each loop of the sender has its bound, and what is ahead of it only gets less:

        start ─▶ opening ─▶ linking ─▶ sending ─▶ closing ─▶ closed
                 targets    links      workers,   tokens
                                       chunks

    Where the sender waits, it waits for a handler that can be brought to its end. So whatever has
    happened, an upload can still be finished by the sender and the servers alone. -/

namespace Fcopy
open Function Run

/-! ### The bound -/

section
variable (p : SenderParams) (source : Bytes)

/-- The chunks from `curOffset` on. -/
def chunksLeft (curOffset : BitVec 64) : ℕ :=
  (source.length - curOffset.toNat + p.chunkSize.toNat - 1) / p.chunkSize.toNat

/-- The steps of the workers. -/
def sendMoves (f : FileSender) : ℕ :=
  4 * chunksLeft p source f.curOffset + ∑ w ∈ Finset.range p.parallel, (f.workers w).weight

/-- From the end of `create_file` on, with `tokens` tokens. -/
def createdMoves (tokens : ℕ) : ℕ := 4 * chunksLeft p source 0 + 4 * p.parallel + tokens + 2

def openedMoves (tokens : ℕ) : ℕ :=
  p.sendMethod.requestCount tokens + 1 + createdMoves p source tokens

/-- What is ahead of the sender at most; a request and its end are one. -/
def FileSender.moves (f : FileSender) : ℕ :=
  match f.phase with
  | .start => p.targets.length + 2 + openedMoves p source p.targets.length
  | .opening => p.targets.length - f.fileTokens.length + 1 + openedMoves p source p.targets.length
  | .linking i =>
    p.sendMethod.requestCount f.fileTokens.length - i + 1 + createdMoves p source f.fileTokens.length
  | .sending => sendMoves p source f + f.fileTokens.length + 2
  | .closing i _ => f.fileTokens.length - i + 1
  | .closed => 0

def Sys.rank (sys : Sys) : ℕ := 2 * sys.sender.moves p source + if sys.call = none then 1 else 0

end

/-- The sender does something, other than to deliver the request of a worker or one request again. -/
def SysLabel.isMove : SysLabel → Bool
  | .retry _ | .serve _ | .net _ | .work _ (.request _) => false
  | _ => true

variable {conf : Addr → Conf} {p : SenderParams} {source : Bytes} {f f' : FileSender} {net net' : Net}
  {sys sys' : Sys}

theorem chunksLeft_claim (hchunk : 0 < p.chunkSize.toNat) {cur : BitVec 64} (hlt : cur.toNat < source.length)
    (hsource : source.length < 2 ^ 63) :
    chunksLeft p source (cur + p.chunkSize.setWidth 64) + 1 ≤ chunksLeft p source cur := by
  have hch := p.chunkSize.isLt
  have hnext : (cur + p.chunkSize.setWidth 64).toNat = cur.toNat + p.chunkSize.toNat := by
    rw [BitVec.toNat_add, toNat_size, Nat.mod_eq_of_lt (by omega)]
  rw [chunksLeft, chunksLeft, hnext]
  by_cases hfull : p.chunkSize.toNat ≤ source.length - cur.toNat
  · rw [← Nat.add_div_right _ hchunk]
    exact Nat.div_le_div_right (by omega)
  · rw [Nat.div_eq_of_lt (by omega), Nat.zero_add]
    exact (Nat.le_div_iff_mul_le hchunk).mpr (by omega)

theorem requestCount_mono (m : SendMethod) {j k : ℕ} (h : j ≤ k) : m.requestCount j ≤ m.requestCount k := by
  cases m with
  | chain => exact Nat.sub_le_sub_right h 1
  | tree => exact Nat.div_le_div_right h

variable (p source) in
theorem createdMoves_mono {j k : ℕ} (h : j ≤ k) : createdMoves p source j ≤ createdMoves p source k := by
  simp only [createdMoves]
  omega

/-! ### The sender comes nearer to its end -/

variable (p source) in
theorem moves_returnCreate (f : FileSender) (e : ℤ) :
    (f.returnCreate e).moves p source ≤ createdMoves p source f.fileTokens.length := by
  rw [FileSender.returnCreate]
  split
  · have hsum : ∑ w ∈ Finset.range p.parallel, Worker.start.weight = p.parallel * 4 := by
      rw [Finset.sum_const_nat fun _ _ => rfl, Finset.card_range]
      rfl
    simp only [FileSender.moves, sendMoves, createdMoves, hsum]
    omega
  · simp only [FileSender.moves, createdMoves]
    omega

theorem moves_receive {a : Addr} {req : Request} (hreq : f.request p source = some (a, req))
    (htok : f.fileTokens.length ≤ p.targets.length) (e : ℤ) (token : Bytes) :
    (f.receive e token).moves p source < f.moves p source := by
  have hreturn := moves_returnCreate p source f e
  have hmono := createdMoves_mono p source htok
  rcases FileSender.request_cases hreq with ⟨hphase, hlt, _⟩ | ⟨i, hphase, hne, _⟩ | ⟨i, first, hphase, hlt, _⟩
  · simp only [FileSender.receive, hphase]
    split
    · simp only [FileSender.moves, hphase, openedMoves] at hreturn ⊢
      omega
    · simp only [FileSender.moves, hphase, List.length_append, List.length_singleton]
      omega
  · have hi : i < p.sendMethod.requestCount f.fileTokens.length := by
      by_contra hge
      exact hne (by rw [linkTargets, linksOf_eq_nil.mpr (not_lt.mp hge), List.map_nil])
    simp only [FileSender.receive, hphase]
    split
    · simp only [FileSender.moves, hphase] at hreturn ⊢
      omega
    · simp only [FileSender.moves, hphase]
      omega
  · have hlen : (if e = 0 then f.fileTokens.set i [] else f.fileTokens).length = f.fileTokens.length := by
      split
      · exact List.length_set
      · rfl
    simp only [FileSender.receive, hphase, FileSender.moves, hlen]
    omega

variable (source) in
theorem moves_next (htok : f.fileTokens.length ≤ p.targets.length) (hnext : f.next p = some f') :
    f'.moves p source < f.moves p source := by
  have hreturn := fun e => moves_returnCreate p source f e
  have hmono := createdMoves_mono p source htok
  have hcount := requestCount_mono p.sendMethod htok
  rw [FileSender.next] at hnext
  split at hnext
  · rename_i hphase
    split at hnext <;> cases hnext
    · have hreturn := hreturn EINVAL
      simp only [FileSender.moves, hphase, openedMoves] at hreturn ⊢
      omega
    · simp only [FileSender.moves, hphase, openedMoves]
      omega
  · rename_i i hphase
    cases hnext
    have hreturn := hreturn 0
    simp only [FileSender.moves, hphase] at hreturn ⊢
    omega
  · rename_i hphase
    split at hnext <;> cases hnext
    simp only [FileSender.moves, hphase]
    omega
  · rename_i hphase
    split at hnext <;> cases hnext
    · simp only [FileSender.moves, hphase]
      omega
    · simp only [FileSender.moves, hphase]
      omega
  · cases hnext

/-- A worker comes nearer, but for the delivery of its request. -/
theorem moves_work (hchunk : 0 < p.chunkSize.toNat) (hsource : source.length < 2 ^ 63) {w : ℕ}
    (hw : w < p.parallel) (hphase : f.phase = .sending) {l : WorkerLabel}
    (h : workerStep p source conf net f w l = some (net', f')) :
    f' = f ∧ (∃ i, l = .request i) ∨ f'.moves p source < f.moves p source := by
  have hset : ∀ (x : Worker) (e : ℤ), x.weight < (f.workers w).weight →
      FileSender.moves p source { f.setWorker w x with error := e } < f.moves p source := by
    intro x e hx
    have hsum := weight_update (f := f.workers) x hw
    simp only [FileSender.moves, FileSender.setWorker, hphase, sendMoves]
    omega
  cases l with
  | alloc =>
    rw [workerStep] at h
    split at h <;> cases h
    rename_i hx
    exact .inr (hset .checking f.error (by rw [hx]; decide))
  | allocFailed e =>
    rw [workerStep] at h
    split at h <;> cases h
    rename_i hx
    exact .inr (hset .left e (by rw [hx]; decide))
  | check =>
    rw [workerStep] at h
    split at h <;> cases h
    rename_i hx
    refine .inr (hset _ f.error ?_)
    rw [hx]
    split <;> simp [Worker.weight]
  | claim =>
    rw [workerStep] at h
    split at h
    · rename_i hx
      split at h <;> cases h
      · rename_i hlt
        rw [BitVec.lt_def, fileSize_toNat hsource] at hlt
        have hclaim := chunksLeft_claim hchunk hlt hsource
        have hsum := weight_update (f := f.workers) (.reading f.curOffset) hw
        rw [hx, show (Worker.reading f.curOffset).weight = 5 from rfl,
          show Worker.claiming.weight = 2 from rfl] at hsum
        refine .inr ?_
        simp only [FileSender.moves, FileSender.setWorker, hphase, sendMoves]
        omega
      · exact .inr (hset (.leaving 0) f.error (by rw [hx]; simp [Worker.weight]))
    · cases h
  | read n =>
    rw [workerStep] at h
    split at h
    · rename_i offset hx
      split at h <;> cases h
      exact .inr (hset _ f.error (by rw [hx]; simp [Worker.weight]))
    · cases h
  | readFailed e =>
    rw [workerStep] at h
    split at h <;> cases h
    rename_i offset hx
    exact .inr (hset _ f.error (by rw [hx]; simp [Worker.weight]))
  | request i =>
    rw [workerStep] at h
    split at h
    · obtain ⟨_, _, heq⟩ := Option.map_eq_some_iff.mp h
      cases heq
      exact .inl ⟨rfl, i, rfl⟩
    · cases h
  | reply i =>
    rw [workerStep] at h
    split at h
    · rename_i offset data s r hx _ _
      split at h <;> cases h
      refine .inr (hset _ f.error ?_)
      rw [hx]
      split <;> simp [Worker.weight]
    · cases h
  | lost e =>
    rw [workerStep] at h
    split at h <;> cases h
    rename_i offset data hx
    exact .inr (hset _ f.error (by rw [hx]; simp [Worker.weight]))
  | leave =>
    rw [workerStep] at h
    split at h <;> cases h
    rename_i e hx
    exact .inr (hset .left _ (by rw [hx]; simp [Worker.weight]))

/-! ### What the sender waits for -/

/-- The results of the calls that have returned. -/
def FileSender.Recorded (f : FileSender) : Prop :=
  match f.phase with
  | .sending => f.createResult = some 0
  | .closing _ _ => f.createResult ≠ none ∧ (f.createResult = some 0 → f.sendResult ≠ none)
  | .closed => (f.createResult ≠ none ∧ (f.createResult = some 0 → f.sendResult ≠ none)) ∧
    f.closeResult ≠ none
  | _ => True

/-- A handler that the sender waits for is at work, and not on a chunk. -/
structure InHand (p : SenderParams) (source : Bytes) (sys : Sys) : Prop where
  able : Able sys.net
  tokens : sys.sender.fileTokens.length ≤ p.targets.length
  call : ∀ j, sys.call = some j → ∃ a req, sys.sender.request p source = some (a, req) ∧
    ((sys.net.servers a).handlers j).Apart ∧ sys.net.served a j = none
  results : sys.sender.Recorded

theorem Effect.apart {st st' : Store} {h h' : Handler} {ans : Answer} (heff : Effect st h ans st' h')
    (hh : h.Apart) : h'.Apart := by
  refine ⟨heff.onward.started, fun x hx => ?_⟩
  cases heff <;> cases hx <;> exact hh.2 _ rfl

theorem FileSender.Recorded.returnCreate (f : FileSender) (e : ℤ) : (f.returnCreate e).Recorded := by
  rw [FileSender.returnCreate]
  split
  · rename_i he
    simp only [Recorded, he]
  · rename_i he
    exact ⟨Option.some_ne_none e, fun heq => absurd (Option.some.inj heq) he⟩

theorem FileSender.Recorded.receive (h : f.Recorded) (e : ℤ) (token : Bytes) :
    (f.receive e token).Recorded := by
  rw [FileSender.receive]
  split
  · rename_i hphase
    split
    · exact .returnCreate f e
    · simp only [Recorded, hphase]
  · split
    · exact .returnCreate f e
    · trivial
  · rename_i hphase
    simp only [Recorded, hphase] at h
    exact h
  · exact h

theorem FileSender.Recorded.next (h : f.Recorded) (hnext : f.next p = some f') : f'.Recorded := by
  rw [FileSender.next] at hnext
  split at hnext
  · split at hnext <;> cases hnext
    · exact .returnCreate f EINVAL
    · trivial
  · cases hnext
    exact .returnCreate f 0
  · rename_i hphase
    split at hnext <;> cases hnext
    simp only [Recorded, hphase] at h
    exact ⟨by rw [h]; exact Option.some_ne_none 0, fun _ => Option.some_ne_none f.error⟩
  · rename_i hphase
    simp only [Recorded, hphase] at h
    split at hnext <;> cases hnext
    · exact h
    · exact ⟨h, Option.some_ne_none _⟩
  · cases hnext

theorem FileSender.Recorded.uploadResult (h : f.Recorded) (hphase : f.phase = .closed) :
    f.uploadResult ≠ none := by
  simp only [Recorded, hphase] at h
  obtain ⟨⟨hcreate, hsend⟩, hclose⟩ := h
  obtain ⟨create, hcreate'⟩ := Option.ne_none_iff_exists'.mp hcreate
  obtain ⟨close, hclose'⟩ := Option.ne_none_iff_exists'.mp hclose
  rw [FileSender.uploadResult, hclose', hcreate']
  by_cases hzero : create = 0
  · subst hzero
    obtain ⟨send, hsend'⟩ := Option.ne_none_iff_exists'.mp (hsend hcreate')
    simp [hsend']
  · simp [hzero]

/-- CORRECT (one step of the system): the handler that the sender waits for stays at work on it. -/
theorem InHand.preserved (h : InHand p source sys) {l : SysLabel}
    (hstep : sysStep p source conf sys l = some sys') : InHand p source sys' := by
  have hable : Able sys'.net := by
    rcases sysStep_netStep hstep with heq | ⟨l', hnet, _⟩
    · rw [heq]
      exact h.able
    · exact h.able.preserved hnet
  -- where no request is out, the sender does not wait
  have hfree : sys.sender.request p source = none → sys.call = none := by
    intro hreq
    cases hcall : sys.call with
    | none => rfl
    | some j =>
      obtain ⟨_, _, hsome, _⟩ := h.call j hcall
      rw [hreq] at hsome
      cases hsome
  have hnone : ∀ {s : Sys}, s.call = none → ∀ j, s.call = some j → ∃ a req,
      s.sender.request p source = some (a, req) ∧ ((s.net.servers a).handlers j).Apart ∧
        s.net.served a j = none :=
    fun hcall j hj => by rw [hcall] at hj; cases hj
  cases sysStep_effect hstep with
  | openFile hphase =>
    exact ⟨hable, h.tokens, hnone (hfree (by simp only [FileSender.request, hphase])), trivial⟩
  | openFailed e hphase =>
    refine ⟨hable, ?_, hnone (hfree (by simp only [FileSender.request, hphase])), .returnCreate _ e⟩
    rw [FileSender.returnCreate_tokens]
    exact h.tokens
  | call i a req net' _ hreq hoth | retry i a req net' _ hreq hoth =>
    refine ⟨hable, h.tokens, fun j hj => ?_, h.results⟩
    cases hj
    obtain ⟨hserved, server, hs, rfl⟩ := others_eq hoth
    refine ⟨a, req, hreq, ?_, hserved⟩
    rcases step_cases hs with ⟨_, _, hl, _, rfl⟩ | ⟨_, _, _, _, hl, _⟩ <;> cases hl
    simp only [update_self]
    refine ⟨accept_started _ _ _, fun x hx => ?_⟩
    obtain ⟨_, _, _, rfl, _⟩ := accept_sending hx
    exact FileSender.request_ne_send hreq
  | serve ans a i net' hcur hoth =>
    obtain ⟨hcall, req, hreq⟩ := current_eq hcur
    refine ⟨hable, h.tokens, fun j hj => ?_, h.results⟩
    cases hcall.symm.trans hj
    obtain ⟨_, _, hreq', hapart, hserved⟩ := h.call i hcall
    cases hreq.symm.trans hreq'
    obtain ⟨_, server, hs, rfl⟩ := others_eq hoth
    refine ⟨a, req, hreq, ?_, hserved⟩
    rcases step_cases hs with ⟨_, _, hl, _⟩ | ⟨_, _, _, _, hl, heff, rfl⟩ <;> cases hl
    simp only [update_self]
    exact heff.apart hapart
  | reply a i r hcur =>
    obtain ⟨_, req, hreq⟩ := current_eq hcur
    exact ⟨hable, FileSender.receive_tokens hreq h.tokens _ _, hnone rfl, h.results.receive _ _⟩
  | lost e a req hreq =>
    exact ⟨hable, FileSender.receive_tokens hreq h.tokens _ _, hnone rfl, h.results.receive _ _⟩
  | next f hreq hnext =>
    refine ⟨hable, ?_, hnone (hfree hreq), h.results.next hnext⟩
    rw [FileSender.next_tokens hnext]
    exact h.tokens
  | work w l net' f' hphase _ hwork =>
    have hcall := hfree (by simp only [FileSender.request, hphase])
    have hresults := h.results
    simp only [FileSender.Recorded, hphase] at hresults
    rcases workerStep_cases hwork with ⟨_, _, _, _, rfl⟩ | ⟨_, _, _, _, _, rfl, _⟩
    · refine ⟨hable, h.tokens, hnone hcall, ?_⟩
      simp only [FileSender.Recorded, hphase]
      exact hresults
    · exact ⟨hable, h.tokens, hnone hcall, h.results⟩
  | net l net' hnet _ hcur =>
    refine ⟨hable, h.tokens, fun j hj => ?_, h.results⟩
    obtain ⟨a, req, hreq, hapart, hserved⟩ := h.call j hj
    have hsame := h.able.followed.still hnet hapart.1 hapart.2 (j := j) fun l' heq hl' => by
      refine hcur a l' heq ?_
      rw [Sys.current, show sys.call = some j from hj, hreq, hl']
    refine ⟨a, req, hreq, ?_, ?_⟩
    · rw [hsame]
      exact hapart
    · rw [served_kept hnet hapart.1]
      exact hserved

/-- CORRECT (one step of the system): what the sender does, brings it nearer to its end. -/
theorem InHand.rank_step (h : InHand p source sys) (hchunk : 0 < p.chunkSize.toNat)
    (hsource : source.length < 2 ^ 63) {l : SysLabel} (hstep : sysStep p source conf sys l = some sys') :
    sys'.rank p source + (if l.isMove then 1 else 0) ≤ sys.rank p source := by
  have hmono := createdMoves_mono p source h.tokens
  -- a request that has ended
  have hend : ∀ {a : Addr} {req : Request} (e : ℤ) (token : Bytes),
      sys.sender.request p source = some (a, req) →
      2 * (sys.sender.receive e token).moves p source + 1 + 1 ≤ sys.rank p source := by
    intro a req e token hreq
    have hlt := moves_receive hreq h.tokens e token
    rw [Sys.rank]
    omega
  cases sysStep_effect hstep with
  | openFile hphase =>
    simp only [Sys.rank, FileSender.moves, hphase, SysLabel.isMove, if_true]
    omega
  | openFailed e hphase =>
    have hreturn := moves_returnCreate p source sys.sender e
    simp only [Sys.rank, SysLabel.isMove, if_true]
    rw [show sys.sender.moves p source = p.targets.length + 2 + openedMoves p source p.targets.length by
      simp only [FileSender.moves, hphase], openedMoves]
    omega
  | call i a req net' hcall =>
    simp only [Sys.rank, hcall, SysLabel.isMove, if_true, reduceCtorEq, if_false]
    omega
  | retry i a req net' hcall =>
    simp only [Sys.rank, hcall, SysLabel.isMove, reduceCtorEq, if_false]
    exact Nat.le_refl _
  | serve => exact Nat.le_refl _
  | reply a i r hcur =>
    obtain ⟨_, req, hreq⟩ := current_eq hcur
    exact hend _ _ hreq
  | lost e a req hreq => exact hend _ _ hreq
  | next f _ hnext =>
    have hlt := moves_next source h.tokens hnext
    simp only [Sys.rank, SysLabel.isMove, if_true]
    omega
  | work w l net' f' hphase hw hwork =>
    rcases moves_work hchunk hsource hw hphase hwork with ⟨rfl, i, rfl⟩ | hlt
    · exact Nat.le_refl _
    · have hmove : (if SysLabel.isMove (.work w l) then 1 else 0) ≤ 1 := by split <;> omega
      simp only [Sys.rank]
      omega
  | net => exact Nat.le_refl _

/-! ### The sender and the servers alone -/

/-- No answer of the system but an error is possible. -/
def Refuses (st : Store) (h : Handler) : Prop :=
  ∀ ans r, advance st h ans = some r → ans = .noDirectory ∨ ∃ e, ans = .failed e

/-- Nobody else takes the step, nothing gets lost, the calls of the client succeed, and those of the
    servers do where they can. -/
def SysOwn (p : SenderParams) (source : Bytes) (sys : Sys) : SysLabel → Prop
  | .openFailed _ | .retry _ | .lost _ => False
  | .work _ (.allocFailed _) | .work _ (.readFailed _) | .work _ (.lost _) => False
  | .serve ans => ans = .noDirectory ∨ (∃ e, ans = .failed e) → ∀ a i, sys.current p source = some (a, i) →
    Refuses (sys.net.servers a).store ((sys.net.servers a).handlers i)
  | .net l => Own sys.net l
  | _ => True

def SysOwnStep (conf : Addr → Conf) (p : SenderParams) (source : Bytes) (sys : Sys) (l : SysLabel)
    (sys' : Sys) : Prop :=
  sysStep p source conf sys l = some sys' ∧ SysOwn p source sys l

/-- The pieces that are left of a create or a close. -/
def Handler.stage : Handler → ℕ
  | .createOpen _ | .closeErase _ _ => 3
  | .createTruncate _ _ _ | .closeTruncate _ _ => 2
  | .createInsert _ _ _ | .closeFd _ _ => 1
  | _ => 0

theorem Effect.stage_lt {st st' : Store} {h h' : Handler} {ans : Answer} (heff : Effect st h ans st' h')
    (hh : h.Apart) : h'.stage < h.stage := by
  cases heff with
  | wrote x => exact absurd rfl (hh.2 x)
  | writeFailed x => exact absurd rfl (hh.2 x)
  | answered x => exact absurd rfl (hh.2 x)
  | joined x => exact absurd rfl (hh.2 x)
  | _ => simp [Handler.stage]

/-- A handler at work on a create, a link or a close goes on, or it is over. -/
theorem goes_on (st : Store) {h : Handler} (hh : h.Apart) (hfin : ∀ r, h ≠ .finished r) :
    ∃ ans st' h', advance st h ans = some (st', h') ∧
      (ans = .noDirectory ∨ (∃ e, ans = .failed e) → Refuses st h) := by
  by_cases hforced : Refuses st h
  · have henabled : ∃ ans r, advance st h ans = some r := by
      cases h with
      | idle => exact absurd rfl hh.1
      | createOpen c => exact ⟨.failed 24, _, rfl⟩
      | createTruncate c fd desc => exact ⟨.failed 5, _, rfl⟩
      | createInsert c fd desc => exact ⟨.done, _, rfl⟩
      | closeErase token reply =>
        refine ⟨.done, ?_⟩
        simp only [advance]
        split <;> exact ⟨_, rfl⟩
      | closeTruncate info reply => exact ⟨.failed 5, _, rfl⟩
      | closeFd info reply => exact ⟨.done, _, rfl⟩
      | sending x => exact absurd rfl (hh.2 x)
      | finished r => exact absurd rfl (hfin r)
    obtain ⟨ans, ⟨st', h'⟩, hadv⟩ := henabled
    exact ⟨ans, st', h', hadv, fun _ => hforced⟩
  · simp only [Refuses, not_forall] at hforced
    obtain ⟨ans, ⟨st', h'⟩, hadv, hok⟩ := hforced
    exact ⟨ans, st', h', hadv, fun hfail => absurd hfail hok⟩

variable (conf) in
/-- CORRECT (one request): the handler that the sender waits for can be brought to its end. -/
theorem InHand.serves (n : ℕ) : ∀ {sys : Sys} {a : Addr} {j : ℕ}, InHand p source sys →
    sys.current p source = some (a, j) → ((sys.net.servers a).handlers j).stage = n →
    ∃ ls sys' r, Steps (SysOwnStep conf p source) sys ls sys' ∧ sys'.current p source = some (a, j) ∧
      (sys'.net.servers a).handlers j = .finished r := by
  induction n using Nat.strong_induction_on with
  | _ n ih =>
    intro sys a j h hcur hn
    by_cases hfin : ∃ r, (sys.net.servers a).handlers j = .finished r
    · obtain ⟨r, hr⟩ := hfin
      exact ⟨[], sys, r, .nil sys, hcur, hr⟩
    obtain ⟨hcall, req, hreq⟩ := current_eq hcur
    obtain ⟨_, _, hreq', hapart, hserved⟩ := h.call j hcall
    cases hreq.symm.trans hreq'
    obtain ⟨ans, st', h', hadv, hok⟩ :=
      goes_on (sys.net.servers a).store hapart fun r hr => hfin ⟨r, hr⟩
    have hstep : step (conf a) (sys.net.servers a) (.resume j ans) =
        some ⟨st', update (sys.net.servers a).handlers j h'⟩ := by
      rw [step, hadv]
      rfl
    have hsys : sysStep p source conf sys (.serve ans) = some { sys with
        net := { sys.net with
          servers := update sys.net.servers a ⟨st', update (sys.net.servers a).handlers j h'⟩ } } := by
      simp only [sysStep, hcur, others_some (l := .resume j ans) hserved hstep, Option.map_some]
    have heff : Effect (sys.net.servers a).store ((sys.net.servers a).handlers j) ans st' h' :=
      advance_effect hadv
    obtain ⟨ls, sys', r, hrun, hcur', hr⟩ := ih h'.stage (hn ▸ heff.stage_lt hapart)
      (h.preserved hsys) (a := a) (j := j) (by rw [← hcur]; rfl) (by simp only [update_self])
    refine ⟨.serve ans :: ls, sys', r, .cons ⟨hsys, fun hfail b i hbi => ?_⟩ hrun, hcur', hr⟩
    cases hcur.symm.trans hbi
    exact hok hfail

variable (p source) in
/-- Steps of the servers alone, as steps of the system. -/
theorem own_net {ls : List NetLabel} (h : Steps (OwnStep conf) net ls net') (f : FileSender)
    (call : Option ℕ) :
    Steps (SysOwnStep conf p source) ⟨net, f, call⟩ (ls.map .net) ⟨net', f, call⟩ := by
  induction h with
  | nil net => exact .nil _
  | @cons net _ _ l _ hl _ ih =>
    refine .cons ⟨?_, hl.2⟩ ih
    cases l with
    | request => cases hl.2
    | other => cases hl.2
    | _ => simp only [sysStep, hl.1, Option.map_some]

variable (conf) in
/-- The request of a worker can be answered. -/
theorem InHand.replies (h : InHand p source sys) (hphase : sys.sender.phase = .sending) {w i : ℕ}
    (hw : w < p.parallel) {offset : BitVec 64} {data : Bytes} {s : Served}
    (hx : sys.sender.workers w = .requesting offset data) (hs : sys.net.served (addrOf p 0) i = some s)
    (horigin : s.origin = .client offset.toNat) :
    ∃ ls sys', Steps (SysOwnStep conf p source) sys ls sys' ∧ 0 < ls.countP SysLabel.isMove := by
  have hends : Ends conf sys.net (addrOf p 0) i := h.able.ends _ hs rfl
  obtain ⟨ls, net', r, hrun, hfin, hserved, _⟩ := hends
  have hrun := own_net p source hrun sys.sender sys.call
  have hreply : ∃ sys',
      sysStep p source conf ⟨net', sys.sender, sys.call⟩ (.work w (.reply i)) = some sys' := by
    simp only [sysStep, hphase, hw, and_self, if_true, workerStep, hx, hserved.trans hs, hfin, horigin,
      Option.map_some]
    exact ⟨_, rfl⟩
  obtain ⟨sys', hsys⟩ := hreply
  refine ⟨ls.map .net ++ [.work w (.reply i)], sys', hrun.append (.cons ⟨hsys, ?_⟩ (.nil _)), ?_⟩
  · trivial
  · rw [List.countP_append]
    exact Nat.lt_of_lt_of_le Nat.zero_lt_one (Nat.le_add_left ..)

/-- One step of the sender by itself. -/
theorem one_move {l : SysLabel} (hstep : (sysStep p source conf sys l).isSome) (hown : SysOwn p source sys l)
    (hl : l.isMove = true) :
    ∃ ls sys', Steps (SysOwnStep conf p source) sys ls sys' ∧ 0 < ls.countP SysLabel.isMove := by
  obtain ⟨sys', hsys⟩ := Option.isSome_iff_exists.mp hstep
  exact ⟨[l], sys', .cons ⟨hsys, hown⟩ (.nil _), by simp [hl]⟩

variable (conf) in
/-- A worker that has not left goes on. -/
theorem InHand.works (h : InHand p source sys) (hphase : sys.sender.phase = .sending) {w : ℕ}
    (hw : w < p.parallel) (hleft : sys.sender.workers w ≠ .left) :
    ∃ ls sys', Steps (SysOwnStep conf p source) sys ls sys' ∧ 0 < ls.countP SysLabel.isMove := by
  cases hx : sys.sender.workers w with
  | start =>
    exact one_move (l := .work w .alloc) (by simp [sysStep, workerStep, hphase, hw, hx]) trivial rfl
  | checking =>
    exact one_move (l := .work w .check) (by simp [sysStep, workerStep, hphase, hw, hx]) trivial rfl
  | claiming =>
    refine one_move (l := .work w .claim) ?_ trivial rfl
    simp only [sysStep, workerStep, hphase, hw, hx, and_self, if_true]
    split <;> rfl
  | reading offset =>
    exact one_move (l := .work w (.read p.chunkSize.toNat))
      (by simp [sysStep, workerStep, hphase, hw, hx]) trivial rfl
  | leaving e =>
    exact one_move (l := .work w .leave) (by simp [sysStep, workerStep, hphase, hw, hx]) trivial rfl
  | left => exact absurd hx hleft
  | requesting offset data =>
    by_cases hserved : ∃ i s, sys.net.served (addrOf p 0) i = some s ∧ s.origin = .client offset.toNat
    · obtain ⟨i, s, hs, horigin⟩ := hserved
      exact h.replies conf hphase hw hx hs horigin
    · -- the request is delivered first
      obtain ⟨i, hroom⟩ := (h.able.ready (addrOf p 0)).room
      obtain ⟨net', harr, hs⟩ := arrives conf (hroom i (Nat.le_refl i))
        ⟨.client offset.toNat, sendRequest p sys.sender.fileTokens offset data, data⟩
      have hsys : sysStep p source conf sys (.work w (.request i)) = some { sys with net := net' } := by
        simp only [sysStep, hphase, hw, and_self, if_true, workerStep, hx, netStep, harr, Option.map_some]
      obtain ⟨ls, sys', hrun, hcount⟩ := (h.preserved hsys).replies conf hphase hw hx hs rfl
      refine ⟨.work w (.request i) :: ls, sys', .cons ⟨hsys, trivial⟩ hrun, ?_⟩
      rw [List.countP_cons]
      omega

variable (conf) in
/-- CORRECT (no deadlock): a sender that has not returned can do something, if not at once. -/
theorem InHand.moves (h : InHand p source sys) (hclosed : sys.sender.phase ≠ .closed) :
    ∃ ls sys', Steps (SysOwnStep conf p source) sys ls sys' ∧ 0 < ls.countP SysLabel.isMove := by
  cases hreq : sys.sender.request p source with
  | some ar =>
    obtain ⟨a, req⟩ := ar
    cases hcall : sys.call with
    | none =>
      obtain ⟨i, hroom⟩ := (h.able.ready a).room
      have hidle := hroom i (Nat.le_refl i)
      have hstep : step (conf a) (sys.net.servers a) (.arrive i req) =
          some ⟨(accept (conf a) (sys.net.servers a).store req).1, update (sys.net.servers a).handlers i
            (accept (conf a) (sys.net.servers a).store req).2⟩ := by
        rw [step, if_pos hidle]
      refine one_move (l := .call i) ?_ trivial rfl
      simp only [sysStep, hcall, hreq,
        others_some (l := .arrive i req) (h.able.followed.fresh a i hidle) hstep, Option.map_some,
        Option.isSome_some]
    | some j =>
      have hcur : sys.current p source = some (a, j) := by rw [Sys.current, hcall, hreq]
      obtain ⟨ls, sys', r, hrun, hcur', hr⟩ := h.serves conf _ hcur rfl
      have hreply : ∃ sys'', sysStep p source conf sys' .reply = some sys'' := by
        simp only [sysStep, hcur', hr]
        exact ⟨_, rfl⟩
      obtain ⟨sys'', hsys⟩ := hreply
      have hown : SysOwn p source sys' .reply := trivial
      refine ⟨ls ++ [.reply], sys'', hrun.append (.cons ⟨hsys, hown⟩ (.nil _)), ?_⟩
      rw [List.countP_append]
      exact Nat.lt_of_lt_of_le Nat.zero_lt_one (Nat.le_add_left ..)
  | none =>
    cases hphase : sys.sender.phase with
    | start => exact one_move (l := .openFile) (by simp [sysStep, hphase]) trivial rfl
    | opening =>
      refine one_move (l := .next) ?_ trivial rfl
      simp only [sysStep, hreq, FileSender.next, hphase]
      split <;> rfl
    | linking i =>
      exact one_move (l := .next) (by simp [sysStep, hreq, FileSender.next, hphase]) trivial rfl
    | sending =>
      by_cases hall : ∀ w < p.parallel, sys.sender.workers w = .left
      · refine one_move (l := .next) ?_ trivial rfl
        have hall' : (List.range p.parallel).all (fun w => sys.sender.workers w = .left) = true :=
          List.all_eq_true.mpr fun w hw => decide_eq_true (hall w (List.mem_range.mp hw))
        simp only [sysStep, hreq, FileSender.next, hphase, if_pos hall', Option.map_some, Option.isSome_some]
      · simp only [not_forall] at hall
        obtain ⟨w, hw, hleft⟩ := hall
        exact h.works conf hphase hw hleft
    | closing i first =>
      refine one_move (l := .next) ?_ trivial rfl
      simp only [sysStep, hreq, FileSender.next, hphase]
      split <;> rfl
    | closed => exact absurd hphase hclosed

/-! ### Runs -/

theorem SysInitial.inHand (h : SysInitial conf sys) : InHand p source sys where
  able := h.quiet.able
  tokens := by
    rw [h.sender]
    exact Nat.zero_le _
  call j hj := by
    rw [h.call] at hj
    cases hj
  results := by
    rw [h.sender]
    trivial

/-- What the sender does in an upload: with `n` targets, `m` links, `c` chunks and `k` workers it is at
    most `4 n + 2 m + 8 c + 8 k + 11`. -/
def uploadBound (p : SenderParams) (source : Bytes) : ℕ :=
  4 * p.targets.length + 2 * p.sendMethod.requestCount p.targets.length +
    8 * ((source.length + p.chunkSize.toNat - 1) / p.chunkSize.toNat) + 8 * p.parallel + 11

/-- CORRECT (an upload returns): whatever the network, the servers and others do, the sender does no more
    than its loops allow; and whatever has happened, `upload_file` can still return, by steps of the
    sender and the servers alone, where nothing gets lost. -/
theorem upload_returns (conf : Addr → Conf) (p : SenderParams) (source : Bytes) (sys sys' : Sys)
    (ls : List SysLabel) (hsource : source.length < 2 ^ 63) (hchunk : 0 < p.chunkSize.toNat)
    (hstart : SysInitial conf sys) (hrun : SysRuns conf p source sys ls sys') :
    ls.countP SysLabel.isMove ≤ uploadBound p source ∧
      ∃ ls' sys'', Steps (SysOwnStep conf p source) sys' ls' sys'' ∧ sys''.sender.uploadResult ≠ none := by
  have hstep : ∀ s l t, InHand p source s → sysStep p source conf s l = some t → InHand p source t ∧
      t.rank p source + (if l.isMove then 1 else 0) ≤ s.rank p source :=
    fun _ _ _ h hl => ⟨h.preserved hl, h.rank_step hchunk hsource hl⟩
  obtain ⟨hend, hcount⟩ := hrun.countP_add_rank_le hstep hstart.inHand
  refine ⟨?_, ?_⟩
  · have hrank : sys.rank p source = uploadBound p source := by
      have hchunks : chunksLeft p source 0 =
          (source.length + p.chunkSize.toNat - 1) / p.chunkSize.toNat := rfl
      rw [Sys.rank, hstart.sender, hstart.call, if_pos rfl, uploadBound, ← hchunks]
      simp only [FileSender.moves, openedMoves, createdMoves]
      omega
    omega
  · have hnear : ∀ s, InHand p source s → s.sender.phase = .closed ∨ ∃ ms t,
        Steps (SysOwnStep conf p source) s ms t ∧ InHand p source t ∧ t.rank p source < s.rank p source := by
      intro s h
      by_cases hphase : s.sender.phase = .closed
      · exact .inl hphase
      obtain ⟨ms, t, hms, hpos⟩ := h.moves conf hphase
      obtain ⟨ht, hle⟩ := hms.countP_add_rank_le (fun s l t h hl => hstep s l t h hl.1) h
      exact .inr ⟨ms, t, hms, ht, by omega⟩
    obtain ⟨ls', sys'', hrun', hin, hclosed⟩ := exists_goal hnear hend
    exact ⟨ls', sys'', hrun', hin.results.uploadResult hclosed⟩

/-- The chunk has come to the second server, and nobody has written it yet. -/
theorem upload_returns_halfway : ∃ sys' : Sys, sys'.sender.workers 0 ≠ .left ∧
    sys'.sender.phase = .sending ∧
    ∃ ls' sys'', Steps (SysOwnStep (fun _ => sampleConf) sampleUpload (text "hi")) sys' ls' sys'' ∧
      sys''.sender.uploadResult ≠ none := by
  have hcheck : (exec (sysStep sampleUpload (text "hi") fun _ => sampleConf) sampleSys
      (sampleLabels.take 21)).any (fun sys => sys.sender.workers 0 ≠ .left ∧ sys.sender.phase = .sending ∧
        sys.net.served (text "b", 1) 5 ≠ none) = true := by
    decide +kernel
  obtain ⟨sys', hexec, hend⟩ := (Option.any_eq_true _ _).mp hcheck
  obtain ⟨hworker, hphase, _⟩ := of_decide_eq_true hend
  exact ⟨sys', hworker, hphase, (upload_returns (fun _ => sampleConf) sampleUpload (text "hi") sampleSys
    sys' (sampleLabels.take 21) (by decide) (by decide) sampleSys_initial (steps_iff_exec.mpr hexec)).2⟩

end Fcopy
