import Fcopy.Server.Padding

/-! The length a file has after `close_file`.

    The last chunk was padded, so the file is longer than `total_size` until `close_file` cuts it:

        create_file   0
        writes        ...CCCCCC0000       a multiple of 8192
        ftruncate     ...CCCCCC           total_size
        close_file    returns 0

    The result of `ftruncate` is not looked at. Where it fails, the padding stays (or the file stays
    short), and `close_file` returns 0 all the same. From a size of 2 ^ 63 on, which does not fit an
    `off_t`, it always fails. -/

namespace Fcopy
open Function

variable {conf : Conf} {s s' : Server} {ls : List Label} {l : Label} {st st₁ : Store} {r₁ : Reply}

/-! ### The request behind a session -/

/-- Calls and sessions have the size that a `CreateFileReq` of the run carried, and the handler that has
    created the session has answered 0 and the token. -/
structure Created (ls : List Label) (s : Server) : Prop where
  call : ∀ i c, (s.handlers i).call = some c →
    ∃ req, .arrive i (.create req) ∈ ls ∧ c.size = req.fileSize
  session : ∀ token info, s.store.fmap token = some info →
    ∃ i req, .arrive i (.create req) ∈ ls ∧ s.handlers i = .finished ⟨0, token⟩ ∧
      info.totalSize = req.fileSize

theorem Created.preserved (hs : Created ls s) (hl : l ∈ ls) (h : step conf s l = some s') :
    Created ls s' := by
  refine ⟨fun i c hc => ?_, fun token info ht => ?_⟩
  · rcases handler_cases h i with hsame | ⟨req, rfl, _, harrive⟩ | ⟨_, _, _, heff⟩
    · exact hs.call i c (hsame ▸ hc)
    · rw [harrive] at hc
      obtain ⟨r, rfl, hopen, _⟩ := accept_call s.store hc
      have hcall : (handleCreateFile conf r).call = some c := by
        rw [hopen]
        rfl
      obtain ⟨_, _, _, hcreate⟩ := handleCreateFile_call hcall
      exact ⟨r, hl, by rw [(createFile_ok hcreate).2.2]⟩
    · exact hs.call i c (creatorHolds_effect heff hc).1
  · have hold : ∀ info', s.store.fmap token = some info' → info'.totalSize = info.totalSize →
        ∃ i req, .arrive i (.create req) ∈ ls ∧ s'.handlers i = .finished ⟨0, token⟩ ∧
          info.totalSize = req.fileSize := by
      intro info' ht' hsize
      obtain ⟨i, req, hmem, hfin, heq⟩ := hs.session token info' ht'
      exact ⟨i, req, hmem, finished_step h hfin, hsize ▸ heq⟩
    rcases step_cases h with ⟨j, req, rfl, _, rfl⟩ | ⟨j, a, st', h', rfl, heff, rfl⟩
    · obtain ⟨info', ht', hinfo⟩ := accept_session s.store req token ht
      exact hold info' ht' (by rw [hinfo])
    · generalize hj : s.handlers j = hd at heff
      cases heff with
      | inserted c fd desc hnew =>
        rcases eq_or_ne token c.token with rfl | htok
        · simp only [update_self, Option.some.injEq] at ht
          obtain ⟨req, hmem, hsize⟩ := hs.call j c (by rw [hj]; rfl)
          exact ⟨j, req, hmem, update_self .., by rw [← ht, ← hsize]; rfl⟩
        · simp only [update_of_ne htok] at ht
          exact hold info ht rfl
      | erased tok reply old hfound =>
        rcases eq_or_ne token tok with rfl | htok
        · simp only [update_self, reduceCtorEq] at ht
        · simp only [update_of_ne htok] at ht
          exact hold info ht rfl
      | _ => exact hold info ht rfl

theorem created_run (h₀ : Initial s) (hr : Runs conf s ls s') : Created ls s' := by
  refine hr.guarded (P := Created ls) (fun _ _ _ hs hl h => hs.preserved hl h)
    (hr.everyStep_label_iff.mpr fun _ hl => hl) ⟨fun i c hc => ?_, fun token info ht => ?_⟩
  · rw [h₀.handlers] at hc
    cases hc
  · rw [h₀.fmap] at ht
    cases ht

/-! ### `close_file` -/

/-- A size that does not fit an `off_t` is never set. -/
theorem CloseRun.large {token : Bytes} {info : FileInfo} {answers : List Answer}
    (h : CloseRun st token info answers st₁ r₁) (hsize : 2 ^ 63 ≤ info.totalSize.toNat) :
    ∃ e, .failed e ∈ answers := by
  cases h with
  | cut os ht =>
    obtain ⟨_, _, hfits, _⟩ := Os.ftruncate_eq ht
    omega
  | uncut e => exact ⟨e, by simp⟩

/-- What the file is like after `close_file`. -/
theorem CloseRun.length {token : Bytes} {info : FileInfo} {answers : List Answer}
    (h : CloseRun st token info answers st₁ r₁) (hlive : st.os.fds info.fd = some info.desc) :
    (∀ e, .failed e ∉ answers) ∧
        (st₁.os.content info.desc.file).length = info.totalSize.toNat ∨
      (∃ e, .failed e ∈ answers) ∧ st₁.os.content info.desc.file = st.os.content info.desc.file := by
  cases h with
  | cut os ht =>
    obtain ⟨d, hd, _, rfl⟩ := Os.ftruncate_eq ht
    cases hlive.symm.trans hd
    refine .inl ⟨by simp, ?_⟩
    simp only [Os.close, Os.content, update_self, Option.getD_some]
    exact Content.length_resize _ _
  | uncut e => exact .inr ⟨⟨e, by simp⟩, rfl⟩

/-- CORRECT (exact condition): a session was created by a request of the run that was answered 0 and the
    token; and its `close_file`, when no other handler comes between, meets "0 means that the length is the
    file size" exactly when `ftruncate` succeeds or the file has that length already. -/
theorem close_length_iff {s₀ s : Server} {ls : List Label} (h₀ : Initial s₀) (hr : Runs conf s₀ ls s)
    (token : Bytes) (info : FileInfo) (hf : s.store.fmap token = some info) (answers : List Answer)
    (st : Store) (r : Reply) (hs : drive s.store (.closeErase token none) answers = some (st, r)) :
    ∃ i req, .arrive i (.create req) ∈ ls ∧ s.handlers i = .finished ⟨0, token⟩ ∧
      ((r.error = 0 → (st.os.content info.desc.file).length = req.fileSize.toNat) ↔
        (∀ e, .failed e ∉ answers) ∨
          (s.store.os.content info.desc.file).length = req.fileSize.toNat) := by
  obtain ⟨i, req, hmem, hfin, hsize⟩ := (created_run h₀ hr).session token info hf
  refine ⟨i, req, hmem, hfin, ?_⟩
  have hrun := drive_closeRun hf hs
  have hzero : r.error = 0 := by cases hrun <;> rfl
  rw [← hsize, forall_prop_of_true hzero]
  rcases hrun.length ((sound_run h₀ hr).live hf) with ⟨hok, hlen⟩ | ⟨⟨e, he⟩, hsame⟩
  · exact iff_of_true hlen (.inl hok)
  · rw [hsame]
    exact ⟨.inr, fun h => h.resolve_left fun hok => hok e he⟩

/-- The file of eight bytes is closed, and cut to eight bytes. -/
theorem close_length_iff_cut : ∃ s info st r,
    Runs sampleConf sampleServer sampleFilled s ∧ s.store.fmap (text "4") = some info ∧
      drive s.store (.closeErase (text "4") none) [.done, .done, .done] = some (st, r) ∧
      ∃ i req, .arrive i (.create req) ∈ sampleFilled ∧ s.handlers i = .finished ⟨0, text "4"⟩ ∧
        ((r.error = 0 → (st.os.content info.desc.file).length = req.fileSize.toNat) ↔
          (∀ e, .failed e ∉ [Answer.done, .done, .done]) ∨
            (s.store.os.content info.desc.file).length = req.fileSize.toNat) := by
  have hrun : (Run.exec (step sampleConf) sampleServer sampleFilled).any (fun s =>
      (s.store.fmap (text "4")).isSome ∧
        (drive s.store (.closeErase (text "4") none) [.done, .done, .done]).isSome) = true := by
    decide +kernel
  obtain ⟨s, hr, hcheck⟩ := Run.steps_of_any hrun
  obtain ⟨hinfo, hclose⟩ := of_decide_eq_true hcheck
  obtain ⟨info, hinfo⟩ := Option.isSome_iff_exists.mp hinfo
  obtain ⟨⟨st, r⟩, hclose⟩ := Option.isSome_iff_exists.mp hclose
  exact ⟨s, info, st, r, hr, hinfo, hclose,
    close_length_iff sampleServer_initial hr _ info hinfo _ st r hclose⟩

/-- `ftruncate` fails for it: it is left with 8192 bytes, and `close_file` returns 0. -/
theorem close_leaves_padding : ∃ s info st r i req,
    Initial sampleServer ∧ Runs sampleConf sampleServer sampleFilled s ∧
      .arrive i (.create req) ∈ sampleFilled ∧ s.handlers i = .finished ⟨0, text "4"⟩ ∧
      s.store.fmap (text "4") = some info ∧
      drive s.store (.closeErase (text "4") none) [.done, .failed 5, .done] = some (st, r) ∧
      r.error = 0 ∧ (st.os.content info.desc.file).length = 8192 ∧ req.fileSize = 8 := by
  have hrun : (Run.exec (step sampleConf) sampleServer sampleFilled).any (fun s =>
      (s.store.fmap (text "4")).any fun info =>
        (drive s.store (.closeErase (text "4") none) [.done, .failed 5, .done]).any fun p =>
          s.handlers 0 = .finished ⟨0, text "4"⟩ ∧ p.2.error = 0 ∧
            (p.1.os.content info.desc.file).length = 8192) = true := by decide +kernel
  obtain ⟨s, hr, hnext⟩ := Run.steps_of_any hrun
  obtain ⟨info, hinfo, hnext⟩ := (Option.any_eq_true _ _).mp hnext
  obtain ⟨⟨st, r⟩, hclose, hcheck⟩ := (Option.any_eq_true _ _).mp hnext
  obtain ⟨hfin, hzero, hlen⟩ := of_decide_eq_true hcheck
  exact ⟨s, info, st, r, 0, _, sampleServer_initial, hr, List.mem_cons_self,
    hfin, hinfo, hclose, hzero, hlen, rfl⟩

end Fcopy
