import Fcopy.Server.Descriptors

/-! What the server's records mean, in every run.

    A `create_file` and the session it inserts agree about the path: the token is the token of the
    path, and the file they hold is the file the path leads to, which exists (`Sound`). Files are never
    removed, and a handler that has finished stays so. -/

namespace Fcopy
open Function Ownership

variable {conf : Conf} {s s' : Server} {l : Label}

/-- The `create_file` a handler is in the middle of. -/
def Handler.call : Handler → Option CreateCall
  | .createOpen c | .createTruncate c _ _ | .createInsert c _ _ => some c
  | _ => none

structure Sound (conf : Conf) (s : Server) : Prop where
  exclusive : Exclusive s.owned s.store.os.fds
  made : ∀ o fd desc, s.owned o = some (fd, desc) → s.store.os.files desc.file ≠ none
  token : ∀ i c, (s.handlers i).call = some c → c.token = getToken conf c.path
  file : ∀ i c fd desc, (s.handlers i).call = some c →
    (s.handlers i).creatorHolds = some (fd, desc) → desc.file = fileOf c.path ∧ Openable c.path
  session : ∀ token info, s.store.fmap token = some info →
    token = getToken conf info.filePath ∧ info.desc.file = fileOf info.filePath

theorem Initial.sound (h : Initial s) : Sound conf s where
  exclusive := h.exclusive
  made o fd desc ho := by rw [h.owned] at ho; cases ho
  token i c hc := by rw [h.handlers] at hc; cases hc
  file i c fd desc hc := by rw [h.handlers] at hc; cases hc
  session token info ht := by rw [h.fmap] at ht; cases ht

/-! ### Arrivals -/

/-- The call a create request becomes, if its checks pass. -/
theorem handleCreateFile_call {req : CreateFileReq} {c : CreateCall}
    (h : (handleCreateFile conf req).call = some c) :
    handleCreateFile conf req = .createOpen c ∧
      ∃ absPath, getAbsPath conf (getPartitionDir conf req.partition) req.relativePath req.fileName =
        .ok absPath ∧ Store.createFile conf absPath req.fileSize (req.chunkSize.setWidth 64) =
        .ok c := by
  simp only [handleCreateFile] at h ⊢
  split at h
  · cases h
  rename_i hdir
  rw [if_neg hdir]
  split at h
  · cases h
  rename_i absPath habs
  simp only [habs]
  split at h
  · cases h
  rename_i c' hc'
  cases h
  exact ⟨by simp only, absPath, rfl, hc'⟩

theorem createFile_ok {name : Bytes} {size chunkSize : BitVec 64} {c : CreateCall}
    (h : Store.createFile conf name size chunkSize = .ok c) :
    chunkSize.toNat ≠ 0 ∧ chunkSize.toNat % pageSize = 0 ∧
      c = ⟨name, getFullPath conf name, getToken conf (getFullPath conf name), size⟩ := by
  simp only [Store.createFile] at h
  split at h
  · cases h
  · rename_i hchunk
    cases h
    rw [not_or, not_not] at hchunk
    exact ⟨hchunk.1, hchunk.2, rfl⟩

theorem accept_call (st : Store) {req : Request} {c : CreateCall}
    (h : (accept conf st req).2.call = some c) :
    ∃ r, req = .create r ∧ handleCreateFile conf r = .createOpen c ∧
      c.token = getToken conf c.path := by
  cases req with
  | create r =>
    obtain ⟨hopen, absPath, _, hc⟩ := handleCreateFile_call h
    exact ⟨r, rfl, hopen, by rw [(createFile_ok hc).2.2]⟩
  | close r =>
    simp only [accept, handleCloseFile] at h
    split at h <;> cases h
  | send r data =>
    simp only [accept, handleSendFile] at h
    split at h <;> cases h
  | setChain r => cases h

/-- Sessions keep what an arrival cannot change: everything but their chain targets. -/
theorem accept_session (st : Store) (req : Request) (token : Bytes) {info : FileInfo}
    (h : (accept conf st req).1.fmap token = some info) :
    ∃ old, st.fmap token = some old ∧ info = { old with targets := info.targets } := by
  cases req with
  | create r => exact ⟨info, h, rfl⟩
  | close r => exact ⟨info, h, rfl⟩
  | send r data => exact ⟨info, h, rfl⟩
  | setChain r =>
    simp only [accept, Store.setChainTargets] at h
    cases hf : st.fmap r.fileToken with
    | none =>
      rw [hf] at h
      exact ⟨info, h, rfl⟩
    | some old =>
      rw [hf] at h
      by_cases ht : token = r.fileToken
      · subst ht
        simp only [update_self, Option.some.injEq] at h
        exact ⟨old, hf, by rw [← h]⟩
      · simp only [update_of_ne ht] at h
        exact ⟨info, h, rfl⟩

/-! ### Steps -/

/-- Files are never removed. -/
theorem files_step (h : step conf s l = some s') {f : List Bytes} (hf : s.store.os.files f ≠ none) :
    s'.store.os.files f ≠ none := by
  have hupd : ∀ (g : List Bytes) (b : Bytes), update s.store.os.files g (some b) f ≠ none := by
    intro g b
    by_cases hg : f = g
    · rw [hg, update_self]
      exact Option.some_ne_none b
    · rw [update_of_ne hg]
      exact hf
  rcases step_cases h with ⟨i, req, rfl, _, rfl⟩ | ⟨i, a, st', h', rfl, heff, rfl⟩
  · rw [(accept_store conf s.store req).1]
    exact hf
  · generalize s.handlers i = hd at heff
    cases heff
    case opened c fd errno os desc hfd hopen =>
      obtain ⟨_, _, _, rfl⟩ := Os.openFile_eq hopen
      exact hupd _ _
    case leaked c errno os desc hopen =>
      obtain ⟨_, _, _, rfl⟩ := Os.openFile_eq hopen
      exact hupd _ _
    case truncated c fd desc os htr =>
      obtain ⟨d, _, _, rfl⟩ := Os.ftruncate_eq htr
      exact hupd _ _
    case resized info reply os htr =>
      obtain ⟨d, _, _, rfl⟩ := Os.ftruncate_eq htr
      exact hupd _ _
    case wrote x n os hx hn hw =>
      obtain ⟨d, _, _, rfl⟩ := Os.pwrite_eq hw
      exact hupd _ _
    all_goals exact hf

/-- A finished handler stays finished. -/
theorem finished_step (h : step conf s l = some s') {i : ℕ} {r : Reply}
    (hf : s.handlers i = .finished r) : s'.handlers i = .finished r := by
  rcases handler_cases h i with hsame | ⟨_, _, hidle, _⟩ | ⟨_, _, _, heff⟩
  · rw [hsame, hf]
  · rw [hf] at hidle
    cases hidle
  · rw [hf] at heff
    cases heff

/-- What a create holds after a step it held before, or it has just opened it. -/
theorem creatorHolds_effect {st st' : Store} {h h' : Handler} {a : Answer}
    (heff : Effect st h a st' h') {c : CreateCall} (hc : h'.call = some c) :
    h.call = some c ∧ ∀ fd desc, h'.creatorHolds = some (fd, desc) →
      h.creatorHolds = some (fd, desc) ∨ desc.file = fileOf c.path ∧ Openable c.path := by
  cases heff <;> simp only [Handler.call, reduceCtorEq, Option.some.injEq] at hc
  case opened c' fd errno os desc hfd hopen =>
    subst hc
    refine ⟨rfl, fun fd' desc' hh => .inr ?_⟩
    obtain ⟨_, hopen, hd, _⟩ := Os.openFile_eq hopen
    cases hh
    exact ⟨by rw [hd], hopen⟩
  case truncated c' fd desc os htr =>
    subst hc
    exact ⟨rfl, fun fd' desc' hh => .inl hh⟩

/-- A descriptor that was free and is not any more stands for a file that exists. -/
theorem opened_step (h : step conf s l = some s') {fd : ℕ} {desc : Desc}
    (hfree : s.store.os.fds fd = none) (hd : s'.store.os.fds fd = some desc) :
    s'.store.os.files desc.file ≠ none := by
  rcases step_cases h with ⟨i, req, rfl, _, rfl⟩ | ⟨i, a, st', h', rfl, heff, rfl⟩
  · rw [(accept_store conf s.store req).1, hfree] at hd
    cases hd
  rcases heff.fds_before hd with hold | ⟨c, errno, hi, rfl⟩
  · rw [hfree] at hold
    cases hold
  rw [hi] at heff
  obtain ⟨os, desc', ho, hos, _⟩ := heff.opened_eq
  obtain ⟨_, _, _, rfl⟩ := Os.openFile_eq ho
  simp only [hos, update_self, Option.some.injEq] at hd ⊢
  rw [hd, update_self]
  exact Option.some_ne_none _

theorem Sound.preserved (hs : Sound conf s) (h : step conf s l = some s') : Sound conf s' := by
  obtain ⟨_, hm, _⟩ := step_move h
  refine ⟨hm.exclusive hs.exclusive, ?_, ?_, ?_, ?_⟩
  · intro o fd desc ho
    rcases hm.origin ho with ⟨o', ho'⟩ | ⟨hfree, hnew⟩
    · exact files_step h (hs.made o' fd desc ho')
    · exact opened_step h hfree hnew
  · intro i c hc
    rcases handler_cases h i with hsame | ⟨req, _, _, harrive⟩ | ⟨_, _, _, heff⟩
    · rw [hsame] at hc
      exact hs.token i c hc
    · rw [harrive] at hc
      obtain ⟨_, _, _, htok⟩ := accept_call s.store hc
      exact htok
    · exact hs.token i c (creatorHolds_effect heff hc).1
  · intro i c fd desc hc hh
    rcases handler_cases h i with hsame | ⟨req, _, _, harrive⟩ | ⟨_, _, _, heff⟩
    · rw [hsame] at hc hh
      exact hs.file i c fd desc hc hh
    · rw [harrive, (accept_holds conf s.store req).1] at hh
      cases hh
    · obtain ⟨hc', hheld⟩ := creatorHolds_effect heff hc
      rcases hheld fd desc hh with hh' | hfile
      · exact hs.file i c fd desc hc' hh'
      · exact hfile
  · intro token info ht
    rcases step_cases h with ⟨j, req, rfl, _, rfl⟩ | ⟨j, a, st', h', rfl, heff, rfl⟩
    · obtain ⟨old, hold, hinfo⟩ := accept_session s.store req token ht
      rw [hinfo]
      exact hs.session token old hold
    · generalize hj : s.handlers j = hd at heff
      cases heff with
      | inserted c fd desc hnew =>
        by_cases htok : token = c.token
        · subst htok
          simp only [update_self, Option.some.injEq] at ht
          subst ht
          exact ⟨hs.token j c (by rw [hj]; rfl), (hs.file j c fd desc (by rw [hj]; rfl) (by rw [hj]; rfl)).1⟩
        · simp only [update_of_ne htok] at ht
          exact hs.session token info ht
      | erased tok reply old hold =>
        by_cases htok : token = tok
        · subst htok
          simp only [update_self, reduceCtorEq] at ht
        · simp only [update_of_ne htok] at ht
          exact hs.session token info ht
      | _ => exact hs.session token info ht

theorem sound_run {ls : List Label} {t : Server} (h₀ : Initial s) (hr : Runs conf s ls t) :
    Sound conf t :=
  hr.invariant (P := Sound conf) (fun _ _ _ hs h => hs.preserved h) h₀.sound

end Fcopy
