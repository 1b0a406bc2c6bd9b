import Fcopy.Client.Tenure

/-! Who has the file of an upload open.

    A file changes through its descriptors only, so while there are none it stays as it is, whatever
    the server does for others (`unopened_step`). An upload opens its file at a target once, hands the
    descriptor on with the session, and closes it again:

        Unopened ──open──▶ fd ──insert──▶ session with fd ──close──▶ Unopened -/

namespace Fcopy
open Function

/-- No descriptor is open on the file. -/
def Unopened (file : List Bytes) (s : Server) : Prop :=
  ∀ fd d, s.store.os.fds fd = some d → d.file ≠ file

/-- No descriptor but this one is. -/
def OpenOnly (file : List Bytes) (fd : ℕ) (s : Server) : Prop :=
  ∀ fd' d, s.store.os.fds fd' = some d → d.file = file → fd' = fd

/-- The step opens the file. -/
def Opens (file : List Bytes) (s : Server) (l : Label) : Prop :=
  ∃ i fd errno call, l = .resume i (.opened fd errno) ∧ s.handlers i = .createOpen call ∧
    fileOf call.path = file

variable {c : Conf} {s s' : Server} {l : Label} {file : List Bytes}

/-- Descriptors on a file that the step does not open were there before. -/
theorem fds_step (h : step c s l = some s') (hl : ¬Opens file s l) {fd : ℕ} {d : Desc}
    (hd : s'.store.os.fds fd = some d) (hf : d.file = file) : s.store.os.fds fd = some d := by
  rcases step_cases h with ⟨i, req, rfl, _, rfl⟩ | ⟨i, a, st', h', rfl, heff, rfl⟩
  · rw [(accept_store c s.store req).1] at hd
    exact hd
  · rcases heff.fds_before hd with hold | ⟨call, errno, hi, rfl⟩
    · exact hold
    · rw [hi] at heff
      obtain ⟨os, desc, ho, hos, _⟩ := heff.opened_eq
      obtain ⟨_, _, hdesc, rfl⟩ := Os.openFile_eq ho
      simp only [hos, update_self, Option.some.injEq] at hd
      refine absurd ⟨i, fd, errno, call, rfl, hi, ?_⟩ hl
      rw [← hf, ← hd, hdesc]

theorem Unopened.step (hu : Unopened file s) (h : step c s l = some s') (hl : ¬Opens file s l) :
    Unopened file s' := by
  intro fd d hd hf
  exact hu fd d (fds_step h hl hd hf) hf

theorem OpenOnly.step {fd : ℕ} (ho : OpenOnly file fd s) (h : step c s l = some s')
    (hl : ¬Opens file s l) : OpenOnly file fd s' := by
  intro fd' d hd hf
  exact ho fd' d (fds_step h hl hd hf) hf

/-- CORRECT (nobody has it open): the file stays as it is. -/
theorem unopened_step (hu : Unopened file s) (h : step c s l = some s') (hl : ¬Opens file s l) :
    s'.store.os.files file = s.store.os.files file := by
  rcases step_cases h with ⟨i, req, rfl, _, rfl⟩ | ⟨i, a, st', h', rfl, heff, rfl⟩
  · rw [(accept_store c s.store req).1]
  have hopen : ∀ {call : CreateCall} {fd errno : ℕ} {os : Os} {desc : Desc},
      s.handlers i = .createOpen call → a = .opened fd errno →
      s.store.os.openFile call.path fd = some (os, desc) → os.files file = s.store.os.files file := by
    intro call fd errno os desc hi ha ho
    subst ha
    obtain ⟨_, _, hdesc, rfl⟩ := Os.openFile_eq ho
    refine update_of_ne ?_ ..
    rintro rfl
    exact hl ⟨i, fd, errno, call, rfl, hi, by rw [hdesc]⟩
  have hthrough : ∀ {fd : ℕ} {d : Desc} {v : Option Bytes}, s.store.os.fds fd = some d →
      update s.store.os.files d.file v file = s.store.os.files file :=
    fun hd => update_of_ne (Ne.symm (hu _ _ hd)) ..
  generalize hi : s.handlers i = hd at heff
  cases heff with
  | opened call fd errno os desc _ ho => exact hopen hi rfl ho
  | leaked call errno os desc ho => exact hopen hi rfl ho
  | truncated call fd desc os htr =>
    obtain ⟨d, hd, _, rfl⟩ := Os.ftruncate_eq htr
    exact hthrough hd
  | resized info reply os htr =>
    obtain ⟨d, hd, _, rfl⟩ := Os.ftruncate_eq htr
    exact hthrough hd
  | wrote x n os _ _ hw =>
    obtain ⟨d, hd, _, rfl⟩ := Os.pwrite_eq hw
    exact hthrough hd
  | _ => rfl

/-! ### The file of an upload -/

section
variable (c : Conf) (req : CreateFileReq)

/-- Nobody has the file that `req` opens open. -/
def Shut (s : Server) : Prop :=
  ∀ call, handleCreateFile c req = .createOpen call → Unopened (fileOf call.path) s

/-- Only the session with `token` has it open; or the token is bad. -/
def Entered (token : Bytes) (s : Server) : Prop :=
  BadToken token ∨ ∃ call info, handleCreateFile c req = .createOpen call ∧
    s.store.fmap token = some info ∧ info.desc.file = fileOf call.path ∧
      OpenOnly (fileOf call.path) info.fd s

/-- The handler works on `req`, and only it has the file open. -/
inductive Entering (s : Server) : Handler → Prop
  | opening (call : CreateCall) (hopen : handleCreateFile c req = .createOpen call)
      (h : Unopened (fileOf call.path) s) : Entering s (.createOpen call)
  | holding (h : Handler) (call : CreateCall) (fd : ℕ) (desc : Desc)
      (hopen : handleCreateFile c req = .createOpen call) (hc : h.call = some call)
      (hh : h.creatorHolds = some (fd, desc)) (ho : OpenOnly (fileOf call.path) fd s) : Entering s h
  | finished (r : Reply) (h : wireError r.error = 0 → Entered c req r.fileToken s) :
      Entering s (.finished r)

/-- The handler closes the session with `token`, and only the session or it has the file open. -/
inductive Shutting (token : Bytes) (s : Server) : Handler → Prop
  | erase (h : Entered c req token s) : Shutting token s (.closeErase token none)
  | truncate (info : FileInfo) (call : CreateCall) (hopen : handleCreateFile c req = .createOpen call)
      (ho : OpenOnly (fileOf call.path) info.fd s) : Shutting token s (.closeTruncate info none)
  | close (info : FileInfo) (call : CreateCall) (hopen : handleCreateFile c req = .createOpen call)
      (ho : OpenOnly (fileOf call.path) info.fd s) : Shutting token s (.closeFd info none)
  | finished (r : Reply) (h : wireError r.error = 0 → Shut c req s) : Shutting token s (.finished r)

/-- The step leaves the sessions on the file as they are and does not open it. -/
def LeavesFile (s s' : Server) : Prop :=
  ∀ call, handleCreateFile c req = .createOpen call →
    (∀ token info, s.store.fmap token = some info → info.desc.file = fileOf call.path →
      s'.store.fmap token = some info) ∧
    ∀ fd d, s'.store.os.fds fd = some d → d.file = fileOf call.path → s.store.os.fds fd = some d

end

variable {req : CreateFileReq} {token : Bytes} {i : ℕ}

/-! ### What others leave -/

theorem LeavesFile.quiet (hfmap : s'.store.fmap = s.store.fmap) (hfds : s'.store.os.fds = s.store.os.fds) :
    LeavesFile c req s s' :=
  fun _ _ => ⟨fun _ _ hf _ => hfmap ▸ hf, fun _ _ hd _ => hfds ▸ hd⟩

theorem LeavesFile.openOnly {call : CreateCall} {fd : ℕ} (hl : LeavesFile c req s s')
    (hopen : handleCreateFile c req = .createOpen call) (ho : OpenOnly (fileOf call.path) fd s) :
    OpenOnly (fileOf call.path) fd s' :=
  fun fd' d hd hf => ho fd' d ((hl call hopen).2 fd' d hd hf) hf

theorem Shut.left (h : Shut c req s) (hl : LeavesFile c req s s') : Shut c req s' :=
  fun call hopen fd d hd hf => h call hopen fd d ((hl call hopen).2 fd d hd hf) hf

theorem Entered.left (h : Entered c req token s) (hl : LeavesFile c req s s') : Entered c req token s' := by
  rcases h with hbad | ⟨call, info, hopen, hf, hfile, ho⟩
  · exact .inl hbad
  · exact .inr ⟨call, info, hopen, (hl call hopen).1 token info hf hfile, hfile, hl.openOnly hopen ho⟩

theorem Entering.left {h : Handler} (he : Entering c req s h) (hl : LeavesFile c req s s') :
    Entering c req s' h := by
  cases he with
  | opening call hopen h =>
    exact .opening call hopen fun fd d hd hf => h fd d ((hl call hopen).2 fd d hd hf) hf
  | holding _ call fd desc hopen hc hh ho => exact .holding h call fd desc hopen hc hh (hl.openOnly hopen ho)
  | finished r hr => exact .finished r fun hzero => (hr hzero).left hl

theorem Shutting.left {h : Handler} (hs : Shutting c req token s h) (hl : LeavesFile c req s s') :
    Shutting c req token s' h := by
  cases hs with
  | erase h => exact .erase (h.left hl)
  | truncate info call hopen ho => exact .truncate info call hopen (hl.openOnly hopen ho)
  | close info call hopen ho => exact .close info call hopen (hl.openOnly hopen ho)
  | finished r hr => exact .finished r fun hzero => (hr hzero).left hl

theorem Entering.apart {h : Handler} (he : Entering c req s h) : h.Apart := by
  cases he with
  | opening => exact ⟨by simp, by simp⟩
  | holding _ call fd desc hopen hc hh ho =>
    refine ⟨fun hidle => ?_, fun x hx => ?_⟩
    · rw [hidle] at hc
      cases hc
    · rw [hx] at hc
      cases hc
  | finished => exact ⟨by simp, by simp⟩

theorem Shutting.apart {h : Handler} (hs : Shutting c req token s h) : h.Apart := by
  cases hs <;> exact ⟨by simp, by simp⟩

theorem Entered.token_ne_nil (hs : Sound c s) (h : Entered c req token s) : token ≠ [] := by
  rcases h with hbad | ⟨call, info, _, hf, _⟩
  · exact List.ne_nil_of_mem hbad.head
  · rw [(hs.session token info hf).1]
    exact fun h0 => Nat.toDigits_ne_nil (List.map_eq_nil_iff.mp h0)

/-! ### Create -/

theorem entering_arrive (hs : Shut c req s) (h : step c s (.arrive i (.create req)) = some s') :
    Entering c req s' (s'.handlers i) := by
  rcases step_cases h with ⟨j, _, hl, _, rfl⟩ | ⟨_, _, _, _, hl, _⟩ <;> cases hl
  simp only [update_self, accept]
  rcases handleCreateFile_cases c req with ⟨call, hopen⟩ | ⟨r, hr, hne⟩
  · rw [hopen]
    exact .opening call hopen (hs call hopen)
  · rw [hr]
    exact .finished r fun hzero => absurd hzero hne

/-- CORRECT (one piece of a create): it opens the file once and hands the descriptor to the session. -/
theorem entering_resume {a : Answer} (hs : Sound c s) (he : Entering c req s (s.handlers i))
    (h : step c s (.resume i a) = some s') : Entering c req s' (s'.handlers i) := by
  rcases step_cases h with ⟨_, _, hl, _⟩ | ⟨j, _, st', h', hl, heff, rfl⟩ <;> cases hl
  simp only [update_self]
  have hbad : ∀ {e : ℕ} {type : String} {s : Server}, Entering c req s (.finished (returnError e type)) :=
    .finished _ fun _ => .inl ⟨_, _, rfl⟩
  generalize hh : s.handlers i = hd at he heff
  cases he with
  | finished r hr => cases heff
  | opening call hopen hu =>
    cases heff with
    | noDirectory => exact hbad
    | openFailed => exact hbad
    | leaked => exact hbad
    | opened _ fd errno os desc _ ho =>
      obtain ⟨_, _, _, rfl⟩ := Os.openFile_eq ho
      refine .holding _ call fd desc hopen rfl rfl fun fd' d hd hf => ?_
      by_contra hne
      simp only [update_of_ne hne] at hd
      exact hu fd' d hd hf
  | holding _ call fd desc hopen hcall hholds ho =>
    cases heff <;> simp only [Handler.call, reduceCtorEq, Option.some.injEq] at hcall <;> subst hcall
    case truncated fd' desc' os htr =>
      cases hholds
      obtain ⟨d, _, _, rfl⟩ := Os.ftruncate_eq htr
      exact .holding _ _ fd desc hopen rfl rfl ho
    case inserted call fd' desc' hnew =>
      cases hholds
      have hfile := (hs.file i call fd desc (by rw [hh]; rfl) (by rw [hh]; rfl)).1
      refine .finished _ fun _ => .inr ⟨call, Store.createInfo call fd desc, hopen, ?_, hfile, ho⟩
      exact update_self ..
    case opened => cases hholds
    all_goals exact hbad

/-! ### Link -/

theorem entered_link {targets : List ChainTarget} (he : Entered c req token s)
    (h : step c s (.arrive i (.setChain ⟨token, targets⟩)) = some s') : Entered c req token s' := by
  rcases he with hbad | ⟨call, info, hopen, hf, hfile, ho⟩
  · exact .inl hbad
  have hstep := ho.step h fun ⟨_, _, _, _, hl, _⟩ => by cases hl
  rcases step_cases h with ⟨j, _, hl, _, rfl⟩ | ⟨_, _, _, _, hl, _⟩ <;> cases hl
  refine .inr ⟨call, { info with targets }, hopen, ?_, hfile, hstep⟩
  simp only [accept, Store.setChainTargets, hf, update_self]

/-! ### Close -/

theorem shutting_arrive {wait : BitVec 8} (hwait : wait ≠ 0) (he : Entered c req token s)
    (h : step c s (.arrive i (.close ⟨wait, token⟩)) = some s') :
    Shutting c req token s' (s'.handlers i) := by
  rcases step_cases h with ⟨j, _, hl, _, rfl⟩ | ⟨_, _, _, _, hl, _⟩ <;> cases hl
  simp only [update_self, accept, handleCloseFile, if_pos hwait]
  exact .erase he

/-- CORRECT (one piece of a close): the descriptor goes last. -/
theorem shutting_resume {a : Answer} (hs : Sound c s) (hc : Shutting c req token s (s.handlers i))
    (h : step c s (.resume i a) = some s') : Shutting c req token s' (s'.handlers i) := by
  rcases step_cases h with ⟨_, _, hl, _⟩ | ⟨j, _, st', h', hl, heff, rfl⟩ <;> cases hl
  simp only [update_self]
  generalize s.handlers i = hd at hc heff
  cases hc with
  | finished r hr => cases heff
  | erase he =>
    cases heff with
    | notFound => exact .finished _ fun hzero => absurd hzero (by decide)
    | erased _ _ info hf =>
      rcases he with hbad | ⟨call, info', hopen, hf', _, ho⟩
      · rw [hbad.no_session hs] at hf
        cases hf
      · cases hf.symm.trans hf'
        exact .truncate info call hopen ho
  | truncate info call hopen ho =>
    cases heff with
    | resizeFailed => exact .close info call hopen ho
    | resized _ _ os htr =>
      obtain ⟨d, _, _, rfl⟩ := Os.ftruncate_eq htr
      exact .close info call hopen ho
  | close info call hopen ho =>
    cases heff with
    | closed =>
      refine .finished _ fun _ call' hopen' fd d hd hf => ?_
      cases hopen.symm.trans hopen'
      by_cases hfd : fd = info.fd
      · subst hfd
        simp only [Os.close, update_self, reduceCtorEq] at hd
      · simp only [Os.close, update_of_ne hfd] at hd
        exact hfd (ho fd d hd hf)

/-- The descriptors on the file that `req` opens. -/
def fileTenure (c : Conf) (req : CreateFileReq) : Tenure False c req where
  clear := Shut c req
  held := Entered c req
  creating := Entering c req
  closing := Shutting c req
  leaves := LeavesFile c req
  leaves_quiet := .quiet
  clear_left := Shut.left
  held_left := Entered.left
  creating_left := Entering.left
  closing_left := Shutting.left
  creating_apart := Entering.apart
  closing_apart := Shutting.apart
  token_ne_nil := Entered.token_ne_nil
  create_arrive := entering_arrive
  create_resume := entering_resume
  created
    | .finished _ hr, hzero => hr hzero
  refused hno := hno.elim
  link_arrive _ := entered_link
  close_arrive := shutting_arrive
  close_resume := shutting_resume
  closed
    | .finished _ hr, hzero => hr hzero

end Fcopy
