import Fcopy.Client.OpenFiles

/-! A file that strangers keep away from.

    A server knows its clients by their requests only: a path, and then a token. Whoever asks for other
    paths and with other tokens than an upload does not get at its file (`Secluded.spares`), however the
    steps of all handlers interleave, but for one way round:

        SEND of another session ─── looks up fd ──────────────────────────────────── pwrite fd
                                                 CLOSE of it closes fd
                                                                       open = fd, for the upload

    A handler that has looked up its descriptor keeps the number, and `close_file` does not wait for it.
    So an `open` for the file must not return a number that such a handler still has to write to
    (`Heeds`). -/

namespace Fcopy
open Function

/-- The token a request is made with. -/
def Request.token : Request → Option Bytes
  | .create _ => none
  | .close q => some q.fileToken
  | .send q _ => some q.fileToken
  | .setChain q => some q.fileToken

/-- The file it creates, if it is a request for one that is accepted. -/
def Request.file (c : Conf) : Request → Option (List Bytes)
  | .create q =>
    match handleCreateFile c q with
    | .createOpen call => some (fileOf call.path)
    | _ => none
  | _ => none

/-- Nobody has the file open or is about to open it. -/
structure Deserted (file : List Bytes) (s : Server) : Prop where
  unopened : Unopened file s
  unasked : ∀ i call, s.handlers i = .createOpen call → fileOf call.path ≠ file

section
variable (c : Conf) (call : CreateCall)

/-- The handler works on another file than that of `call`. -/
def Handler.Elsewhere (os : Os) : Handler → Prop
  | .createOpen call' => fileOf call'.path ≠ fileOf call.path
  | .createTruncate _ _ desc | .createInsert _ _ desc => desc.file ≠ fileOf call.path
  | .closeErase token _ => token ≠ call.token
  | .closeTruncate info _ | .closeFd info _ => info.desc.file ≠ fileOf call.path
  | .sending x => x.writeError = none → ∀ d, os.fds x.fd = some d → d.file ≠ fileOf call.path
  | _ => True

variable (own : ℕ → Prop)

/-- Only the handlers in `own` work on the file of `call`, and it has no session but that of `call`. -/
structure Secluded (s : Server) : Prop where
  session : ∀ token info, s.store.fmap token = some info → info.desc.file = fileOf call.path →
    token = call.token
  mine : ∀ i call', own i → (s.handlers i).call = some call' → call' = call
  elsewhere : ∀ i, ¬own i → (s.handlers i).Elsewhere call s.store.os

/-- Nobody has the file of `call` open or is about to open it, and only those in `own` are about to close
    its session. -/
structure Unused (s : Server) : Prop extends Deserted (fileOf call.path) s where
  unclosed : ∀ i token reply, ¬own i → s.handlers i = .closeErase token reply → token ≠ call.token

/-- Strangers ask for other files with other tokens. Those in `own` ask for `call`, and `open` gives them
    no number that a sender has still to write to. -/
def Heeds (s : Server) : Label → Prop
  | .arrive i req =>
    (own i → ∀ q call', req = .create q → handleCreateFile c q = .createOpen call' → call' = call) ∧
      (¬own i → req.file c ≠ some (fileOf call.path) ∧ req.token ≠ some call.token)
  | .resume i (.opened fd _) =>
    own i → ∀ j x, s.handlers j = .sending x → x.writeError = none → x.fd ≠ fd
  | .resume .. => True

end

variable {c : Conf} {call : CreateCall} {own own' : ℕ → Prop} {s s' : Server} {l : Label}
  {file : List Bytes}

theorem Request.file_eq {q : CreateFileReq} (h : handleCreateFile c q = .createOpen call) :
    (Request.create q).file c = some (fileOf call.path) := by
  rw [Request.file, h]

/-! ### Who works on the file -/

/-- Whoever is taken in has not begun, and whoever is let go has finished. -/
theorem Secluded.regard (h : Secluded call own s) (hin : ∀ i, own' i → ¬own i → s.handlers i = .idle)
    (hout : ∀ i, own i → ¬own' i → ∃ r, s.handlers i = .finished r) : Secluded call own' s := by
  refine ⟨h.session, fun i call' hi hcall => ?_, fun i hi => ?_⟩
  · by_cases hown : own i
    · exact h.mine i call' hown hcall
    · rw [hin i hi hown] at hcall
      cases hcall
  · by_cases hown : own i
    · obtain ⟨r, hr⟩ := hout i hown hi
      rw [hr]
      trivial
    · exact h.elsewhere i hown

/-- CORRECT (the start): where nobody has the file open, nobody works on it. -/
theorem Unused.secluded (h : Unused call own s) (hs : Sound c s) (hown : ∀ i, ¬own i) :
    Secluded call own s := by
  have hheld : ∀ o fd desc, s.owned o = some (fd, desc) → desc.file ≠ fileOf call.path :=
    fun o fd desc ho => h.unopened fd desc (hs.exclusive.live o fd desc ho)
  refine ⟨fun token info hf hfile => ?_, fun i _ hi => absurd hi (hown i), fun i hi => ?_⟩
  · exact absurd hfile (hheld (.session token) info.fd info.desc (by rw [Server.owned, hf]; rfl))
  · cases hh : s.handlers i with
    | createOpen call' => exact h.unasked i call' hh
    | createTruncate _ fd desc | createInsert _ fd desc =>
      exact hheld (.creator i) fd desc (by rw [Server.owned, hh]; rfl)
    | closeErase token reply => exact h.unclosed i token reply hi hh
    | closeTruncate info _ | closeFd info _ =>
      exact hheld (.closer i) info.fd info.desc (by rw [Server.owned, hh]; rfl)
    | sending x => exact fun _ d hd => h.unopened x.fd d hd
    | idle | finished => trivial

/-- Whoever is let go has finished. -/
theorem Unused.regard (h : Unused call own s)
    (hout : ∀ i, own i → ¬own' i → ∃ r, s.handlers i = .finished r) : Unused call own' s := by
  refine ⟨h.toDeserted, fun i token reply hi hh => ?_⟩
  by_cases hown : own i
  · obtain ⟨r, hr⟩ := hout i hown hi
    cases hh.symm.trans hr
  · exact h.unclosed i token reply hown hh

/-! ### Files that nobody touches -/

theorem Deserted.not_opens (h : Deserted file s) : ¬Opens file s l := by
  rintro ⟨i, _, _, call, _, hi, hfile⟩
  exact h.unasked i call hi hfile

/-- CORRECT (one step): a file that nobody touches stays as it is until somebody asks for it. -/
theorem Deserted.preserved (h : Deserted file s) (hl : ∀ i req, l = .arrive i req → req.file c ≠ some file)
    (hstep : step c s l = some s') :
    Deserted file s' ∧ s'.store.os.files file = s.store.os.files file := by
  refine ⟨⟨h.unopened.step hstep h.not_opens, fun i call hi => ?_⟩,
    unopened_step h.unopened hstep h.not_opens⟩
  rcases handler_cases hstep i with hsame | ⟨req, hreq, _, harrive⟩ | ⟨_, _, _, heff⟩
  · exact h.unasked i call (hsame ▸ hi)
  · obtain ⟨q, rfl, hopen, _⟩ := accept_call s.store (show (accept c s.store req).2.call = some call by
      rw [← harrive, hi]; rfl)
    exact fun hfile => hl i _ hreq (by rw [Request.file_eq hopen, hfile])
  · rw [hi] at heff
    generalize s.handlers i = hd at heff
    cases heff

theorem Unused.preserved (h : Unused call own s)
    (hl : ∀ i req, l = .arrive i req →
      req.file c ≠ some (fileOf call.path) ∧ (¬own i → req.token ≠ some call.token))
    (hstep : step c s l = some s') : Unused call own s' := by
  refine ⟨(h.toDeserted.preserved (fun i req heq => (hl i req heq).1) hstep).1,
    fun i token reply hown hi => ?_⟩
  rcases handler_cases hstep i with hsame | ⟨req, hreq, _, harrive⟩ | ⟨_, _, _, heff⟩
  · exact h.unclosed i token reply hown (hsame ▸ hi)
  · have htoken := (hl i req hreq).2 hown
    rw [hi] at harrive
    cases req with
    | close q =>
      simp only [accept, handleCloseFile] at harrive
      split at harrive <;> cases harrive <;> exact fun heq => htoken (congrArg some heq)
    | send q data =>
      simp only [accept, handleSendFile] at harrive
      split at harrive <;> cases harrive
    | create q =>
      simp only [accept] at harrive
      rcases handleCreateFile_cases c q with ⟨_, hopen⟩ | ⟨_, hr, _⟩
      · rw [hopen] at harrive
        cases harrive
      · rw [hr] at harrive
        cases harrive
    | setChain q => cases harrive
  · rw [hi] at heff
    generalize s.handlers i = hd at heff
    cases heff

/-! ### Steps -/

/-- A stranger's request on its arrival. -/
theorem Secluded.stranger (h : Secluded call own s) (hs : Sound c s) {req : Request}
    (hfile : req.file c ≠ some (fileOf call.path)) (htoken : req.token ≠ some call.token) :
    (accept c s.store req).2.Elsewhere call s.store.os := by
  have hne : ∀ token, req.token = some token → token ≠ call.token :=
    fun token htok heq => htoken (htok.trans (congrArg some heq))
  cases req with
  | create q =>
    simp only [accept]
    rcases handleCreateFile_cases c q with ⟨call', hopen⟩ | ⟨r, hr, _⟩
    · rw [hopen]
      exact fun hsame => hfile (by rw [Request.file_eq hopen, hsame])
    · rw [hr]
      trivial
  | close q =>
    simp only [accept, handleCloseFile]
    split <;> exact hne _ rfl
  | send q data =>
    simp only [accept]
    rcases handleSendFile_kinds s.store q data with ⟨_, e, he, _⟩ | ⟨_, info, hf, hx⟩
    · rw [he]
      trivial
    · rw [hx]
      intro _ d hd hsame
      have hlive := hs.exclusive.live (.session q.fileToken) info.fd info.desc
        (by rw [Server.owned, hf]; rfl)
      cases hd.symm.trans hlive
      exact hne _ rfl (h.session q.fileToken info hf hsame)
  | setChain q => trivial

/-- Descriptors on the file are there already, or one is opened by a handler in `own`. -/
theorem Secluded.fds_before (h : Secluded call own s) {i : ℕ} {a : Answer} {st' : Store} {h' : Handler}
    (heff : Effect s.store (s.handlers i) a st' h') {fd : ℕ} {d : Desc} (hd : st'.os.fds fd = some d)
    (hfile : d.file = fileOf call.path) :
    s.store.os.fds fd = some d ∨ own i ∧ ∃ errno, a = .opened fd errno := by
  rcases heff.fds_before hd with hold | ⟨call', errno, hi, rfl⟩
  · exact .inl hold
  refine .inr ⟨by_contra fun hown => ?_, errno, rfl⟩
  have helse := h.elsewhere i hown
  rw [hi] at heff helse
  obtain ⟨os, desc, ho, hos, _⟩ := heff.opened_eq
  obtain ⟨_, _, hdesc, rfl⟩ := Os.openFile_eq ho
  simp only [hos, update_self, Option.some.injEq] at hd
  exact helse (by rw [← hfile, ← hd, hdesc])

/-- What a handler that works elsewhere becomes. -/
theorem Secluded.effect (h : Secluded call own s) {i : ℕ} (hown : ¬own i) {a : Answer} {st' : Store}
    {h' : Handler} (heff : Effect s.store (s.handlers i) a st' h') : h'.Elsewhere call st'.os := by
  have helse := h.elsewhere i hown
  generalize s.handlers i = hd at helse heff
  cases heff with
  | opened call' fd errno os desc _ ho =>
    obtain ⟨_, _, rfl, _⟩ := Os.openFile_eq ho
    exact helse
  | truncated | resized | resizeFailed => exact helse
  | erased token reply info hf => exact fun hfile => helse (h.session token info hf hfile)
  | wrote | writeFailed => exact fun hnone => by cases hnone
  | answered => exact helse
  | _ => trivial

/-- CORRECT (one step): the file stays with those in `own`. -/
theorem Secluded.preserved (h : Secluded call own s) (hs : Sound c s) (hl : Heeds c call own s l)
    (hstep : step c s l = some s') : Secluded call own s' := by
  rcases step_cases hstep with ⟨i, req, rfl, _, rfl⟩ | ⟨i, a, st', h', rfl, heff, rfl⟩
  · refine ⟨fun token info hf hfile => ?_, fun j call' hj hcall => ?_, fun j hj => ?_⟩
    · obtain ⟨old, hold, hinfo⟩ := accept_session s.store req token hf
      rw [hinfo] at hfile
      exact h.session token old hold hfile
    · rcases eq_or_ne j i with rfl | hji
      · simp only [update_self] at hcall
        obtain ⟨q, rfl, hopen, _⟩ := accept_call s.store hcall
        exact hl.1 hj q call' rfl hopen
      · simp only [update_of_ne hji] at hcall
        exact h.mine j call' hj hcall
    · simp only [(accept_store c s.store req).1]
      rcases eq_or_ne j i with rfl | hji
      · obtain ⟨hfile, htoken⟩ := hl.2 hj
        simp only [update_self]
        exact h.stranger hs hfile htoken
      · simp only [update_of_ne hji]
        exact h.elsewhere j hj
  · refine ⟨fun token info hf hfile => ?_, fun j call' hj hcall => ?_, fun j hj => ?_⟩
    · have hsame : st'.fmap = s.store.fmap → token = call.token :=
        fun heq => h.session token info (heq ▸ hf) hfile
      generalize hi : s.handlers i = hd at heff
      cases heff with
      | inserted call' fd desc hnew =>
        by_cases htok : token = call'.token
        · subst htok
          simp only [update_self, Option.some.injEq] at hf
          subst hf
          -- its own session, or a handler elsewhere has had the file open
          by_cases hown : own i
          · rw [h.mine i call' hown (by rw [hi]; rfl)]
          · have helse := h.elsewhere i hown
            rw [hi] at helse
            exact absurd hfile helse
        · simp only [update_of_ne htok] at hf
          exact h.session token info hf hfile
      | erased token' reply old hold =>
        by_cases htok : token = token'
        · subst htok
          simp only [update_self, reduceCtorEq] at hf
        · simp only [update_of_ne htok] at hf
          exact h.session token info hf hfile
      | _ => exact hsame rfl
    · rcases eq_or_ne j i with rfl | hji
      · simp only [update_self] at hcall
        exact h.mine j call' hj (creatorHolds_effect heff hcall).1
      · simp only [update_of_ne hji] at hcall
        exact h.mine j call' hj hcall
    · rcases eq_or_ne j i with rfl | hji
      · simp only [update_self]
        exact h.effect hj heff
      · simp only [update_of_ne hji]
        have helse := h.elsewhere j hj
        cases hh : s.handlers j with
        | sending x =>
          rw [hh] at helse
          intro hnone d hd hfile
          rcases h.fds_before heff hd hfile with hold | ⟨hown, errno, rfl⟩
          · exact helse hnone d hold hfile
          · exact hl hown j x hh hnone rfl
        | _ =>
          rw [hh] at helse
          exact helse

/-- CORRECT (one step of a stranger): it spares the file, and does not open it. -/
theorem Secluded.spares (h : Secluded call own s) (hs : Sound c s) (hl : Heeds c call own s l)
    (hown : ¬own l.handler) (hstep : step c s l = some s') :
    Spares (fileOf call.path) s s' ∧ ¬Opens (fileOf call.path) s l := by
  refine ⟨⟨?_, fun token info hf hfile => ?_⟩, ?_⟩
  · rcases step_cases hstep with ⟨i, req, rfl, _, rfl⟩ | ⟨i, a, st', h', rfl, heff, rfl⟩
    · rw [(accept_store c s.store req).1]
    · have helse := h.elsewhere i hown
      have hlive : ∀ o fd desc, s.owned o = some (fd, desc) → s.store.os.fds fd = some desc :=
        fun o fd desc ho => hs.exclusive.live o fd desc ho
      generalize hi : s.handlers i = hd at helse heff
      cases heff with
      | opened call' fd errno os desc _ ho =>
        obtain ⟨_, _, rfl, rfl⟩ := Os.openFile_eq ho
        exact update_of_ne (Ne.symm helse) ..
      | leaked call' errno os desc ho =>
        obtain ⟨_, _, rfl, rfl⟩ := Os.openFile_eq ho
        exact update_of_ne (Ne.symm helse) ..
      | truncated call' fd desc os htr =>
        obtain ⟨d, hd, _, rfl⟩ := Os.ftruncate_eq htr
        cases hd.symm.trans (hlive (.creator i) fd desc (by rw [Server.owned, hi]; rfl))
        exact update_of_ne (Ne.symm helse) ..
      | resized info reply os htr =>
        obtain ⟨d, hd, _, rfl⟩ := Os.ftruncate_eq htr
        cases hd.symm.trans (hlive (.closer i) info.fd info.desc (by rw [Server.owned, hi]; rfl))
        exact update_of_ne (Ne.symm helse) ..
      | wrote x n os hx _ hw =>
        obtain ⟨d, hd, _, rfl⟩ := Os.pwrite_eq hw
        exact update_of_ne (Ne.symm (helse hx d hd)) ..
      | _ => rfl
  · have htoken := h.session token info hf hfile
    rcases step_cases hstep with ⟨i, req, rfl, _, rfl⟩ | ⟨i, a, st', h', rfl, heff, rfl⟩
    · cases req with
      | setChain q =>
        have hne : token ≠ q.fileToken := by
          rintro rfl
          exact (hl.2 hown).2 (congrArg some htoken)
        simp only [accept, Store.setChainTargets]
        cases s.store.fmap q.fileToken with
        | none => exact hf
        | some old =>
          simp only [update_of_ne hne]
          exact hf
      | _ => exact hf
    · have helse := h.elsewhere i hown
      generalize s.handlers i = hd at helse heff
      cases heff with
      | inserted call' fd desc hnew =>
        refine (update_of_ne ?_ ..).trans hf
        rintro rfl
        rw [hnew] at hf
        cases hf
      | erased token' reply old hold =>
        refine (update_of_ne ?_ ..).trans hf
        rintro rfl
        exact helse htoken
      | _ => exact hf
  · rintro ⟨i, fd, errno, call', rfl, hi, hfile⟩
    have helse := h.elsewhere i hown
    rw [hi] at helse
    exact helse hfile

end Fcopy
