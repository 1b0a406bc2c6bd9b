import Fcopy.Server.Service

/-! Requests delivered twice.

    `serve` handles one request from its arrival to its reply, with nothing in between. A request whose
    reply was lost is served again. The second time changes neither the session table nor any file; but
    the reply differs where the first time created or removed the session: a create then meets its own
    session, and a close finds none. -/

namespace Fcopy
open Function

variable {conf : Conf} {st st₁ st₂ : Store} {r₁ r₂ : Reply}

/-- A handler carried on to its reply. -/
def drive (st : Store) (h : Handler) : List Answer → Option (Store × Reply)
  | [] =>
    match h with
    | .finished r => some (st, r)
    | _ => none
  | a :: answers => (advance st h a).bind fun (st, h) => drive st h answers

def serve (conf : Conf) (st : Store) (req : Request) (answers : List Answer) :
    Option (Store × Reply) :=
  let (st, h) := accept conf st req
  drive st h answers

/-- The same outcome for the caller: `open` may return another descriptor, but not 0. -/
def Answer.Alike : Answer → Answer → Prop
  | .opened fd _, .opened fd' _ => 0 < fd ∧ 0 < fd'
  | a, b => a = b

/-- The second reply to a request: the first one again, unless that created or removed the session. -/
def SecondReply (req : Request) (st st₁ : Store) (r₁ r₂ : Reply) : Prop :=
  match req with
  | .create _ => st₁.fmap = st.fmap ∧ r₂ = r₁ ∨
      st₁.fmap ≠ st.fmap ∧ r₁.error = 0 ∧ r₂ = returnError EEXIST "duplicate_token"
  | .close _ => st₁.fmap = st.fmap ∧ r₂ = r₁ ∨
      st₁.fmap ≠ st.fmap ∧ r₁.error = 0 ∧ r₂ = ⟨-ENOENT, []⟩
  | .send _ _ | .setChain _ => r₂ = r₁

/-! ### The server -/

theorem drive_cons {h : Handler} {a : Answer} {answers : List Answer}
    (hd : drive st h (a :: answers) = some (st₁, r₁)) :
    ∃ st' h', advance st h a = some (st', h') ∧ drive st' h' answers = some (st₁, r₁) := by
  obtain ⟨⟨st', h'⟩, hadv, hrest⟩ := Option.bind_eq_some_iff.mp hd
  exact ⟨st', h', hadv, hrest⟩

theorem drive_nil {h : Handler} (hd : drive st h [] = some (st₁, r₁)) :
    h = .finished r₁ ∧ st₁ = st := by
  unfold drive at hd
  cases h <;> cases hd
  exact ⟨rfl, rfl⟩

theorem drive_finished {r : Reply} {answers : List Answer}
    (hd : drive st (.finished r) answers = some (st₁, r₁)) : answers = [] ∧ st₁ = st ∧ r₁ = r := by
  cases answers with
  | nil =>
    obtain ⟨hr, hst⟩ := drive_nil hd
    cases hr
    exact ⟨rfl, hst, rfl⟩
  | cons a answers =>
    obtain ⟨_, _, hadv, _⟩ := drive_cons hd
    cases hadv

/-- A request served alone is a run of the server in which nobody else moves. -/
theorem serve_runs {s : Server} {i : ℕ} {req : Request} {answers : List Answer}
    (hi : s.handlers i = .idle) (hs : serve conf s.store req answers = some (st₁, r₁)) :
    Runs conf s (.arrive i req :: answers.map (.resume i))
      ⟨st₁, update s.handlers i (.finished r₁)⟩ := by
  have hdrive : ∀ (answers : List Answer) (st : Store) (h : Handler),
      drive st h answers = some (st₁, r₁) →
        Runs conf ⟨st, update s.handlers i h⟩ (answers.map (.resume i))
          ⟨st₁, update s.handlers i (.finished r₁)⟩ := by
    intro answers
    induction answers with
    | nil =>
      intro st h hd
      obtain ⟨rfl, rfl⟩ := drive_nil hd
      exact .nil _
    | cons a answers ih =>
      intro st h hd
      obtain ⟨st', h', hadv, hrest⟩ := drive_cons hd
      refine .cons ?_ (ih st' h' hrest)
      simp only [Run.ofStep, step, update_self, hadv, Option.map_some, update_idem]
  exact .cons (if_pos hi) (hdrive answers _ _ hs)

/-! ### `handle_send_file` -/

/-- Writing the same bytes at the same place again changes nothing. -/
theorem pwrite_again {os os' os'' : Os} {fd : ℕ} {data : Bytes} {offset : BitVec 64}
    (h : os.pwrite fd data offset = some os') (h' : os'.pwrite fd data offset = some os'') :
    os'' = os' := by
  obtain ⟨d, hd, _, rfl⟩ := Os.pwrite_eq h
  obtain ⟨d', hd', _, rfl⟩ := Os.pwrite_eq h'
  cases hd.symm.trans hd'
  have hcontent : ∀ c : Bytes,
      Os.content { os with files := update os.files d.file (some c) } d.file = c := fun c => by
    simp only [Os.content, update_self, Option.getD_some]
  simp only [hcontent, Content.writeAt_writeAt, update_idem]

/-- After its write a sender does not touch the store. -/
theorem drive_written {answers : List Answer} : ∀ {x : Sending}, x.writeError ≠ none →
    drive st (.sending x) answers = some (st₁, r₁) → st₁ = st := by
  induction answers with
  | nil =>
    intro x _ hd
    cases (drive_nil hd).1
  | cons a answers ih =>
    intro x hx hd
    obtain ⟨st', h', hadv, hrest⟩ := drive_cons hd
    cases advance_effect hadv with
    | wrote _ n os hnone => exact absurd hnone hx
    | writeFailed _ e hnone => exact absurd hnone hx
    | answered _ j e =>
      refine ih ?_ hrest
      exact hx
    | joined => exact (drive_finished hrest).2.1

/-- A sender leaves the session table alone. -/
theorem drive_send_fmap {answers : List Answer} : ∀ {st : Store} {x : Sending},
    drive st (.sending x) answers = some (st₁, r₁) → st₁.fmap = st.fmap := by
  induction answers with
  | nil =>
    intro st x hd
    cases (drive_nil hd).1
  | cons a answers ih =>
    intro st x hd
    obtain ⟨st', h', hadv, hrest⟩ := drive_cons hd
    cases advance_effect hadv with
    | wrote =>
      have hmap := ih hrest
      exact hmap
    | writeFailed => exact ih hrest
    | answered => exact ih hrest
    | joined => rw [(drive_finished hrest).2.1]

theorem drive_send_again {answers : List Answer} : ∀ {x : Sending},
    drive st (.sending x) answers = some (st₁, r₁) →
    drive st₁ (.sending x) answers = some (st₂, r₂) → st₂ = st₁ ∧ r₂ = r₁ := by
  induction answers with
  | nil =>
    intro x hd
    cases (drive_nil hd).1
  | cons a answers ih =>
    intro x hd hd'
    obtain ⟨st', h', hadv, hrest⟩ := drive_cons hd
    obtain ⟨st'', h'', hadv', hrest'⟩ := drive_cons hd'
    cases advance_effect hadv with
    | wrote _ n os hnone hn hw =>
      cases drive_written (Option.some_ne_none 0) hrest
      cases advance_effect hadv' with
      | wrote _ _ os' _ _ hw' =>
        cases pwrite_again hw hw'
        cases hrest.symm.trans hrest'
        exact ⟨rfl, rfl⟩
    | writeFailed _ e hnone =>
      cases drive_written (Option.some_ne_none _) hrest
      cases advance_effect hadv' with
      | writeFailed =>
        cases hrest.symm.trans hrest'
        exact ⟨rfl, rfl⟩
    | answered _ j e hnone =>
      cases advance_effect hadv' with
      | answered => exact ih hrest hrest'
    | joined _ e he =>
      cases advance_effect hadv' with
      | joined _ _ he' =>
        cases he.symm.trans he'
        obtain ⟨rfl, rfl, rfl⟩ := drive_finished hrest
        obtain ⟨_, rfl, rfl⟩ := drive_finished hrest'
        exact ⟨rfl, rfl⟩

/-- No answer to a sender leaves the outcome open. -/
theorem alike_send {answers : List Answer} : ∀ {answers' : List Answer} {st : Store} {x : Sending},
    drive st (.sending x) answers = some (st₁, r₁) →
    List.Forall₂ Answer.Alike answers answers' → answers' = answers := by
  induction answers with
  | nil => exact fun _ h => by cases h; rfl
  | cons a answers ih =>
    intro answers' st x hd hall
    obtain ⟨st', h', hadv, hrest⟩ := drive_cons hd
    obtain _ | ⟨hab, hall'⟩ := hall
    cases advance_effect hadv with
    | wrote => rw [← show Answer.wrote _ = _ from hab, ih hrest hall']
    | writeFailed => rw [← show Answer.failed _ = _ from hab, ih hrest hall']
    | answered => rw [← show Answer.answered _ _ = _ from hab, ih hrest hall']
    | joined =>
      obtain ⟨rfl, _⟩ := drive_finished hrest
      cases hall'
      rw [← show Answer.done = _ from hab]

/-! ### `handle_create_file` -/

/-- The ways a `create_file` goes on from `open`, with what it leaves and replies. -/
inductive CreateRun (st : Store) (c : CreateCall) : List Answer → Store → Reply → Prop
  | noDirectory : CreateRun st c [.noDirectory] st (returnError ENOTDIR "create_directory")
  | openFailed (e : ℕ) : CreateRun st c [.failed e] st (returnError e "create_file")
  | leaked (errno : ℕ) (os : Os) (desc : Desc) (ho : st.os.openFile c.path 0 = some (os, desc)) :
      CreateRun st c [.opened 0 errno] { st with os } (returnError errno "create_file")
  | truncateFailed (fd errno e : ℕ) (os : Os) (desc : Desc)
      (ho : st.os.openFile c.path fd = some (os, desc)) :
      CreateRun st c [.opened fd errno, .failed e] { st with os := os.close fd }
        (returnError e "create_file")
  | duplicate (fd errno : ℕ) (os os' : Os) (desc : Desc) (info : FileInfo)
      (ho : st.os.openFile c.path fd = some (os, desc)) (ht : os.ftruncate fd 0 = some os')
      (hf : st.fmap c.token = some info) :
      CreateRun st c [.opened fd errno, .done, .done] { st with os := os'.close fd }
        (returnError EEXIST "duplicate_token")
  | inserted (fd errno : ℕ) (os os' : Os) (desc : Desc)
      (ho : st.os.openFile c.path fd = some (os, desc)) (ht : os.ftruncate fd 0 = some os')
      (hf : st.fmap c.token = none) :
      CreateRun st c [.opened fd errno, .done, .done]
        ⟨update st.fmap c.token (some (Store.createInfo c fd desc)), os'⟩ ⟨0, c.token⟩

theorem drive_create {c : CreateCall} {answers : List Answer}
    (hd : drive st (.createOpen c) answers = some (st₁, r₁)) :
    CreateRun st c answers st₁ r₁ := by
  cases answers with
  | nil => cases (drive_nil hd).1
  | cons a answers =>
    obtain ⟨st', h', hadv, hd⟩ := drive_cons hd
    cases advance_effect hadv with
    | noDirectory =>
      obtain ⟨rfl, rfl, rfl⟩ := drive_finished hd
      exact .noDirectory
    | openFailed _ e =>
      obtain ⟨rfl, rfl, rfl⟩ := drive_finished hd
      exact .openFailed e
    | leaked _ errno os desc ho =>
      obtain ⟨rfl, rfl, rfl⟩ := drive_finished hd
      exact .leaked errno os desc ho
    | opened _ fd errno os desc hfd ho =>
      cases answers with
      | nil => cases (drive_nil hd).1
      | cons a answers =>
        obtain ⟨st', h', hadv, hd⟩ := drive_cons hd
        cases advance_effect hadv with
        | truncateFailed _ _ _ e =>
          obtain ⟨rfl, rfl, rfl⟩ := drive_finished hd
          exact .truncateFailed fd errno e os desc ho
        | truncated _ _ _ os' ht =>
          cases answers with
          | nil => cases (drive_nil hd).1
          | cons a answers =>
            obtain ⟨st', h', hadv, hd⟩ := drive_cons hd
            cases advance_effect hadv with
            | duplicate _ _ _ info hf =>
              obtain ⟨rfl, rfl, rfl⟩ := drive_finished hd
              exact .duplicate fd errno os os' desc info ho ht hf
            | inserted _ _ _ hf =>
              obtain ⟨rfl, rfl, rfl⟩ := drive_finished hd
              exact .inserted fd errno os os' desc ho ht hf

/-- Opening a file a second time finds what the first time left. -/
theorem files_open_again {os os' os₁ os₂ : Os} {path : Bytes} {fd fd' : ℕ} {desc desc' : Desc}
    (h : os.openFile path fd = some (os', desc)) (h₂ : os₁.openFile path fd' = some (os₂, desc'))
    (h₁ : os₁.files = os'.files) : os₂.files = os'.files := by
  obtain ⟨_, _, rfl, rfl⟩ := Os.openFile_eq h
  obtain ⟨_, _, rfl, rfl⟩ := Os.openFile_eq h₂
  simp only at h₁
  have hcontent := Os.content_update h₁ (fileOf path)
  rw [if_pos rfl] at hcontent
  simp only [h₁, hcontent, update_idem]

/-- What `open` and `ftruncate` make of the files. -/
theorem files_truncate {os os' os'' : Os} {path : Bytes} {fd : ℕ} {desc : Desc}
    (h : os.openFile path fd = some (os', desc)) (h' : os'.ftruncate fd 0 = some os'') :
    os''.files = update os.files (fileOf path) (some []) := by
  obtain ⟨_, _, rfl, rfl⟩ := Os.openFile_eq h
  obtain ⟨d, hd, _, rfl⟩ := Os.ftruncate_eq h'
  simp only [update_self, Option.some.injEq] at hd
  subst hd
  have hzero : ∀ b : Bytes, Content.resize 0 b (0 : BitVec 64).toNat = [] := Content.resize_zero
  simp only [hzero, update_idem]

theorem create_again {req : CreateFileReq} {c : CreateCall} {answers answers' : List Answer}
    (hd : drive st (.createOpen c) answers = some (st₁, r₁))
    (hd' : drive st₁ (.createOpen c) answers' = some (st₂, r₂))
    (hall : List.Forall₂ Answer.Alike answers answers') :
    st₂.fmap = st₁.fmap ∧ st₂.os.files = st₁.os.files ∧
      SecondReply (.create req) st st₁ r₁ r₂ := by
  cases drive_create hd with
  | noDirectory =>
    obtain _ | ⟨hab, _ | _⟩ := hall
    cases show Answer.noDirectory = _ from hab
    cases drive_create hd'
    exact ⟨rfl, rfl, .inl ⟨rfl, rfl⟩⟩
  | openFailed e =>
    obtain _ | ⟨hab, _ | _⟩ := hall
    cases show Answer.failed e = _ from hab
    cases drive_create hd'
    exact ⟨rfl, rfl, .inl ⟨rfl, rfl⟩⟩
  | leaked errno os desc ho =>
    obtain _ | ⟨hab, _ | _⟩ := hall
    rename_i b
    cases b with
    | opened => exact absurd hab.1 (lt_irrefl 0)
    | _ => cases show Answer.opened 0 errno = _ from hab
  | truncateFailed fd errno e os desc ho =>
    obtain _ | ⟨hab, _ | ⟨hab', _ | _⟩⟩ := hall
    rename_i b b'
    cases show Answer.failed e = b' from hab'
    cases drive_create hd' with
    | truncateFailed _ _ _ os' desc' ho' =>
      have hfiles := files_open_again ho ho' rfl
      exact ⟨rfl, hfiles, .inl ⟨rfl, rfl⟩⟩
  | duplicate fd errno os os' desc info ho ht hf =>
    obtain _ | ⟨hab, _ | ⟨hab', _ | ⟨hab'', _ | _⟩⟩⟩ := hall
    cases drive_create hd' with
    | duplicate _ _ os₁ os₁' desc' info' ho' ht' hf' =>
      refine ⟨rfl, ?_, .inl ⟨rfl, rfl⟩⟩
      have := files_truncate ho' ht'
      simp only [Os.close] at this ⊢
      rw [this, files_truncate ho ht, update_idem]
    | inserted _ _ _ _ _ _ _ hf' =>
      rw [hf] at hf'
      cases hf'
  | inserted fd errno os os' desc ho ht hf =>
    obtain _ | ⟨hab, _ | ⟨hab', _ | ⟨hab'', _ | _⟩⟩⟩ := hall
    cases drive_create hd' with
    | duplicate _ _ os₁ os₁' desc' info' ho' ht' hf' =>
      refine ⟨rfl, ?_, .inr ⟨fun heq => ?_, rfl, rfl⟩⟩
      · have := files_truncate ho' ht'
        simp only [Os.close] at this ⊢
        rw [this, files_truncate ho ht, update_idem]
      · have := congrFun heq c.token
        simp only [update_self, hf, reduceCtorEq] at this
    | inserted _ _ _ _ _ _ _ hf' =>
      simp only [update_self, reduceCtorEq] at hf'

/-! ### `handle_close_file` -/

/-- The two ways of a `close_file` that finds its session. It returns 0 in both. -/
inductive CloseRun (st : Store) (token : Bytes) (info : FileInfo) : List Answer → Store → Reply → Prop
  | cut (os : Os) (ht : st.os.ftruncate info.fd info.totalSize = some os) :
      CloseRun st token info [.done, .done, .done] ⟨update st.fmap token none, os.close info.fd⟩ ⟨0, []⟩
  | uncut (e : ℕ) : CloseRun st token info [.done, .failed e, .done]
      ⟨update st.fmap token none, st.os.close info.fd⟩ ⟨0, []⟩

theorem drive_closeFd {info : FileInfo} {answers : List Answer}
    (hd : drive st (.closeFd info none) answers = some (st₁, r₁)) :
    answers = [.done] ∧ st₁ = { st with os := st.os.close info.fd } ∧ r₁ = ⟨0, []⟩ := by
  cases answers with
  | nil => cases (drive_nil hd).1
  | cons a answers =>
    obtain ⟨_, _, hadv, hd⟩ := drive_cons hd
    cases advance_effect hadv with
    | closed =>
      obtain ⟨rfl, rfl, rfl⟩ := drive_finished hd
      exact ⟨rfl, rfl, rfl⟩

theorem drive_closeRun {token : Bytes} {info : FileInfo} {answers : List Answer}
    (hf : st.fmap token = some info) (hd : drive st (.closeErase token none) answers = some (st₁, r₁)) :
    CloseRun st token info answers st₁ r₁ := by
  cases answers with
  | nil => cases (drive_nil hd).1
  | cons a answers =>
    obtain ⟨_, _, hadv, hd⟩ := drive_cons hd
    cases advance_effect hadv with
    | notFound _ _ hnone =>
      rw [hf] at hnone
      cases hnone
    | erased _ _ info' hf' =>
      cases hf.symm.trans hf'
      cases answers with
      | nil => cases (drive_nil hd).1
      | cons a answers =>
        obtain ⟨_, _, hadv, hd⟩ := drive_cons hd
        cases advance_effect hadv with
        | resized _ _ os ht =>
          obtain ⟨rfl, rfl, rfl⟩ := drive_closeFd hd
          exact .cut os ht
        | resizeFailed _ _ e =>
          obtain ⟨rfl, rfl, rfl⟩ := drive_closeFd hd
          exact .uncut e

/-- What a close that waits leaves and replies. -/
theorem drive_close {token : Bytes} {answers : List Answer}
    (hd : drive st (.closeErase token none) answers = some (st₁, r₁)) :
    st.fmap token = none ∧ st₁ = st ∧ r₁ = ⟨-ENOENT, []⟩ ∨
      st.fmap token ≠ none ∧ st₁.fmap = update st.fmap token none ∧ r₁ = ⟨0, []⟩ := by
  cases hf : st.fmap token with
  | none =>
    cases answers with
    | nil => cases (drive_nil hd).1
    | cons a answers =>
      obtain ⟨_, _, hadv, hd⟩ := drive_cons hd
      cases advance_effect hadv with
      | notFound =>
        obtain ⟨_, rfl, rfl⟩ := drive_finished hd
        exact .inl ⟨rfl, rfl, rfl⟩
      | erased _ _ info hf' =>
        rw [hf] at hf'
        cases hf'
  | some info =>
    refine .inr ⟨Option.some_ne_none info, ?_⟩
    cases drive_closeRun hf hd <;> exact ⟨rfl, rfl⟩

theorem close_again {req : CloseFileReq} {token : Bytes} {answers answers' : List Answer}
    (hd : drive st (.closeErase token none) answers = some (st₁, r₁))
    (hd' : drive st₁ (.closeErase token none) answers' = some (st₂, r₂)) :
    st₂.fmap = st₁.fmap ∧ st₂.os.files = st₁.os.files ∧
      SecondReply (.close req) st st₁ r₁ r₂ := by
  rcases drive_close hd with ⟨hf, rfl, rfl⟩ | ⟨hf, hmap, rfl⟩ <;>
    rcases drive_close hd' with ⟨hf', rfl, rfl⟩ | ⟨hf', _, _⟩
  · exact ⟨rfl, rfl, .inl ⟨rfl, rfl⟩⟩
  · exact absurd hf hf'
  · refine ⟨rfl, rfl, .inr ⟨fun heq => hf ?_, rfl, rfl⟩⟩
    rw [← heq, hf']
  · rw [hmap, update_self] at hf'
    exact absurd rfl hf'

/-! ### All requests -/

/-- CORRECT (delivered twice): serving a request a second time, with the same outcomes of the system
    calls and of the chain targets, leaves the session table and the files as the first time left
    them. The reply is the first one again, but a create that succeeded is answered `-EEXIST` with an
    error text for a token, and a close that succeeded is answered `-ENOENT`. -/
theorem served_twice (conf : Conf) (st st₁ st₂ : Store) (req : Request)
    (answers answers' : List Answer) (r₁ r₂ : Reply)
    (hwait : ∀ r, req = .close r → r.waitClose ≠ 0)
    (h₁ : serve conf st req answers = some (st₁, r₁))
    (h₂ : serve conf st₁ req answers' = some (st₂, r₂))
    (hall : (∀ r, req ≠ .close r) → List.Forall₂ Answer.Alike answers answers') :
    st₂.fmap = st₁.fmap ∧ st₂.os.files = st₁.os.files ∧ SecondReply req st st₁ r₁ r₂ := by
  cases req with
  | create req =>
    simp only [serve, accept] at h₁ h₂
    cases hc : handleCreateFile conf req with
    | createOpen c =>
      rw [hc] at h₁ h₂
      exact create_again h₁ h₂ (hall (by simp))
    | finished r =>
      rw [hc] at h₁ h₂
      obtain ⟨_, rfl, rfl⟩ := drive_finished h₁
      obtain ⟨_, rfl, rfl⟩ := drive_finished h₂
      exact ⟨rfl, rfl, .inl ⟨rfl, rfl⟩⟩
    | _ =>
      simp only [handleCreateFile] at hc
      split at hc
      · cases hc
      split at hc
      · cases hc
      split at hc <;> cases hc
  | close req =>
    simp only [serve, accept, handleCloseFile, if_pos (hwait req rfl)] at h₁ h₂
    exact close_again h₁ h₂
  | send req data =>
    simp only [serve, accept, handleSendFile] at h₁
    cases hx : sendStart (st.getFd req.fileToken) req data with
    | error e =>
      rw [hx] at h₁
      obtain ⟨_, rfl, rfl⟩ := drive_finished h₁
      simp only [serve, accept, handleSendFile, hx] at h₂
      obtain ⟨_, rfl, rfl⟩ := drive_finished h₂
      exact ⟨rfl, rfl, rfl⟩
    | ok x =>
      rw [hx] at h₁
      simp only at h₁
      obtain rfl := alike_send h₁ (hall (by simp))
      have hx' : sendStart (st₁.getFd req.fileToken) req data = .ok x := by
        rw [Store.getFd, drive_send_fmap h₁]
        exact hx
      simp only [serve, accept, handleSendFile, hx'] at h₂
      obtain ⟨rfl, rfl⟩ := drive_send_again h₁ h₂
      exact ⟨rfl, rfl, rfl⟩
  | setChain req =>
    simp only [serve, accept] at h₁ h₂
    obtain ⟨_, rfl, rfl⟩ := drive_finished h₁
    obtain ⟨_, rfl, rfl⟩ := drive_finished h₂
    simp only [Store.setChainTargets]
    cases hf : st.fmap req.fileToken with
    | none => simp only [hf]; exact ⟨trivial, trivial, rfl⟩
    | some info =>
      simp only [update_self, update_idem]
      exact ⟨trivial, trivial, rfl⟩

/-- The file `a` is created twice. -/
theorem served_twice_create : ∃ st₁ st₂ r₁ r₂,
    let req : Request := .create { chunkSize := 8192, fileName := text "a" }
    serve sampleConf sampleServer.store req [.opened 3 0, .done, .done] = some (st₁, r₁) ∧
      serve sampleConf st₁ req [.opened 5 0, .done, .done] = some (st₂, r₂) ∧
      st₂.fmap = st₁.fmap ∧ st₂.os.files = st₁.os.files ∧
      SecondReply req sampleServer.store st₁ r₁ r₂ := by
  let req : Request := .create { chunkSize := 8192, fileName := text "a" }
  have hrun : (serve sampleConf sampleServer.store req [.opened 3 0, .done, .done]).any
      (fun p => (serve sampleConf p.1 req [.opened 5 0, .done, .done]).isSome) = true := by
    decide +kernel
  obtain ⟨⟨st₁, r₁⟩, h₁, hnext⟩ := (Option.any_eq_true _ _).mp hrun
  obtain ⟨⟨st₂, r₂⟩, h₂⟩ := Option.isSome_iff_exists.mp hnext
  exact ⟨st₁, st₂, r₁, r₂, h₁, h₂, served_twice sampleConf _ st₁ st₂ req _ _ r₁ r₂
    (fun _ h => by simp [req] at h) h₁ h₂
    fun _ => .cons ⟨by decide, by decide⟩ (.cons rfl (.cons rfl .nil))⟩

/-- The second reply to the create of `a` has another error code and another token. -/
theorem create_twice_differs : ∃ st₁ st₂ r₁ r₂,
    let req : Request := .create { chunkSize := 8192, fileName := text "a" }
    Initial sampleServer ∧
      serve sampleConf sampleServer.store req [.opened 3 0, .done, .done] = some (st₁, r₁) ∧
      serve sampleConf st₁ req [.opened 5 0, .done, .done] = some (st₂, r₂) ∧
      r₁.error = 0 ∧ r₂.error = -EEXIST ∧ r₂.fileToken ≠ r₁.fileToken := by
  let req : Request := .create { chunkSize := 8192, fileName := text "a" }
  have hrun : (serve sampleConf sampleServer.store req [.opened 3 0, .done, .done]).any (fun p =>
      p.2.error = 0 ∧ (serve sampleConf p.1 req [.opened 5 0, .done, .done]).any fun q =>
        q.2.error = -(EEXIST : ℤ) ∧ q.2.fileToken ≠ p.2.fileToken) = true := by
    decide +kernel
  obtain ⟨⟨st₁, r₁⟩, h₁, hcheck⟩ := (Option.any_eq_true _ _).mp hrun
  obtain ⟨hzero, hnext⟩ := of_decide_eq_true hcheck
  obtain ⟨⟨st₂, r₂⟩, h₂, hdiff⟩ := (Option.any_eq_true _ _).mp hnext
  obtain ⟨herr, htok⟩ := of_decide_eq_true hdiff
  exact ⟨st₁, st₂, r₁, r₂, sampleServer_initial, h₁, h₂, hzero, herr, htok⟩

end Fcopy
