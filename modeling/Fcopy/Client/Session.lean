import Fcopy.Schemes.Assembly
import Fcopy.Network.Progress
import Fcopy.Client.FileSender

/-! The session of an upload on one server.

    The requests of the sender, followed through their handler: what has been set up when a create, a
    link or a close answers 0. Other handlers act in between; they spare the file of the upload.

        Creating ──▶ Opened [] ──▶ Opened targets ──▶ Closing ──▶ Sealed

    A create can answer 0 and yet have failed, with an error text for a token. There is never a session
    with such a token, so the close fails later. -/

namespace Fcopy
open Function Content

/-- The step leaves the file and its sessions as they are. -/
structure Spares (file : List Bytes) (s s' : Server) : Prop where
  files : s'.store.os.files file = s.store.os.files file
  sessions : ∀ token info, s.store.fmap token = some info → info.desc.file = file →
    s'.store.fmap token = some info

/-- The token is an error text. -/
def BadToken (token : Bytes) : Prop := ∃ e type, token = (returnError e type).fileToken

section
variable (c : Conf) (req : CreateFileReq)

/-- The step spares the file that `req` opens. -/
def SparesUpload (s s' : Server) : Prop :=
  ∀ call, handleCreateFile c req = .createOpen call → Spares (fileOf call.path) s s'

/-- The session that `req` has opened forwards to `targets`; or its token is bad. -/
def Opened (targets : List ChainTarget) (token : Bytes) (s : Server) : Prop :=
  ∃ call, handleCreateFile c req = .createOpen call ∧ (BadToken token ∨
    ∃ info, s.store.fmap token = some info ∧ info.desc.file = fileOf call.path ∧
      info.totalSize = req.fileSize ∧ info.targets = targets)

/-- The handler works on `req`. -/
inductive Creating (s : Server) : Handler → Prop
  | running (h : Handler) (call : CreateCall) (hopen : handleCreateFile c req = .createOpen call)
      (hc : h.call = some call) : Creating s h
  | finished (r : Reply) (h : wireError r.error = 0 → Opened c req [] r.fileToken s) :
      Creating s (.finished r)

/-- The file that `req` opens has all chunks of `source`. -/
def Complete (source : Bytes) (ch : ℕ) (s : Server) : Prop :=
  ∀ call, handleCreateFile c req = .createOpen call →
    Holds source ch (fun off => ch ∣ off ∧ off < source.length)
      (s.store.os.content (fileOf call.path))

/-- The file that `req` opens holds exactly `source`. -/
def Sealed (source : Bytes) (s : Server) : Prop :=
  ∃ call, handleCreateFile c req = .createOpen call ∧
    s.store.os.files (fileOf call.path) = some source

/-- The handler closes the session. -/
inductive Closing (source : Bytes) (ch : ℕ) (token : Bytes) (s : Server) : Handler → Prop
  | erase (targets : List ChainTarget) (ho : Opened c req targets token s)
      (hc : Complete c req source ch s) : Closing source ch token s (.closeErase token none)
  | truncate (info : FileInfo) (call : CreateCall) (hopen : handleCreateFile c req = .createOpen call)
      (hfile : info.desc.file = fileOf call.path) (hsize : info.totalSize = req.fileSize)
      (hc : Complete c req source ch s) : Closing source ch token s (.closeTruncate info none)
  | close (info : FileInfo) (h : Sealed c req source s) :
      Closing source ch token s (.closeFd info none)
  | finished (r : Reply) (h : wireError r.error = 0 → Sealed c req source s) :
      Closing source ch token s (.finished r)

end

variable {c : Conf} {req : CreateFileReq} {s s' : Server} {l : Label} {targets : List ChainTarget}
  {token source : Bytes} {ch i : ℕ}

/-! ### Tokens -/

/-- An `E` is no digit. -/
theorem getToken_digits (path : Bytes) : ∀ b ∈ getToken c path, b ≠ 69 := by
  have hdigit : ∀ d < 16, UInt8.ofNat (Nat.digitChar d).toNat ≠ 69 := by decide
  have hall : ∀ n, ∀ x ∈ Nat.toDigits 16 n, UInt8.ofNat x.toNat ≠ 69 := by
    intro n
    induction n using Nat.strong_induction_on with
    | _ n ih =>
      intro x hx
      rw [Nat.toDigits_eq_if (by decide)] at hx
      split at hx
      · rename_i hn
        rw [List.mem_singleton.mp hx]
        exact hdigit n hn
      · rcases List.mem_append.mp hx with hx | hx
        · exact ih (n / 16) (by omega) x hx
        · rw [List.mem_singleton.mp hx]
          exact hdigit _ (Nat.mod_lt _ (by decide))
  intro b hb
  obtain ⟨x, hx, rfl⟩ := List.mem_map.mp hb
  exact hall _ x hx

theorem BadToken.head (h : BadToken token) : (69 : UInt8) ∈ token := by
  obtain ⟨e, type, rfl⟩ := h
  simp only [returnError, List.append_assoc]
  exact List.mem_append_left _ (by decide)

/-- No session has an error text for a token. -/
theorem BadToken.no_session (h : BadToken token) (hs : Sound c s) : s.store.fmap token = none := by
  cases hf : s.store.fmap token with
  | none => rfl
  | some info =>
    have hhead := h.head
    rw [(hs.session token info hf).1] at hhead
    exact absurd rfl (getToken_digits _ _ hhead)

theorem Opened.token_ne_nil (h : Opened c req targets token s) (hs : Sound c s) : token ≠ [] := by
  obtain ⟨call, _, hbad | ⟨info, hf, _⟩⟩ := h
  · exact List.ne_nil_of_mem hbad.head
  · rw [(hs.session token info hf).1]
    exact fun h0 => Nat.toDigits_ne_nil (List.map_eq_nil_iff.mp h0)

/-! ### What others leave -/

theorem Opened.spared (h : Opened c req targets token s) (hsp : SparesUpload c req s s') :
    Opened c req targets token s' := by
  obtain ⟨call, hopen, hbad | ⟨info, hf, hfile, hrest⟩⟩ := h
  · exact ⟨call, hopen, .inl hbad⟩
  · exact ⟨call, hopen, .inr ⟨info, (hsp call hopen).sessions token info hf hfile, hfile, hrest⟩⟩

theorem Complete.spared (h : Complete c req source ch s) (hsp : SparesUpload c req s s') :
    Complete c req source ch s' := by
  intro call hopen
  rw [Os.content, (hsp call hopen).files]
  exact h call hopen

theorem Sealed.spared (h : Sealed c req source s) (hsp : SparesUpload c req s s') :
    Sealed c req source s' := by
  obtain ⟨call, hopen, hf⟩ := h
  exact ⟨call, hopen, (hsp call hopen).files.trans hf⟩

theorem Creating.spared {h : Handler} (hc : Creating c req s h) (hsp : SparesUpload c req s s') :
    Creating c req s' h := by
  cases hc with
  | running _ call hopen hcall => exact .running h call hopen hcall
  | finished r hr => exact .finished r fun hzero => (hr hzero).spared hsp

theorem Closing.spared {h : Handler} (hc : Closing c req source ch token s h)
    (hsp : SparesUpload c req s s') : Closing c req source ch token s' h := by
  cases hc with
  | erase ts ho hcomp => exact .erase ts (ho.spared hsp) (hcomp.spared hsp)
  | truncate info call hopen hfile hsize hcomp =>
    exact .truncate info call hopen hfile hsize (hcomp.spared hsp)
  | close info hsealed => exact .close info (hsealed.spared hsp)
  | finished r hr => exact .finished r fun hzero => (hr hzero).spared hsp

/-! ### Create -/

theorem handleCreateFile_cases (c : Conf) (req : CreateFileReq) :
    (∃ call, handleCreateFile c req = .createOpen call) ∨
      ∃ r, handleCreateFile c req = .finished r ∧ wireError r.error ≠ 0 := by
  simp only [handleCreateFile]
  split
  · exact .inr ⟨_, rfl, by decide⟩
  split
  · rename_i e he
    refine .inr ⟨_, rfl, ?_⟩
    rw [getAbsPath, absolute] at he
    split at he
    · cases he
      decide
    · split at he <;> cases he
  split
  · rename_i r hr
    refine .inr ⟨r, rfl, ?_⟩
    simp only [Store.createFile] at hr
    split at hr <;> cases hr
    decide
  · exact .inl ⟨_, rfl⟩

theorem creating_arrive (h : step c s (.arrive i (.create req)) = some s') :
    Creating c req s' (s'.handlers i) := by
  rcases step_cases h with ⟨j, _, hl, _, rfl⟩ | ⟨_, _, _, _, hl, _⟩ <;> cases hl
  simp only [update_self, accept]
  rcases handleCreateFile_cases c req with ⟨call, hopen⟩ | ⟨r, hr, hne⟩
  · rw [hopen]
    exact .running _ call hopen rfl
  · rw [hr]
    exact .finished r fun hzero => absurd hzero hne

theorem handleCreateFile_size {call : CreateCall} (h : handleCreateFile c req = .createOpen call) :
    call.size = req.fileSize := by
  obtain ⟨_, _, _, hc⟩ := handleCreateFile_call (show (handleCreateFile c req).call = some call by
    rw [h]; rfl)
  rw [(createFile_ok hc).2.2]

/-- CORRECT (one piece of a create): when it answers 0, there is the session, or the token is bad. -/
theorem creating_resume {a : Answer} (hs : Sound c s) (hc : Creating c req s (s.handlers i))
    (h : step c s (.resume i a) = some s') : Creating c req s' (s'.handlers i) := by
  rcases step_cases h with ⟨_, _, hl, _⟩ | ⟨j, _, st', h', hl, heff, rfl⟩ <;> cases hl
  have hsound := hs.preserved h
  simp only [update_self]
  have hbad : ∀ {call : CreateCall} {e : ℕ} {type : String} {s : Server},
      handleCreateFile c req = .createOpen call → Creating c req s (.finished (returnError e type)) :=
    fun hopen => .finished _ fun _ => ⟨_, hopen, .inl ⟨_, _, rfl⟩⟩
  generalize hh : s.handlers i = hd at hc heff
  cases hc with
  | finished r hr => cases heff
  | running _ call hopen hcall =>
    cases heff <;> simp only [Handler.call, reduceCtorEq, Option.some.injEq] at hcall <;> subst hcall
    case noDirectory => exact hbad hopen
    case openFailed => exact hbad hopen
    case opened => exact .running _ _ hopen rfl
    case leaked => exact hbad hopen
    case truncated => exact .running _ _ hopen rfl
    case truncateFailed => exact hbad hopen
    case duplicate => exact hbad hopen
    case inserted call fd desc hnew =>
      have hfile := (hs.file i call fd desc (by rw [hh]; rfl) (by rw [hh]; rfl)).1
      refine .finished _ fun _ => ⟨call, hopen, .inr ⟨Store.createInfo call fd desc, ?_, hfile, ?_, rfl⟩⟩
      · exact update_self ..
      · exact handleCreateFile_size hopen

/-! ### Link -/

/-- CORRECT (link): when it answers 0, the session forwards to the new targets. -/
theorem linking_arrive {targets' : List ChainTarget} (hs : Sound c s)
    (ho : Opened c req targets token s)
    (h : step c s (.arrive i (.setChain ⟨token, targets'⟩)) = some s') :
    ∃ r, s'.handlers i = .finished r ∧
      (wireError r.error = 0 → Opened c req targets' token s') := by
  rcases step_cases h with ⟨j, _, hl, _, rfl⟩ | ⟨_, _, _, _, hl, _⟩ <;> cases hl
  simp only [update_self, accept]
  refine ⟨_, rfl, fun hzero => ?_⟩
  obtain ⟨call, hopen, hbad | ⟨info, hf, hfile, hsize, _⟩⟩ := ho
  · simp only [Store.setChainTargets, hbad.no_session hs] at hzero
    exact absurd hzero (by decide)
  · refine ⟨call, hopen, .inr ⟨{ info with targets := targets' }, ?_, hfile, hsize, rfl⟩⟩
    simp only [Store.setChainTargets, hf, update_self]

/-! ### Close -/

theorem closing_arrive {wait : BitVec 8} (hwait : wait ≠ 0) (ho : Opened c req targets token s)
    (hcomp : Complete c req source ch s)
    (h : step c s (.arrive i (.close ⟨wait, token⟩)) = some s') :
    Closing c req source ch token s' (s'.handlers i) := by
  rcases step_cases h with ⟨j, _, hl, _, rfl⟩ | ⟨_, _, _, _, hl, _⟩ <;> cases hl
  simp only [update_self, accept, handleCloseFile, if_pos hwait]
  exact .erase targets ho hcomp

/-- CORRECT (one piece of a close): when it answers 0, the file holds the source. -/
theorem closing_resume {a : Answer} (hs : Sound c s) (hsize : req.fileSize.toNat = source.length)
    (hpos : 0 < ch) (hc : Closing c req source ch token s (s.handlers i))
    (ha : ∀ info reply e, s.handlers i = .closeTruncate info reply → a ≠ .failed e)
    (h : step c s (.resume i a) = some s') :
    Closing c req source ch token s' (s'.handlers i) := by
  rcases step_cases h with ⟨_, _, hl, _⟩ | ⟨j, _, st', h', hl, heff, rfl⟩ <;> cases hl
  simp only [update_self]
  generalize hh : s.handlers i = hd at hc heff ha
  cases hc with
  | finished r hr => cases heff
  | erase ts ho hcomp =>
    cases heff with
    | notFound => exact .finished _ fun hzero => absurd hzero (by decide)
    | erased _ _ info hf =>
      obtain ⟨call, hopen, hbad | ⟨info', hf', hfile, hsz, _⟩⟩ := ho
      · rw [hbad.no_session hs] at hf
        cases hf
      · cases hf.symm.trans hf'
        exact .truncate info call hopen hfile hsz hcomp
  | truncate info call hopen hfile hsz hcomp =>
    cases heff with
    | resizeFailed _ _ e => exact absurd rfl (ha info none e rfl)
    | resized _ _ os htr =>
      obtain ⟨d, hd, _, rfl⟩ := Os.ftruncate_eq htr
      have hlive := hs.exclusive.live (.closer i) info.fd info.desc (by rw [Server.owned, hh]; rfl)
      cases hd.symm.trans hlive
      refine .close info ⟨call, hopen, ?_⟩
      rw [hfile, hsz, hsize, (hcomp call hopen).resize hpos]
      exact update_self ..
  | close info hsealed =>
    cases heff with
    | closed => exact .finished _ fun _ => hsealed

end Fcopy
