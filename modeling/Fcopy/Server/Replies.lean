import Fcopy.Wire.Frame
import Fcopy.Server.Sound

/-! What the reply to a `SEND_FILE_REQ` says.

    `handle_send_file` merges the results of `send_chain` and of `write_file` into one error; the header
    of the response carries 16 bits of it. As long as all results fit, a zero at the other end means
    that all of them are zero (`Sending.wire_zero_iff`). -/

namespace Fcopy

/-- What is left of an error after `set_error`, the header of the response and `get_error`. -/
def wireError (error : ℤ) : ℤ := ((Message.new .sendFileResp).setError error).getError

/-- An error code the header can carry. -/
def Fits (e : ℤ) : Prop := -2 ^ 15 ≤ e ∧ e < 2 ^ 15

theorem wireError_eq {e : ℤ} (h : Fits e) : wireError e = e := by
  rw [wireError, Message.getError, Message.setError, BitVec.toInt_ofInt]
  rw [Fits] at h
  exact Int.bmod_eq_of_le (by omega) (by omega)

theorem wireError_fits (e : ℤ) : Fits (wireError e) := by
  rw [Fits, wireError, Message.getError]
  exact ⟨BitVec.le_toInt _, BitVec.toInt_lt⟩

/-! ### The results of a sender -/

theorem mapM_id_eq_some {α : Type*} : ∀ {l : List (Option α)} {l' : List α},
    l.mapM id = some l' → l = l'.map some
  | [], _, h => by cases h; rfl
  | none :: _, _, h => by cases h
  | some v :: l, _, h => by
    rw [List.mapM_cons] at h
    obtain ⟨_, hv, h⟩ := Option.bind_eq_some_iff.mp h
    obtain ⟨l', hl, h⟩ := Option.bind_eq_some_iff.mp h
    cases hv
    cases h
    rw [mapM_id_eq_some hl, List.map_cons]

theorem firstError_eq_zero {chainErrors : List ℤ} {writeError : ℤ} :
    firstError chainErrors writeError = 0 ↔ (∀ e ∈ chainErrors, e = 0) ∧ writeError = 0 := by
  rw [firstError]
  cases h : chainErrors.find? (· ≠ 0) with
  | none =>
    rw [List.find?_eq_none] at h
    simp only [Option.getD_none, iff_and_self]
    exact fun _ e he => by simpa using h e he
  | some e =>
    have hne : e ≠ 0 := by simpa using List.find?_some h
    simp only [Option.getD_some]
    exact ⟨fun h0 => absurd h0 hne, fun h0 => absurd (h0.1 e (List.mem_of_find?_eq_some h)) hne⟩

/-- The two results and their join. -/
theorem Sending.error_eq {x : Sending} {e : ℤ} (h : x.error = some e) :
    ∃ w errors, x.writeError = some w ∧ x.chainErrors = errors.map some ∧
      e = firstError errors w := by
  rw [Sending.error] at h
  split at h
  · rename_i w errors hw herrors
    cases h
    exact ⟨w, errors, hw, mapM_id_eq_some herrors, rfl⟩
  · cases h

theorem firstError_mem (chainErrors : List ℤ) (writeError : ℤ) :
    firstError chainErrors writeError ∈ chainErrors ∨
      firstError chainErrors writeError = writeError := by
  rw [firstError]
  cases h : chainErrors.find? (· ≠ 0) with
  | none => exact .inr rfl
  | some e => exact .inl (List.mem_of_find?_eq_some h)

/-- A zero reply, at the other end: all results are zero, even those that crossed the header. -/
theorem Sending.wire_zero_iff {x : Sending} {e : ℤ} (hx : x.error = some e)
    (hwrite : ∀ e, x.writeError = some e → Fits e) (hchain : ∀ e, some e ∈ x.chainErrors → Fits e) :
    wireError e = 0 ↔ x.writeError = some 0 ∧ ∀ e ∈ x.chainErrors, e = some 0 := by
  obtain ⟨w, errors, hw, herrors, rfl⟩ := Sending.error_eq hx
  have hfits : Fits (firstError errors w) := by
    rcases firstError_mem errors w with hmem | heq
    · exact hchain _ (by rw [herrors]; exact List.mem_map_of_mem hmem)
    · rw [heq]
      exact hwrite w hw
  rw [wireError_eq hfits, firstError_eq_zero, hw, herrors, Option.some.injEq, and_comm]
  simp only [List.mem_map, forall_exists_index, and_imp, forall_apply_eq_imp_iff₂, Option.some.injEq]

/-! ### Its request and its session -/

/-- The request is answered before anything is sent or written. -/
def SendRefused (st : Store) (req : SendFileReq) : Prop :=
  st.fmap req.fileToken = none ∨
    ∃ info, st.fmap req.fileToken = some info ∧ req.maxChainLen.toNat ≤ 1 ∧ info.targets ≠ []

/-- A request is refused, or its handler starts with what the session has. -/
theorem handleSendFile_kinds (st : Store) (req : SendFileReq) (data : Bytes) :
    SendRefused st req ∧ (∃ e, handleSendFile st req data = .finished ⟨e, []⟩ ∧ wireError e ≠ 0) ∨
      ¬SendRefused st req ∧ ∃ info, st.fmap req.fileToken = some info ∧
        handleSendFile st req data = .sending
          { req, data, fd := info.fd, desc := info.desc, targets := info.targets } := by
  simp only [handleSendFile, sendStart, Store.getFd, SendRefused]
  cases st.fmap req.fileToken with
  | none => exact .inl ⟨.inl rfl, _, rfl, by decide⟩
  | some info =>
    by_cases hop : req.maxChainLen.toNat ≤ 1 ∧ info.targets ≠ []
    · simp only [if_pos hop]
      exact .inl ⟨.inr ⟨info, rfl, hop⟩, _, rfl, by decide⟩
    · simp only [if_neg hop]
      refine .inr ⟨?_, info, rfl, rfl⟩
      rintro (h | ⟨info', h, hop'⟩)
      · cases h
      · cases h
        exact hop hop'

/-- An accepted request starts its handler. -/
theorem accept_started (c : Conf) (st : Store) (req : Request) : (accept c st req).2 ≠ .idle := by
  cases req with
  | send r d =>
    rcases handleSendFile_kinds st r d with ⟨_, e, he, _⟩ | ⟨_, info, _, hx⟩
    · simp [accept, he]
    · simp [accept, hx]
  | create r =>
    simp only [accept, handleCreateFile]
    split
    · simp
    split
    · simp
    split <;> simp
  | close r =>
    simp only [accept, handleCloseFile]
    split <;> simp
  | setChain r => simp [accept]

/-- A sender starts with the session its request names. -/
theorem accept_sending {conf : Conf} {st : Store} {req : Request} {x : Sending}
    (h : (accept conf st req).2 = .sending x) : ∃ r data info, req = .send r data ∧
      st.fmap r.fileToken = some info ∧
      x = { req := r, data, fd := info.fd, desc := info.desc, targets := info.targets } := by
  cases req with
  | create r =>
    simp only [accept, handleCreateFile] at h
    split at h
    · cases h
    split at h
    · cases h
    split at h <;> cases h
  | close r =>
    simp only [accept, handleCloseFile] at h
    split at h <;> cases h
  | setChain r => cases h
  | send r data =>
    rw [accept] at h
    rcases handleSendFile_kinds st r data with ⟨_, e, he, _⟩ | ⟨_, info, hinfo, hx⟩
    · rw [he] at h
      cases h
    · rw [hx] at h
      cases h
      exact ⟨r, data, info, rfl, hinfo, rfl⟩

/-- A sender has been one since it started, with the same request, data, descriptor and targets. -/
theorem Effect.sending_before {st st' : Store} {h : Handler} {ans : Answer} {x : Sending}
    (heff : Effect st h ans st' (.sending x)) :
    ∃ y, h = .sending y ∧ x.req = y.req ∧ x.data = y.data ∧ x.fd = y.fd ∧ x.desc = y.desc ∧
      x.targets = y.targets ∧ (x.writeError = none → y.writeError = none) := by
  cases heff with
  | wrote y n os hy => exact ⟨y, rfl, rfl, rfl, rfl, rfl, rfl, fun _ => hy⟩
  | writeFailed y e hy => exact ⟨y, rfl, rfl, rfl, rfl, rfl, rfl, fun _ => hy⟩
  | answered y => exact ⟨y, rfl, rfl, rfl, rfl, rfl, rfl, id⟩

/-- A sender leaves the session table as it is. -/
theorem Effect.sending_fmap {st st' : Store} {x : Sending} {ans : Answer} {h' : Handler}
    (heff : Effect st (.sending x) ans st' h') : st'.fmap = st.fmap := by
  cases heff <;> rfl

/-- The descriptor of a session stands for the file of the session. -/
theorem Sound.live {c : Conf} {s : Server} (hs : Sound c s) {token : Bytes} {info : FileInfo}
    (ht : s.store.fmap token = some info) : s.store.os.fds info.fd = some info.desc :=
  hs.exclusive.live (.session token) _ _ (by simp only [Server.owned, ht, Option.map_some])

theorem length_writeData (data : Bytes) : (writeData data).length = writeSize data.length := by
  have : data.length ≤ writeSize data.length := by
    rw [writeSize]
    split
    · simp only [chunkBase]
      omega
    · exact le_rfl
  rw [writeData, List.length_append, List.length_replicate]
  omega

end Fcopy
