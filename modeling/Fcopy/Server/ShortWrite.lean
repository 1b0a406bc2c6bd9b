import Fcopy.Server.Redelivery
import Fcopy.Server.Replies

/-! What a zero reply to a `SEND_FILE_REQ` says about the file.

    `write_file` looks at the state of the `pwrite`, not at the number of bytes it wrote. A `pwrite` that
    succeeds with fewer bytes than the content has leaves the rest out of the file, and the reply is
    still zero. The positions behind the bytes written are those of the file before
    (`Holds.write_iff`), so nothing is lost only if they happened to hold the content already. -/

namespace Fcopy
open Function

variable {conf : Conf} {st st₁ : Store} {r₁ : Reply}

/-- All bytes of the data are in the file, from the offset on. -/
def Holds (os : Os) (file : List Bytes) (offset : BitVec 64) (data : Bytes) : Prop :=
  ∀ k, k < data.length → (os.content file)[offset.toNat + k]? = data[k]?

/-- The write or a forward has failed. -/
def Answer.Fails : Answer → Prop
  | .failed _ => True
  | .answered _ e => e ≠ 0
  | _ => False

/-- A failing call has a non-zero code, and codes fit the header of a response. -/
def Answer.Coded : Answer → Prop
  | .failed e => (e : ℤ) ≠ 0 ∧ Fits e
  | .answered _ e => Fits e
  | _ => True

/-- The first `n` bytes are all of the data, or the others are in the file already. -/
def Enough (os : Os) (file : List Bytes) (offset : BitVec 64) (data : Bytes) (n : ℕ) : Prop :=
  ∀ k, n ≤ k → k < data.length → (os.content file)[offset.toNat + k]? = data[k]?

/-- CORRECT (write): a write of `n` bytes, padded or not, leaves the data in the file exactly when that
    is enough. -/
theorem Holds.write_iff {os os' : Os} {fd n : ℕ} {d : Desc} {data : Bytes} {offset : BitVec 64}
    (hd : os.fds fd = some d) (h : os.pwrite fd ((writeData data).take n) offset = some os') :
    Holds os' d.file offset data ↔ Enough os d.file offset data n := by
  obtain ⟨d', hd', _, rfl⟩ := Os.pwrite_eq h
  cases hd.symm.trans hd'
  have hcontent : ∀ k, k < data.length → (Os.content { os with files := update os.files d.file (some
      (Content.writeAt 0 (os.content d.file) offset.toNat ((writeData data).take n))) }
      d.file)[offset.toNat + k]? = if k < n then data[k]? else
        (os.content d.file)[offset.toNat + k]? := by
    intro k hk
    simp only [Os.content, update_self, Option.getD_some]
    exact Content.getElem?_writeAt_take _ _ _ _ _ hk
  constructor
  · intro hold k hnk hk
    have := hold k hk
    rwa [hcontent k hk, if_neg (by omega)] at this
  · intro henough k hk
    rw [hcontent k hk]
    split
    · rfl
    · exact henough k (by omega) hk

/-! ### A sender carried on to its reply -/

/-- Filling in one result. -/
theorem forall_mem_set {errors : List (Option ℤ)} {j : ℕ} {e : ℤ} (hj : errors[j]? = some none) :
    (∀ e', some e' ∈ errors.set j (some e) → e' = 0) ↔ e = 0 ∧ ∀ e', some e' ∈ errors → e' = 0 := by
  have hlt := (List.getElem?_eq_some_iff.mp hj).1
  constructor
  · refine fun h => ⟨h e (List.mem_set hlt _), fun e' he' => h e' ?_⟩
    obtain ⟨k, hk⟩ := List.getElem?_of_mem he'
    have hkj : j ≠ k := by
      rintro rfl
      rw [hj] at hk
      cases hk
    exact List.mem_of_getElem? ((List.getElem?_set_ne hkj).trans hk)
  · rintro ⟨rfl, h⟩ e' he'
    rcases List.mem_or_eq_of_mem_set he' with he' | he'
    · exact h e' he'
    · exact Option.some.inj he'

/-- What the reply says about the answers. -/
theorem drive_reply {answers : List Answer} : ∀ {st : Store} {x : Sending},
    drive st (.sending x) answers = some (st₁, r₁) → (∀ a ∈ answers, a.Coded) →
    (∀ e, x.writeError = some e → Fits e) → (∀ e, some e ∈ x.chainErrors → Fits e) →
    (wireError r₁.error = 0 ↔ (∀ e, x.writeError = some e → e = 0) ∧
      (∀ e, some e ∈ x.chainErrors → e = 0) ∧ ∀ a ∈ answers, ¬a.Fails) := by
  induction answers with
  | nil =>
    intro st x hd
    cases (drive_nil hd).1
  | cons a answers ih =>
    intro st x hd hcoded hwrite hchain
    obtain ⟨st', h', hadv, hrest⟩ := drive_cons hd
    rw [List.forall_mem_cons] at hcoded ⊢
    cases advance_effect hadv with
    | wrote _ n os hnone =>
      rw [ih hrest hcoded.2 (by simp [Fits]) hchain]
      simp [hnone, Answer.Fails]
    | writeFailed _ e hnone =>
      rw [ih hrest hcoded.2 (by simpa using hcoded.1.2) hchain]
      exact iff_of_false (fun h => hcoded.1.1 (h.1 e rfl)) fun h => h.2.2.1 trivial
    | answered _ j e hnone =>
      rw [ih hrest hcoded.2 hwrite]
      · rw [forall_mem_set hnone, Answer.Fails, not_not]
        tauto
      · intro e' he'
        rcases List.mem_or_eq_of_mem_set he' with he' | he'
        · exact hchain e' he'
        · cases he'
          exact hcoded.1
    | joined _ e he =>
      obtain ⟨rfl, _, rfl⟩ := drive_finished hrest
      obtain ⟨w, errors, hw, herrors, _⟩ := Sending.error_eq he
      rw [Sending.wire_zero_iff he hwrite hchain, hw, herrors]
      simp [Answer.Fails]

/-- A sender that has written does not write again. -/
theorem wrote_not_mem {answers : List Answer} : ∀ {x : Sending}, x.writeError ≠ none →
    drive st (.sending x) answers = some (st₁, r₁) → ∀ n, .wrote n ∉ answers := by
  induction answers with
  | nil => exact fun _ _ n => List.not_mem_nil
  | cons a answers ih =>
    intro x hx hd n hn
    obtain ⟨st', h', hadv, hrest⟩ := drive_cons hd
    rcases List.mem_cons.mp hn with rfl | hmem
    · cases advance_effect hadv with
      | wrote _ n os hnone => exact hx hnone
    · cases advance_effect hadv with
      | wrote _ _ os hnone => exact hx hnone
      | writeFailed _ e hnone => exact hx hnone
      | answered _ j e =>
        refine ih ?_ hrest n hmem
        exact hx
      | joined => simp [(drive_finished hrest).1] at hmem

/-- A sender carried on to its reply has written once, or failed to. -/
theorem drive_write {answers : List Answer} : ∀ {x : Sending}, x.writeError = none →
    drive st (.sending x) answers = some (st₁, r₁) →
      (∃ a ∈ answers, a.Fails) ∨ ∃ n, (∀ m, .wrote m ∈ answers ↔ m = n) ∧
        n ≤ writeSize x.data.length ∧
        st.os.pwrite x.fd ((writeData x.data).take n) x.req.offset = some st₁.os := by
  induction answers with
  | nil =>
    intro x _ hd
    cases (drive_nil hd).1
  | cons a answers ih =>
    intro x hx hd
    obtain ⟨st', h', hadv, hrest⟩ := drive_cons hd
    cases advance_effect hadv with
    | wrote _ n os _ hn hw =>
      refine .inr ⟨n, fun m => ?_, hn, ?_⟩
      · have := wrote_not_mem (Option.some_ne_none 0) hrest m
        simp only [List.mem_cons, Answer.wrote.injEq, this, or_false]
      · cases drive_written (Option.some_ne_none 0) hrest
        exact hw
    | writeFailed _ e => exact .inl ⟨_, List.mem_cons_self, trivial⟩
    | answered _ j e =>
      have hx' : { x with chainErrors := x.chainErrors.set j (some e) }.writeError = none := hx
      rcases ih hx' hrest with ⟨b, hb, hfails⟩ | ⟨n, hn, hle, hw⟩
      · exact .inl ⟨b, List.mem_cons_of_mem _ hb, hfails⟩
      · exact .inr ⟨n, fun m => by simp [hn], hle, hw⟩
    | joined _ e he =>
      obtain ⟨w, _, hw, _, _⟩ := Sending.error_eq he
      rw [hx] at hw
      cases hw

/-! ### A request -/

/-- The three ends of a request: it is refused, a forward or the write fails, or it has written, and only
    then the reply is zero. -/
theorem serve_send_cases {s₀ s : Server} {ls : List Label} (h₀ : Initial s₀) (hr : Runs conf s₀ ls s)
    {req : SendFileReq} {data : Bytes} {answers : List Answer} {st : Store} {r : Reply}
    (hs : serve conf s.store (.send req data) answers = some (st, r)) (hcoded : ∀ a ∈ answers, a.Coded) :
    SendRefused s.store req ∧ wireError r.error ≠ 0 ∨
      (∃ a ∈ answers, a.Fails) ∧ wireError r.error ≠ 0 ∨
      ¬SendRefused s.store req ∧ (¬∃ a ∈ answers, a.Fails) ∧ wireError r.error = 0 ∧
        ∃ info n, s.store.fmap req.fileToken = some info ∧ (∀ m, .wrote m ∈ answers ↔ m = n) ∧
          n ≤ writeSize data.length ∧ s.store.os.fds info.fd = some info.desc ∧
          s.store.os.pwrite info.fd ((writeData data).take n) req.offset = some st.os := by
  simp only [serve, accept] at hs
  rcases handleSendFile_kinds s.store req data with ⟨href, e, he, hne⟩ | ⟨href, info, hinfo, hx⟩
  · rw [he] at hs
    obtain ⟨_, rfl, rfl⟩ := drive_finished hs
    exact .inl ⟨href, hne⟩
  rw [hx] at hs
  have hreply := drive_reply hs hcoded (fun e h => by cases h) (by simp)
  simp only [reduceCtorEq, false_implies, implies_true, true_and, List.mem_map, and_false,
    exists_false] at hreply
  by_cases hfails : ∃ a ∈ answers, a.Fails
  · refine .inr (.inl ⟨hfails, fun hzero => ?_⟩)
    obtain ⟨a, ha, hf⟩ := hfails
    exact hreply.mp hzero a ha hf
  · rcases drive_write rfl hs with h | ⟨n, hn, hle, hw⟩
    · exact absurd h hfails
    · exact .inr (.inr ⟨href, hfails, hreply.mpr fun a ha hf => hfails ⟨a, ha, hf⟩, info, n, hinfo, hn,
        hle, (sound_run h₀ hr).live hinfo, hw⟩)

/-- What holds of the one write of a request. -/
theorem forall_wrote_iff {answers : List Answer} {n : ℕ} (hn : ∀ m, .wrote m ∈ answers ↔ m = n)
    {token : Bytes} {info : FileInfo} (hinfo : st.fmap token = some info) (P : FileInfo → ℕ → Prop) :
    (∀ info' m, st.fmap token = some info' → .wrote m ∈ answers → P info' m) ↔ P info n := by
  refine ⟨fun h => h info n hinfo ((hn n).mpr rfl), fun h info' m hinfo' hm => ?_⟩
  cases hinfo.symm.trans hinfo'
  rwa [(hn m).mp hm]

/-- CORRECT (zero reply): a `SEND_FILE_REQ` that no other handler comes between meets "a zero reply means
    that the data is in the session's file" exactly when it is refused, a forward or the write fails, or
    the bytes written are enough. -/
theorem zero_reply_stored_iff {s₀ s : Server} {ls : List Label} (h₀ : Initial s₀)
    (hr : Runs conf s₀ ls s) (req : SendFileReq) (data : Bytes) (answers : List Answer) (st : Store)
    (r : Reply) (hs : serve conf s.store (.send req data) answers = some (st, r))
    (hcoded : ∀ a ∈ answers, a.Coded) :
    (wireError r.error = 0 → ∃ info, s.store.fmap req.fileToken = some info ∧
      Holds st.os info.desc.file req.offset data) ↔
    SendRefused s.store req ∨ (∃ a ∈ answers, a.Fails) ∨
      ∀ info n, s.store.fmap req.fileToken = some info → .wrote n ∈ answers →
        Enough s.store.os info.desc.file req.offset data n := by
  rcases serve_send_cases h₀ hr hs hcoded with ⟨href, hne⟩ | ⟨hfails, hne⟩ |
    ⟨href, hfails, hzero, info, n, hinfo, hn, _, hlive, hw⟩
  · exact iff_of_true (fun h => absurd h hne) (.inl href)
  · exact iff_of_true (fun h => absurd h hne) (.inr (.inl hfails))
  · rw [forall_wrote_iff hn hinfo fun info n => Enough s.store.os info.desc.file req.offset data n]
    have hstored := Holds.write_iff hlive hw
    simp only [hzero, hinfo, Option.some.injEq, exists_eq_left', href, hfails, false_or, forall_const]
    exact hstored

/-- Three bytes arrive for the file `a` and are written. -/
theorem zero_reply_stored_iff_full : ∃ s st r,
    Runs sampleConf sampleServer sampleCreate s ∧
      serve sampleConf s.store (.send { fileToken := text "4" } [1, 2, 3]) [.wrote 8192, .done] =
        some (st, r) ∧
      ((wireError r.error = 0 → ∃ info, s.store.fmap (text "4") = some info ∧
          Holds st.os info.desc.file 0 [1, 2, 3]) ↔
        SendRefused s.store { fileToken := text "4" } ∨
          (∃ a ∈ [Answer.wrote 8192, .done], a.Fails) ∨
          ∀ info n, s.store.fmap (text "4") = some info → .wrote n ∈ [Answer.wrote 8192, .done] →
            Enough s.store.os info.desc.file 0 [1, 2, 3] n) := by
  have hrun : (Run.exec (step sampleConf) sampleServer sampleCreate).any (fun s =>
      (serve sampleConf s.store (.send { fileToken := text "4" } [1, 2, 3])
        [.wrote 8192, .done]).isSome) = true := by decide +kernel
  obtain ⟨s, hr, hserve⟩ := Run.steps_of_any hrun
  obtain ⟨⟨st, r⟩, hserve⟩ := Option.isSome_iff_exists.mp hserve
  exact ⟨s, st, r, hr, hserve,
    zero_reply_stored_iff sampleServer_initial hr _ _ _ st r hserve (by simp [Answer.Coded])⟩

/-- Two of three bytes are written to the file `a`, and the reply is zero. -/
theorem short_write_lost : ∃ s st r info,
    Initial sampleServer ∧ Runs sampleConf sampleServer sampleCreate s ∧
      serve sampleConf s.store (.send { fileToken := text "4" } [1, 2, 3]) [.wrote 2, .done] =
        some (st, r) ∧
      wireError r.error = 0 ∧ s.store.fmap (text "4") = some info ∧
      ¬Holds st.os info.desc.file 0 [1, 2, 3] := by
  have hrun : (Run.exec (step sampleConf) sampleServer sampleCreate).any (fun s =>
      (s.store.fmap (text "4")).any fun info =>
        (serve sampleConf s.store (.send { fileToken := text "4" } [1, 2, 3])
          [.wrote 2, .done]).any fun p =>
            wireError p.2.error = 0 ∧ (p.1.os.content info.desc.file)[2]? = none) = true := by
    decide +kernel
  obtain ⟨s, hr, hnext⟩ := Run.steps_of_any hrun
  obtain ⟨info, hinfo, hnext⟩ := (Option.any_eq_true _ _).mp hnext
  obtain ⟨⟨st, r⟩, hserve, hcheck⟩ := (Option.any_eq_true _ _).mp hnext
  obtain ⟨hzero, hshort⟩ := of_decide_eq_true hcheck
  refine ⟨s, st, r, info, sampleServer_initial, hr, hserve, hzero, hinfo,
    fun hold => ?_⟩
  have hthird := hold 2 (by decide)
  rw [show (0 : BitVec 64).toNat + 2 = 2 from rfl, hshort] at hthird
  cases hthird

end Fcopy
