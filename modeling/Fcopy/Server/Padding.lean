import Fcopy.Server.ShortWrite

/-! What a `SEND_FILE_REQ` changes outside its range.

    `write_file` rounds the length of the content up to a multiple of 8192 and fills up with zeros. It
    takes an unaligned chunk for the last one, whose zeros end up behind `total_size`; nothing checks
    that:

        before     ......................AAAAAAAAAAAAAAAAAA
        content          CCCCCC
        pwrite           CCCCCC000000000000000
        after      ......CCCCCC000000000000000AAAAAAAAAAAA
                               └─ padding ───┘

    The bytes outside the content are the same exactly when the padding meets zeros (`Kept.write_iff`). -/

namespace Fcopy
open Function

/-- The bytes below `total` that are not in the `len` bytes from `offset` on stay. -/
def Kept (total offset len : ℕ) (before after : Bytes) : Prop :=
  ∀ (pos : ℕ) b, pos < total → ¬(offset ≤ pos ∧ pos < offset + len) → before[pos]? = some b →
    after[pos]? = some b

/-- Where the padding of a write of `n` bytes meets bytes below `total`, they are zero. -/
def Blank (total offset len n : ℕ) (before : Bytes) : Prop :=
  ∀ (pos : ℕ) b, pos < total → offset + len ≤ pos → pos < offset + n → before[pos]? = some b → b = 0

variable {conf : Conf}

/-- An aligned chunk has no padding. -/
theorem Blank.of_aligned {total offset len n : ℕ} {before : Bytes} (hlen : len % chunkBase = 0)
    (hn : n ≤ writeSize len) : Blank total offset len n before := by
  intro pos b _ hlow hhigh
  rw [writeSize, if_neg (not_not.mpr hlen)] at hn
  omega

/-- The padding of the last chunk is behind the end. -/
theorem Blank.of_last {total offset len n : ℕ} {before : Bytes} (hend : total ≤ offset + len) :
    Blank total offset len n before := by
  intro pos b hpos hlow
  omega

/-- CORRECT (write): a write of `n` bytes keeps what is outside the content exactly when the padding
    meets zeros. -/
theorem Kept.write_iff {os os' : Os} {fd n total : ℕ} {d : Desc} {data : Bytes} {offset : BitVec 64}
    (hd : os.fds fd = some d) (hn : n ≤ writeSize data.length)
    (h : os.pwrite fd ((writeData data).take n) offset = some os') :
    Kept total offset.toNat data.length (os.content d.file) (os'.content d.file) ↔
      Blank total offset.toNat data.length n (os.content d.file) := by
  obtain ⟨d', hd', _, rfl⟩ := Os.pwrite_eq h
  cases hd.symm.trans hd'
  have hlen := length_writeData data
  have hpad : n ≤ data.length + (writeSize data.length - data.length) := by omega
  simp only [Os.content, update_self, Option.getD_some]
  constructor
  · intro hkept pos b hpos hlow hhigh hb
    have hafter := hkept pos b hpos (by omega) hb
    rw [writeData, Content.getElem?_writeAt_blank _ _ hpad hlow hhigh] at hafter
    exact (Option.some.inj hafter).symm
  · intro hblank pos b hpos hout hb
    by_cases hin : offset.toNat + data.length ≤ pos ∧ pos < offset.toNat + n
    · -- in the padding
      obtain rfl := hblank pos b hpos hin.1 hin.2 hb
      rw [writeData, Content.getElem?_writeAt_blank _ _ hpad hin.1 hin.2]
    · refine Content.getElem?_writeAt_outside ?_ hb
      rw [List.length_take, hlen, Nat.min_eq_left hn]
      omega

/-- CORRECT (exact condition): a `SEND_FILE_REQ` that no other handler comes between meets "a request
    answered 0 changes only its own range" exactly when it is refused, a forward or the write fails, or the
    padding written meets zeros. -/
theorem send_keeps_iff {s₀ s : Server} {ls : List Label} (h₀ : Initial s₀) (hr : Runs conf s₀ ls s)
    (req : SendFileReq) (data : Bytes) (answers : List Answer) (st : Store) (r : Reply)
    (hs : serve conf s.store (.send req data) answers = some (st, r))
    (hcoded : ∀ a ∈ answers, a.Coded) :
    (wireError r.error = 0 → ∀ info, s.store.fmap req.fileToken = some info →
      Kept info.totalSize.toNat req.offset.toNat data.length (s.store.os.content info.desc.file)
        (st.os.content info.desc.file)) ↔
    SendRefused s.store req ∨ (∃ a ∈ answers, a.Fails) ∨
      ∀ info n, s.store.fmap req.fileToken = some info → .wrote n ∈ answers →
        Blank info.totalSize.toNat req.offset.toNat data.length n
          (s.store.os.content info.desc.file) := by
  rcases serve_send_cases h₀ hr hs hcoded with ⟨href, hne⟩ | ⟨hfails, hne⟩ |
    ⟨href, hfails, hzero, info, n, hinfo, hn, hle, hlive, hw⟩
  · exact iff_of_true (fun h => absurd h hne) (.inl href)
  · exact iff_of_true (fun h => absurd h hne) (.inr (.inl hfails))
  · rw [forall_wrote_iff hn hinfo fun info n => Blank info.totalSize.toNat req.offset.toNat
      data.length n (s.store.os.content info.desc.file)]
    simp only [hzero, hinfo, Option.some.injEq, forall_eq', href, hfails, false_or, forall_const]
    exact Kept.write_iff hlive hle hw

/-- Handler 0 creates the file `a` of eight bytes there, and handler 1 writes them. -/
def sampleFilled : List Label :=
  [.arrive 0 (.create { chunkSize := 8192, fileSize := 8, fileName := text "a" }),
    .resume 0 (.opened 3 0), .resume 0 .done, .resume 0 .done,
    .arrive 1 (.send { fileToken := text "4" } [1, 2, 3, 4, 5, 6, 7, 8]), .resume 1 (.wrote 8192),
    .resume 1 .done]

/-- The last three bytes are sent again: their padding is behind the end. -/
theorem send_keeps_iff_last : ∃ s st r,
    Runs sampleConf sampleServer sampleFilled s ∧
      serve sampleConf s.store (.send { fileToken := text "4", offset := 5 } [6, 7, 8])
        [.wrote 8192, .done] = some (st, r) ∧
      ((wireError r.error = 0 → ∀ info, s.store.fmap (text "4") = some info →
          Kept info.totalSize.toNat 5 3 (s.store.os.content info.desc.file)
            (st.os.content info.desc.file)) ↔
        SendRefused s.store { fileToken := text "4", offset := 5 } ∨
          (∃ a ∈ [Answer.wrote 8192, .done], a.Fails) ∨
          ∀ info n, s.store.fmap (text "4") = some info → .wrote n ∈ [Answer.wrote 8192, .done] →
            Blank info.totalSize.toNat 5 3 n (s.store.os.content info.desc.file)) := by
  have hrun : (Run.exec (step sampleConf) sampleServer sampleFilled).any (fun s =>
      (serve sampleConf s.store (.send { fileToken := text "4", offset := 5 } [6, 7, 8])
        [.wrote 8192, .done]).isSome) = true := by decide +kernel
  obtain ⟨s, hr, hserve⟩ := Run.steps_of_any hrun
  obtain ⟨⟨st, r⟩, hserve⟩ := Option.isSome_iff_exists.mp hserve
  exact ⟨s, st, r, hr, hserve,
    send_keeps_iff sampleServer_initial hr _ _ _ st r hserve (by simp [Answer.Coded])⟩

/-- One byte is sent for the start of the file. The seven behind it are lost, and the reply is zero. -/
theorem unaligned_send_clears : ∃ s st r info,
    Initial sampleServer ∧ Runs sampleConf sampleServer sampleFilled s ∧
      serve sampleConf s.store (.send { fileToken := text "4" } [9]) [.wrote 8192, .done] =
        some (st, r) ∧
      wireError r.error = 0 ∧ s.store.fmap (text "4") = some info ∧ info.totalSize = 8 ∧
      (s.store.os.content info.desc.file).take 8 = [1, 2, 3, 4, 5, 6, 7, 8] ∧
      (st.os.content info.desc.file).take 8 = [9, 0, 0, 0, 0, 0, 0, 0] ∧
      ¬Kept info.totalSize.toNat 0 1 (s.store.os.content info.desc.file)
        (st.os.content info.desc.file) := by
  have hrun : (Run.exec (step sampleConf) sampleServer sampleFilled).any (fun s =>
      (s.store.fmap (text "4")).any fun info =>
        (serve sampleConf s.store (.send { fileToken := text "4" } [9]) [.wrote 8192, .done]).any
          fun p => wireError p.2.error = 0 ∧ info.totalSize = 8 ∧
            (s.store.os.content info.desc.file).take 8 = [1, 2, 3, 4, 5, 6, 7, 8] ∧
            (p.1.os.content info.desc.file).take 8 = [9, 0, 0, 0, 0, 0, 0, 0]) = true := by
    decide +kernel
  obtain ⟨s, hr, hnext⟩ := Run.steps_of_any hrun
  obtain ⟨info, hinfo, hnext⟩ := (Option.any_eq_true _ _).mp hnext
  obtain ⟨⟨st, r⟩, hserve, hcheck⟩ := (Option.any_eq_true _ _).mp hnext
  obtain ⟨hzero, hsize, hbefore, hafter⟩ := of_decide_eq_true hcheck
  refine ⟨s, st, r, info, sampleServer_initial, hr, hserve, hzero, hinfo, hsize,
    hbefore, hafter, fun hkept => ?_⟩
  have hold : (s.store.os.content info.desc.file)[1]? = some 2 := by
    rw [← List.getElem?_take_of_lt (show 1 < 8 by decide), hbefore]
    rfl
  have hnew := hkept 1 2 (by rw [hsize]; decide) (by decide) hold
  rw [← List.getElem?_take_of_lt (show 1 < 8 by decide), hafter] at hnew
  cases hnew

end Fcopy
