import Fcopy.Wire.Grammar
import Fcopy.Wire.RoundTrip

/-! Encoding what has been decoded.

    A frame that `append` accepts consists of a canonical header, a canonical body and a data section, so
    `encode` can restore it from the decoded message. It does so for a `SendFileReq` and for every frame
    without a data section. The header of any other command may announce one as well; `append` then
    stores it, but `encode_body` does not hand it out, while `encode` still subtracts its length:

        header │ body │ data   ──append──▶  message  ──encode──▶   header' │ body
                                                        body_len' = |body| - |data|  (mod 2 ^ 32) -/

namespace Fcopy
open Endian

/-! ### The header -/

namespace Message
variable {h : Host} {head : Bytes} {m : Message}

/-- A header that is accepted has been written field by field. -/
theorem headBytes_of_decodeHead (hd : decodeHead h head = some m) :
    m.headBytes = head ∧ m.magic = magicNumber ∧ m.version = versionNumber := by
  have hlen := decodeHead_length hd
  rw [decodeHead, if_neg (not_not.mpr hlen)] at hd
  obtain ⟨_, _, hb, hat, hd⟩ := bind_decodeInt (at_zero head) hd
  obtain ⟨_, _, rfl, hat, hd⟩ := bind_decodeInt hat hd
  obtain ⟨_, _, rfl, hat, hd⟩ := bind_decodeInt hat hd
  obtain ⟨_, _, rfl, hat, hd⟩ := bind_decodeInt hat hd
  obtain ⟨_, _, rfl, hat, hd⟩ := bind_decodeInt hat hd
  obtain ⟨_, _, rfl, hat, hd⟩ := bind_decodeInt hat hd
  simp only at hd
  split at hd
  · cases hd
  · rename_i hok
    rw [not_or, not_or, not_not, not_not, not_not] at hok
    cases hd
    cases hat.end_iff.mp hok.1
    exact ⟨by rw [hb, headBytes, List.append_nil], hok.2⟩

/-- Where the command and the length of the data section stand in a header. -/
theorem headBytes_fields (m : Message) (rest : Bytes) :
    ((m.headBytes ++ rest).drop 4).take 2 = int 2 m.command ∧
      ((m.headBytes ++ rest).drop 12).take 4 = int 4 m.dataLen := by
  refine ⟨?_, ?_⟩
  · have hcut : m.headBytes ++ rest = (int 2 m.magic ++ int 2 m.version) ++ (int 2 m.command ++
        (int 2 m.error ++ (int 4 m.bodyLen ++ (int 4 m.dataLen ++ rest)))) := by
      simp only [headBytes, List.append_assoc]
    rw [hcut, List.drop_left' (by simp only [List.length_append, length_int]),
      List.take_left' (length_int ..)]
  · have hcut : m.headBytes ++ rest = (int 2 m.magic ++ (int 2 m.version ++ (int 2 m.command ++
        (int 2 m.error ++ int 4 m.bodyLen)))) ++ (int 4 m.dataLen ++ rest) := by
      simp only [headBytes, List.append_assoc]
    rw [hcut, List.drop_left' (by simp only [List.length_append, length_int]),
      List.take_left' (length_int ..)]

end Message

theorem int_inj {w : ℕ} {m n : BitVec (8 * w)} : int w m = int w n ↔ m = n := by
  refine ⟨fun hmn => BitVec.eq_of_toNat_eq ?_, fun hmn => by rw [hmn]⟩
  have h := congrArg ofBe hmn
  rwa [int, int, ofBe_be, ofBe_be, Nat.mod_eq_of_lt (toNat_lt m), Nat.mod_eq_of_lt (toNat_lt n)] at h

/-! ### Vectors -/

/-- Without a data section to hand out the vectors hold the body alone. -/
theorem encodeBody_noData (h : Host) (p : Payload) (view : Bytes) (hp : p.hasData = false) :
    (p.encodeBody h [] view).2.flatten = p.bytes := by
  have h₀ := (encodeBody_eq h p [] fun _ => rfl).2
  rw [List.append_nil] at h₀
  cases p <;> first | exact h₀ | cases hp

/-- Body and data section are the first and the second vector; an empty one may be missing. -/
theorem encodeBody_vectors (h : Host) (p : Payload) (view : Bytes)
    (hview : p.hasData = false → view = []) :
    ((p.encodeBody h [] view).2[0]?).getD [] = p.bytes ∧
      ((p.encodeBody h [] view).2[1]?).getD [] = view := by
  have hbody := p.encodeBody_fst h view
  cases p with
  | sendFileReq r =>
    simp only [Payload.encodeBody] at hbody ⊢
    cases view <;> exact ⟨hbody, rfl⟩
  | base | sendFileResp | closeFileResp | deleteFileResp | setChainResp =>
    rw [hview rfl]
    exact ⟨rfl, rfl⟩
  | _ =>
    rw [hview rfl] at hbody ⊢
    exact ⟨hbody, rfl⟩

/-! ### Acceptance -/

namespace FcopyMessage
variable {h : Host} {alloc : ℕ → Bool} {limit : ℕ} {s : Bytes} {out : FcopyMessage}

/-- `append_body` asks for memory only in its data phase. -/
theorem appendBody_phase (h : Host) (m : Message) (buf : Bytes) :
    (∃ r, ∀ alloc, Message.appendBody h alloc m buf = r) ∨
      ∃ m' buf', ∀ alloc, Message.appendBody h alloc m buf = Message.appendData h alloc m' buf' := by
  obtain ⟨d, _, r, m', buf', heq⟩ : ∃ (d : Prop) (_ : Decidable d) (r : Ret × Message)
      (m' : Message) (buf' : Bytes), ∀ alloc, Message.appendBody h alloc m buf =
        if m.body.length < m.bodyLen.toNat then (if d then r else m'.appendData h alloc buf')
        else m.appendData h alloc buf := ⟨_, _, _, _, _, fun _ => rfl⟩
  by_cases hshort : m.body.length < m.bodyLen.toNat
  · by_cases hd : d
    · exact .inl ⟨r, fun alloc => by rw [heq, if_pos hshort, if_pos hd]⟩
    · exact .inr ⟨m', buf', fun alloc => by rw [heq, if_pos hshort, if_neg hd]⟩
  · exact .inr ⟨m, buf, fun alloc => by rw [heq, if_neg hshort]⟩

/-- A call that is not refused has been granted the memory it asked for. -/
theorem deliver_granted (self : FcopyMessage) (m : Message) (buf : Bytes)
    (hne : (deliver h alloc self m buf).1 ≠ .rejected .EBADMSG) :
    deliver h (fun _ => true) self m buf = deliver h alloc self m buf := by
  rcases appendBody_phase h m buf with ⟨r, hbody⟩ | ⟨m', buf', hbody⟩
  · rw [deliver, deliver, hbody, hbody]
  have hdata : (m'.appendData h alloc buf').1 ≠ .rejected .EBADMSG := by
    rwa [deliver, hbody] at hne
  have hsame : m'.appendData h (fun _ => true) buf' = m'.appendData h alloc buf' := by
    simp only [Message.appendData] at hdata ⊢
    by_cases hlt : m'.dataPos < m'.dataLen
    · simp only [if_pos hlt] at hdata ⊢
      cases hd : m'.data with
      | some d => rfl
      | none =>
        simp only [hd] at hdata ⊢
        cases ha : alloc m'.dataLen.toNat with
        | true => rfl
        | false =>
          simp only [ha] at hdata
          exact absurd rfl hdata
    · simp only [if_neg hlt]
  rw [deliver, deliver, hbody, hbody, hsame]

theorem append_granted (hne : (append h alloc (fresh limit) s).1 ≠ .rejected .EBADMSG) :
    append h (fun _ => true) (fresh limit) s = append h alloc (fresh limit) s := by
  by_cases hs : s.length < headerSize
  · have hmin : min headerSize s.length = s.length := by omega
    simp only [append, fresh, List.length_nil, Nat.sub_zero, hmin, List.take_length, List.nil_append,
      hs, if_true]
  · have hself : (fresh limit).head.length < headerSize := show 0 < headerSize by decide
    have hhead : (fresh limit).head ++ s.take (min (headerSize - (fresh limit).head.length) s.length) =
        s.take headerSize := by
      simp only [fresh, List.length_nil, List.nil_append, Nat.sub_zero]
      rw [Nat.min_eq_left (by omega)]
    have hlen : (s.take headerSize).length = headerSize := by
      rw [List.length_take]
      omega
    rw [append_openHead hself hhead hlen rfl] at hne ⊢
    rw [append_openHead hself hhead hlen rfl]
    split
    · rfl
    · rfl
    · rename_i m hm
      rw [hm] at hne
      exact deliver_granted _ _ _ hne

/-- The parts of a frame that is accepted at its last byte, and the object they leave. -/
structure Frame (h : Host) (s : Bytes) (out : FcopyMessage) (m : Message) (q : Payload)
    (data : Bytes) : Prop where
  parts : s = m.headBytes ++ (q.bytes ++ data)
  bodyLen : m.bodyLen.toNat = q.bytes.length
  dataLen : m.dataLen.toNat = data.length
  magic : m.magic = magicNumber
  version : m.version = versionNumber
  command : m.command = q.thisCmd.code
  payload : m.payload = q
  dataView : m.dataView = data
  message : out.message = some m

theorem accepted_frame (hacc : append h alloc (fresh limit) s = (.accepted, out))
    (hlast : ∀ n < s.length, (append h alloc (fresh limit) (s.take n)).1 = .again) :
    ∃ m q data, Frame h s out m q data := by
  have hal : ∀ n : ℕ, (fun _ => true : ℕ → Bool) n = true := fun _ => rfl
  have hcall : ∀ t, append h (fun _ => true) (fresh limit) t =
      if t.length < frameEnd h limit t then (.again, stateAt h limit t) else finalAt h limit t := by
    intro t
    have hstart : ([] : Bytes).length < frameEnd h limit [] :=
      lt_of_lt_of_le (by decide) (headerSize_le_frameEnd h limit [])
    have happ := append_stateAt h limit hal [] t hstart
    rwa [stateAt_nil, List.nil_append] at happ
  have hs : append h (fun _ => true) (fresh limit) s = append h alloc (fresh limit) s :=
    append_granted (by rw [hacc]; simp)
  rw [hacc, hcall] at hs
  split at hs
  · cases hs
  rename_i hend
  -- a frame that ends earlier would have been accepted earlier
  have hlen : frameEnd h limit s = s.length := by
    by_contra hne
    have hlt : frameEnd h limit s < s.length := by omega
    have hpre := hlast _ hlt
    rw [← append_granted (by rw [hpre]; simp), hcall] at hpre
    have hsame : frameEnd h limit (s.take (frameEnd h limit s)) = frameEnd h limit s := by
      have hle := headerSize_le_frameEnd h limit s
      rw [← frameEnd_append (s.drop (frameEnd h limit s)) (by rw [List.length_take]; omega),
        List.take_append_drop]
    rw [hsame, if_neg (by rw [List.length_take]; omega)] at hpre
    exact finalAt_ne_again _ hpre
  rw [finalAt] at hs
  rw [frameEnd] at hlen
  cases ho : openHead h limit (s.take headerSize) with
  | error em => rw [ho] at hs; cases hs
  | ok m₀ =>
    rw [ho] at hs hlen
    simp only at hs hlen
    obtain ⟨m₁, p, hm₁, hp, rfl⟩ : ∃ m₁ p, Message.decodeHead h (s.take headerSize) = some m₁ ∧
        createMessage m₁.command = some p ∧ m₀ = { m₁ with payload := p } := by
      rw [openHead] at ho
      split at ho
      · cases ho
      rename_i m₁ hm₁
      split at ho
      · cases ho
      rename_i p hp
      split at ho
      · cases ho
      · cases ho
        exact ⟨m₁, p, hm₁, hp, rfl⟩
    simp only [Message.finish, Message.full, Message.fill] at hs
    split at hs
    · rename_i q hq
      simp only [Prod.mk.injEq, true_and] at hs
      subst hs
      have hlen' : headerSize + m₁.bodyLen.toNat + m₁.dataLen.toNat = s.length := hlen
      obtain ⟨hhead, hmagic, hversion⟩ := Message.headBytes_of_decodeHead hm₁
      obtain ⟨hcmd, _, hbytes⟩ := Payload.bytes_of_decodeBody hp hq
      have hdrop := List.length_drop (i := headerSize) (l := s)
      have hdata : ((s.drop headerSize).drop m₁.bodyLen.toNat).take m₁.dataLen.toNat =
          (s.drop headerSize).drop m₁.bodyLen.toNat :=
        List.take_of_length_le (by rw [List.length_drop]; omega)
      have hbody : q.bytes.length = m₁.bodyLen.toNat := by
        rw [hbytes, List.length_take]
        omega
      have hlenData : ((s.drop headerSize).drop m₁.bodyLen.toNat).length = m₁.dataLen.toNat := by
        rw [List.length_drop]
        omega
      refine ⟨_, q, (s.drop headerSize).drop m₁.bodyLen.toNat,
        ⟨?_, ?_, ?_, ?_, ?_, ?_, ?_, ?_, rfl⟩⟩
      · rw [hbytes, List.take_append_drop]
        exact (List.take_append_drop headerSize s).symm.trans (by rw [← hhead]; rfl)
      · exact hbody.symm
      · exact hlenData.symm
      · exact hmagic
      · exact hversion
      · simp only [hcmd]
        exact (createMessage_eq hp).1
      · rfl
      · exact hdata
    · cases hs

/-- Encoding the object gives the frame back: header, body and data section make up `s`, and the header
    announces the lengths of the vectors behind it. -/
def Restored (h : Host) (s : Bytes) (out : FcopyMessage) : Prop :=
  ∃ head vectors self', encode h out = (some (head :: vectors), self') ∧
    (head :: vectors).flatten = s ∧
    ∃ m, Message.decodeHead h head = some m ∧ m.bodyLen.toNat = ((vectors[0]?).getD []).length ∧
      m.dataLen.toNat = ((vectors[1]?).getD []).length

/-- The header's command is `SEND_FILE_REQ`, or its `data_len` is 0. -/
def DataExpected (s : Bytes) : Prop :=
  (s.drop 4).take 2 = int 2 Command.sendFileReq.code ∨ (s.drop 12).take 4 = int 4 0

theorem Frame.dataExpected_iff {m : Message} {q : Payload} {data : Bytes}
    (hf : Frame h s out m q data) : DataExpected s ↔ (q.hasData = false → data = []) := by
  have hq : q.hasData = true ↔ q.thisCmd.code = Command.sendFileReq.code := by
    constructor
    · intro hq
      cases q <;> first | rfl | cases hq
    · intro hq
      have := Command.code_inj hq
      cases q <;> first | rfl | cases this
  have hdata : m.dataLen = 0 ↔ data = [] := by
    rw [← List.length_eq_zero_iff, ← hf.dataLen, ← BitVec.toNat_inj]
    rfl
  obtain ⟨hcmd, hlen⟩ := m.headBytes_fields (q.bytes ++ data)
  rw [DataExpected, hf.parts, hcmd, hlen, int_inj, int_inj, hf.command, ← hq]
  have hbool : q.hasData = true ∨ q.hasData = false := by cases q.hasData <;> simp
  constructor
  · rintro (h₁ | h₁) h₂
    · rw [h₁] at h₂
      cases h₂
    · exact hdata.mp h₁
  · exact fun h₁ => hbool.imp_right fun h₂ => hdata.mpr (h₁ h₂)

/-- CORRECT (canonical frames): a frame that is accepted exactly at its last byte is restored by encoding
    the decoded message if and only if it is a `SEND_FILE_REQ` or has no data section. -/
theorem encode_append_iff (h₁ h₂ : Host) (alloc : ℕ → Bool) (limit : ℕ) (s : Bytes)
    (out : FcopyMessage) (hacc : append h₁ alloc (fresh limit) s = (.accepted, out))
    (hlast : ∀ n < s.length, (append h₁ alloc (fresh limit) (s.take n)).1 = .again) :
    Restored h₂ s out ↔ DataExpected s := by
  obtain ⟨m, q, data, hf⟩ := accepted_frame hacc hlast
  rw [hf.dataExpected_iff]
  constructor
  · rintro ⟨head, vectors, self', henc, hflat, _⟩ hq
    -- the data section is not among the vectors
    have hvec : head.length = headerSize ∧ vectors = (q.encodeBody h₂ [] data).2 := by
      simp only [encode, hf.message, hf.payload, hf.dataView, Prod.mk.injEq, Option.some.injEq,
        List.cons.injEq] at henc
      refine ⟨?_, henc.1.2.symm⟩
      rw [← henc.1.1, Message.encodeHead_eq, Message.length_headBytes]
    have hlen := congrArg List.length hflat
    rw [List.flatten_cons, hvec.2, encodeBody_noData h₂ q data hq, hf.parts] at hlen
    simp only [List.length_append, hvec.1, Message.length_headBytes] at hlen
    exact List.length_eq_zero_iff.mp (by omega)
  · intro hdata
    have hready : Ready q m.getError data m := by
      refine ⟨hf.magic, hf.version, hf.command, ?_, ?_, hf.dataView, hf.payload, hdata⟩
      · rw [Message.getError, BitVec.ofInt_toInt]
      · rw [← hf.dataLen, BitVec.ofNat_toNat, BitVec.setWidth_eq]
    have hm : encoded q m = { m with body := q.bytes } := by
      rw [encoded, ← hf.bodyLen, BitVec.ofNat_toNat, BitVec.setWidth_eq]
    have hhead := (encoded q m).decodeHead_headBytes h₂ hf.magic hf.version
    obtain ⟨hv₀, hv₁⟩ := encodeBody_vectors h₂ q data hdata
    refine ⟨_, _, _, encode_eq h₂ hready out hf.message, ?_, _, hhead, ?_, ?_⟩
    · rw [List.flatten_cons, (encodeBody_eq h₂ q data hdata).2, hf.parts, hm]
      rfl
    · rw [hv₀, hm]
      exact hf.bodyLen
    · rw [hv₁]
      exact hf.dataLen

/-- A chunk of two bytes. -/
theorem encode_append_iff_send :
    let s : Bytes := [0xF1, 0xFA, 0, 1, 0, 2, 0, 0, 0, 0, 0, 24, 0, 0, 0, 2] ++
      List.replicate 24 0 ++ [7, 8]
    ∃ out, append .little (fun _ => true) (fresh 64) s = (.accepted, out) ∧
      (Restored .big s out ↔ DataExpected s) :=
  ⟨_, rfl, encode_append_iff .little .big (fun _ => true) 64 _ _ rfl (by decide)⟩

/-- A response with one byte of data is accepted; encoded again it announces `2 ^ 32 - 1` bytes of body
    and a byte of data, and consists of the header alone. -/
theorem response_with_data :
    let s : Bytes := [0xF1, 0xFA, 0, 1, 0x10, 3, 0, 0, 0, 0, 0, 0, 0, 0, 0, 1, 7]
    ∃ out, append .little (fun _ => true) (fresh 64) s = (.accepted, out) ∧
      (∀ n < s.length, (append .little (fun _ => true) (fresh 64) (s.take n)).1 = .again) ∧
      (encode .little out).1 =
        some [[0xF1, 0xFA, 0, 1, 0x10, 3, 0, 0, 0xFF, 0xFF, 0xFF, 0xFF, 0, 0, 0, 1]] ∧
      ¬ Restored .little s out := by
  refine ⟨_, rfl, by decide, by decide, ?_⟩
  rintro ⟨head, vectors, self', henc, hflat, _⟩
  have hs := congrArg (Option.map List.flatten) (congrArg Prod.fst henc)
  exact absurd (hs.trans (congrArg some hflat)) (by decide)

end FcopyMessage

end Fcopy
