import Fcopy.Wire.Fragments

/-! The size limit of the receiver.

    `append` compares `body_len + data_len + 16` with the limit, but adds the two lengths as `uint32_t`
    first. The limit therefore holds for a stream exactly when its header does not overflow that sum
    into an amount the limit admits (`sizeLimit_iff`). The rest of the parser keeps to the announced
    lengths in any case (`feed_spec`), also when an allocation fails. -/

namespace Fcopy
open Endian

/-- Bytes a message holds or has reserved for body and data. -/
def Message.held (m : Message) : ℕ :=
  max m.body.length m.bodyCap + max (m.data.getD []).length m.dataCap

/-- Bytes a message object holds or has reserved: header, body and data. -/
def FcopyMessage.held (self : FcopyMessage) : ℕ :=
  self.head.length + (self.message.map Message.held).getD 0

/-- `m` has received part of what `m₀` announced, and reserved no more than that. -/
structure Within (m₀ m : Message) : Prop where
  bodyLen : m.bodyLen = m₀.bodyLen
  dataLen : m.dataLen = m₀.dataLen
  body : m.body.length ≤ m₀.bodyLen.toNat
  bodyCap : m.bodyCap ≤ m₀.bodyLen.toNat
  data : (m.data.getD []).length = m.dataPos.toNat
  dataPos : m.dataPos.toNat ≤ m₀.dataLen.toNat
  dataCap : m.dataCap ≤ m₀.dataLen.toNat

theorem Within.held_le {m₀ m : Message} (hw : Within m₀ m) :
    m.held ≤ m₀.bodyLen.toNat + m₀.dataLen.toNat := by
  obtain ⟨_, _, hb, hbc, hd, hdp, hdc⟩ := hw
  rw [Message.held]
  omega

theorem Within.of_opened {m : Message} (ho : m.Opened) : Within m m := by
  obtain ⟨hb, hbc, hd, hdc, hp, _⟩ := ho
  exact ⟨rfl, rfl, by simp [hb], by omega, by simp [hd, hp], by simp [hp], by omega⟩

namespace Message
variable {h : Host} {alloc : ℕ → Bool} {m₀ : Message}

theorem finish_within {m : Message} (hw : Within m₀ m) :
    Within m₀ (finish h m).2 ∧ (finish h m).1 ≠ .rejected .EMSGSIZE := by
  rw [finish]
  split
  · exact ⟨⟨hw.1, hw.2, hw.3, hw.4, hw.5, hw.6, hw.7⟩, by simp⟩
  · exact ⟨hw, by simp⟩

theorem copyData_within {m : Message} (hw : Within m₀ m) (buf : Bytes)
    (hd : (m.data.getD []).length = m.dataPos.toNat) (hlt : m.dataPos < m.dataLen) :
    Within m₀ (copyData h m (m.data.getD []) buf).2 ∧
      (copyData h m (m.data.getD []) buf).1 ≠ .rejected .EMSGSIZE := by
  obtain ⟨hbl, hdl, hb, hbc, _, hp, hc⟩ := hw
  have hbound := m.dataLen.isLt
  rw [BitVec.lt_def] at hlt
  have hpos : (m.dataPos + BitVec.ofNat 32 (min buf.length (m.dataLen.toNat - m.dataPos.toNat))).toNat =
      m.dataPos.toNat + min buf.length (m.dataLen.toNat - m.dataPos.toNat) := by
    rw [BitVec.toNat_add, BitVec.toNat_ofNat, Nat.mod_eq_of_lt (a := min _ _) (by omega),
      Nat.mod_eq_of_lt (by omega)]
  have hlen : (m.data.getD [] ++ buf.take (min buf.length (m.dataLen.toNat - m.dataPos.toNat))).length
      = m.dataPos.toNat + min buf.length (m.dataLen.toNat - m.dataPos.toNat) := by
    rw [List.length_append, List.length_take, hd]
    omega
  rw [hdl] at hpos hlen hlt
  simp only [copyData]
  split
  · exact ⟨⟨hbl, hdl, hb, hbc, by simpa [hdl, hpos] using hlen, by simp only [hdl, hpos]; omega, hc⟩,
      by simp⟩
  · exact finish_within ⟨hbl, hdl, hb, hbc, by simpa [hdl, hpos] using hlen,
      by simp only [hdl, hpos]; omega, hc⟩

theorem appendData_within {m : Message} (hw : Within m₀ m) (buf : Bytes) :
    Within m₀ (appendData h alloc m buf).2 ∧ (appendData h alloc m buf).1 ≠ .rejected .EMSGSIZE := by
  rw [appendData]
  split
  · rename_i hlt
    cases hd : m.data with
    | some d =>
      have := copyData_within (h := h) hw buf hw.data hlt
      rwa [hd] at this
    | none =>
      simp only
      split
      · have hw' : Within m₀ { m with dataCap := m.dataLen.toNat } :=
          ⟨hw.1, hw.2, hw.3, hw.4, hw.5, hw.6, by simp only [hw.dataLen]; exact le_rfl⟩
        have := copyData_within (h := h) hw' buf hw.data hlt
        simp only [hd] at this
        exact this
      · exact ⟨hw, by simp⟩
  · exact finish_within hw

theorem appendBody_within {m : Message} (hw : Within m₀ m) (buf : Bytes) :
    Within m₀ (appendBody h alloc m buf).2 ∧ (appendBody h alloc m buf).1 ≠ .rejected .EMSGSIZE := by
  rw [appendBody]
  split
  · rename_i hlt
    obtain ⟨hbl, hdl, hb, hbc, hd, hp, hc⟩ := hw
    have hlen : (m.body ++ buf.take (min buf.length (m.bodyLen.toNat - m.body.length))).length ≤
        m₀.bodyLen.toNat := by
      rw [← hbl, List.length_append, List.length_take]
      omega
    have hw' : ∀ cap, cap ≤ m₀.bodyLen.toNat → Within m₀ { m with
        body := m.body ++ buf.take (min buf.length (m.bodyLen.toNat - m.body.length))
        bodyCap := cap } := fun cap hcap => ⟨hbl, hdl, hlen, hcap, hd, hp, hc⟩
    by_cases hcap : m.bodyCap < m.bodyLen.toNat
    · simp only [hcap, if_true]
      split
      · exact ⟨hw' _ (by rw [hbl]), by simp⟩
      · exact appendData_within (hw' _ (by rw [hbl])) _
    · simp only [hcap, if_false]
      split
      · exact ⟨hw' _ hbc, by simp⟩
      · exact appendData_within (hw' _ hbc) _
  · exact appendData_within hw buf

end Message

namespace FcopyMessage
variable {h : Host} {alloc : ℕ → Bool} {limit : ℕ}

/-- What feeding the bytes `p` has led to, whether or not allocations succeed. -/
structure Outcome (h : Host) (limit : ℕ) (p : Bytes) (r : Ret × FcopyMessage) : Prop where
  sizeLimit : r.2.sizeLimit = limit
  head : r.2.head = p.take headerSize
  short : p.length < headerSize → r.1 = .again ∧ r.2.message = none
  refused : ∀ e msg, headerSize ≤ p.length → openHead h limit (p.take headerSize) = .error (e, msg) →
    r.1 = .rejected e ∧ r.2.message = msg
  opened : ∀ m₀, openHead h limit (p.take headerSize) = .ok m₀ →
    r.1 ≠ .rejected .EMSGSIZE ∧ ∃ m, r.2.message = some m ∧ Within m₀ m

theorem Outcome.fresh : Outcome h limit [] (.again, fresh limit) := by
  refine ⟨rfl, rfl, fun _ => ⟨rfl, rfl⟩, fun _ _ hle => absurd hle (by decide), fun m₀ ho => ?_⟩
  exact absurd (openHead_ok ho).1 (by simp)

/-- Bytes after the verdict change nothing. -/
theorem Outcome.extend {p : Bytes} {r : Ret × FcopyMessage} (ho : Outcome h limit p r) (q : Bytes)
    (hr : r.1 ≠ .again) : Outcome h limit (p ++ q) r := by
  have hle : headerSize ≤ p.length := by
    by_contra hlt
    exact hr (ho.short (by omega)).1
  have htake := take_headerSize_append q hle
  refine ⟨ho.sizeLimit, by rw [htake, ho.head], fun hlt => ?_, ?_, ?_⟩
  · rw [List.length_append] at hlt
    omega
  · rw [htake]
    exact fun e msg _ he => ho.refused e msg hle he
  · rw [htake]
    exact ho.opened

theorem Outcome.deliver {p f : Bytes} {self : FcopyMessage} {m₀ m : Message} (buf : Bytes)
    (hlimit : self.sizeLimit = limit) (hself : self.head = (p ++ f).take headerSize)
    (hlen : headerSize ≤ (p ++ f).length)
    (hopen : openHead h limit ((p ++ f).take headerSize) = .ok m₀) (hw : Within m₀ m) :
    Outcome h limit (p ++ f) (deliver h alloc self m buf) := by
  have hb : Within m₀ (m.appendBody h alloc buf).2 ∧ (m.appendBody h alloc buf).1 ≠ .rejected .EMSGSIZE :=
    Message.appendBody_within hw buf
  refine ⟨hlimit, hself, fun hlt => absurd hlt (by omega), fun e msg _ he => ?_, fun m₁ h₁ => ?_⟩
  · rw [hopen] at he
    cases he
  · rw [hopen] at h₁
    cases h₁
    exact ⟨hb.2, _, rfl, hb.1⟩

/-- One call, from any state without a verdict. -/
theorem Outcome.append {p : Bytes} {self : FcopyMessage} (ho : Outcome h limit p (.again, self))
    (f : Bytes) : Outcome h limit (p ++ f) (append h alloc self f) := by
  have hhead := ho.head
  simp only at hhead
  have hpf := @List.length_append _ p f
  by_cases hfull : headerSize ≤ p.length
  · have htake := take_headerSize_append f hfull
    have hlen : self.head.length = headerSize := by
      rw [hhead, List.length_take]
      omega
    cases hopen : openHead h limit (p.take headerSize) with
    | error em => exact absurd (ho.refused em.1 em.2 hfull hopen).1 (by simp)
    | ok m₀ =>
      obtain ⟨_, m, hm, hw⟩ := ho.opened m₀ hopen
      simp only at hm
      rw [FcopyMessage.append, if_neg (by omega), hm]
      exact .deliver f ho.sizeLimit (by rw [htake, hhead]) (by omega) (by rw [htake, hopen]) hw
  · obtain ⟨-, hnone⟩ := ho.short (by omega)
    have hp : p.take headerSize = p := List.take_of_length_le (by omega)
    rw [hp] at hhead
    have hmin := Nat.min_comm (headerSize - p.length) f.length
    have hcat : self.head ++ f.take (min (headerSize - self.head.length) f.length) =
        (p ++ f).take headerSize := by
      rw [hhead, hmin]
      exact Resume.append_take_min (by omega)
    by_cases hf : headerSize ≤ (p ++ f).length
    · have hlen : ((p ++ f).take headerSize).length = headerSize := by
        rw [List.length_take]
        omega
      have hlimit := ho.sizeLimit
      simp only at hlimit hnone
      rw [append_openHead (by rw [hhead]; omega) hcat hlen hlimit]
      cases hopen : openHead h limit ((p ++ f).take headerSize) with
      | ok m₀ => exact .deliver _ hlimit rfl hf hopen (.of_opened (openHead_ok hopen).2)
      | error em =>
        obtain ⟨e, msg⟩ := em
        cases msg <;>
          exact ⟨hlimit, rfl, fun hlt => absurd hlt (by omega),
            fun e' msg' _ he => by rw [hopen] at he; cases he; exact ⟨rfl, by first | rfl | exact hnone⟩,
            fun m₁ h₁ => by rw [hopen] at h₁; cases h₁⟩
    · have hlen : (self.head ++ f.take (min (headerSize - self.head.length) f.length)).length <
          headerSize := by
        rw [hcat, List.length_take]
        omega
      rw [FcopyMessage.append, if_pos (by rw [hhead]; omega)]
      simp only [hlen, if_true]
      refine ⟨ho.sizeLimit, hcat, fun _ => ⟨rfl, hnone⟩, fun _ _ hle => absurd hle hf, fun m₀ h₁ => ?_⟩
      have := (openHead_ok h₁).1
      rw [List.length_take] at this
      omega

/-- Feeding a list of fragments. -/
theorem feed_spec (h : Host) (alloc : ℕ → Bool) (limit : ℕ) (frags : List Bytes) :
    Outcome h limit frags.flatten (feed h alloc (FcopyMessage.fresh limit) frags) := by
  suffices H : ∀ (fs : List Bytes) (p : Bytes) (self : FcopyMessage),
      Outcome h limit p (.again, self) → Outcome h limit (p ++ fs.flatten) (feed h alloc self fs) by
    have := H frags [] _ .fresh
    rwa [List.nil_append] at this
  intro fs
  induction fs with
  | nil => intro p self ho; simpa [feed, Resume.feed] using ho
  | cons f fs ih =>
    intro p self ho
    have hstep : Outcome h limit (p ++ f) (append h alloc self f) := ho.append f
    rw [List.flatten_cons, ← List.append_assoc, feed, Resume.feed]
    split
    · rename_i hmore
      exact ih _ _ (by rw [← hmore]; exact hstep)
    · rename_i hmore
      exact hstep.extend fs.flatten hmore

/-! ### The limit -/

/-- What the size limit promises for the stream `s`, however it is cut: an object that goes on or
    accepts stays within the limit, and a header that announces more is refused with nothing reserved
    but the header itself. -/
structure KeepsLimit (h : Host) (alloc : ℕ → Bool) (limit : ℕ) (s : Bytes) : Prop where
  within : ∀ (frags : List Bytes) (rest : Bytes), frags.flatten ++ rest = s →
    ∀ r, feed h alloc (FcopyMessage.fresh limit) frags = r →
    (r.1 = .again ∨ r.1 = .accepted) → r.2.head.length = headerSize →
    ∃ m, r.2.message = some m ∧ headerSize + m.bodyLen.toNat + m.dataLen.toNat ≤ limit ∧
      r.2.held ≤ limit
  refused : ∀ (frags : List Bytes) (rest : Bytes), frags.flatten ++ rest = s →
    ∀ r, feed h alloc (FcopyMessage.fresh limit) frags = r → headerSize ≤ frags.flatten.length →
    ∀ m, Message.decodeHead h (s.take headerSize) = some m → (createMessage m.command).isSome →
    limit < headerSize + m.bodyLen.toNat + m.dataLen.toNat →
    r.1 = .rejected .EMSGSIZE ∧ r.2.held = headerSize

/-- The header of `s` announces more than the limit, by an amount that drops out of the 32-bit sum. -/
def Overflows (h : Host) (limit : ℕ) (s : Bytes) : Prop :=
  ∃ m, Message.decodeHead h (s.take headerSize) = some m ∧ (createMessage m.command).isSome ∧
    2 ^ 32 ≤ m.bodyLen.toNat + m.dataLen.toNat ∧
    headerSize + m.bodyLen.toNat + m.dataLen.toNat ≤ limit + 2 ^ 32 ∧
    limit < headerSize + m.bodyLen.toNat + m.dataLen.toNat

/-- The header passes the check of `append` iff the sum modulo `2 ^ 32` fits. -/
theorem openHead_eq (limit : ℕ) {head : Bytes} {m : Message} {p : Payload}
    (hd : Message.decodeHead h head = some m) (hc : createMessage m.command = some p) :
    openHead h limit head =
      if (m.bodyLen.toNat + m.dataLen.toNat) % 2 ^ 32 + headerSize > limit then
        .error (.EMSGSIZE, some (Message.new p))
      else .ok { m with payload := p } := by
  simp only [openHead, hd, hc, BitVec.toNat_add]

theorem decodeHead_of_openHead {head : Bytes} {m₀ : Message} (ho : openHead h limit head = .ok m₀) :
    ∃ m, Message.decodeHead h head = some m ∧ (createMessage m.command).isSome ∧
      m₀.bodyLen = m.bodyLen ∧ m₀.dataLen = m.dataLen ∧
      (m.bodyLen.toNat + m.dataLen.toNat) % 2 ^ 32 + headerSize ≤ limit := by
  cases hd : Message.decodeHead h head with
  | none => simp [openHead, hd] at ho
  | some m =>
    cases hc : createMessage m.command with
    | none => simp [openHead, hd, hc] at ho
    | some p =>
      rw [openHead_eq limit hd hc] at ho
      split at ho
      · cases ho
      · rename_i hle
        cases ho
        exact ⟨m, rfl, by simp [hc], rfl, rfl, by omega⟩

/-- Unless the header overflows, an opened message is announced within the limit. -/
theorem opened_le {s : Bytes} {m₀ : Message} (hno : ¬ Overflows h limit s)
    (ho : openHead h limit (s.take headerSize) = .ok m₀) :
    headerSize + m₀.bodyLen.toNat + m₀.dataLen.toNat ≤ limit := by
  obtain ⟨m, hd, hc, hb, hdl, hle⟩ := decodeHead_of_openHead ho
  have hlt₁ := m.bodyLen.isLt
  have hlt₂ := m.dataLen.isLt
  rw [hb, hdl]
  by_contra hgt
  refine hno ⟨m, hd, hc, ?_, ?_, by omega⟩
  · by_contra hsmall
    rw [Nat.mod_eq_of_lt (by omega)] at hle
    omega
  · omega

/-- CORRECT (size limit, where it holds): the limit is kept on a stream iff the lengths its header
    announces do not overflow 32 bits into an admitted amount. -/
theorem keepsLimit_iff (h : Host) (alloc : ℕ → Bool) (limit : ℕ) (s : Bytes) :
    KeepsLimit h alloc limit s ↔ ¬ Overflows h limit s := by
  constructor
  · rintro ⟨-, hrefused⟩ ⟨m, hd, hc, hbig, hwrap, hgt⟩
    obtain ⟨p, hp⟩ := Option.isSome_iff_exists.mp hc
    have hlt₁ := m.bodyLen.isLt
    have hlt₂ := m.dataLen.isLt
    have hlen := Message.decodeHead_length hd
    rw [List.length_take] at hlen
    have hopen := openHead_eq limit hd hp
    rw [if_neg (by omega)] at hopen
    have hspec := feed_spec h alloc limit [s]
    rw [List.flatten_singleton] at hspec
    have hno := (hspec.opened _ hopen).1
    exact hno (hrefused [s] [] (by simp) _ rfl (by simp; omega) m hd hc hgt).1
  · intro hno
    refine ⟨?_, ?_⟩
    · rintro frags rest rfl r rfl hret hhead
      have hspec := feed_spec h alloc limit frags
      have hlen : headerSize ≤ frags.flatten.length := by
        rw [hspec.head, List.length_take] at hhead
        omega
      have htake := take_headerSize_append rest hlen
      cases hopen : openHead h limit (frags.flatten.take headerSize) with
      | error em =>
        have hrej := (hspec.refused em.1 em.2 hlen hopen).1
        rw [hrej] at hret
        simp at hret
      | ok m₀ =>
        obtain ⟨-, m, hm, hw⟩ := hspec.opened m₀ hopen
        have hle := opened_le hno (by rw [htake, hopen])
        have hheld := hw.held_le
        refine ⟨m, hm, by rw [hw.bodyLen, hw.dataLen]; exact hle, ?_⟩
        rw [held, hhead, hm]
        simp only [Option.map_some, Option.getD_some]
        omega
    · rintro frags rest rfl r rfl hlen m hd hc hgt
      have hspec := feed_spec h alloc limit frags
      have htake := take_headerSize_append rest hlen
      obtain ⟨p, hp⟩ := Option.isSome_iff_exists.mp hc
      have hlt₁ := m.bodyLen.isLt
      have hlt₂ := m.dataLen.isLt
      have hover : limit < (m.bodyLen.toNat + m.dataLen.toNat) % 2 ^ 32 + headerSize := by
        by_contra hle
        exact hno ⟨m, hd, hc, by omega, by omega, hgt⟩
      rw [htake] at hd
      have hopen := openHead_eq limit hd hp
      rw [if_pos hover] at hopen
      obtain ⟨hrej, hmsg⟩ := hspec.refused _ _ hlen hopen
      refine ⟨hrej, ?_⟩
      rw [held, hspec.head, hmsg, List.length_take]
      show min headerSize frags.flatten.length + 0 = headerSize
      omega

/-- A 16-byte `SEND_FILE_REQ` header announcing a body of 1 byte and data of `2 ^ 32 - 1` bytes: the
    32-bit sum is 0, so `append` goes on although the limit is 128 MiB. -/
theorem overflow_not_keepsLimit :
    ¬ KeepsLimit .little (fun _ => true) (128 * 2 ^ 20)
      [0xF1, 0xFA, 0, 1, 0, 2, 0, 0, 0, 0, 0, 1, 0xFF, 0xFF, 0xFF, 0xFF] := by
  intro hk
  obtain ⟨m, hm, hle, -⟩ := hk.within
    [[0xF1, 0xFA, 0, 1, 0, 2, 0, 0, 0, 0, 0, 1, 0xFF, 0xFF, 0xFF, 0xFF]] [] rfl _ rfl
    (Or.inl (by decide)) (by decide)
  have hlens : ((feed .little (fun _ => true) (FcopyMessage.fresh (128 * 2 ^ 20))
      [[0xF1, 0xFA, 0, 1, 0, 2, 0, 0, 0, 0, 0, 1, 0xFF, 0xFF, 0xFF, 0xFF]]).2.message.map
      fun m => m.bodyLen.toNat + m.dataLen.toNat) = some (2 ^ 32) := by decide
  rw [hm, Option.map_some, Option.some.injEq] at hlens
  omega

end FcopyMessage

end Fcopy
