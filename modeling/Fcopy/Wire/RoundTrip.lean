import Fcopy.Wire.Bodies
import Fcopy.Wire.Fragments

/-! Round trip of a whole frame.

    `Built p error d m` are the message objects a program can make with the fields `p`, the error code
    `error` and the data section `d`. Encoding one gives header, body and data; a receiver with any
    byte order that is fed these bytes accepts them and gets back what was put in. -/

namespace Fcopy
open Endian

/-- Message objects with given fields, error code and data section. Of the setters that `MessageBase` has
    for the data section one copies and one borrows. They are used for `SendFileReq`, whose `encode_body`
    alone sends the section. -/
inductive Built (p : Payload) (error : ℤ) : Bytes → Message → Prop
  | plain : Built p error [] ((Message.new p).setError error)
  | view (d : Bytes) (hp : p.hasData = true) :
      Built p error d (((Message.new p).setError error).setDataView d)
  | copy (d : Bytes) (hp : p.hasData = true) (alloc : ℕ → Bool) (m : Message)
      (hm : ((Message.new p).setError error).setData alloc d = (true, m)) : Built p error d m

/-- What `encode` relies on. -/
structure Ready (p : Payload) (error : ℤ) (d : Bytes) (m : Message) : Prop where
  magic : m.magic = magicNumber
  version : m.version = versionNumber
  command : m.command = p.thisCmd.code
  error : m.error = BitVec.ofInt 16 error
  dataLen : m.dataLen = BitVec.ofNat 32 d.length
  dataView : m.dataView = d
  payload : m.payload = p
  noData : p.hasData = false → d = []

theorem Built.ready {p : Payload} {error : ℤ} {d : Bytes} {m : Message} (hb : Built p error d m) :
    Ready p error d m := by
  cases hb with
  | plain => exact ⟨rfl, rfl, rfl, rfl, rfl, rfl, rfl, fun _ => rfl⟩
  | view _ hp => exact ⟨rfl, rfl, rfl, rfl, rfl, rfl, rfl, fun hn => by rw [hp] at hn; cases hn⟩
  | copy _ hp alloc _ hm =>
    have hn : p.hasData = false → d = [] := fun hn => by rw [hp] at hn; cases hn
    rw [Message.setData] at hm
    split at hm
    · rename_i hempty
      cases hm
      rw [List.isEmpty_iff] at hempty
      subst hempty
      exact ⟨rfl, rfl, rfl, rfl, rfl, rfl, rfl, hn⟩
    split at hm
    · cases hm
      exact ⟨rfl, rfl, rfl, rfl, rfl, rfl, rfl, hn⟩
    · cases hm

/-! ### The header -/

namespace Message

/-- The header of a message, field by field. -/
def headBytes (m : Message) : Bytes :=
  int 2 m.magic ++ (int 2 m.version ++ (int 2 m.command ++ (int 2 m.error ++
    (int 4 m.bodyLen ++ int 4 m.dataLen))))

theorem encodeHead_eq (h : Host) (m : Message) : m.encodeHead h [] = m.headBytes := by
  simp only [encodeHead, headBytes, appendInt_eq, List.nil_append, List.append_assoc]

theorem length_headBytes (m : Message) : m.headBytes.length = headerSize := by
  simp only [headBytes, List.length_append, length_int]

/-- A header with the right magic and version reads back. -/
theorem decodeHead_headBytes (h : Host) (m : Message) (hm : m.magic = magicNumber)
    (hv : m.version = versionNumber) :
    decodeHead h m.headBytes = some { Message.new .base with
      command := m.command, error := m.error, bodyLen := m.bodyLen, dataLen := m.dataLen } := by
  obtain ⟨hd₁, hat⟩ := decodeInt_of_append h 2 (at_zero m.headBytes)
  obtain ⟨hd₂, hat⟩ := decodeInt_of_append h 2 hat
  obtain ⟨hd₃, hat⟩ := decodeInt_of_append h 2 hat
  obtain ⟨hd₄, hat⟩ := decodeInt_of_append h 2 hat
  obtain ⟨hd₅, hat⟩ := decodeInt_of_append h 4 hat
  rw [← List.append_nil (int 4 m.dataLen)] at hat
  obtain ⟨hd₆, hat⟩ := decodeInt_of_append h 4 hat
  have hend := hat.end_iff.mpr rfl
  rw [decodeHead, if_neg (by rw [length_headBytes]; simp)]
  simp only [hd₁, hd₂, hd₃, hd₄, hd₅, hd₆, hend, hm, hv, Option.bind_eq_bind, Option.bind_some,
    ne_eq, not_true, or_self, if_false]
  rfl

end Message

/-! ### The frame -/

namespace FcopyMessage

/-- The message as `encode` leaves it in the object. -/
def encoded (p : Payload) (m : Message) : Message :=
  { m with body := p.bytes, bodyLen := BitVec.ofNat 32 p.bytes.length }

theorem encoded_ready {p : Payload} {error : ℤ} {d : Bytes} {m : Message}
    (hm : Ready p error d m) : Ready p error d (encoded p m) :=
  ⟨hm.magic, hm.version, hm.command, hm.error, hm.dataLen, hm.dataView, hm.payload, hm.noData⟩

/-- The header `encode` computes has the length of the body, `data_len` having been subtracted from
    the total of the vectors; the message is left as `encoded`. -/
theorem encode_eq {p : Payload} {error : ℤ} {d : Bytes} {m : Message} (h : Host)
    (hm : Ready p error d m) (self : FcopyMessage) (hself : self.message = some m) :
    encode h self = (some ((encoded p m).headBytes :: (p.encodeBody h [] d).2),
      { self with head := (encoded p m).headBytes, message := some (encoded p m) }) := by
  have henc := encodeBody_eq h p d hm.noData
  have hsum : ((p.encodeBody h [] d).2.map List.length).sum = p.bytes.length + d.length := by
    rw [← List.length_flatten, henc.2, List.length_append]
  have hlen : (BitVec.ofNat 64 (p.bytes.length + d.length) -
      (BitVec.ofNat 32 d.length).setWidth 64).setWidth 32 = BitVec.ofNat 32 p.bytes.length := by
    apply BitVec.eq_of_toNat_eq
    simp only [BitVec.toNat_setWidth, BitVec.toNat_sub, BitVec.toNat_ofNat]
    omega
  simp only [encode, hself, hm.payload, hm.dataView, hm.dataLen, hsum, hlen, Message.encodeHead_eq,
    henc.1, encoded]

/-- What a receiver makes of the frame of a message. -/
theorem append_frame {p : Payload} {error : ℤ} {d : Bytes} {m : Message}
    (h : Host) {alloc : ℕ → Bool} (hal : ∀ n, alloc n = true) (hp : p ≠ .base) (hm : Ready p error d m) (limit : ℕ)
    (hbody : p.bytes.length < 2 ^ 32) (hdata : d.length < 2 ^ 32)
    (hfit : headerSize + p.bytes.length + d.length ≤ limit) :
    ∃ out m', append h alloc (fresh limit) ((encoded p m).headBytes ++ (p.bytes ++ d)) =
        (.accepted, out) ∧ out.message = some m' ∧ m'.command = p.thisCmd.code ∧ m'.payload = p ∧ m'.error = m.error ∧
      m'.dataView = d := by
  obtain ⟨p₀, hcreate, hdecode⟩ := p.decodeBody_bytes h hp (Payload.fits_of_length hbody)
  set m₁ := encoded p m with hm₁
  set s := m₁.headBytes ++ (p.bytes ++ d) with hs
  have hb : m₁.bodyLen.toNat = p.bytes.length := Nat.mod_eq_of_lt hbody
  have hd : m₁.dataLen.toNat = d.length := by
    simp only [hm₁, encoded, hm.dataLen]
    exact Nat.mod_eq_of_lt hdata
  have htake : s.take headerSize = m₁.headBytes := List.take_left' m₁.length_headBytes
  have hdrop : s.drop headerSize = p.bytes ++ d := List.drop_left' m₁.length_headBytes
  have hlen : s.length = headerSize + (p.bytes.length + d.length) := by
    rw [hs, List.length_append, m₁.length_headBytes, List.length_append]
  have hhead := m₁.decodeHead_headBytes h (encoded_ready hm).magic (encoded_ready hm).version
  have hopen : openHead h limit (s.take headerSize) = .ok { Message.new .base with
      command := m₁.command, error := m₁.error, bodyLen := m₁.bodyLen, dataLen := m₁.dataLen,
      payload := p₀ } := by
    rw [htake, openHead, hhead]
    simp only [hm₁, encoded, hm.command, hcreate]
    rw [if_neg]
    rw [BitVec.toNat_add]
    have := Nat.mod_le (m₁.bodyLen.toNat + m₁.dataLen.toNat) (2 ^ 32)
    simp only [hm₁, encoded] at this hb hd
    omega
  have hcall := append_stateAt h limit hal [] s
    (lt_of_lt_of_le (by decide) (headerSize_le_frameEnd h limit []))
  rw [stateAt_nil, List.nil_append, if_neg (by rw [frameEnd, hopen]; simp only; omega), finalAt,
    hopen, hdrop] at hcall
  simp only [Message.finish, Message.full, Message.fill, hb, hd, List.take_left, List.drop_left,
    hdecode, List.take_length] at hcall
  refine ⟨_, _, hcall, rfl, ?_, rfl, rfl, rfl⟩
  simp only [hm₁, encoded, hm.command]

/-- CORRECT (round trip): for each of the ten messages, all fields, every error code and, for
    `SendFileReq`, every data section, the vectors `encode` produces are accepted in one piece by a
    fresh receiver whose limit they fit, and `move_message` gives the fields, the error and the data
    back. Encoding the same object again yields the same vectors. -/
theorem append_encode (h₁ h₂ : Host) (alloc : ℕ → Bool) (hal : ∀ n, alloc n = true) (limit : ℕ)
    (p : Payload) (hp : p ≠ .base) (error : ℤ) (herr : -2 ^ 15 ≤ error ∧ error < 2 ^ 15) (d : Bytes)
    (m : Message) (hm : Built p error d m) (self : FcopyMessage)
    (hbody : (p.encodeBody h₁ [] d).1.length < 2 ^ 32) (hdata : d.length < 2 ^ 32)
    (hfit : headerSize + (p.encodeBody h₁ [] d).1.length + d.length ≤ limit) :
    ∃ vectors self',
      encode h₁ (self.setMessage m) = (some vectors, self') ∧
      encode h₁ self' = (some vectors, self') ∧
      ∃ out m', append h₂ alloc (fresh limit) vectors.flatten = (.accepted, out) ∧
        (out.moveMessage p.thisCmd).1 = some m' ∧
        m'.payload = p ∧ m'.getError = error ∧ m'.dataView = d := by
  have hready := hm.ready
  rw [(encodeBody_eq h₁ p d hready.noData).1] at hbody hfit
  have hflat : ((encoded p m).headBytes :: (p.encodeBody h₁ [] d).2).flatten =
      (encoded p m).headBytes ++ (p.bytes ++ d) := by
    rw [List.flatten_cons, (encodeBody_eq h₁ p d hready.noData).2]
  obtain ⟨out, m', happ, hout, hcmd, hpay, herr', hview⟩ :=
    append_frame h₂ hal hp hready limit hbody hdata hfit
  refine ⟨_, _, encode_eq h₁ hready (self.setMessage m) rfl,
    encode_eq h₁ (encoded_ready hready) _ rfl, out, m', ?_, ?_, hpay, ?_, hview⟩
  · rw [hflat, happ]
  · rw [moveMessage, hout]
    simp only [hcmd, if_true]
  · rw [Message.getError, herr', hready.error, BitVec.toInt_ofInt]
    exact Int.bmod_eq_of_le (by omega) (by omega)

/-- A chunk of three bytes, encoded on a little-endian machine, error code `-5`. -/
theorem append_encode_send :
    ∃ vectors self',
      encode .little ((fresh 0).setMessage (((Message.new (.sendFileReq
        ⟨7, 0, 3, 0, 8192, [97, 98]⟩)).setError (-5)).setDataView [1, 2, 3])) =
          (some vectors, self') ∧
      encode .little self' = (some vectors, self') ∧
      ∃ out m', append .big (fun _ => true) (fresh 64) vectors.flatten = (.accepted, out) ∧
        (out.moveMessage .sendFileReq).1 = some m' ∧
        m'.payload = .sendFileReq ⟨7, 0, 3, 0, 8192, [97, 98]⟩ ∧ m'.getError = -5 ∧
        m'.dataView = [1, 2, 3] :=
  append_encode .little .big (fun _ => true) (fun _ => rfl) 64
    (.sendFileReq ⟨7, 0, 3, 0, 8192, [97, 98]⟩) (by decide) (-5) (by decide) [1, 2, 3] _
    (.view [1, 2, 3] rfl) (fresh 0) (by decide) (by decide) (by decide)

end FcopyMessage

end Fcopy
