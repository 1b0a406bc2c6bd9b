import Fcopy.Schemes.FixedWidth
import Fcopy.Wire.Grammar
import Fcopy.Wire.RoundTrip

/-! The wire format and the byte order of the host (`common/message.cpp`).

    `append_int` and `decode_int` are templates over the integer types; `byte_swap` has an overload for
    types with a sign, which goes through the type without. Here they are on values:

        n : int16_t          -2           little endian      big endian
        as uint16_t       65534           byte_swap           (nothing)
        memory                            FF FE               FF FE
                                          └ swapped: FEFF, lowest byte first

    On bit patterns they are `appendInt` and `decodeInt`, so the bytes are the same on every host: the
    value's big-endian representation. What is read back does not depend on the host either, and so a
    header and a body have the same fields on both ends (`wire_host_independent`). -/

namespace Fcopy
open Endian FixedWidth

section
variable (h : Host)

/-- `byte_swap` of an unsigned type, a loop on the number itself. -/
def byteSwapUnsigned {t : IntType} (n : Value t) : Value t := ofBits t (byteSwap h n.bits)

/-- `byte_swap`, both overloads. -/
def byteSwapValue {t : IntType} (n : Value t) : Value t :=
  if t.signed then cast t (byteSwapUnsigned h (cast t.makeUnsigned n.val)).val
  else byteSwapUnsigned h n

/-- `append_int<T>`. -/
def appendValue {t : IntType} (s : Bytes) (n : Value t) : Bytes :=
  s ++ store h (byteSwapValue h n).bits

/-- `decode_int<T>`. -/
def decodeValue (t : IntType) (s : Bytes) (pos : ℕ) : Option (Value t × ℕ) :=
  if pos + t.bytes > s.length then none
  else some (byteSwapValue h (ofBits t (load t.bytes h ((s.drop pos).take t.bytes))), pos + t.bytes)

end

/-- Big-endian representation of a value, a negative one in two's complement. -/
def bigEndian {t : IntType} (n : Value t) : Bytes :=
  be t.bytes (n.val % (2 ^ (8 * t.bytes) : ℕ)).toNat

/-! ### Values and their bit patterns -/

section
variable {t : IntType} (h : Host)

/-- The conversions around the swap of a type with sign leave the bits alone. -/
theorem bits_byteSwapValue (n : Value t) : (byteSwapValue h n).bits = byteSwap h n.bits := by
  rw [byteSwapValue]
  split
  · have hto : (cast t.makeUnsigned n.val).bits = n.bits := bits_cast ..
    have hfrom : (byteSwapUnsigned h (cast t.makeUnsigned n.val)).bits = byteSwap h n.bits := by
      rw [byteSwapUnsigned, bits_ofBits, hto]
      rfl
    rw [bits_cast]
    exact hfrom
  · rw [byteSwapUnsigned, bits_ofBits]

theorem appendValue_eq (s : Bytes) (n : Value t) :
    appendValue h s n = appendInt h t.bytes s n.bits := by
  rw [appendValue, bits_byteSwapValue, appendInt]

theorem decodeValue_eq (t : IntType) (s : Bytes) (pos : ℕ) :
    decodeValue h t s pos = (decodeInt h t.bytes s pos).map fun x => (ofBits t x.1, x.2) := by
  rw [decodeValue, decodeInt]
  split
  · rfl
  · rw [← ofBits_bits (byteSwapValue _ _), bits_byteSwapValue, bits_ofBits]
    rfl

theorem appendValue_ofBits (s : Bytes) (x : BitVec (8 * t.bytes)) :
    appendValue h s (ofBits t x) = appendInt h t.bytes s x := by
  rw [appendValue_eq, bits_ofBits]

theorem bigEndian_eq (n : Value t) : bigEndian n = int t.bytes n.bits := by
  rw [bigEndian, int, Value.bits, BitVec.toNat_ofInt]

end

/-! ### The fields of the header -/

def uint16 : IntType := ⟨2, false, by decide⟩

def int16 : IntType := ⟨2, true, by decide⟩

def uint32 : IntType := ⟨4, false, by decide⟩

/-- The header is appended with the types of `MessageBase`; only the error has a sign. -/
theorem encodeHead_values (h : Host) (m : Message) (head : Bytes) :
    m.encodeHead h head =
      let head := appendValue h head (ofBits uint16 m.magic)
      let head := appendValue h head (ofBits uint16 m.version)
      let head := appendValue h head (ofBits uint16 m.command)
      let head := appendValue h head (ofBits int16 m.error)
      let head := appendValue h head (ofBits uint32 m.bodyLen)
      appendValue h head (ofBits uint32 m.dataLen) := by
  have hu16 (s : Bytes) (x : BitVec 16) : appendValue h s (ofBits uint16 x) = appendInt h 2 s x :=
    appendValue_ofBits ..
  have hi16 (s : Bytes) (x : BitVec 16) : appendValue h s (ofBits int16 x) = appendInt h 2 s x :=
    appendValue_ofBits ..
  have hu32 (s : Bytes) (x : BitVec 32) : appendValue h s (ofBits uint32 x) = appendInt h 4 s x :=
    appendValue_ofBits ..
  simp only [Message.encodeHead, hu16, hi16, hu32]

/-! ### One value -/

/-- On every host the bytes of a value are its big-endian representation. -/
theorem appendValue_bigEndian {t : IntType} (h : Host) (s : Bytes) (n : Value t) :
    appendValue h s n = s ++ bigEndian n := by
  rw [appendValue_eq, appendInt_eq, bigEndian_eq]

/-- On every host they are read back, wherever they stand. -/
theorem decodeValue_bigEndian {t : IntType} (h : Host) (s rest : Bytes) (n : Value t) :
    decodeValue h t (s ++ (bigEndian n ++ rest)) s.length = some (n, s.length + t.bytes) := by
  have hat : At (s ++ (int t.bytes n.bits ++ rest)) s.length (int t.bytes n.bits ++ rest) :=
    ⟨by rw [List.length_append]; omega, List.drop_left⟩
  rw [decodeValue_eq, bigEndian_eq, (decodeInt_of_append h t.bytes hat).1, Option.map_some, ofBits_bits]

/-! ### Readers and writers on two hosts -/

section
variable (h₁ h₂ : Host)

theorem appendInt_host (w : ℕ) (s : Bytes) (n : BitVec (8 * w)) :
    appendInt h₁ w s n = appendInt h₂ w s n := by
  rw [appendInt_eq, appendInt_eq]

theorem appendString_host (s o : Bytes) : appendString h₁ s o = appendString h₂ s o := by
  rw [appendString_eq, appendString_eq]

/-- What `decode_int` reads is the big-endian value of the bytes, whatever the host. -/
theorem decodeInt_host (w : ℕ) (s : Bytes) (pos : ℕ) :
    decodeInt h₁ w s pos = decodeInt h₂ w s pos := by
  rw [decodeInt, decodeInt]
  split
  · rfl
  · rename_i hle
    have hlen : ((s.drop pos).take w).length = w := by
      rw [List.length_take, List.length_drop]
      omega
    have hswap : ∀ h, byteSwap h (load w h ((s.drop pos).take w)) =
        BitVec.ofNat _ (ofBe ((s.drop pos).take w)) := by
      intro h
      have hl := byteSwap_load h ((s.drop pos).take w)
      rwa [hlen] at hl
    rw [hswap, hswap]

theorem decodeString_host (s : Bytes) (pos : ℕ) : decodeString h₁ s pos = decodeString h₂ s pos := by
  rw [decodeString, decodeString, decodeInt_host h₁ h₂]

theorem decodeHead_host (head : Bytes) : Message.decodeHead h₁ head = Message.decodeHead h₂ head := by
  simp only [Message.decodeHead, decodeInt_host h₁ h₂]

theorem encodeHead_host (m : Message) (head : Bytes) : m.encodeHead h₁ head = m.encodeHead h₂ head := by
  simp only [Message.encodeHead, appendInt_host h₁ h₂]

theorem ChainTarget.decode_host (body : Bytes) (pos : ℕ) :
    ChainTarget.decode h₁ body pos = ChainTarget.decode h₂ body pos := by
  simp only [ChainTarget.decode, decodeInt_host h₁ h₂, decodeString_host h₁ h₂]

theorem decodeTargets_host (body : Bytes) : ∀ (size pos : ℕ) (targets : List ChainTarget),
    decodeTargets h₁ body size pos targets = decodeTargets h₂ body size pos targets
  | 0, _, _ => rfl
  | size + 1, pos, targets => by
    rw [decodeTargets, decodeTargets, ChainTarget.decode_host h₁ h₂]
    split
    · rfl
    · exact decodeTargets_host body size _ _

theorem Payload.decodeBody_host (p : Payload) (body : Bytes) :
    p.decodeBody h₁ body = p.decodeBody h₂ body := by
  cases p <;>
    simp only [Payload.decodeBody, CreateFileReq.decodeBody, CreateFileResp.decodeBody,
      SendFileReq.decodeBody, CloseFileReq.decodeBody, DeleteFileReq.decodeBody,
      SetChainReq.decodeBody, decodeInt_host h₁ h₂, decodeString_host h₁ h₂,
      decodeTargets_host h₁ h₂]

theorem ChainTarget.encode_host : ChainTarget.encode h₁ = ChainTarget.encode h₂ := by
  funext body t
  simp only [ChainTarget.encode, appendInt_host h₁ h₂, appendString_host h₁ h₂]

theorem Payload.encodeBody_host (p : Payload) (body view : Bytes) :
    p.encodeBody h₁ body view = p.encodeBody h₂ body view := by
  cases p <;>
    simp only [Payload.encodeBody, CreateFileReq.encodeBody, CreateFileResp.encodeBody,
      SendFileReq.encodeBody, CloseFileReq.encodeBody, DeleteFileReq.encodeBody,
      SetChainReq.encodeBody, ChainTarget.encode_host h₁ h₂, appendInt_host h₁ h₂,
      appendString_host h₁ h₂]

end

/-- CORRECT (byte order): every host appends a value of any integer type as its big-endian
    representation and reads it back at any position; headers and bodies are written and read alike on
    any two hosts, and the fields written on the one are those read on the other. -/
theorem wire_host_independent :
    (∀ (t : IntType) (n : Value t) (s rest : Bytes) (h : Host),
      appendValue h s n = s ++ bigEndian n ∧
        decodeValue h t (s ++ (bigEndian n ++ rest)) s.length = some (n, s.length + t.bytes)) ∧
    (∀ (h₁ h₂ : Host) (m : Message) (head : Bytes),
      m.encodeHead h₁ head = m.encodeHead h₂ head ∧
        Message.decodeHead h₁ head = Message.decodeHead h₂ head) ∧
    (∀ (h₁ h₂ : Host) (m : Message), m.magic = magicNumber → m.version = versionNumber →
      Message.decodeHead h₂ (m.encodeHead h₁ []) = some { Message.new .base with
        command := m.command, error := m.error, bodyLen := m.bodyLen, dataLen := m.dataLen }) ∧
    (∀ (h₁ h₂ : Host) (p : Payload) (body view : Bytes),
      p.encodeBody h₁ body view = p.encodeBody h₂ body view ∧
        p.decodeBody h₁ body = p.decodeBody h₂ body) ∧
    ∀ (h₁ h₂ : Host) (p : Payload) (view : Bytes), p ≠ .base → p.Fits →
      ∃ p₀, createMessage p.thisCmd.code = some p₀ ∧
        p₀.decodeBody h₂ (p.encodeBody h₁ [] view).1 = some p := by
  refine ⟨fun t n s rest h => ⟨appendValue_bigEndian h s n, decodeValue_bigEndian h s rest n⟩,
    fun h₁ h₂ m head => ⟨encodeHead_host h₁ h₂ m head, decodeHead_host h₁ h₂ head⟩,
    fun h₁ h₂ m hmagic hversion => ?_,
    fun h₁ h₂ p body view => ⟨p.encodeBody_host h₁ h₂ body view, p.decodeBody_host h₁ h₂ body⟩,
    fun h₁ h₂ p view hp hfits => ?_⟩
  · rw [Message.encodeHead_eq, Message.decodeHead_headBytes h₂ m hmagic hversion]
  · rw [Payload.encodeBody_fst]
    exact p.decodeBody_bytes h₂ hp hfits

/-- A `CloseFileReq` with an error below zero, from a little-endian host to a big-endian one. -/
theorem wire_host_independent_close :
    (Message.decodeHead .big
        (((Message.new (.closeFileReq ⟨1, [97]⟩)).setError (-2)).encodeHead .little [])).map
      Message.getError = some (-2) ∧
    ∃ p₀, createMessage Command.closeFileReq.code = some p₀ ∧
      p₀.decodeBody .big (Payload.encodeBody .little (.closeFileReq ⟨1, [97]⟩) [] []).1 =
        some (.closeFileReq ⟨1, [97]⟩) := by
  refine ⟨?_, wire_host_independent.2.2.2.2 .little .big (.closeFileReq ⟨1, [97]⟩) [] (by decide)
    (by decide : 1 < 2 ^ 32)⟩
  rw [wire_host_independent.2.2.1 .little .big
    ((Message.new (.closeFileReq ⟨1, [97]⟩)).setError (-2)) rfl rfl]
  decide

end Fcopy
