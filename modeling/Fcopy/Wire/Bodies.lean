import Fcopy.Wire.Message

/-! The body format.

    `Payload.bytes` is the body of a message as a concatenation of its fields, independent of any
    host. Encoders produce it (`encodeBody_eq`), and on a fresh object of the class the command
    selects the decoder reads exactly the fields back (`decodeBody_bytes`). -/

namespace Fcopy
open Endian

def ChainTarget.bytes (t : ChainTarget) : Bytes := str t.host ++ (int 2 t.port ++ str t.fileToken)

/-- The body of a message, field by field. -/
def Payload.bytes : Payload → Bytes
  | .createFileReq r =>
    int 4 r.chunkSize ++ (int 4 r.filePerm ++ (int 8 r.fileSize ++
      (str r.partition ++ (str r.relativePath ++ str r.fileName))))
  | .createFileResp r => str r.fileToken
  | .sendFileReq r =>
    int 2 r.maxChainLen ++ (int 2 r.compressType ++ (int 4 r.originSize ++
      (int 4 r.crc32 ++ (int 8 r.offset ++ str r.fileToken))))
  | .closeFileReq r => int 1 r.waitClose ++ str r.fileToken
  | .deleteFileReq r => str r.fileToken
  | .setChainReq r =>
    str r.fileToken ++ (int 4 (BitVec.ofNat 32 r.targets.length) ++
      (r.targets.map ChainTarget.bytes).flatten)
  | .base | .sendFileResp | .closeFileResp | .deleteFileResp | .setChainResp => []

/-- The 32-bit length prefixes can hold the lengths. -/
def ChainTarget.Fits (t : ChainTarget) : Prop :=
  t.host.length < 2 ^ 32 ∧ t.fileToken.length < 2 ^ 32

def Payload.Fits : Payload → Prop
  | .createFileReq r =>
    r.partition.length < 2 ^ 32 ∧ r.relativePath.length < 2 ^ 32 ∧ r.fileName.length < 2 ^ 32
  | .createFileResp r => r.fileToken.length < 2 ^ 32
  | .sendFileReq r => r.fileToken.length < 2 ^ 32
  | .closeFileReq r => r.fileToken.length < 2 ^ 32
  | .deleteFileReq r => r.fileToken.length < 2 ^ 32
  | .setChainReq r =>
    r.fileToken.length < 2 ^ 32 ∧ r.targets.length < 2 ^ 32 ∧ ∀ t ∈ r.targets, t.Fits
  | .base | .sendFileResp | .closeFileResp | .deleteFileResp | .setChainResp => True

/-- The data section goes out only with a `SendFileReq`. -/
def Payload.hasData : Payload → Bool
  | .sendFileReq _ => true
  | _ => false

/-! ### Encoders -/

theorem foldl_encode (h : Host) (ts : List ChainTarget) (body : Bytes) :
    ts.foldl (ChainTarget.encode h) body = body ++ (ts.map ChainTarget.bytes).flatten := by
  induction ts generalizing body with
  | nil => simp
  | cons t ts ih =>
    rw [List.foldl_cons, ih, List.map_cons, List.flatten_cons, ChainTarget.encode, ChainTarget.bytes]
    simp only [appendInt_eq, appendString_eq, List.append_assoc]

/-- The vectors of `encode_body`: none for a class without fields, and the data section behind the
    body when there is one. -/
theorem encodeBody_eq (h : Host) (p : Payload) (view : Bytes)
    (hview : p.hasData = false → view = []) :
    (p.encodeBody h [] view).1 = p.bytes ∧ (p.encodeBody h [] view).2.flatten = p.bytes ++ view := by
  cases p with
  | setChainReq r =>
    simp [Payload.encodeBody, Payload.bytes, SetChainReq.encodeBody, foldl_encode, appendInt_eq,
      appendString_eq, hview rfl]
  | sendFileReq r =>
    cases view <;>
      simp [Payload.encodeBody, Payload.bytes, SendFileReq.encodeBody, appendInt_eq, appendString_eq]
  | _ =>
    simp [Payload.encodeBody, Payload.bytes, CreateFileReq.encodeBody, CreateFileResp.encodeBody,
      CloseFileReq.encodeBody, DeleteFileReq.encodeBody, appendInt_eq, appendString_eq, hview rfl]

/-! ### What fits -/

/-- Two length prefixes and a port. -/
theorem ChainTarget.ten_le_bytes (t : ChainTarget) : 10 ≤ t.bytes.length := by
  simp only [ChainTarget.bytes, List.length_append, length_str, length_int]
  omega

/-- Every target takes at least ten bytes, so a body below `2 ^ 32` bytes holds fewer than `2 ^ 32`
    targets, each shorter than `2 ^ 32`. -/
theorem length_targets (ts : List ChainTarget) :
    ts.length ≤ (ts.map ChainTarget.bytes).flatten.length ∧
      ∀ t ∈ ts, t.bytes.length ≤ (ts.map ChainTarget.bytes).flatten.length := by
  induction ts with
  | nil => simp
  | cons t ts ih =>
    have ht := t.ten_le_bytes
    simp only [List.map_cons, List.flatten_cons, List.length_append, List.length_cons]
    refine ⟨by omega, fun u hu => ?_⟩
    rcases List.mem_cons.mp hu with rfl | hu
    · omega
    · have := ih.2 u hu
      omega

/-- A body that `body_len` can announce has lengths that fit. -/
theorem Payload.fits_of_length {p : Payload} (hlen : p.bytes.length < 2 ^ 32) : p.Fits := by
  cases p with
  | setChainReq r =>
    simp only [Payload.bytes, List.length_append, length_str, length_int] at hlen
    obtain ⟨hcount, hmem⟩ := length_targets r.targets
    refine ⟨by omega, by omega, fun t ht => ?_⟩
    have hbytes := hmem t ht
    simp only [ChainTarget.bytes, List.length_append, length_str, length_int] at hbytes
    exact ⟨by omega, by omega⟩
  | createFileReq r =>
    simp only [Payload.bytes, List.length_append, length_str, length_int] at hlen
    exact ⟨by omega, by omega, by omega⟩
  | base | sendFileResp | closeFileResp | deleteFileResp | setChainResp => trivial
  | _ =>
    simp only [Payload.bytes, List.length_append, length_str, length_int] at hlen
    simp only [Payload.Fits]
    omega

/-! ### Decoders -/

theorem CreateFileReq.decodeBody_bytes (h : Host) (r : CreateFileReq)
    (hfits : (Payload.createFileReq r).Fits) :
    CreateFileReq.decodeBody h (Payload.createFileReq r).bytes = some r := by
  obtain ⟨hp, hr, hf⟩ := hfits
  obtain ⟨hd₁, hat⟩ := decodeInt_of_append h 4 (at_zero (Payload.createFileReq r).bytes)
  obtain ⟨hd₂, hat⟩ := decodeInt_of_append h 4 hat
  obtain ⟨hd₃, hat⟩ := decodeInt_of_append h 8 hat
  obtain ⟨hd₄, hat⟩ := decodeString_of_append h hp hat
  obtain ⟨hd₅, hat⟩ := decodeString_of_append h hr hat
  have hd₆ := decodeString_last h hf hat
  simp only [CreateFileReq.decodeBody, hd₁, hd₂, hd₃, hd₄, hd₅, hd₆, Option.bind_eq_bind,
    Option.bind_some, if_true]

theorem SendFileReq.decodeBody_bytes (h : Host) (r : SendFileReq)
    (hfits : (Payload.sendFileReq r).Fits) :
    SendFileReq.decodeBody h (Payload.sendFileReq r).bytes = some r := by
  obtain ⟨hd₁, hat⟩ := decodeInt_of_append h 2 (at_zero (Payload.sendFileReq r).bytes)
  obtain ⟨hd₂, hat⟩ := decodeInt_of_append h 2 hat
  obtain ⟨hd₃, hat⟩ := decodeInt_of_append h 4 hat
  obtain ⟨hd₄, hat⟩ := decodeInt_of_append h 4 hat
  obtain ⟨hd₅, hat⟩ := decodeInt_of_append h 8 hat
  have hd₆ := decodeString_last h hfits hat
  simp only [SendFileReq.decodeBody, hd₁, hd₂, hd₃, hd₄, hd₅, hd₆, Option.bind_eq_bind,
    Option.bind_some, if_true]

/-- A body that is a single string, as for `CreateFileResp` and `DeleteFileReq`. -/
theorem decodeString_str (h : Host) (o : Bytes) (ho : o.length < 2 ^ 32) :
    decodeString h (str o) 0 = some (o, (str o).length) :=
  decodeString_last h ho (at_zero _)

theorem CloseFileReq.decodeBody_bytes (h : Host) (r : CloseFileReq)
    (hfits : (Payload.closeFileReq r).Fits) :
    CloseFileReq.decodeBody h (Payload.closeFileReq r).bytes = some r := by
  obtain ⟨hd₁, hat⟩ := decodeInt_of_append h 1 (at_zero (Payload.closeFileReq r).bytes)
  have hd₂ := decodeString_last h hfits hat
  simp only [CloseFileReq.decodeBody, hd₁, hd₂, Option.bind_eq_bind, Option.bind_some, if_true]

theorem ChainTarget.decode_of_append {s rest : Bytes} {pos : ℕ} (h : Host) (t : ChainTarget)
    (hfits : t.Fits) (hat : At s pos (t.bytes ++ rest)) :
    ∃ pos', ChainTarget.decode h s pos = some (t, pos') ∧ At s pos' rest := by
  simp only [ChainTarget.bytes, List.append_assoc] at hat
  obtain ⟨hd₁, hat⟩ := decodeString_of_append h hfits.1 hat
  obtain ⟨hd₂, hat⟩ := decodeInt_of_append h 2 hat
  obtain ⟨hd₃, hat⟩ := decodeString_of_append h hfits.2 hat
  refine ⟨_, ?_, hat⟩
  simp only [ChainTarget.decode, hd₁, hd₂, hd₃, Option.bind_eq_bind, Option.bind_some]

/-- The loop reads a list of targets back, behind those already there. -/
theorem decodeTargets_of_append {s r : Bytes} (h : Host) : ∀ (ts : List ChainTarget) {pos : ℕ}
    (acc : List ChainTarget), (∀ t ∈ ts, t.Fits) →
    At s pos ((ts.map ChainTarget.bytes).flatten ++ r) →
    ∃ pos', decodeTargets h s ts.length pos acc = (acc ++ ts, some pos') ∧ At s pos' r
  | [], pos, acc, _, hat => ⟨pos, by simp [decodeTargets], by simpa using hat⟩
  | t :: ts, pos, acc, hfits, hat => by
    rw [List.map_cons, List.flatten_cons, List.append_assoc] at hat
    obtain ⟨pos₁, hd, hat₁⟩ := t.decode_of_append h (hfits t List.mem_cons_self) hat
    obtain ⟨pos₂, hds, hat₂⟩ := decodeTargets_of_append h ts (acc ++ [t])
      (fun u hu => hfits u (List.mem_cons_of_mem _ hu)) hat₁
    refine ⟨pos₂, ?_, hat₂⟩
    rw [List.length_cons, decodeTargets, hd]
    simpa using hds

theorem SetChainReq.decodeBody_bytes (h : Host) (r : SetChainReq)
    (hfits : (Payload.setChainReq r).Fits) :
    SetChainReq.decodeBody h {} (Payload.setChainReq r).bytes = some r := by
  obtain ⟨htoken, hcount, htargets⟩ := hfits
  have hn : (BitVec.ofNat 32 r.targets.length).toNat = r.targets.length :=
    Nat.mod_eq_of_lt hcount
  obtain ⟨hd₁, hat⟩ := decodeString_of_append h htoken (at_zero (Payload.setChainReq r).bytes)
  obtain ⟨hd₂, hat⟩ := decodeInt_of_append h 4 hat
  obtain ⟨pos, hd₃, hat⟩ := decodeTargets_of_append (r := []) h r.targets [] htargets
    (by simpa using hat)
  have hend := hat.end_iff.mpr rfl
  simp only [SetChainReq.decodeBody, hd₁, hd₂, Option.bind_eq_bind, Option.bind_some]
  rw [hn, hd₃]
  simp [hend]

/-- CORRECT (bodies): the class selected by the command of `p` reads the body of `p` back. -/
theorem Payload.decodeBody_bytes (h : Host) (p : Payload) (hp : p ≠ .base) (hfits : p.Fits) :
    ∃ p₀, createMessage p.thisCmd.code = some p₀ ∧ p₀.decodeBody h p.bytes = some p := by
  cases p with
  | base => exact absurd rfl hp
  | createFileReq r => exact ⟨_, rfl, by rw [Payload.decodeBody, r.decodeBody_bytes h hfits]; rfl⟩
  | createFileResp r =>
    refine ⟨_, rfl, ?_⟩
    simp [Payload.decodeBody, CreateFileResp.decodeBody, Payload.bytes, decodeString_str h _ hfits]
  | sendFileReq r => exact ⟨_, rfl, by rw [Payload.decodeBody, r.decodeBody_bytes h hfits]; rfl⟩
  | closeFileReq r => exact ⟨_, rfl, by rw [Payload.decodeBody, r.decodeBody_bytes h hfits]; rfl⟩
  | deleteFileReq r =>
    refine ⟨_, rfl, ?_⟩
    simp [Payload.decodeBody, DeleteFileReq.decodeBody, Payload.bytes, decodeString_str h _ hfits]
  | setChainReq r => exact ⟨_, rfl, by rw [Payload.decodeBody, r.decodeBody_bytes h hfits]; rfl⟩
  | sendFileResp | closeFileResp | deleteFileResp | setChainResp => exact ⟨_, rfl, rfl⟩

end Fcopy
