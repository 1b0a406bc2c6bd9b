import Fcopy.Wire.Bodies
import Fcopy.Schemes.Traced

/-! What the body decoders accept.

    A body that a decoder accepts is the concatenation of the fields it has read, whose lengths then fit
    their prefixes (`bytes_of_decodeBody`); and the bodies of such fields are read back. So `decode_body`
    accepts exactly what `encode_body` makes of fields with lengths below `2 ^ 32`. A longer string is
    appended behind the low 32 bits of its length, and such a body is not read back
    (`narrowed_length_refused`).

    `readBody` is `decode_body` once more, with a record of the ranges of the body that are read. -/

namespace Fcopy
open Endian

/-! ### The decoders with their reads -/

section
variable (h : Host)

/-- Position and length of a range of the body. -/
abbrev Range := ℕ × ℕ

def readInt (w : ℕ) (s : Bytes) (pos : ℕ) : Traced Range (BitVec (8 * w) × ℕ) :=
  if pos + w > s.length then .fail
  else .read (pos, w) (byteSwap h (load w h ((s.drop pos).take w)), pos + w)

def readString (s : Bytes) (pos : ℕ) : Traced Range (Bytes × ℕ) := do
  let (n, pos) ← readInt h 4 s pos
  if pos + n.toNat > s.length then .fail
  else .read (pos, n.toNat) ((s.drop pos).take n.toNat, pos + n.toNat)

def CreateFileReq.readBody (body : Bytes) : Traced Range CreateFileReq := do
  let (chunkSize, pos) ← readInt h 4 body 0
  let (filePerm, pos) ← readInt h 4 body pos
  let (fileSize, pos) ← readInt h 8 body pos
  let (partition, pos) ← readString h body pos
  let (relativePath, pos) ← readString h body pos
  let (fileName, pos) ← readString h body pos
  if pos = body.length then pure ⟨chunkSize, filePerm, fileSize, partition, relativePath, fileName⟩
  else .fail

def CreateFileResp.readBody (body : Bytes) : Traced Range CreateFileResp := do
  let (fileToken, pos) ← readString h body 0
  if pos = body.length then pure ⟨fileToken⟩ else .fail

def SendFileReq.readBody (body : Bytes) : Traced Range SendFileReq := do
  let (maxChainLen, pos) ← readInt h 2 body 0
  let (compressType, pos) ← readInt h 2 body pos
  let (originSize, pos) ← readInt h 4 body pos
  let (crc32, pos) ← readInt h 4 body pos
  let (offset, pos) ← readInt h 8 body pos
  let (fileToken, pos) ← readString h body pos
  if pos = body.length then pure ⟨maxChainLen, compressType, originSize, crc32, offset, fileToken⟩
  else .fail

def CloseFileReq.readBody (body : Bytes) : Traced Range CloseFileReq := do
  let (waitClose, pos) ← readInt h 1 body 0
  let (fileToken, pos) ← readString h body pos
  if pos = body.length then pure ⟨waitClose, fileToken⟩ else .fail

def DeleteFileReq.readBody (body : Bytes) : Traced Range DeleteFileReq := do
  let (fileToken, pos) ← readString h body 0
  if pos = body.length then pure ⟨fileToken⟩ else .fail

def ChainTarget.read (body : Bytes) (pos : ℕ) : Traced Range (ChainTarget × ℕ) := do
  let (host, pos) ← readString h body pos
  let (port, pos) ← readInt h 2 body pos
  let (fileToken, pos) ← readString h body pos
  pure (⟨host, port, fileToken⟩, pos)

def readTargets (body : Bytes) :
    ℕ → ℕ → List ChainTarget → Traced Range (List ChainTarget × ℕ)
  | 0, pos, targets => pure (targets, pos)
  | size + 1, pos, targets => do
    let (t, pos) ← ChainTarget.read h body pos
    readTargets body size pos (targets ++ [t])

def SetChainReq.readBody (r : SetChainReq) (body : Bytes) : Traced Range SetChainReq := do
  let (fileToken, pos) ← readString h body 0
  let (size, pos) ← readInt h 4 body pos
  let (targets, pos) ← readTargets h body size.toNat pos r.targets
  if pos = body.length then pure ⟨fileToken, targets⟩ else .fail

def Payload.readBody (p : Payload) (body : Bytes) : Traced Range Payload :=
  match p with
  | .createFileReq _ => do pure (.createFileReq (← CreateFileReq.readBody h body))
  | .createFileResp _ => do pure (.createFileResp (← CreateFileResp.readBody h body))
  | .sendFileReq _ => do pure (.sendFileReq (← SendFileReq.readBody h body))
  | .closeFileReq _ => do pure (.closeFileReq (← CloseFileReq.readBody h body))
  | .deleteFileReq _ => do pure (.deleteFileReq (← DeleteFileReq.readBody h body))
  | .setChainReq r => do pure (.setChainReq (← r.readBody h body))
  | .base | .sendFileResp | .closeFileResp | .deleteFileResp | .setChainResp =>
    if body.isEmpty then pure p else .fail

end

variable {h : Host} {b : Bytes}

/-! ### Reads stay inside the body -/

/-- The record apart, these are the decoders. -/
@[simp] theorem result_readInt (w : ℕ) (s : Bytes) (pos : ℕ) :
    (readInt h w s pos).result = decodeInt h w s pos := by
  rw [readInt, decodeInt]
  split <;> rfl

@[simp] theorem result_readString (s : Bytes) (pos : ℕ) :
    (readString h s pos).result = decodeString h s pos := by
  rw [readString, decodeString, Traced.result_bind, result_readInt]
  refine congrArg _ (funext fun x => ?_)
  obtain ⟨n, pos⟩ := x
  simp only
  split <;> rfl

theorem result_if {α : Type} (c : Prop) [Decidable c] (a : α) :
    (if c then pure a else .fail : Traced Range α).result = if c then some a else none := by
  split <;> rfl

@[simp] theorem result_readTargets : ∀ (size pos : ℕ) (targets : List ChainTarget),
    (readTargets h b size pos targets).result =
      (decodeTargets h b size pos targets).2.map fun next =>
        ((decodeTargets h b size pos targets).1, next)
  | 0, _, _ => rfl
  | size + 1, pos, targets => by
    have hread : (ChainTarget.read h b pos).result = ChainTarget.decode h b pos := by
      simp [ChainTarget.read, ChainTarget.decode]
    rw [readTargets, decodeTargets, Traced.result_bind, hread]
    cases ChainTarget.decode h b pos with
    | none => rfl
    | some x => exact result_readTargets size x.2 (targets ++ [x.1])

/-- CORRECT (record): `readBody` is `decode_body`. -/
theorem Payload.result_readBody (p : Payload) : (p.readBody h b).result = p.decodeBody h b := by
  cases p with
  | createFileReq r =>
    simp [Payload.readBody, Payload.decodeBody, CreateFileReq.readBody, CreateFileReq.decodeBody,
      result_if, Option.map_eq_bind]
  | createFileResp r =>
    simp [Payload.readBody, Payload.decodeBody, CreateFileResp.readBody, CreateFileResp.decodeBody,
      result_if, Option.map_eq_bind]
  | sendFileReq r =>
    simp [Payload.readBody, Payload.decodeBody, SendFileReq.readBody, SendFileReq.decodeBody,
      result_if, Option.map_eq_bind]
  | closeFileReq r =>
    simp [Payload.readBody, Payload.decodeBody, CloseFileReq.readBody, CloseFileReq.decodeBody,
      result_if, Option.map_eq_bind]
  | deleteFileReq r =>
    simp [Payload.readBody, Payload.decodeBody, DeleteFileReq.readBody, DeleteFileReq.decodeBody,
      result_if, Option.map_eq_bind]
  | setChainReq r =>
    -- the end of the body is compared with a position that the loop may not have reached
    have hend : ∀ (x : List ChainTarget × Option ℕ) (token : Bytes),
        ((x.2.map fun pos => (x.1, pos)).bind fun y =>
          if y.2 = b.length then some (SetChainReq.mk token y.1) else none) =
        if x.2 = some b.length then some ⟨token, x.1⟩ else none := by
      rintro ⟨targets, _ | pos⟩ token <;> simp
    simp [Payload.readBody, Payload.decodeBody, SetChainReq.readBody, SetChainReq.decodeBody,
      result_if, Option.map_eq_bind, ← hend]
  | base | sendFileResp | closeFileResp | deleteFileResp | setChainResp => exact result_if ..

/-- The range lies inside the body. -/
def Inside (b : Bytes) (r : Range) : Prop := r.1 + r.2 ≤ b.length

theorem inside_readInt (w pos : ℕ) : (readInt h w b pos).Within (Inside b) := by
  rw [readInt]
  split
  · exact .fail
  · rename_i hle
    exact .read (show Inside b (pos, w) from Nat.le_of_not_gt hle) _

theorem inside_readString (pos : ℕ) : (readString h b pos).Within (Inside b) := by
  refine (inside_readInt 4 pos).bind fun ⟨n, pos⟩ => ?_
  simp only
  split
  · exact .fail
  · rename_i hle
    exact .read (show Inside b (pos, n.toNat) from Nat.le_of_not_gt hle) _

theorem inside_if {α : Type} (c : Prop) [Decidable c] (a : α) :
    (if c then pure a else .fail : Traced Range α).Within (Inside b) := by
  split
  · exact .pure a
  · exact .fail

theorem inside_readTargets : ∀ (size pos : ℕ) (targets : List ChainTarget),
    (readTargets h b size pos targets).Within (Inside b)
  | 0, _, _ => .pure _
  | size + 1, pos, targets =>
    ((inside_readString pos).bind fun _ => (inside_readInt 2 _).bind fun _ =>
      (inside_readString _).bind fun _ => .pure _).bind fun x =>
        inside_readTargets size x.2 (targets ++ [x.1])

/-- CORRECT (reads): no decoder reads outside the body. -/
theorem Payload.inside_readBody (p : Payload) : (p.readBody h b).Within (Inside b) := by
  cases p with
  | createFileReq r =>
    exact ((inside_readInt 4 0).bind fun _ => (inside_readInt 4 _).bind fun _ =>
      (inside_readInt 8 _).bind fun _ => (inside_readString _).bind fun _ =>
      (inside_readString _).bind fun _ => (inside_readString _).bind fun _ =>
      inside_if ..).bind fun _ => .pure _
  | createFileResp r =>
    exact ((inside_readString 0).bind fun _ => inside_if ..).bind fun _ => .pure _
  | sendFileReq r =>
    exact ((inside_readInt 2 0).bind fun _ => (inside_readInt 2 _).bind fun _ =>
      (inside_readInt 4 _).bind fun _ => (inside_readInt 4 _).bind fun _ =>
      (inside_readInt 8 _).bind fun _ => (inside_readString _).bind fun _ =>
      inside_if ..).bind fun _ => .pure _
  | closeFileReq r =>
    exact ((inside_readInt 1 0).bind fun _ => (inside_readString _).bind fun _ =>
      inside_if ..).bind fun _ => .pure _
  | deleteFileReq r =>
    exact ((inside_readString 0).bind fun _ => inside_if ..).bind fun _ => .pure _
  | setChainReq r =>
    exact ((inside_readString 0).bind fun _ => (inside_readInt 4 _).bind fun _ =>
      (inside_readTargets _ _ _).bind fun _ => inside_if ..).bind fun _ => .pure _
  | base | sendFileResp | closeFileResp | deleteFileResp | setChainResp => exact inside_if ..

/-! ### What is accepted is well formed -/

theorem CreateFileReq.bytes_of_decodeBody {r : CreateFileReq}
    (hd : CreateFileReq.decodeBody h b = some r) :
    (Payload.createFileReq r).Fits ∧ (Payload.createFileReq r).bytes = b := by
  rw [CreateFileReq.decodeBody] at hd
  obtain ⟨_, _, hb, hat, hd⟩ := bind_decodeInt (at_zero b) hd
  obtain ⟨_, _, rfl, hat, hd⟩ := bind_decodeInt hat hd
  obtain ⟨_, _, rfl, hat, hd⟩ := bind_decodeInt hat hd
  obtain ⟨_, _, hp, rfl, hat, hd⟩ := bind_decodeString hat hd
  obtain ⟨_, _, hr, rfl, hat, hd⟩ := bind_decodeString hat hd
  obtain ⟨_, _, hf, rfl, hat, hd⟩ := bind_decodeString hat hd
  obtain ⟨rfl, rfl⟩ := accepted_at_end hat hd
  exact ⟨⟨hp, hr, hf⟩, by rw [hb, Payload.bytes, List.append_nil]⟩

theorem CreateFileResp.bytes_of_decodeBody {r : CreateFileResp}
    (hd : CreateFileResp.decodeBody h b = some r) :
    (Payload.createFileResp r).Fits ∧ (Payload.createFileResp r).bytes = b := by
  rw [CreateFileResp.decodeBody] at hd
  obtain ⟨_, _, htoken, hb, hat, hd⟩ := bind_decodeString (at_zero b) hd
  obtain ⟨rfl, rfl⟩ := accepted_at_end hat hd
  exact ⟨htoken, by rw [hb, Payload.bytes, List.append_nil]⟩

theorem SendFileReq.bytes_of_decodeBody {r : SendFileReq}
    (hd : SendFileReq.decodeBody h b = some r) :
    (Payload.sendFileReq r).Fits ∧ (Payload.sendFileReq r).bytes = b := by
  rw [SendFileReq.decodeBody] at hd
  obtain ⟨_, _, hb, hat, hd⟩ := bind_decodeInt (at_zero b) hd
  obtain ⟨_, _, rfl, hat, hd⟩ := bind_decodeInt hat hd
  obtain ⟨_, _, rfl, hat, hd⟩ := bind_decodeInt hat hd
  obtain ⟨_, _, rfl, hat, hd⟩ := bind_decodeInt hat hd
  obtain ⟨_, _, rfl, hat, hd⟩ := bind_decodeInt hat hd
  obtain ⟨_, _, htoken, rfl, hat, hd⟩ := bind_decodeString hat hd
  obtain ⟨rfl, rfl⟩ := accepted_at_end hat hd
  exact ⟨htoken, by rw [hb, Payload.bytes, List.append_nil]⟩

theorem CloseFileReq.bytes_of_decodeBody {r : CloseFileReq}
    (hd : CloseFileReq.decodeBody h b = some r) :
    (Payload.closeFileReq r).Fits ∧ (Payload.closeFileReq r).bytes = b := by
  rw [CloseFileReq.decodeBody] at hd
  obtain ⟨_, _, hb, hat, hd⟩ := bind_decodeInt (at_zero b) hd
  obtain ⟨_, _, htoken, rfl, hat, hd⟩ := bind_decodeString hat hd
  obtain ⟨rfl, rfl⟩ := accepted_at_end hat hd
  exact ⟨htoken, by rw [hb, Payload.bytes, List.append_nil]⟩

theorem DeleteFileReq.bytes_of_decodeBody {r : DeleteFileReq}
    (hd : DeleteFileReq.decodeBody h b = some r) :
    (Payload.deleteFileReq r).Fits ∧ (Payload.deleteFileReq r).bytes = b := by
  rw [DeleteFileReq.decodeBody] at hd
  obtain ⟨_, _, htoken, hb, hat, hd⟩ := bind_decodeString (at_zero b) hd
  obtain ⟨rfl, rfl⟩ := accepted_at_end hat hd
  exact ⟨htoken, by rw [hb, Payload.bytes, List.append_nil]⟩

theorem ChainTarget.bytes_of_decode {t : ChainTarget} {rest : Bytes} {pos pos' : ℕ}
    (hat : At b pos rest) (hd : ChainTarget.decode h b pos = some (t, pos')) :
    t.Fits ∧ ∃ rest', rest = t.bytes ++ rest' ∧ At b pos' rest' := by
  rw [ChainTarget.decode] at hd
  obtain ⟨_, _, hhost, rfl, hat, hd⟩ := bind_decodeString hat hd
  obtain ⟨_, _, rfl, hat, hd⟩ := bind_decodeInt hat hd
  obtain ⟨_, rest', htoken, rfl, hat, hd⟩ := bind_decodeString hat hd
  cases hd
  exact ⟨⟨hhost, htoken⟩, rest', by simp only [ChainTarget.bytes, List.append_assoc], hat⟩

/-- The targets the loop has added are those whose bytes it has passed. -/
theorem bytes_of_decodeTargets : ∀ {size pos : ℕ} {acc targets : List ChainTarget} {rest : Bytes}
    {pos' : ℕ}, At b pos rest → decodeTargets h b size pos acc = (targets, some pos') →
    ∃ ts rest', targets = acc ++ ts ∧ ts.length = size ∧ (∀ t ∈ ts, t.Fits) ∧
      rest = (ts.map ChainTarget.bytes).flatten ++ rest' ∧ At b pos' rest'
  | 0, pos, acc, targets, rest, pos', hat, hd => by
    cases hd
    exact ⟨[], rest, (List.append_nil acc).symm, rfl, by simp, rfl, hat⟩
  | size + 1, pos, acc, targets, rest, pos', hat, hd => by
    rw [decodeTargets] at hd
    split at hd
    · cases hd
    rename_i t pos₁ ht
    obtain ⟨hfit, rest₁, rfl, hat₁⟩ := ChainTarget.bytes_of_decode hat ht
    obtain ⟨ts, rest', rfl, hlen, hfits, rfl, hat'⟩ := bytes_of_decodeTargets hat₁ hd
    refine ⟨t :: ts, rest', by simp, by rw [List.length_cons, hlen], ?_, by simp, hat'⟩
    rintro u (_ | ⟨_, hu⟩)
    · exact hfit
    · exact hfits u hu

theorem SetChainReq.bytes_of_decodeBody {r : SetChainReq}
    (hd : SetChainReq.decodeBody h {} b = some r) :
    (Payload.setChainReq r).Fits ∧ (Payload.setChainReq r).bytes = b := by
  rw [SetChainReq.decodeBody] at hd
  obtain ⟨_, _, htoken, hb, hat, hd⟩ := bind_decodeString (at_zero b) hd
  obtain ⟨size, _, rfl, hat, hd⟩ := bind_decodeInt hat hd
  simp only at hd
  cases hloop : decodeTargets h b size.toNat _ [] with
  | mk targets next =>
    rw [hloop] at hd
    split at hd
    · rename_i hend
      cases hd
      cases show next = some b.length from hend
      obtain ⟨ts, rest, hts, hlen, hfits, rfl, hat'⟩ := bytes_of_decodeTargets hat hloop
      cases hat'.end_iff.mp rfl
      rw [List.nil_append] at hts
      subst hts
      refine ⟨⟨htoken, hlen ▸ size.isLt, hfits⟩, ?_⟩
      rw [Payload.bytes, hlen, BitVec.ofNat_toNat, BitVec.setWidth_eq, hb, List.append_nil]
    · cases hd

/-- One comparison of a chain of them. -/
theorem of_if_some {α : Type} {c : Prop} [Decidable c] {a p : α} {x : Option α}
    (hx : (if c then some a else x) = some p) : c ∧ a = p ∨ x = some p := by
  split at hx
  · rename_i hc
    exact .inl ⟨hc, Option.some.inj hx⟩
  · exact .inr hx

/-- The object `create_message` makes is of the class the command selects, and has no targets yet. -/
theorem createMessage_eq {cmd : BitVec 16} {p : Payload} (hp : createMessage cmd = some p) :
    cmd = p.thisCmd.code ∧ p ≠ .base ∧ ∀ r, p = .setChainReq r → r = {} := by
  rw [createMessage] at hp
  repeat
    obtain ⟨hcmd, rfl⟩ | hp := of_if_some hp
    · exact ⟨hcmd, by simp, by simp⟩
  cases hp

/-- What a fresh object of a class accepts are fields of that class with lengths that fit, and they
    make up the body. -/
theorem Payload.bytes_of_decodeBody {cmd : BitVec 16} {p q : Payload}
    (hp : createMessage cmd = some p) (hd : p.decodeBody h b = some q) :
    q.thisCmd = p.thisCmd ∧ q.Fits ∧ q.bytes = b := by
  have hempty : ∀ {p : Payload}, (if b.isEmpty then some p else none) = some q → b = [] ∧ p = q := by
    intro p hd
    split at hd
    · cases hd
      exact ⟨List.isEmpty_iff.mp ‹_›, rfl⟩
    · cases hd
  obtain ⟨_, hbase, htargets⟩ := createMessage_eq hp
  cases p with
  | base => exact absurd rfl hbase
  | createFileReq r =>
    obtain ⟨r', hr, rfl⟩ := Option.map_eq_some_iff.mp hd
    exact ⟨rfl, CreateFileReq.bytes_of_decodeBody hr⟩
  | createFileResp r =>
    obtain ⟨r', hr, rfl⟩ := Option.map_eq_some_iff.mp hd
    exact ⟨rfl, CreateFileResp.bytes_of_decodeBody hr⟩
  | sendFileReq r =>
    obtain ⟨r', hr, rfl⟩ := Option.map_eq_some_iff.mp hd
    exact ⟨rfl, SendFileReq.bytes_of_decodeBody hr⟩
  | closeFileReq r =>
    obtain ⟨r', hr, rfl⟩ := Option.map_eq_some_iff.mp hd
    exact ⟨rfl, CloseFileReq.bytes_of_decodeBody hr⟩
  | deleteFileReq r =>
    obtain ⟨r', hr, rfl⟩ := Option.map_eq_some_iff.mp hd
    exact ⟨rfl, DeleteFileReq.bytes_of_decodeBody hr⟩
  | setChainReq r =>
    obtain ⟨r', hr, rfl⟩ := Option.map_eq_some_iff.mp hd
    cases htargets r rfl
    exact ⟨rfl, SetChainReq.bytes_of_decodeBody hr⟩
  | sendFileResp | closeFileResp | deleteFileResp | setChainResp =>
    obtain ⟨rfl, rfl⟩ := hempty hd
    exact ⟨rfl, trivial, rfl⟩

theorem Payload.encodeBody_fst (h : Host) (p : Payload) (view : Bytes) :
    (p.encodeBody h [] view).1 = p.bytes := by
  rw [← (encodeBody_eq h p [] fun _ => rfl).1]
  cases p <;> rfl

theorem Command.code_inj : ∀ {c d : Command}, c.code = d.code → c = d := by
  intro c d h
  cases c <;> cases d <;> first | rfl | exact absurd h (by decide)

/-- CORRECT (grammar): a fresh object of the class that a command selects accepts exactly the bodies
    that `encode_body` of the class makes of fields whose lengths fit their prefixes. The fields it has
    then encode to that body again, and it has read nothing outside the body. -/
theorem Payload.decodeBody_iff (h₁ h₂ : Host) (cmd : BitVec 16) (p : Payload)
    (hp : createMessage cmd = some p) (b : Bytes) :
    ((p.decodeBody h₂ b).isSome ↔
      ∃ q : Payload, q.thisCmd = p.thisCmd ∧ q.Fits ∧ (q.encodeBody h₁ [] []).1 = b) ∧
    (∀ q, p.decodeBody h₂ b = some q →
      q.thisCmd = p.thisCmd ∧ ∀ view, (q.encodeBody h₁ [] view).1 = b) ∧
    (p.readBody h₂ b).result = p.decodeBody h₂ b ∧
    ∀ r ∈ (p.readBody h₂ b).reads, r.1 + r.2 ≤ b.length := by
  refine ⟨⟨fun hd => ?_, ?_⟩, fun q hd => ?_, p.result_readBody, p.inside_readBody.all⟩
  · obtain ⟨q, hd⟩ := Option.isSome_iff_exists.mp hd
    obtain ⟨hcmd, hfits, hb⟩ := Payload.bytes_of_decodeBody hp hd
    exact ⟨q, hcmd, hfits, by rw [q.encodeBody_fst, hb]⟩
  · rintro ⟨q, hcmd, hfits, rfl⟩
    obtain ⟨hcode, hbase, _⟩ := createMessage_eq hp
    have hq : q ≠ .base := by
      rintro rfl
      cases p <;> first | exact hbase rfl | cases hcmd
    obtain ⟨p₀, hp₀, hd⟩ := q.decodeBody_bytes h₂ hq hfits
    rw [hcmd, ← hcode, hp] at hp₀
    cases hp₀
    rw [q.encodeBody_fst, hd]
    rfl
  · obtain ⟨hcmd, _, hb⟩ := Payload.bytes_of_decodeBody hp hd
    exact ⟨hcmd, fun view => by rw [q.encodeBody_fst, hb]⟩

/-- A body that is too short by one byte. -/
theorem Payload.decodeBody_iff_short :
    (((Payload.deleteFileReq {}).decodeBody .little [0, 0, 0, 2, 97]).isSome ↔
      ∃ q : Payload, q.thisCmd = .deleteFileReq ∧ q.Fits ∧
        (q.encodeBody .big [] []).1 = [0, 0, 0, 2, 97]) ∧
    (Payload.deleteFileReq {}).decodeBody .little [0, 0, 0, 2, 97] = none :=
  ⟨(Payload.decodeBody_iff .big .little 4 (.deleteFileReq {}) rfl [0, 0, 0, 2, 97]).1, by decide⟩

/-- A token of `2 ^ 32` bytes is announced as empty, and the body it makes is not read back. -/
theorem narrowed_length_refused :
    let q : Payload := .deleteFileReq ⟨List.replicate (2 ^ 32) 0⟩
    ¬ (((Payload.deleteFileReq {}).decodeBody .little (q.encodeBody .little [] []).1).isSome ↔
      ∃ q' : Payload, q'.thisCmd = .deleteFileReq ∧
        (q'.encodeBody .little [] []).1 = (q.encodeBody .little [] []).1) := by
  intro q hiff
  obtain ⟨q', hd⟩ := Option.isSome_iff_exists.mp (hiff.mpr ⟨q, rfl, rfl⟩)
  rw [q.encodeBody_fst] at hd
  -- a token read back would have the same bytes and a length that fits
  have hfresh : createMessage 4 = some (.deleteFileReq {}) := rfl
  obtain ⟨hcmd, hfits, hb⟩ := Payload.bytes_of_decodeBody hfresh hd
  have hlen := congrArg List.length hb
  cases q' with
  | deleteFileReq r =>
    simp only [q, Payload.bytes, length_str, List.length_replicate] at hlen
    simp only [Payload.Fits] at hfits
    omega
  | _ => cases hcmd

end Fcopy
