import Fcopy.Wire.Ints

/-! Message types and their bodies (`common/message.h`, `common/message.cpp`).

    Each of the ten messages is a structure with the fields of its class; `Payload` is the class an
    object was created with. `encodeBody` is the byte string its `encode_body` leaves in `body`,
    `decodeBody` reads the fields back and fails on a body that is too short or has bytes left over.
    The four responses without fields share the base class's `decode_body`, which wants an empty body. -/

namespace Fcopy
open Endian

/-! ### Constants -/

inductive Command where
  | unknown
  | createFileReq | sendFileReq | closeFileReq | deleteFileReq | setChainReq
  | createFileResp | sendFileResp | closeFileResp | deleteFileResp | setChainResp
  deriving DecidableEq

def Command.code : Command → BitVec 16
  | .unknown => 0x0000
  | .createFileReq => 0x0001
  | .sendFileReq => 0x0002
  | .closeFileReq => 0x0003
  | .deleteFileReq => 0x0004
  | .setChainReq => 0x0011
  | .createFileResp => 0x1001
  | .sendFileResp => 0x1002
  | .closeFileResp => 0x1003
  | .deleteFileResp => 0x1004
  | .setChainResp => 0x1011

def magicNumber : BitVec 16 := 0xF1FA

def versionNumber : BitVec 16 := 1

/-- `HEADER_SIZE`. -/
abbrev headerSize : ℕ := 16

/-! ### Fields -/

structure ChainTarget where
  host : Bytes
  port : BitVec 16
  fileToken : Bytes
  deriving DecidableEq

structure CreateFileReq where
  chunkSize : BitVec 32 := 0
  filePerm : BitVec 32 := 0
  fileSize : BitVec 64 := 0
  partition : Bytes := []
  relativePath : Bytes := []
  fileName : Bytes := []
  deriving DecidableEq

structure CreateFileResp where
  fileToken : Bytes := []
  deriving DecidableEq

structure SendFileReq where
  maxChainLen : BitVec 16 := 0
  compressType : BitVec 16 := 0
  originSize : BitVec 32 := 0
  crc32 : BitVec 32 := 0
  offset : BitVec 64 := 0
  fileToken : Bytes := []
  deriving DecidableEq

structure CloseFileReq where
  waitClose : BitVec 8 := 0
  fileToken : Bytes := []
  deriving DecidableEq

structure DeleteFileReq where
  fileToken : Bytes := []
  deriving DecidableEq

structure SetChainReq where
  fileToken : Bytes := []
  targets : List ChainTarget := []
  deriving DecidableEq

/-- The class of a message object with its own fields; `base` is a plain `MessageBase`. -/
inductive Payload where
  | base
  | createFileReq (r : CreateFileReq) | createFileResp (r : CreateFileResp)
  | sendFileReq (r : SendFileReq) | sendFileResp
  | closeFileReq (r : CloseFileReq) | closeFileResp
  | deleteFileReq (r : DeleteFileReq) | deleteFileResp
  | setChainReq (r : SetChainReq) | setChainResp
  deriving DecidableEq

/-- `ThisCmd` of the class. -/
def Payload.thisCmd : Payload → Command
  | .base => .unknown
  | .createFileReq _ => .createFileReq
  | .createFileResp _ => .createFileResp
  | .sendFileReq _ => .sendFileReq
  | .sendFileResp => .sendFileResp
  | .closeFileReq _ => .closeFileReq
  | .closeFileResp => .closeFileResp
  | .deleteFileReq _ => .deleteFileReq
  | .deleteFileResp => .deleteFileResp
  | .setChainReq _ => .setChainReq
  | .setChainResp => .setChainResp

/-- `create_message`: a fresh object of the class a command selects. -/
def createMessage (cmd : BitVec 16) : Option Payload :=
  if cmd = Command.createFileReq.code then some (.createFileReq {})
  else if cmd = Command.sendFileReq.code then some (.sendFileReq {})
  else if cmd = Command.closeFileReq.code then some (.closeFileReq {})
  else if cmd = Command.deleteFileReq.code then some (.deleteFileReq {})
  else if cmd = Command.setChainReq.code then some (.setChainReq {})
  else if cmd = Command.createFileResp.code then some (.createFileResp {})
  else if cmd = Command.sendFileResp.code then some .sendFileResp
  else if cmd = Command.closeFileResp.code then some .closeFileResp
  else if cmd = Command.deleteFileResp.code then some .deleteFileResp
  else if cmd = Command.setChainResp.code then some .setChainResp
  else none

/-! ### Encoders -/

section
variable (h : Host)

def CreateFileReq.encodeBody (r : CreateFileReq) (body : Bytes) : Bytes :=
  let body := appendInt h 4 body r.chunkSize
  let body := appendInt h 4 body r.filePerm
  let body := appendInt h 8 body r.fileSize
  let body := appendString h body r.partition
  let body := appendString h body r.relativePath
  appendString h body r.fileName

def CreateFileResp.encodeBody (r : CreateFileResp) (body : Bytes) : Bytes :=
  appendString h body r.fileToken

def SendFileReq.encodeBody (r : SendFileReq) (body : Bytes) : Bytes :=
  let body := appendInt h 2 body r.maxChainLen
  let body := appendInt h 2 body r.compressType
  let body := appendInt h 4 body r.originSize
  let body := appendInt h 4 body r.crc32
  let body := appendInt h 8 body r.offset
  appendString h body r.fileToken

def CloseFileReq.encodeBody (r : CloseFileReq) (body : Bytes) : Bytes :=
  let body := appendInt h 1 body r.waitClose
  appendString h body r.fileToken

def DeleteFileReq.encodeBody (r : DeleteFileReq) (body : Bytes) : Bytes :=
  appendString h body r.fileToken

/-- One round of the loop over `targets`. -/
def ChainTarget.encode (body : Bytes) (t : ChainTarget) : Bytes :=
  let body := appendString h body t.host
  let body := appendInt h 2 body t.port
  appendString h body t.fileToken

def SetChainReq.encodeBody (r : SetChainReq) (body : Bytes) : Bytes :=
  let body := appendString h body r.fileToken
  let body := appendInt h 4 body (BitVec.ofNat 32 r.targets.length)
  r.targets.foldl (ChainTarget.encode h) body

/-- `encode_body`: the new `body`, and the vectors handed to the caller. The base class hands out
    none; `SendFileReq` adds its data section unless that is empty. -/
def Payload.encodeBody (p : Payload) (body dataView : Bytes) : Bytes × List Bytes :=
  match p with
  | .createFileReq r => let b := r.encodeBody h body; (b, [b])
  | .createFileResp r => let b := r.encodeBody h body; (b, [b])
  | .sendFileReq r =>
    let b := r.encodeBody h body
    (b, if dataView.isEmpty then [b] else [b, dataView])
  | .closeFileReq r => let b := r.encodeBody h body; (b, [b])
  | .deleteFileReq r => let b := r.encodeBody h body; (b, [b])
  | .setChainReq r => let b := r.encodeBody h body; (b, [b])
  | .base | .sendFileResp | .closeFileResp | .deleteFileResp | .setChainResp => (body, [])

/-! ### Decoders -/

def CreateFileReq.decodeBody (body : Bytes) : Option CreateFileReq := do
  let (chunkSize, pos) ← decodeInt h 4 body 0
  let (filePerm, pos) ← decodeInt h 4 body pos
  let (fileSize, pos) ← decodeInt h 8 body pos
  let (partition, pos) ← decodeString h body pos
  let (relativePath, pos) ← decodeString h body pos
  let (fileName, pos) ← decodeString h body pos
  if pos = body.length then some ⟨chunkSize, filePerm, fileSize, partition, relativePath, fileName⟩
  else none

def CreateFileResp.decodeBody (body : Bytes) : Option CreateFileResp := do
  let (fileToken, pos) ← decodeString h body 0
  if pos = body.length then some ⟨fileToken⟩ else none

def SendFileReq.decodeBody (body : Bytes) : Option SendFileReq := do
  let (maxChainLen, pos) ← decodeInt h 2 body 0
  let (compressType, pos) ← decodeInt h 2 body pos
  let (originSize, pos) ← decodeInt h 4 body pos
  let (crc32, pos) ← decodeInt h 4 body pos
  let (offset, pos) ← decodeInt h 8 body pos
  let (fileToken, pos) ← decodeString h body pos
  if pos = body.length then some ⟨maxChainLen, compressType, originSize, crc32, offset, fileToken⟩
  else none

def CloseFileReq.decodeBody (body : Bytes) : Option CloseFileReq := do
  let (waitClose, pos) ← decodeInt h 1 body 0
  let (fileToken, pos) ← decodeString h body pos
  if pos = body.length then some ⟨waitClose, fileToken⟩ else none

def DeleteFileReq.decodeBody (body : Bytes) : Option DeleteFileReq := do
  let (fileToken, pos) ← decodeString h body 0
  if pos = body.length then some ⟨fileToken⟩ else none

def ChainTarget.decode (body : Bytes) (pos : ℕ) : Option (ChainTarget × ℕ) := do
  let (host, pos) ← decodeString h body pos
  let (port, pos) ← decodeInt h 2 body pos
  let (fileToken, pos) ← decodeString h body pos
  some (⟨host, port, fileToken⟩, pos)

/-- The loop of `SetChainReq::decode_body`: `size` rounds, pushing onto `targets`. The targets pushed
    before a failure stay in the object, so they are returned with the failure. -/
def decodeTargets (body : Bytes) : ℕ → ℕ → List ChainTarget → List ChainTarget × Option ℕ
  | 0, pos, targets => (targets, some pos)
  | size + 1, pos, targets =>
    match ChainTarget.decode h body pos with
    | none => (targets, none)
    | some (t, pos) => decodeTargets body size pos (targets ++ [t])

def SetChainReq.decodeBody (r : SetChainReq) (body : Bytes) : Option SetChainReq := do
  let (fileToken, pos) ← decodeString h body 0
  let (size, pos) ← decodeInt h 4 body pos
  let (targets, pos) := decodeTargets h body size.toNat pos r.targets
  if pos = some body.length then some ⟨fileToken, targets⟩ else none

/-- `decode_body` of an object; `none` is the source's `-1`. -/
def Payload.decodeBody (p : Payload) (body : Bytes) : Option Payload :=
  match p with
  | .createFileReq _ => (CreateFileReq.decodeBody h body).map .createFileReq
  | .createFileResp _ => (CreateFileResp.decodeBody h body).map .createFileResp
  | .sendFileReq _ => (SendFileReq.decodeBody h body).map .sendFileReq
  | .closeFileReq _ => (CloseFileReq.decodeBody h body).map .closeFileReq
  | .deleteFileReq _ => (DeleteFileReq.decodeBody h body).map .deleteFileReq
  | .setChainReq r => (r.decodeBody h body).map .setChainReq
  | .base | .sendFileResp | .closeFileResp | .deleteFileResp | .setChainResp =>
    if body.isEmpty then some p else none

end

end Fcopy
