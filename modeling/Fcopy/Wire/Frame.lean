import Fcopy.Wire.Message
import Fcopy.Schemes.Resume

/-! Framing of a message (`MessageBase`, `FcopyMessage` in `common/message.h`, `common/message.cpp`).

    A frame is a 16-byte header, a body of `body_len` bytes and a data section of `data_len` bytes.
    `FcopyMessage.encode` produces it as a list of buffers; `FcopyMessage.append` is the resumable
    parser, called once for each fragment that arrives:

        head (16 bytes) ──▶ decode_head, create_message, size limit ──▶ body ──▶ data ──▶ decode_body
             │ short              │ refused: -1                          │ short  │ short    │ 1 or -1
             ▼ 0                  ▼                                      ▼ 0      ▼ 0        ▼

    Besides the fields of the source a message carries what it has reserved: `bodyCap` is the argument
    of the last `body.reserve`, `dataCap` the size of the buffer from `aligned_alloc`. -/

namespace Fcopy
open Endian

/-- A message object: the fields of `MessageBase` and those of its class. -/
structure Message where
  magic : BitVec 16
  version : BitVec 16
  command : BitVec 16
  error : BitVec 16
  bodyLen : BitVec 32 := 0
  dataLen : BitVec 32 := 0
  dataPos : BitVec 32 := 0
  body : Bytes := []
  bodyCap : ℕ := 0
  data : Option Bytes := none
  dataCap : ℕ := 0
  dataView : Bytes := []
  payload : Payload := .base
  deriving DecidableEq

/-- The constructor of the class of `p`, with the fields already assigned. -/
def Message.new (p : Payload) : Message where
  magic := magicNumber
  version := versionNumber
  command := p.thisCmd.code
  error := 0
  payload := p

namespace Message

/-- The `int` argument is narrowed to `int16_t`. -/
def setError (m : Message) (error : ℤ) : Message := { m with error := BitVec.ofInt 16 error }

def getError (m : Message) : ℤ := m.error.toInt

/-- `alloc n` says whether `aligned_alloc` grants `n` bytes. -/
def setData (alloc : ℕ → Bool) (m : Message) (d : Bytes) : Bool × Message :=
  let m := { m with
    dataPos := BitVec.ofNat 32 d.length
    dataLen := BitVec.ofNat 32 d.length
    data := none
    dataCap := 0 }
  if d.isEmpty then (true, { m with dataView := [] })
  else if alloc d.length then
    (true, { m with data := some d, dataCap := d.length, dataView := d })
  else (false, m)

def setDataView (m : Message) (d : Bytes) : Message :=
  { m with
    dataPos := BitVec.ofNat 32 d.length
    dataLen := BitVec.ofNat 32 d.length
    data := none
    dataCap := 0
    dataView := d }

/-! ### Header -/

def encodeHead (h : Host) (m : Message) (head : Bytes) : Bytes :=
  let head := appendInt h 2 head m.magic
  let head := appendInt h 2 head m.version
  let head := appendInt h 2 head m.command
  let head := appendInt h 2 head m.error
  let head := appendInt h 4 head m.bodyLen
  appendInt h 4 head m.dataLen

/-- `decode_head` on a default-constructed `MessageBase`; `none` is the source's `-1`. -/
def decodeHead (h : Host) (head : Bytes) : Option Message := do
  if head.length ≠ headerSize then none
  let (magic, pos) ← decodeInt h 2 head 0
  let (version, pos) ← decodeInt h 2 head pos
  let (command, pos) ← decodeInt h 2 head pos
  let (error, pos) ← decodeInt h 2 head pos
  let (bodyLen, pos) ← decodeInt h 4 head pos
  let (dataLen, pos) ← decodeInt h 4 head pos
  if pos ≠ head.length ∨ magic ≠ magicNumber ∨ version ≠ versionNumber then none
  else some { Message.new .base with magic, version, command, error, bodyLen, dataLen }

end Message

/-! ### Receiving -/

inductive Errno where | EBADMSG | EMSGSIZE
  deriving DecidableEq

/-- Result of a call of `append`: `0`, `1`, or `-1` with `errno`. -/
inductive Ret where
  | again
  | accepted
  | rejected (e : Errno)
  deriving DecidableEq

namespace Message

/-- The end of `append_body`: `decode_body` once everything has arrived. -/
def finish (h : Host) (m : Message) : Ret × Message :=
  match m.payload.decodeBody h m.body with
  | some p => (.accepted, { m with payload := p })
  | none => (.rejected .EBADMSG, m)

/-- `append_body` after the bytes of `buf` have gone to the data section. -/
def copyData (h : Host) (m : Message) (data : Bytes) (buf : Bytes) : Ret × Message :=
  let n := min buf.length (m.dataLen.toNat - m.dataPos.toNat)
  let m := { m with
    data := some (data ++ buf.take n)
    dataPos := m.dataPos + BitVec.ofNat 32 n }
  if m.dataPos < m.dataLen then (.again, m)
  else finish h { m with dataView := data ++ buf.take n }

/-- The data phase of `append_body`. `data` holds the part of the buffer that has been filled. -/
def appendData (h : Host) (alloc : ℕ → Bool) (m : Message) (buf : Bytes) : Ret × Message :=
  if m.dataPos < m.dataLen then
    match m.data with
    | some data => copyData h m data buf
    | none =>
      if alloc m.dataLen.toNat then copyData h { m with dataCap := m.dataLen.toNat } [] buf
      else (.rejected .EBADMSG, m)
  else finish h m

def appendBody (h : Host) (alloc : ℕ → Bool) (m : Message) (buf : Bytes) : Ret × Message :=
  if m.body.length < m.bodyLen.toNat then
    let m := if m.bodyCap < m.bodyLen.toNat then { m with bodyCap := m.bodyLen.toNat } else m
    let n := min buf.length (m.bodyLen.toNat - m.body.length)
    let m := { m with body := m.body ++ buf.take n }
    if m.body.length < m.bodyLen.toNat then (.again, m)
    else appendData h alloc m (buf.drop n)
  else appendData h alloc m buf

end Message

structure FcopyMessage where
  sizeLimit : ℕ
  head : Bytes := []
  message : Option Message := none
  deriving DecidableEq

namespace FcopyMessage

/-- A message object about to receive, as the framework makes it. -/
def fresh (sizeLimit : ℕ) : FcopyMessage := { sizeLimit }

/-- The tail of `append`: hand `buf` to the message. -/
def deliver (h : Host) (alloc : ℕ → Bool) (self : FcopyMessage) (m : Message) (buf : Bytes) :
    Ret × FcopyMessage :=
  let (ret, m) := m.appendBody h alloc buf
  (ret, { self with message := some m })

/-- `body_len + data_len` is an addition of `uint32_t`, widened to `size_t` only afterwards. -/
def append (h : Host) (alloc : ℕ → Bool) (self : FcopyMessage) (buf : Bytes) :
    Ret × FcopyMessage :=
  if self.head.length < headerSize then
    let n := min (headerSize - self.head.length) buf.length
    let self := { self with head := self.head ++ buf.take n }
    if self.head.length < headerSize then (.again, self)
    else
      match Message.decodeHead h self.head with
      | none => (.rejected .EBADMSG, self)
      | some m =>
        match createMessage m.command with
        | none => (.rejected .EBADMSG, self)
        | some p =>
          if (m.bodyLen + m.dataLen).toNat + headerSize > self.sizeLimit then
            (.rejected .EMSGSIZE, { self with message := some (Message.new p) })
          else deliver h alloc self { m with payload := p } (buf.drop n)
  else
    match self.message with
    -- a full header without a message is left only by a rejecting call, after which nothing is fed
    | none => (.rejected .EBADMSG, self)
    | some m => deliver h alloc self m buf

/-- Fragments fed in order until a call returns non-zero. -/
def feed (h : Host) (alloc : ℕ → Bool) (self : FcopyMessage) (frags : List Bytes) :
    Ret × FcopyMessage :=
  Resume.feed (append h alloc) .again self frags

/-! ### Sending -/

def setMessage (self : FcopyMessage) (m : Message) : FcopyMessage :=
  { self with message := some m }

/-- `move_message` to the class with `ThisCmd = cmd`. -/
def moveMessage (self : FcopyMessage) (cmd : Command) : Option Message × FcopyMessage :=
  match self.message with
  | none => (none, self)
  | some m => if m.command = cmd.code then (some m, { self with message := none }) else (none, self)

/-- `none` is the source's `-1`; otherwise the vectors handed to the transport. -/
def encode (h : Host) (self : FcopyMessage) : Option (List Bytes) × FcopyMessage :=
  match self.message with
  | none => (none, self)
  | some m =>
    let (body, vectors) := m.payload.encodeBody h [] m.dataView
    let blen := (vectors.map List.length).sum
    let bodyLen := (BitVec.ofNat 64 blen - m.dataLen.setWidth 64).setWidth 32
    let m := { m with body, bodyLen }
    let head := m.encodeHead h []
    (some (head :: vectors), { self with head, message := some m })

end FcopyMessage

end Fcopy
