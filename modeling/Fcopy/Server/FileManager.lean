import Fcopy.Wire.Message
import Fcopy.Server.Os

/-! The session table (`FileManager` in `server/file_manager.cpp`).

    `fmap` takes a token to the session with that token. `create_file` and `close_file` are cut where
    another thread can act in between: before `open`, before `ftruncate`, before the lock is taken.

        create_file:  checks ──▶ createOpen ──▶ createTruncate ──▶ createInsert
        close_file:              closeErase ──▶ closeTruncate  ──▶ closeFd

    A session remembers which open file description its descriptor stood for when `open` returned it;
    the server itself has only the number. -/

namespace Fcopy
open Function

/-! ### Error codes -/

def ENOENT : ℕ := 2

def EEXIST : ℕ := 17

def ENOTDIR : ℕ := 20

def ECANCELED : ℕ := 125

/-- Return value and `file_token` of a handler. -/
structure Reply where
  error : ℤ
  fileToken : Bytes := []
  deriving DecidableEq

def decimal (n : ℕ) : Bytes := (Nat.toDigits 10 n).map fun c => UInt8.ofNat c.toNat

/-- `return_error` of `create_file`, whose token is a text for the log. -/
def returnError (error : ℕ) (type : String) : Reply :=
  ⟨-error, text "Error: " ++ text type ++ text " errno:" ++ decimal error⟩

/-! ### Sessions -/

structure FileInfo where
  fd : ℕ
  totalSize : BitVec 64
  fileName : Bytes
  filePath : Bytes
  fileToken : Bytes
  targets : List ChainTarget := []
  desc : Desc
  deriving DecidableEq

/-- The session table and the operating system below it. -/
structure Store where
  fmap : Bytes → Option FileInfo
  os : Os

/-- The local variables of a `create_file` that goes on. -/
structure CreateCall where
  name : Bytes
  path : Bytes
  token : Bytes
  size : BitVec 64
  deriving DecidableEq

/-- A `uint32_t` passed as a `size_t`. -/
theorem toNat_size (n : BitVec 32) : (n.setWidth 64).toNat = n.toNat := by
  have := n.isLt
  rw [BitVec.toNat_setWidth]
  omega

/-- `PAGE_SIZE`. -/
def pageSize : ℕ := 8 * 1024

namespace Store
variable (st : Store)

/-- The start of `create_file`, up to `create_directories`. -/
def createFile (conf : Conf) (name : Bytes) (size : BitVec 64) (chunkSize : BitVec 64) :
    Except Reply CreateCall :=
  let path := getFullPath conf name
  let token := getToken conf path
  if chunkSize.toNat = 0 ∨ chunkSize.toNat % pageSize ≠ 0 then
    .error (returnError EINVAL "chunk_size")
  else .ok { name, path, token, size }

def createInfo (c : CreateCall) (fd : ℕ) (desc : Desc) : FileInfo where
  fd := fd
  totalSize := c.size
  fileName := c.name
  filePath := c.path
  fileToken := c.token
  desc := desc

/-- The rest of `create_file`, under the lock. -/
def createInsert (c : CreateCall) (fd : ℕ) (desc : Desc) : Store × Reply :=
  match st.fmap c.token with
  | some _ => ({ st with os := st.os.close fd }, returnError EEXIST "duplicate_token")
  | none => ({ st with fmap := update st.fmap c.token (some (createInfo c fd desc)) }, ⟨0, c.token⟩)

/-- The start of `close_file`, under the lock. -/
def closeErase (token : Bytes) : Option (Store × FileInfo) :=
  (st.fmap token).map fun info => ({ st with fmap := update st.fmap token none }, info)

def setChainTargets (token : Bytes) (targets : List ChainTarget) : Store × ℤ :=
  match st.fmap token with
  | none => (st, -1)
  | some info => ({ st with fmap := update st.fmap token (some { info with targets }) }, 0)

def hasFile (token : Bytes) : Bool := (st.fmap token).isSome

/-- `get_fd`; `none` is the source's `-1`. -/
def getFd (token : Bytes) : Option FileInfo := st.fmap token

end Store

end Fcopy
