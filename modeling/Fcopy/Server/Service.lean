import Fcopy.Server.FileManager
import Fcopy.Schemes.Run

/-! The request handlers (`server/service.cpp`) and the machine they make up.

    A handler runs from one point where others can act to the next. `accept` is its first piece, from
    the arrival of the request; `advance` is a later one, given what the call it waited for answered.
    A server is a store with any number of handlers, and a step of it is a piece of one of them, so its
    runs are all the interleavings of all handlers. -/

namespace Fcopy
open Function

/-! ### `handle_send_file` -/

/-- `FCOPY_CHUNK_BASE`. -/
def chunkBase : ℕ := 8192

/-- The size `write_file` passes to `pwrite`. -/
def writeSize (size : ℕ) : ℕ :=
  if size % chunkBase ≠ 0 then (size + chunkBase) / chunkBase * chunkBase else size

/-- The bytes `write_file` passes to `pwrite`: an unaligned last chunk is padded with zeros. -/
def writeData (data : Bytes) : Bytes := data ++ List.replicate (writeSize data.length - data.length) 0

/-- One request of `send_chain`. The data section is that of `origin`. -/
def chainRequest (origin : SendFileReq) (target : ChainTarget) : SendFileReq where
  maxChainLen := origin.maxChainLen - 1
  compressType := origin.compressType
  originSize := origin.originSize
  crc32 := origin.crc32
  offset := origin.offset
  fileToken := target.fileToken

/-- The first chain error, else the write error. -/
def firstError (chainErrors : List ℤ) (writeError : ℤ) : ℤ :=
  (chainErrors.find? (· ≠ 0)).getD writeError

/-- `handle_send_file` while `send_chain` and `write_file` are under way: the results so far. -/
structure Sending where
  req : SendFileReq
  data : Bytes
  fd : ℕ
  desc : Desc
  targets : List ChainTarget
  writeError : Option ℤ := none
  chainErrors : List (Option ℤ) := targets.map fun _ => none
  deriving DecidableEq

/-- `handle_send_file` up to the first suspension. -/
def sendStart (info : Option FileInfo) (req : SendFileReq) (data : Bytes) : Except ℤ Sending :=
  match info with
  | none => .error (-ENOENT)
  | some info =>
    if req.maxChainLen.toNat ≤ 1 ∧ info.targets ≠ [] then .error (-ECANCELED)
    else .ok { req, data, fd := info.fd, desc := info.desc, targets := info.targets }

/-- The error replied once both have ended. -/
def Sending.error (x : Sending) : Option ℤ :=
  match x.writeError, x.chainErrors.mapM id with
  | some w, some errors => some (firstError errors w)
  | _, _ => none

/-! ### Handlers -/

/-- Where a handler waits. A close that does not wait has replied before it closes. -/
inductive Handler where
  | idle
  | createOpen (c : CreateCall)
  | createTruncate (c : CreateCall) (fd : ℕ) (desc : Desc)
  | createInsert (c : CreateCall) (fd : ℕ) (desc : Desc)
  | closeErase (token : Bytes) (reply : Option Reply)
  | closeTruncate (info : FileInfo) (reply : Option Reply)
  | closeFd (info : FileInfo) (reply : Option Reply)
  | sending (x : Sending)
  | finished (reply : Reply)
  deriving DecidableEq

inductive Request where
  | create (req : CreateFileReq)
  | close (req : CloseFileReq)
  | send (req : SendFileReq) (data : Bytes)
  | setChain (req : SetChainReq)
  deriving DecidableEq

/-- What a handler that waited is told. `errno` of `opened` is what `errno` holds, which matters only
    for descriptor 0. -/
inductive Answer where
  | done
  | noDirectory
  | opened (fd : ℕ) (errno : ℕ)
  | failed (errno : ℕ)
  | wrote (n : ℕ)
  | answered (j : ℕ) (error : ℤ)
  deriving DecidableEq

def handleCreateFile (conf : Conf) (req : CreateFileReq) : Handler :=
  let dir := getPartitionDir conf req.partition
  if dir = [] then .finished ⟨errNoPartition, []⟩
  else
    match getAbsPath conf dir req.relativePath req.fileName with
    | .error e => .finished ⟨e, []⟩
    | .ok absPath =>
      match Store.createFile conf absPath req.fileSize (req.chunkSize.setWidth 64) with
      | .error r => .finished r
      | .ok c => .createOpen c

def handleCloseFile (st : Store) (req : CloseFileReq) : Handler :=
  if req.waitClose ≠ 0 then .closeErase req.fileToken none
  else .closeErase req.fileToken
    (some ⟨if st.hasFile req.fileToken then 0 else errNoFile, []⟩)

def handleSendFile (st : Store) (req : SendFileReq) (data : Bytes) : Handler :=
  match sendStart (st.getFd req.fileToken) req data with
  | .error e => .finished ⟨e, []⟩
  | .ok x => .sending x

def accept (conf : Conf) (st : Store) : Request → Store × Handler
  | .create req => (st, handleCreateFile conf req)
  | .close req => (st, handleCloseFile st req)
  | .send req data => (st, handleSendFile st req data)
  | .setChain req =>
    let (st, error) := st.setChainTargets req.fileToken req.targets
    (st, .finished ⟨error, []⟩)

/-- One piece of a handler. -/
def advance (st : Store) : Handler → Answer → Option (Store × Handler)
  | .createOpen _, .noDirectory =>
    some (st, .finished (returnError ENOTDIR "create_directory"))
  | .createOpen _, .failed e => some (st, .finished (returnError e "create_file"))
  | .createOpen c, .opened fd errno =>
    (st.os.openFile c.path fd).map fun (os, desc) =>
      -- `create_fd` takes descriptor 0 for a failure and does not close it
      if 0 < fd then ({ st with os }, .createTruncate c fd desc)
      else ({ st with os }, .finished (returnError errno "create_file"))
  | .createTruncate c fd desc, .done =>
    (st.os.ftruncate fd 0).map fun os => ({ st with os }, .createInsert c fd desc)
  | .createTruncate _ fd _, .failed e =>
    some ({ st with os := st.os.close fd }, .finished (returnError e "create_file"))
  | .createInsert c fd desc, .done =>
    let (st, reply) := st.createInsert c fd desc
    some (st, .finished reply)
  | .closeErase token reply, .done =>
    match st.closeErase token with
    | none => some (st, .finished (reply.getD ⟨-ENOENT, []⟩))
    | some (st, info) => some (st, .closeTruncate info reply)
  | .closeTruncate info reply, .done =>
    (st.os.ftruncate info.fd info.totalSize).map fun os => ({ st with os }, .closeFd info reply)
  | .closeTruncate info reply, .failed _ => some (st, .closeFd info reply)
  | .closeFd info reply, .done =>
    some ({ st with os := st.os.close info.fd }, .finished (reply.getD ⟨0, []⟩))
  | .sending x, .wrote n =>
    if x.writeError = none ∧ n ≤ writeSize x.data.length then
      (st.os.pwrite x.fd ((writeData x.data).take n) x.req.offset).map fun os =>
        ({ st with os }, .sending { x with writeError := some 0 })
    else none
  | .sending x, .failed e =>
    if x.writeError = none then some (st, .sending { x with writeError := some e }) else none
  | .sending x, .answered j e =>
    if x.chainErrors[j]? = some none then
      some (st, .sending { x with chainErrors := x.chainErrors.set j (some e) })
    else none
  | .sending x, .done => x.error.map fun e => (st, .finished ⟨e, []⟩)
  | _, _ => none

/-! ### The machine -/

structure Server where
  store : Store
  handlers : ℕ → Handler

inductive Label where
  | arrive (i : ℕ) (req : Request)
  | resume (i : ℕ) (a : Answer)
  deriving DecidableEq

def step (conf : Conf) (s : Server) : Label → Option Server
  | .arrive i req =>
    if s.handlers i = .idle then
      let (store, h) := accept conf s.store req
      some { store, handlers := update s.handlers i h }
    else none
  | .resume i a =>
    (advance s.store (s.handlers i) a).map fun (store, h) =>
      { store, handlers := update s.handlers i h }

/-- The server just started: no sessions, nothing running, any files, some descriptors in use. -/
structure Initial (s : Server) : Prop where
  fmap : s.store.fmap = fun _ => none
  handlers : s.handlers = fun _ => .idle

/-- Runs of the server. -/
abbrev Runs (conf : Conf) : Server → List Label → Server → Prop := Run.Steps (Run.ofStep (step conf))

/-- A configuration to run on concrete inputs: uploads go below `/p`, and the hash of a path is its
    length, which tells apart the paths used. -/
def sampleConf : Conf where
  defaultPartition := text "/p"
  partitions := fun _ => none
  cwd := text "/"
  hash := fun p => BitVec.ofNat 64 p.length

/-- A server just started on an empty disk. -/
def sampleServer : Server := ⟨⟨fun _ => none, ⟨fun _ => none, fun _ => none, 0⟩⟩, fun _ => .idle⟩

theorem sampleServer_initial : Initial sampleServer := ⟨rfl, rfl⟩

/-- Handler 0 creates the file `a` there on descriptor 3. -/
def sampleCreate : List Label :=
  [.arrive 0 (.create { chunkSize := 8192, fileName := text "a" }),
    .resume 0 (.opened 3 0), .resume 0 .done, .resume 0 .done]

/-! ### What a piece of a handler does -/

/-- The pieces, one by one. -/
inductive Effect (st : Store) : Handler → Answer → Store → Handler → Prop
  | noDirectory (c : CreateCall) : Effect st (.createOpen c) .noDirectory st
      (.finished (returnError ENOTDIR "create_directory"))
  | openFailed (c : CreateCall) (e : ℕ) : Effect st (.createOpen c) (.failed e) st
      (.finished (returnError e "create_file"))
  | opened (c : CreateCall) (fd errno : ℕ) (os : Os) (desc : Desc) (hfd : 0 < fd)
      (h : st.os.openFile c.path fd = some (os, desc)) :
      Effect st (.createOpen c) (.opened fd errno) { st with os } (.createTruncate c fd desc)
  | leaked (c : CreateCall) (errno : ℕ) (os : Os) (desc : Desc)
      (h : st.os.openFile c.path 0 = some (os, desc)) :
      Effect st (.createOpen c) (.opened 0 errno) { st with os }
        (.finished (returnError errno "create_file"))
  | truncated (c : CreateCall) (fd : ℕ) (desc : Desc) (os : Os)
      (h : st.os.ftruncate fd 0 = some os) :
      Effect st (.createTruncate c fd desc) .done { st with os } (.createInsert c fd desc)
  | truncateFailed (c : CreateCall) (fd : ℕ) (desc : Desc) (e : ℕ) :
      Effect st (.createTruncate c fd desc) (.failed e) { st with os := st.os.close fd }
        (.finished (returnError e "create_file"))
  | duplicate (c : CreateCall) (fd : ℕ) (desc : Desc) (info : FileInfo)
      (h : st.fmap c.token = some info) :
      Effect st (.createInsert c fd desc) .done { st with os := st.os.close fd }
        (.finished (returnError EEXIST "duplicate_token"))
  | inserted (c : CreateCall) (fd : ℕ) (desc : Desc) (h : st.fmap c.token = none) :
      Effect st (.createInsert c fd desc) .done
        { st with fmap := update st.fmap c.token (some (Store.createInfo c fd desc)) }
        (.finished ⟨0, c.token⟩)
  | notFound (token : Bytes) (reply : Option Reply) (h : st.fmap token = none) :
      Effect st (.closeErase token reply) .done st (.finished (reply.getD ⟨-ENOENT, []⟩))
  | erased (token : Bytes) (reply : Option Reply) (info : FileInfo)
      (h : st.fmap token = some info) :
      Effect st (.closeErase token reply) .done { st with fmap := update st.fmap token none }
        (.closeTruncate info reply)
  | resized (info : FileInfo) (reply : Option Reply) (os : Os)
      (h : st.os.ftruncate info.fd info.totalSize = some os) :
      Effect st (.closeTruncate info reply) .done { st with os } (.closeFd info reply)
  | resizeFailed (info : FileInfo) (reply : Option Reply) (e : ℕ) :
      Effect st (.closeTruncate info reply) (.failed e) st (.closeFd info reply)
  | closed (info : FileInfo) (reply : Option Reply) :
      Effect st (.closeFd info reply) .done { st with os := st.os.close info.fd }
        (.finished (reply.getD ⟨0, []⟩))
  | wrote (x : Sending) (n : ℕ) (os : Os) (hx : x.writeError = none)
      (hn : n ≤ writeSize x.data.length)
      (h : st.os.pwrite x.fd ((writeData x.data).take n) x.req.offset = some os) :
      Effect st (.sending x) (.wrote n) { st with os } (.sending { x with writeError := some 0 })
  | writeFailed (x : Sending) (e : ℕ) (hx : x.writeError = none) :
      Effect st (.sending x) (.failed e) st (.sending { x with writeError := some e })
  | answered (x : Sending) (j : ℕ) (e : ℤ) (hx : x.chainErrors[j]? = some none) :
      Effect st (.sending x) (.answered j e) st
        (.sending { x with chainErrors := x.chainErrors.set j (some e) })
  | joined (x : Sending) (e : ℤ) (hx : x.error = some e) :
      Effect st (.sending x) .done st (.finished ⟨e, []⟩)

/-- CORRECT (inversion): every piece of a handler is one of the above. -/
theorem advance_effect {st st' : Store} {h h' : Handler} {a : Answer}
    (hadv : advance st h a = some (st', h')) : Effect st h a st' h' := by
  cases h <;> cases a <;> simp only [advance, reduceCtorEq] at hadv
  case createOpen.noDirectory c => cases hadv; exact .noDirectory c
  case createOpen.opened c fd errno =>
    obtain ⟨⟨os, desc⟩, hopen, heq⟩ := Option.map_eq_some_iff.mp hadv
    simp only at heq
    split at heq <;> cases heq
    · exact .opened c fd errno os desc ‹_› hopen
    · obtain rfl : fd = 0 := by omega
      exact .leaked c errno os desc hopen
  case createOpen.failed c e => cases hadv; exact .openFailed c e
  case createTruncate.done c fd desc =>
    obtain ⟨os, htr, heq⟩ := Option.map_eq_some_iff.mp hadv
    cases heq
    exact .truncated c fd desc os htr
  case createTruncate.failed c fd desc e => cases hadv; exact .truncateFailed c fd desc e
  case createInsert.done c fd desc =>
    rw [Store.createInsert] at hadv
    split at hadv <;> cases hadv
    · exact .duplicate c fd desc _ ‹_›
    · exact .inserted c fd desc ‹_›
  case closeErase.done token reply =>
    rw [Store.closeErase] at hadv
    cases hf : st.fmap token with
    | none =>
      rw [hf] at hadv
      cases hadv
      exact .notFound token reply hf
    | some info =>
      rw [hf] at hadv
      cases hadv
      exact .erased token reply info hf
  case closeTruncate.done info reply =>
    obtain ⟨os, htr, heq⟩ := Option.map_eq_some_iff.mp hadv
    cases heq
    exact .resized info reply os htr
  case closeTruncate.failed info reply e => cases hadv; exact .resizeFailed info reply e
  case closeFd.done info reply => cases hadv; exact .closed info reply
  case sending.done x =>
    obtain ⟨e, he, heq⟩ := Option.map_eq_some_iff.mp hadv
    cases heq
    exact .joined x e he
  case sending.failed x e =>
    split at hadv
    · cases hadv
      exact .writeFailed x e ‹_›
    · cases hadv
  case sending.wrote x n =>
    split at hadv
    · obtain ⟨os, hw, heq⟩ := Option.map_eq_some_iff.mp hadv
      cases heq
      exact .wrote x n os (And.left ‹_›) (And.right ‹_›) hw
    · cases hadv
  case sending.answered x j e =>
    split at hadv
    · cases hadv
      exact .answered x j e ‹_›
    · cases hadv

end Fcopy
