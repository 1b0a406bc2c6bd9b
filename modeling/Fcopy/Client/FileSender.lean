import Fcopy.Network.Forward

/-! The client (`FileSender` in `client/file_sender.cpp`, and `upload_file`, which drives it).

    The three calls of an upload, one after the other. In the first and the last one there is a request
    at a time; `send_file` runs the workers of `parallel_send`, which share `error` and `cur_offset`:

        create_file:  remote_open ──▶ set_send_chain / set_send_tree
        send_file:    worker 0, worker 1, ... ── check ──▶ claim ──▶ read ──▶ request ──┐
                                                  ▲                                     │
                                                  └─────────────────────────────────────┘
        close_file:   remote_close

    The whole system is this client, the network of servers, and whoever else uses the servers. -/

namespace Fcopy
open Function

inductive SendMethod where
  | chain
  | tree
  deriving DecidableEq

structure SenderParams where
  chunkSize : BitVec 32
  partition : Bytes := []
  remoteFileDir : Bytes := []
  remoteFileName : Bytes
  waitClose : Bool := true
  parallel : ℕ
  sendMethod : SendMethod := .chain
  targets : List Addr

/-- Where a worker of `parallel_send` is. -/
inductive Worker where
  | start
  | checking
  | claiming
  | reading (offset : BitVec 64)
  | requesting (offset : BitVec 64) (data : Bytes)
  | leaving (localError : ℤ)
  | left
  deriving DecidableEq

/-- Where the upload is. `linking` and `closing` have the loop's index, `closing` its `first_error`. -/
inductive Phase where
  | start
  | opening
  | linking (i : ℕ)
  | sending
  | closing (i : ℕ) (firstError : ℤ)
  | closed
  deriving DecidableEq

/-- The sender, with what its calls have returned. -/
structure FileSender where
  phase : Phase := .start
  fileTokens : List Bytes := []
  error : ℤ := 0
  curOffset : BitVec 64 := 0
  workers : ℕ → Worker := fun _ => .start
  createResult : Option ℤ := none
  sendResult : Option ℤ := none
  closeResult : Option ℤ := none

section
variable (p : SenderParams) (source : Bytes)

/-- `file_size`, from `stat`. -/
def fileSize : BitVec 64 := BitVec.ofNat 64 source.length

/-! ### Requests -/

/-- The request of `remote_open`, the same for all targets. -/
def openRequest : CreateFileReq where
  chunkSize := p.chunkSize
  filePerm := 0
  fileSize := fileSize source
  partition := p.partition
  relativePath := p.remoteFileDir
  fileName := p.remoteFileName

/-- The targets that `set_send_chain` and `set_send_tree` give target `i` of `n`. The loop ends where
    there are none. -/
def linksOf : SendMethod → ℕ → ℕ → List ℕ
  | .chain, n, i => if i + 1 < n then [i + 1] else []
  | .tree, n, i =>
    if i * 2 + 1 < n then
      if i * 2 + 2 < n then [i * 2 + 1, i * 2 + 2] else [i * 2 + 1]
    else []

def addrOf (i : ℕ) : Addr := (p.targets[i]?).getD ([], 0)

def tokenOf (tokens : List Bytes) (i : ℕ) : Bytes := (tokens[i]?).getD []

def chainTarget (tokens : List Bytes) (i : ℕ) : ChainTarget where
  host := (addrOf p i).1
  port := (addrOf p i).2
  fileToken := tokenOf tokens i

def linkTargets (tokens : List Bytes) (i : ℕ) : List ChainTarget :=
  (linksOf p.sendMethod tokens.length i).map (chainTarget p tokens)

/-- The request of a worker. -/
def sendRequest (tokens : List Bytes) (offset : BitVec 64) (data : Bytes) : SendFileReq where
  maxChainLen := BitVec.ofNat 16 p.targets.length
  compressType := 0
  originSize := BitVec.ofNat 32 data.length
  crc32 := 0
  offset := offset
  fileToken := tokenOf tokens 0

namespace FileSender
variable (f : FileSender)

/-- The request the sender has out, and to whom; workers apart. -/
def request : Option (Addr × Request) :=
  match f.phase with
  | .opening =>
    if f.fileTokens.length < p.targets.length then
      some (addrOf p f.fileTokens.length, .create (openRequest p source))
    else none
  | .linking i =>
    if linkTargets p f.fileTokens i ≠ [] then
      some (addrOf p i, .setChain ⟨tokenOf f.fileTokens i, linkTargets p f.fileTokens i⟩)
    else none
  | .closing i _ =>
    if i < f.fileTokens.length ∧ tokenOf f.fileTokens i ≠ [] then
      some (addrOf p i, .close ⟨if p.waitClose then 1 else 0, tokenOf f.fileTokens i⟩)
    else none
  | _ => none

/-- `create_file` returns. `upload_file` goes on with `send_file`, or with `close_file` after an
    error. -/
def returnCreate (e : ℤ) : FileSender :=
  if e = 0 then
    { f with
      createResult := some e, phase := .sending, error := 0, curOffset := 0, workers := fun _ => .start }
  else { f with createResult := some e, phase := .closing 0 0, error := e }

/-- A request of `remote_open`, `set_send_*` or `remote_close` has ended. -/
def receive (localError : ℤ) (fileToken : Bytes) : FileSender :=
  match f.phase with
  | .opening =>
    if localError ≠ 0 then f.returnCreate localError
    else { f with fileTokens := f.fileTokens ++ [fileToken] }
  | .linking i =>
    if localError ≠ 0 then f.returnCreate localError else { f with phase := .linking (i + 1) }
  | .closing i firstError =>
    { f with
      phase := .closing (i + 1)
        (if localError ≠ 0 ∧ firstError = 0 then localError else firstError)
      fileTokens := if localError = 0 then f.fileTokens.set i [] else f.fileTokens }
  | _ => f

/-- What the sender does where it has no request out. -/
def next : Option FileSender :=
  match f.phase with
  | .opening =>
    if p.targets = [] then some (f.returnCreate EINVAL) else some { f with phase := .linking 0 }
  | .linking _ => some (f.returnCreate 0)
  | .sending =>
    if (List.range p.parallel).all (fun w => f.workers w = .left) then
      some { f with sendResult := some f.error, phase := .closing 0 0 }
    else none
  | .closing i firstError =>
    if i < f.fileTokens.length then some { f with phase := .closing (i + 1) firstError }
    else some { f with closeResult := some firstError, error := firstError, phase := .closed }
  | _ => none

def setWorker (w : ℕ) (x : Worker) : FileSender := { f with workers := update f.workers w x }

end FileSender

/-! ### Workers -/

inductive WorkerLabel where
  | alloc
  | allocFailed (e : ℤ)
  | check
  | claim
  | read (n : ℕ)
  | readFailed (e : ℤ)
  | request (i : ℕ)
  | reply (i : ℕ)
  | lost (e : ℤ)
  | leave
  deriving DecidableEq

/-- One step of worker `w` in `parallel_send`. A request may be delivered again until its reply is
    taken. -/
def workerStep (conf : Addr → Conf) (net : Net) (f : FileSender) (w : ℕ) :
    WorkerLabel → Option (Net × FileSender)
  | .alloc => if f.workers w = .start then some (net, f.setWorker w .checking) else none
  | .allocFailed e =>
    if f.workers w = .start then some (net, { f.setWorker w .left with error := e }) else none
  | .check =>
    if f.workers w = .checking then
      some (net, f.setWorker w (if f.error = 0 then .claiming else .leaving 0))
    else none
  | .claim =>
    if f.workers w = .claiming then
      if f.curOffset < fileSize source then
        some (net, { f.setWorker w (.reading f.curOffset) with
          curOffset := f.curOffset + p.chunkSize.setWidth 64 })
      else some (net, f.setWorker w (.leaving 0))
    else none
  | .read n =>
    match f.workers w with
    | .reading offset =>
      if n ≤ p.chunkSize.toNat then
        some (net, f.setWorker w (.requesting offset ((source.drop offset.toNat).take n)))
      else none
    | _ => none
  | .readFailed e =>
    match f.workers w with
    | .reading _ => some (net, f.setWorker w (.leaving e))
    | _ => none
  | .request i =>
    match f.workers w with
    | .requesting offset data =>
      (netStep conf net (.request offset.toNat (addrOf p 0) i
        (sendRequest p f.fileTokens offset data) data)).map fun net => (net, f)
    | _ => none
  | .reply i =>
    match f.workers w, net.served (addrOf p 0) i, (net.servers (addrOf p 0)).handlers i with
    | .requesting offset _, some s, .finished r =>
      if s.origin = .client offset.toNat then
        some (net, f.setWorker w
          (if wireError r.error = 0 then .checking else .leaving (wireError r.error)))
      else none
    | _, _, _ => none
  | .lost e =>
    match f.workers w with
    | .requesting _ _ => some (net, f.setWorker w (.leaving e))
    | _ => none
  | .leave =>
    match f.workers w with
    | .leaving e => some (net, { f.setWorker w .left with error := if e ≠ 0 then e else f.error })
    | _ => none

/-! ### The system -/

/-- The network, the sender, and the handler at work on the sender's request. -/
structure Sys where
  net : Net
  sender : FileSender
  call : Option ℕ

inductive SysLabel where
  | openFile
  | openFailed (e : ℤ)
  | call (i : ℕ)
  | retry (i : ℕ)
  | serve (ans : Answer)
  | reply
  | lost (e : ℤ)
  | next
  | work (w : ℕ) (l : WorkerLabel)
  | net (l : NetLabel)
  deriving DecidableEq

/-- The handler that works on the sender's request, and what it works on. -/
def Sys.current (sys : Sys) : Option (Addr × ℕ) :=
  match sys.call, sys.sender.request p source with
  | some i, some (a, _) => some (a, i)
  | _, _ => none

def sysStep (conf : Addr → Conf) (sys : Sys) : SysLabel → Option Sys
  | .openFile =>
    if sys.sender.phase = .start then
      some { sys with sender := { sys.sender with phase := .opening } }
    else none
  | .openFailed e =>
    if sys.sender.phase = .start then some { sys with sender := sys.sender.returnCreate e } else none
  | .call i =>
    match sys.call, sys.sender.request p source with
    | none, some (a, req) =>
      (others conf sys.net a (.arrive i req)).map fun net => { sys with net, call := some i }
    | _, _ => none
  | .retry i =>
    -- the reply did not come in time; the handler that was at work goes on for nobody
    match sys.call, sys.sender.request p source with
    | some _, some (a, req) =>
      (others conf sys.net a (.arrive i req)).map fun net => { sys with net, call := some i }
    | _, _ => none
  | .serve ans =>
    match sys.current p source with
    | some (a, i) => (others conf sys.net a (.resume i ans)).map fun net => { sys with net }
    | none => none
  | .reply =>
    match sys.current p source with
    | some (a, i) =>
      match (sys.net.servers a).handlers i with
      | .finished r =>
        some { sys with
          sender := sys.sender.receive (wireError r.error) r.fileToken, call := none }
      | _ => none
    | none => none
  | .lost e =>
    match sys.sender.request p source with
    | some _ => some { sys with sender := sys.sender.receive e [], call := none }
    | none => none
  | .next =>
    match sys.sender.request p source with
    | some _ => none
    | none => (sys.sender.next p).map fun sender => { sys with sender }
  | .work w l =>
    if sys.sender.phase = .sending ∧ w < p.parallel then
      (workerStep p source conf sys.net sys.sender w l).map fun (net, sender) =>
        { sys with net, sender }
    else none
  | .net l =>
    match l with
    | .request .. => none
    | .other a l' =>
      if sys.current p source = some (a, l'.handler) then none
      else (others conf sys.net a l').map fun net => { sys with net }
    | l => (netStep conf sys.net l).map fun net => { sys with net }

end

/-- Runs of the system. -/
abbrev SysRuns (conf : Addr → Conf) (p : SenderParams) (source : Bytes) :
    Sys → List SysLabel → Sys → Prop :=
  Run.Steps (Run.ofStep (sysStep p source conf))

end Fcopy
