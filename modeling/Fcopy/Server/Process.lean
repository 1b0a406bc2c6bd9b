import Fcopy.Wire.Stream
import Fcopy.Server.Replies

/-! From a message to its handler and back (`FcopyService::process` in `server/service.cpp`,
    `FcopyClient::request` in `common/co_fcopy.h`).

    The framework fills a request object and calls `process`, which looks at the command. A handler moves
    its message out of the object, and leaves a response of its own class; what no handler takes is
    answered by the `MessageBase` that `process` puts there first. No receiver accepts that one:

        request ──append──▶ process ──▶ handle_*   ──▶ response ──append──▶ move_message ──▶ error, fields
                                 └────▶ (others)   ──▶ UNKNOWN  ──append──▶ refused -/

namespace Fcopy
open Endian

/-- `get_command`. -/
def FcopyMessage.getCommand (self : FcopyMessage) : BitVec 16 :=
  match self.message with
  | some m => m.command
  | none => Command.unknown.code

/-- What a handler moves out of its request object; `none` where `move_message` fails and the handler
    returns. The `static_cast` there relies on an object of the class that the command names. -/
def takeRequest (self : FcopyMessage) (cmd : Command) : Option Request :=
  match (self.moveMessage cmd).1 with
  | none => none
  | some m =>
    match cmd, m.payload with
    | .createFileReq, .createFileReq r => some (.create r)
    | .closeFileReq, .closeFileReq r => some (.close r)
    | .sendFileReq, .sendFileReq r => some (.send r m.dataView)
    | .setChainReq, .setChainReq r => some (.setChain r)
    | _, _ => none

/-- `process`: the request that a handler takes on, if there is one. -/
def process (self : FcopyMessage) : Option Request :=
  let cmd := self.getCommand
  if cmd = Command.createFileReq.code then takeRequest self .createFileReq
  else if cmd = Command.closeFileReq.code then takeRequest self .closeFileReq
  else if cmd = Command.sendFileReq.code then takeRequest self .sendFileReq
  else if cmd = Command.setChainReq.code then takeRequest self .setChainReq
  else none

/-- The class of the response, with its field. -/
def Request.responsePayload (req : Request) (r : Reply) : Payload :=
  match req with
  | .create _ => .createFileResp ⟨r.fileToken⟩
  | .close _ => .closeFileResp
  | .send _ _ => .sendFileResp
  | .setChain _ => .setChainResp

/-- The response a handler leaves in its context. -/
def Request.response (req : Request) (r : Reply) : Message :=
  (Message.new (req.responsePayload r)).setError r.error

/-- The response that `process` begins with. -/
def unknownResponse : Message := Message.new .base

/-- `RespCmd` of the class of a request. -/
def Request.respCmd : Request → Command
  | .create _ => .createFileResp
  | .close _ => .closeFileResp
  | .send _ _ => .sendFileResp
  | .setChain _ => .setChainResp

def EBADMSG : ℕ := 74

/-- `FcopyClient::request`, with what the framework has to say: an error of its own, or the response.
    The result is the error returned, and what is moved into `resp`. -/
def clientRequest (respCmd : Command) : Except ℤ FcopyMessage → ℤ × Option Message
  | .error e => (e, none)
  | .ok resp =>
    match (resp.moveMessage respCmd).1 with
    | none => (EBADMSG, none)
    | some m => (0, some m)

/-- `send_one`: the error of the request, or else the one in the response. -/
def sendOne (res : Except ℤ FcopyMessage) : ℤ :=
  match clientRequest .sendFileResp res with
  | (0, some m) => m.getError
  | (error, _) => error

/-- The message as the request of a handler. -/
def Payload.request (p : Payload) (data : Bytes) : Option Request :=
  match p with
  | .createFileReq r => some (.create r)
  | .closeFileReq r => some (.close r)
  | .sendFileReq r => some (.send r data)
  | .setChainReq r => some (.setChain r)
  | _ => none

/-! ### Dispatch -/

/-- `process` starts the handler of the class, with the fields and the data section of the message. -/
theorem process_eq {self : FcopyMessage} {m : Message} {p : Payload} (hm : self.message = some m)
    (hcmd : m.command = p.thisCmd.code) (hp : m.payload = p) :
    process self = p.request m.dataView := by
  cases p <;>
    simp [process, FcopyMessage.getCommand, takeRequest, FcopyMessage.moveMessage, hm, hcmd, hp,
      Payload.thisCmd, Payload.request, Command.code]

/-- What a handler takes on is what the message says. -/
theorem process_some {self : FcopyMessage} {m : Message} {req : Request} (hm : self.message = some m)
    (h : process self = some req) :
    m.command = m.payload.thisCmd.code ∧ m.payload.request m.dataView = some req := by
  have htake : ∀ cmd, takeRequest self cmd = some req →
      m.command = m.payload.thisCmd.code ∧ m.payload.request m.dataView = some req := by
    intro cmd htake
    simp only [takeRequest, FcopyMessage.moveMessage, hm] at htake
    split at htake
    · cases htake
    rename_i m' heq
    split at heq
    · rename_i hcode
      cases heq
      split at htake <;> cases htake
      all_goals
        rename_i hpay
        rw [hpay]
        exact ⟨hcode, rfl⟩
    · cases heq
  simp only [process] at h
  split at h
  · exact htake _ h
  split at h
  · exact htake _ h
  split at h
  · exact htake _ h
  split at h
  · exact htake _ h
  · cases h

theorem Request.response_ready (req : Request) (r : Reply) :
    Ready (req.responsePayload r) r.error [] (req.response r) :=
  ⟨rfl, rfl, rfl, rfl, rfl, rfl, rfl, fun _ => rfl⟩

theorem unknownResponse_ready : Ready .base 0 [] unknownResponse :=
  ⟨rfl, rfl, rfl, rfl, rfl, rfl, rfl, fun _ => rfl⟩

theorem Request.responsePayload_cmd (req : Request) (r : Reply) :
    (req.responsePayload r).thisCmd = req.respCmd ∧ req.responsePayload r ≠ .base := by
  cases req <;> simp [responsePayload, respCmd, Payload.thisCmd]

theorem Request.length_responsePayload (req : Request) (r : Reply) :
    (req.responsePayload r).bytes.length ≤ 4 + r.fileToken.length := by
  cases req <;> simp [responsePayload, Payload.bytes, length_str]

theorem sendOne_error (e : ℤ) : sendOne (.error e) = e := by
  rw [sendOne, clientRequest]
  split
  · rename_i heq
    cases heq
  · rename_i heq
    cases heq
    rfl

theorem sendOne_ok {resp : FcopyMessage} {m : Message} (hm : resp.message = some m)
    (hcmd : m.command = Command.sendFileResp.code) : sendOne (.ok resp) = m.getError := by
  simp only [sendOne, clientRequest, FcopyMessage.moveMessage, hm, hcmd, if_true]

/-- The `UNKNOWN` response ends with its header, and every receiver refuses it. -/
theorem unknownResponse_refused (h : Host) (limit : ℕ) :
    frameEnd h limit (FcopyMessage.frameOf unknownResponse) = headerSize ∧
      (FcopyMessage.frameOf unknownResponse).length = headerSize ∧
      (FcopyMessage.finalAt h limit (FcopyMessage.frameOf unknownResponse)).1 = .rejected .EBADMSG := by
  have hframe : FcopyMessage.frameOf unknownResponse =
      (FcopyMessage.encoded .base unknownResponse).headBytes := by
    rw [FcopyMessage.frameOf]
    exact List.append_nil _
  have hlen := (FcopyMessage.encoded .base unknownResponse).length_headBytes
  have hopen : openHead h limit ((FcopyMessage.frameOf unknownResponse).take headerSize) =
      .error (.EBADMSG, none) := by
    rw [hframe, List.take_of_length_le hlen.le, openHead, Message.decodeHead_headBytes h _ rfl rfl]
    rfl
  refine ⟨?_, by rw [hframe, hlen], ?_⟩
  · rw [frameEnd, hopen]
  · rw [FcopyMessage.finalAt, hopen]

/-- The narrowing of the error is the same for every response. -/
theorem getError_wireError {m : Message} {e : ℤ} (hm : m.error = BitVec.ofInt 16 e) :
    m.getError = wireError e := by
  rw [Message.getError, hm]
  rfl

/-! ### One exchange -/

/-- A frame that fits is accepted, however it is cut, and its fields come back. -/
theorem feed_frame {p : Payload} {error : ℤ} {d : Bytes} {m : Message} (h : Host) {alloc : ℕ → Bool}
    (hal : ∀ n, alloc n = true) (hp : p ≠ .base) (hm : Ready p error d m) (limit : ℕ)
    (hbody : p.bytes.length < 2 ^ 32) (hdata : d.length < 2 ^ 32)
    (hfit : headerSize + p.bytes.length + d.length ≤ limit) {frags : List Bytes}
    (hfrags : frags.flatten = FcopyMessage.frameOf m) :
    ∃ out m', FcopyMessage.feed h alloc (FcopyMessage.fresh limit) frags = (.accepted, out) ∧
      out.message = some m' ∧ m'.command = p.thisCmd.code ∧ m'.payload = p ∧ m'.error = m.error ∧
      m'.dataView = d := by
  obtain ⟨out, m', happ, hrest⟩ := FcopyMessage.append_frame h hal hp hm limit hbody hdata hfit
  obtain ⟨hend, hfinal⟩ := FcopyMessage.finalAt_of_append hal happ
  have hframe : FcopyMessage.frameOf m =
      (FcopyMessage.encoded p m).headBytes ++ (p.bytes ++ d) := by
    rw [FcopyMessage.frameOf, hm.payload, hm.dataView]
  exact ⟨out, m', (FcopyMessage.feed_finalAt hal (hfrags.trans hframe) hend).trans hfinal, hrest⟩

/-- The answer to a message: by a handler, or by nobody. -/
def answerTo (p : Payload) (data : Bytes) (r : Reply) : Message :=
  match p.request data with
  | some req => req.response r
  | none => unknownResponse

/-- CORRECT (exchange): a message that fits reaches the server, however it is cut, and starts the handler
    of its class with exactly its fields and its data; the response, however it is cut, gives the client
    the error of the handler, narrowed to 16 bits, and the token. What is no request of a handler is
    answered by a message the client refuses. -/
theorem request_exchange (hc hs : Host) (alloc : ℕ → Bool) (hal : ∀ n, alloc n = true)
    (limit respLimit : ℕ) (p : Payload) (hp : p ≠ .base) (error : ℤ) (d : Bytes) (m : Message)
    (hm : Built p error d m) (hbody : (p.encodeBody hc [] d).1.length < 2 ^ 32) (hdata : d.length < 2 ^ 32)
    (hfit : headerSize + (p.encodeBody hc [] d).1.length + d.length ≤ limit) (r : Reply)
    (hresp : headerSize + 4 + r.fileToken.length ≤ respLimit) (htoken : r.fileToken.length + 4 < 2 ^ 32)
    (client server : FcopyMessage) :
    ∃ vectors, (FcopyMessage.encode hc (client.setMessage m)).1 = some vectors ∧
      ∀ frags : List Bytes, frags.flatten = vectors.flatten →
        ∃ task, FcopyMessage.feed hs alloc (FcopyMessage.fresh limit) frags = (.accepted, task) ∧
          process task = p.request d ∧
          ∃ answer, (FcopyMessage.encode hs (server.setMessage (answerTo p d r))).1 = some answer ∧
            ∀ frags' : List Bytes, frags'.flatten = answer.flatten →
              match p.request d with
              | some req => ∃ resp m', FcopyMessage.feed hc alloc (FcopyMessage.fresh respLimit) frags' =
                  (.accepted, resp) ∧ clientRequest req.respCmd (.ok resp) = (0, some m') ∧
                  m'.getError = wireError r.error ∧ m'.payload = req.responsePayload r
              | none => (FcopyMessage.feed hc alloc (FcopyMessage.fresh respLimit) frags').1 =
                  .rejected .EBADMSG := by
  have hready := hm.ready
  rw [(encodeBody_eq hc p d hready.noData).1] at hbody hfit
  obtain ⟨vectors, hvec, hframe⟩ := FcopyMessage.encode_frameOf hc hready (client.setMessage m) rfl
  refine ⟨vectors, hvec, fun frags hfrags => ?_⟩
  obtain ⟨task, m₁, hfeed, hmsg, hcmd, hpay, _, hview⟩ :=
    feed_frame hs hal hp hready limit hbody hdata hfit (hfrags.trans hframe)
  have hproc := process_eq hmsg hcmd hpay
  rw [hview] at hproc
  refine ⟨task, hfeed, hproc, ?_⟩
  cases hreq : p.request d with
  | none =>
    have hans : answerTo p d r = unknownResponse := by rw [answerTo, hreq]
    rw [hans]
    obtain ⟨answer, hansw, hflat⟩ := FcopyMessage.encode_frameOf hs unknownResponse_ready
      (server.setMessage unknownResponse) rfl
    refine ⟨answer, hansw, fun frags' hfrags' => ?_⟩
    obtain ⟨hend, hlen, hrefused⟩ := unknownResponse_refused hc respLimit
    rw [FcopyMessage.feed_finalAt hal (hfrags'.trans hflat) (by rw [hend, hlen])]
    exact hrefused
  | some req =>
    have hans : answerTo p d r = req.response r := by rw [answerTo, hreq]
    rw [hans]
    obtain ⟨answer, hansw, hflat⟩ := FcopyMessage.encode_frameOf hs (req.response_ready r)
      (server.setMessage (req.response r)) rfl
    refine ⟨answer, hansw, fun frags' hfrags' => ?_⟩
    obtain ⟨hrcmd, hrbase⟩ := req.responsePayload_cmd r
    have hrlen := req.length_responsePayload r
    obtain ⟨resp, m', hfeed', hmsg', hcmd', hpay', herr', _⟩ :=
      feed_frame hc hal hrbase (req.response_ready r) respLimit (by omega) (by simp)
        (by rw [List.length_nil]; omega) (hfrags'.trans hflat)
    refine ⟨resp, m', hfeed', ?_, getError_wireError herr', hpay'⟩
    rw [hrcmd] at hcmd'
    simp only [clientRequest, FcopyMessage.moveMessage, hmsg', hcmd', if_true]

/-- A close that does not wait, answered with the error of a session that is not there. -/
theorem request_exchange_close :
    let req : CloseFileReq := { fileToken := text "4" }
    ∃ vectors, (FcopyMessage.encode .little ((FcopyMessage.fresh 0).setMessage
        (Message.new (.closeFileReq req)))).1 = some vectors ∧
      ∀ frags : List Bytes, frags.flatten = vectors.flatten →
        ∃ task, FcopyMessage.feed .big (fun _ => true) (FcopyMessage.fresh 64) frags = (.accepted, task) ∧
          process task = some (.close req) := by
  obtain ⟨vectors, hvec, hall⟩ := request_exchange .little .big (fun _ => true) (fun _ => rfl) 64 64
    (.closeFileReq { fileToken := text "4" }) (by decide +kernel) 0 [] _ .plain (by decide +kernel)
    (by decide +kernel) (by decide +kernel) ⟨errNoFile, []⟩ (by decide) (by decide)
    (FcopyMessage.fresh 0) (FcopyMessage.fresh 0)
  refine ⟨vectors, hvec, fun frags hfrags => ?_⟩
  obtain ⟨task, hfeed, hproc, _⟩ := hall frags hfrags
  exact ⟨task, hfeed, hproc⟩

end Fcopy
