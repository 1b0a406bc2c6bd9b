import Fcopy.Server.Process
import Fcopy.Network.Onward

/-! The network with the bytes that go through it.

    A connection carries one request. Its bytes reach a task of the server in pieces; when `append` has
    accepted them, `process` starts the handler, or answers at once. The bytes of the response go back in
    pieces too, to the object of whoever asked, a client or a handler at another server:

        request rest task ──▶ handling req ──reply──▶ response rest task ──▶ returned resp
                    └──(no request of a handler)─────▶         └──▶ closed

    A client may send any bytes. A connection may break at any time (`lose`), and a handler may give a
    forward up at any time (`fail`), whether or not its bytes still arrive. Bytes behind the end of a
    message are dropped with the connection. -/

namespace Fcopy
open Function Endian

/-- How far a connection has got. The objects are those of the receiver. -/
inductive ConnPhase where
  | request (rest : Bytes) (task : FcopyMessage)
  | handling (req : Request)
  | response (rest : Bytes) (task : FcopyMessage)
  | returned (resp : FcopyMessage)
  | closed
  deriving DecidableEq

/-- A connection: who opened it, the bytes of the request, and how far it has got. -/
structure Conn where
  origin : Origin
  sent : Bytes
  phase : ConnPhase
  deriving DecidableEq

/-- The machines: configuration, byte order and `request_size_limit` of the servers, byte order of the
    clients, and the limit of a response, which the framework sets. -/
structure Sites where
  conf : Addr → Conf
  host : Addr → Host
  limit : Addr → ℕ
  clientHost : ℕ → Host
  respLimit : ℕ

def Sites.hostOf (sites : Sites) : Origin → Host
  | .client id => sites.clientHost id
  | .hop a _ _ => sites.host a

/-- Connection `i` at `a` is the one that handler `i` there serves. `log` is what the system has carried
    out at each server. -/
structure Wire where
  servers : Addr → Server
  conns : Addr → ℕ → Option Conn
  log : Addr → List Write

inductive WireLabel where
  | connect (id : ℕ) (a : Addr) (i : ℕ) (stream : Bytes)
  | forward (a : Addr) (k j i : ℕ)
  | deliver (a : Addr) (i n : ℕ) (alloc : ℕ → Bool)
  | resume (a : Addr) (i : ℕ) (ans : Answer)
  | reply (a : Addr) (i : ℕ)
  | receive (a : Addr) (i n : ℕ) (alloc : ℕ → Bool)
  | result (a : Addr) (k j i : ℕ)
  | fail (a : Addr) (k j : ℕ) (error : ℤ)
  | lose (a : Addr) (i : ℕ)

/-- The message of forward `t` of a request, as `send_chain` builds it. -/
def chainMessage (origin : SendFileReq) (data : Bytes) (t : ChainTarget) : Message :=
  (Message.new (.sendFileReq (chainRequest origin t))).setDataView data

/-- The bytes of a message as `encode` hands them to the transport. -/
def encodeBytes (h : Host) (m : Message) : Bytes :=
  match (FcopyMessage.encode h ((FcopyMessage.fresh 0).setMessage m)).1 with
  | none => []
  | some vectors => vectors.flatten

namespace Wire
variable (sites : Sites) (w : Wire)

/-- The network without its connections. -/
def net : Net := ⟨w.servers, fun _ _ => none, fun _ => []⟩

def setPhase (a : Addr) (i : ℕ) (c : Conn) (phase : ConnPhase) : Wire :=
  { w with conns := update w.conns a (update (w.conns a) i (some { c with phase })) }

def setServer (a : Addr) (server : Server) : Wire :=
  { w with servers := update w.servers a server }

/-- A connection is opened and the request object made. -/
def opened (o : Origin) (a : Addr) (i : ℕ) (stream : Bytes) : Option Wire :=
  if w.conns a i = none ∧ (w.servers a).handlers i = .idle then
    some (w.setPhase a i ⟨o, stream, .closed⟩
      (.request stream (FcopyMessage.fresh (sites.limit a))))
  else none

/-- The next `n` bytes of the request. -/
def deliver (a : Addr) (i n : ℕ) (alloc : ℕ → Bool) : Option Wire :=
  match w.conns a i with
  | none => none
  | some c =>
    match c.phase with
    | .request rest task =>
      match FcopyMessage.append (sites.host a) alloc task (rest.take n) with
      | (.again, task) => some (w.setPhase a i c (.request (rest.drop n) task))
      | (.rejected _, _) => some (w.setPhase a i c .closed)
      | (.accepted, task) =>
        match process task with
        | some req =>
          (step (sites.conf a) (w.servers a) (.arrive i req)).map fun server =>
            (w.setServer a server).setPhase a i c (.handling req)
        | none =>
          some (w.setPhase a i c (.response (encodeBytes (sites.host a) unknownResponse)
            (FcopyMessage.fresh sites.respLimit)))
    | _ => none

/-- The handler of a close that does not wait goes on when its reply is out. -/
def repliesFirst (a : Addr) (i : ℕ) : Bool :=
  match (w.servers a).handlers i, (w.conns a i).map Conn.phase with
  | .closeErase _ (some _), some (.handling _) => true
  | _, _ => false

/-- A handler is told something by the system. -/
def resume (a : Addr) (i : ℕ) (ans : Answer) : Option Wire :=
  match ans with
  | .answered _ _ => none
  | ans =>
    if w.repliesFirst a i then none
    else (step (sites.conf a) (w.servers a) (.resume i ans)).map fun server =>
      { w.setServer a server with
        log := update w.log a (w.log a ++ written (w.servers a) i ans) }

/-- The handler has decided, and the response goes out. -/
def reply (a : Addr) (i : ℕ) : Option Wire :=
  match w.conns a i with
  | none => none
  | some c =>
    match c.phase with
    | .handling req =>
      ((w.servers a).handlers i).reply.map fun r =>
        w.setPhase a i c (.response (encodeBytes (sites.host a) (req.response r))
          (FcopyMessage.fresh sites.respLimit))
    | _ => none

/-- The next `n` bytes of the response. -/
def receive (a : Addr) (i n : ℕ) (alloc : ℕ → Bool) : Option Wire :=
  match w.conns a i with
  | none => none
  | some c =>
    match c.phase with
    | .response rest task =>
      match FcopyMessage.append (sites.hostOf c.origin) alloc task (rest.take n) with
      | (.again, task) => some (w.setPhase a i c (.response (rest.drop n) task))
      | (.rejected _, _) => some (w.setPhase a i c .closed)
      | (.accepted, task) => some (w.setPhase a i c (.returned task))
    | _ => none

/-- Forward `j` of handler `k` at `a` ends so. -/
def ended (a : Addr) (k j : ℕ) (res : Except ℤ FcopyMessage) : Option Wire :=
  (step (sites.conf a) (w.servers a) (.resume k (.answered j (sendOne res)))).map (w.setServer a)

def lose (a : Addr) (i : ℕ) : Option Wire :=
  (w.conns a i).map fun c => w.setPhase a i c .closed

end Wire

def wireStep (sites : Sites) (w : Wire) : WireLabel → Option Wire
  | .connect id a i stream => w.opened sites (.client id) a i stream
  | .forward a k j i =>
    match pending w.net a k j with
    | none => none
    | some (x, t) =>
      w.opened sites (.hop a k j) t.addr i (encodeBytes (sites.host a) (chainMessage x.req x.data t))
  | .deliver a i n alloc => w.deliver sites a i n alloc
  | .resume a i ans => w.resume sites a i ans
  | .reply a i => w.reply sites a i
  | .receive a i n alloc => w.receive sites a i n alloc
  | .result a k j i =>
    match pending w.net a k j with
    | none => none
    | some (_, t) =>
      match w.conns t.addr i with
      | some ⟨o, _, .returned resp⟩ => if o = .hop a k j then w.ended sites a k j (.ok resp) else none
      | _ => none
  | .fail a k j error => w.ended sites a k j (.error error)
  | .lose a i => w.lose a i

/-- Runs of the network with its connections. -/
abbrev WireRuns (sites : Sites) : Wire → List WireLabel → Wire → Prop :=
  Run.Steps (Run.ofStep (wireStep sites))

/-! ### What a step is -/

variable {sites : Sites} {w w' : Wire}

theorem encodeBytes_eq {p : Payload} {error : ℤ} {d : Bytes} {m : Message} (h : Host)
    (hm : Ready p error d m) : encodeBytes h m = FcopyMessage.frameOf m := by
  obtain ⟨vectors, hvec, hflat⟩ :=
    FcopyMessage.encode_frameOf h hm ((FcopyMessage.fresh 0).setMessage m) rfl
  rw [encodeBytes, hvec]
  exact hflat

theorem chainMessage_ready (origin : SendFileReq) (data : Bytes) (t : ChainTarget) :
    Ready (.sendFileReq (chainRequest origin t)) 0 data (chainMessage origin data t) :=
  ⟨rfl, rfl, rfl, rfl, rfl, rfl, rfl, fun h => by cases h⟩

/-- A forward comes back whenever it is accepted. -/
theorem process_chain {h : Host} {limit : ℕ} {origin : SendFileReq} {data : Bytes} {t : ChainTarget}
    {task : FcopyMessage} (htoken : t.fileToken.length < 2 ^ 32) (hdata : data.length < 2 ^ 32)
    (hacc : FcopyMessage.finalAt h limit (FcopyMessage.frameOf (chainMessage origin data t)) =
      (.accepted, task)) : process task = some (.send (chainRequest origin t) data) := by
  obtain ⟨m, hm, hcmd, hpay, _, hview⟩ :=
    FcopyMessage.finalAt_send (chainMessage_ready origin data t) htoken hdata hacc
  rw [process_eq (p := .sendFileReq (chainRequest origin t)) hm hcmd hpay, hview]
  rfl

namespace Wire

theorem conns_setPhase (a b : Addr) (i j : ℕ) (c : Conn) (phase : ConnPhase) :
    (w.setPhase a i c phase).conns b j =
      if b = a ∧ j = i then some { c with phase } else w.conns b j := by
  by_cases hb : b = a
  · subst hb
    by_cases hj : j = i
    · simp only [setPhase, hj, update_self, and_self, if_true]
    · simp only [setPhase, update_self, update_of_ne hj, hj, and_false, if_false]
  · simp only [setPhase, update_of_ne hb, hb, false_and, if_false]

theorem opened_eq {o : Origin} {a : Addr} {i : ℕ} {stream : Bytes}
    (h : w.opened sites o a i stream = some w') :
    w' = w.setPhase a i ⟨o, stream, .closed⟩ (.request stream (FcopyMessage.fresh (sites.limit a))) := by
  rw [opened] at h
  split at h
  · exact (Option.some.inj h).symm
  · cases h

/-- The connection gets on, is refused, or starts its handler, or the answer that nobody waits for. -/
theorem deliver_cases {a : Addr} {i n : ℕ} {alloc : ℕ → Bool} (h : w.deliver sites a i n alloc = some w') :
    ∃ c rest task ret task', w.conns a i = some c ∧ c.phase = .request rest task ∧
      FcopyMessage.append (sites.host a) alloc task (rest.take n) = (ret, task') ∧
      (ret = .again ∧ w' = w.setPhase a i c (.request (rest.drop n) task') ∨
        w' = w.setPhase a i c .closed ∨
        (∃ req server, ret = .accepted ∧ process task' = some req ∧
          step (sites.conf a) (w.servers a) (.arrive i req) = some server ∧
          w' = (w.setServer a server).setPhase a i c (.handling req)) ∨
        ret = .accepted ∧ process task' = none ∧
          w' = w.setPhase a i c (.response (encodeBytes (sites.host a) unknownResponse)
            (FcopyMessage.fresh sites.respLimit))) := by
  rw [deliver] at h
  split at h
  · cases h
  rename_i c hc
  split at h
  · rename_i rest task hphase
    cases happ : FcopyMessage.append (sites.host a) alloc task (rest.take n) with
    | mk ret task' =>
    refine ⟨c, rest, task, ret, task', hc, hphase, happ, ?_⟩
    rw [happ] at h
    cases ret with
    | again => exact .inl ⟨rfl, (Option.some.inj h).symm⟩
    | rejected e => exact .inr (.inl (Option.some.inj h).symm)
    | accepted =>
      simp only at h
      split at h
      · rename_i req hreq
        obtain ⟨server, hstep, rfl⟩ := Option.map_eq_some_iff.mp h
        exact .inr (.inr (.inl ⟨req, server, rfl, hreq, hstep, rfl⟩))
      · rename_i hreq
        exact .inr (.inr (.inr ⟨rfl, hreq, (Option.some.inj h).symm⟩))
  · cases h

theorem receive_cases {a : Addr} {i n : ℕ} {alloc : ℕ → Bool} (h : w.receive sites a i n alloc = some w') :
    ∃ c rest task ret task', w.conns a i = some c ∧ c.phase = .response rest task ∧
      FcopyMessage.append (sites.hostOf c.origin) alloc task (rest.take n) = (ret, task') ∧
      (ret = .again ∧ w' = w.setPhase a i c (.response (rest.drop n) task') ∨
        w' = w.setPhase a i c .closed ∨
        ret = .accepted ∧ w' = w.setPhase a i c (.returned task')) := by
  rw [receive] at h
  split at h
  · cases h
  rename_i c hc
  split at h
  · rename_i rest task hphase
    cases happ : FcopyMessage.append (sites.hostOf c.origin) alloc task (rest.take n) with
    | mk ret task' =>
    refine ⟨c, rest, task, ret, task', hc, hphase, happ, ?_⟩
    rw [happ] at h
    cases ret with
    | again => exact .inl ⟨rfl, (Option.some.inj h).symm⟩
    | rejected e => exact .inr (.inl (Option.some.inj h).symm)
    | accepted => exact .inr (.inr ⟨rfl, (Option.some.inj h).symm⟩)
  · cases h

theorem reply_cases {a : Addr} {i : ℕ} (h : w.reply sites a i = some w') :
    ∃ c req r, w.conns a i = some c ∧ c.phase = .handling req ∧
      ((w.servers a).handlers i).reply = some r ∧
      w' = w.setPhase a i c (.response (encodeBytes (sites.host a) (req.response r))
        (FcopyMessage.fresh sites.respLimit)) := by
  rw [reply] at h
  split at h
  · cases h
  rename_i c hc
  split at h
  · rename_i req hphase
    obtain ⟨r, hr, rfl⟩ := Option.map_eq_some_iff.mp h
    exact ⟨c, req, r, hc, hphase, hr, rfl⟩
  · cases h

theorem resume_cases {a : Addr} {i : ℕ} {ans : Answer} (h : w.resume sites a i ans = some w') :
    (∀ j e, ans ≠ .answered j e) ∧ ∃ server,
      step (sites.conf a) (w.servers a) (.resume i ans) = some server ∧
      w' = { w.setServer a server with
        log := update w.log a (w.log a ++ written (w.servers a) i ans) } := by
  have hgo : (if w.repliesFirst a i then none
      else (step (sites.conf a) (w.servers a) (.resume i ans)).map fun server =>
        { w.setServer a server with
          log := update w.log a (w.log a ++ written (w.servers a) i ans) }) = some w' →
      ∃ server, step (sites.conf a) (w.servers a) (.resume i ans) = some server ∧
        w' = { w.setServer a server with
          log := update w.log a (w.log a ++ written (w.servers a) i ans) } := by
    intro h
    split at h
    · cases h
    · obtain ⟨server, hstep, rfl⟩ := Option.map_eq_some_iff.mp h
      exact ⟨server, hstep, rfl⟩
  cases ans with
  | answered j e => cases h
  | _ => exact ⟨by simp, hgo h⟩

end Wire

end Fcopy
