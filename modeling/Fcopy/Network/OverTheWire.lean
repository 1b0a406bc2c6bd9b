import Fcopy.Network.Simulation

/-! What holds of the network holds of its bytes.

    A run of the wire is a run of the network with the same servers, and whoever has a response has the
    reply of the handler that his own bytes have started (`wire_refines_network`). So an upload can be
    judged by the bytes: where a client finds a zero in the response to its chunk, the chunk has been
    written at every session the targets lead to (`bytes_zero_written`), while the servers work on other
    sessions, connections break, forwards are repeated and arrive late. -/

namespace Fcopy
open Function Endian Run FcopyMessage Relay

variable {sites : Sites} {M : Node → Prop} {w w' : Wire}

/-- Each server has run since it was started, on requests with lengths that the wire can carry, and no
    connection is open. -/
structure WireQuiet (sites : Sites) (w : Wire) : Prop where
  reached : ∀ a, ∃ s ls, Initial s ∧ Runs (sites.conf a) s ls (w.servers a) ∧
    ∀ l ∈ ls, ∀ i req, l = .arrive i req → req.Short
  conns : ∀ a i, w.conns a i = none

theorem WireQuiet.net (h : WireQuiet sites w) : Quiet sites.conf w.net :=
  ⟨fun a => by
    obtain ⟨s, ls, h₀, hr, _⟩ := h.reached a
    exact ⟨s, ls, h₀, hr⟩, fun _ _ => rfl, fun _ => rfl⟩

theorem WireQuiet.simulates (h : WireQuiet sites w) : Simulates sites M w w.net := by
  refine ⟨rfl, ⟨fun _ _ _ => rfl, fun a i s hs => by cases hs⟩, fun a => ?_,
    fun a => List.nil_subset _, fun b i c hc => ?_⟩
  · obtain ⟨s, ls, h₀, hr, hshort⟩ := h.reached a
    exact shortServer_run h₀ hr hshort
  · rw [h.conns] at hc
    cases hc

/-- Every run of the wire is matched. -/
theorem wire_simulated {ls : List WireLabel} (h : WireQuiet sites w) (hrun : WireRuns sites w ls w') :
    ∃ ms net', NetRuns sites.conf w.net ms net' ∧ Simulates sites M w' net' ∧
      (EveryStep (ofStep (wireStep sites)) (WireAssumed sites M) w ls →
        EveryStep (ofStep (netStep sites.conf)) (Assumed sites.conf M) w.net ms) :=
  hrun.simulate (I := Simulates sites M) (G := WireAssumed sites M) (H := Assumed sites.conf M)
    (fun _ _ _ _ hsim hstep => wireStep_simulated hsim hstep) h.simulates

/-- CORRECT (refinement): whatever bytes clients send, however the bytes are cut, lost and delayed, the
    servers do what they do in a run of the network, one that meets the assumptions of the network where
    the bytes do, and that serves the chunks for the sessions `M` as requests of its own. A response that
    has come back is the reply of the handler that the bytes of its request have started. -/
theorem wire_refines_network (sites : Sites) (M : Node → Prop) (w w' : Wire) (ls : List WireLabel)
    (hquiet : WireQuiet sites w) (hrun : WireRuns sites w ls w') :
    ∃ ms net', NetRuns sites.conf w.net ms net' ∧
      (EveryStep (ofStep (wireStep sites)) (WireAssumed sites M) w ls →
        EveryStep (ofStep (netStep sites.conf)) (Assumed sites.conf M) w.net ms) ∧
      net'.servers = w'.servers ∧ (∀ a, net'.log a ⊆ w'.log a) ∧
      ∀ b i c resp, w'.conns b i = some c → c.phase = .returned resp →
        ∃ task req r m, finalAt (sites.host b) (sites.limit b) c.sent = (.accepted, task) ∧
          process task = some req ∧ ((w'.servers b).handlers i).reply = some r ∧
          clientRequest req.respCmd (.ok resp) = (0, some m) ∧ m.getError = wireError r.error ∧
          (r.fileToken.length + 4 < 2 ^ 32 → m.payload = req.responsePayload r) ∧
          ∀ id sreq data, c.origin = .client id → req = .send sreq data → M (b, sreq.fileToken) →
            net'.served b i = some ⟨.client id, sreq, data⟩ := by
  obtain ⟨ms, net', hnet, hsim, hpass⟩ := wire_simulated hquiet hrun
  refine ⟨ms, net', hnet, hpass, hsim.servers, hsim.log, fun b i c resp hc hphase => ?_⟩
  obtain ⟨_, hp⟩ := hsim.conns b i c hc
  rw [PhaseInv, hphase] at hp
  obtain ⟨req, r, m, hasked, hr, hm, hcmd, herr, hpay⟩ := hp
  obtain ⟨task, hfin, hreq⟩ := hasked.accepted
  refine ⟨task, req, r, m, hfin, hreq, ?_, ?_, getError_wireError herr, hpay,
    fun id sreq data ho hsend hM => hasked.client id sreq data ho hsend hM⟩
  · rw [← hsim.servers]
    exact hr
  · simp only [clientRequest, moveMessage, hm, hcmd, if_true]

/-- CORRECT (acknowledgements, over the wire): a client that gets a zero in the response to its chunk may
    rely on it. The chunk has been written at every session the targets lead to, none of them is further
    away than the hops allow, and none is on a cycle. Only the sessions `M`, which contain those the
    targets lead to, have to be left alone meanwhile. -/
theorem bytes_zero_written (sites : Sites) (M : Node → Prop) (w w' : Wire) (ls : List WireLabel)
    (hquiet : WireQuiet sites w) (hM : ∀ n m, M n → Hop w.net.tables n m → M m)
    (hrun : WireRuns sites w ls w')
    (hass : EveryStep (ofStep (wireStep sites)) (WireAssumed sites M) w ls)
    (a : Addr) (i id : ℕ) (req : SendFileReq) (error : ℤ) (data : Bytes) (m : Message)
    (hbuilt : Built (.sendFileReq req) error data m) (htoken : req.fileToken.length < 2 ^ 32)
    (hdata : data.length < 2 ^ 32) (resp : FcopyMessage)
    (hconn : w'.conns a i =
      some ⟨.client id, encodeBytes (sites.clientHost id) m, .returned resp⟩)
    (hin : M (a, req.fileToken)) (hzero : sendOne (.ok resp) = 0) :
    (∀ n, Relation.ReflTransGen (Hop w.net.tables) (a, req.fileToken) n →
      (∃ info, w.net.tables n.1 n.2 = some info ∧
        ⟨info.desc.file, req.offset, writeData data⟩ ∈ w'.log n.1) ∧
      ¬ Relation.TransGen (Hop w.net.tables) n n) ∧
    ∀ l n, Path (Hop w.net.tables) l (a, req.fileToken) n → l < max req.maxChainLen.toNat 1 := by
  obtain ⟨ms, net', hnet, hsim, hpass⟩ := wire_simulated (M := M) hquiet hrun
  obtain ⟨_, req', r, m', hasked, hr, hm', hcmd, herr, _⟩ := hsim.conns a i _ hconn
  obtain ⟨task, hfin, hreq⟩ := hasked.accepted
  -- the bytes of the client are this request
  have hsent : req' = .send req data := by
    rw [encodeBytes_eq _ hbuilt.ready] at hfin
    obtain ⟨m₁, hm₁, hcmd₁, hpay₁, _, hview₁⟩ := finalAt_send hbuilt.ready htoken hdata hfin
    have hproc := process_eq (p := .sendFileReq req) hm₁ hcmd₁ hpay₁
    rw [hreq, hview₁] at hproc
    exact Option.some.inj hproc
  subst hsent
  have hserved := hasked.client id req data rfl rfl hin
  have hfinished : (net'.servers a).handlers i = .finished r := by
    rcases hasked.sender _ _ rfl with ⟨y, hy⟩ | ⟨r', hr'⟩
    · rw [hy] at hr
      cases hr
    · rw [hr'] at hr
      cases hr
      exact hr'
  have hwire : wireError r.error = 0 := by
    rw [← getError_wireError herr, ← sendOne_ok hm' hcmd]
    exact hzero
  have hrel := relays_start hquiet.net.sound hquiet.net.served hM
  have hack := (relays_run hrel hnet (hpass hass)).sincere.finished a i _ r hserved hfinished hwire
  refine ⟨fun n hn => ⟨?_, hack.acyclic hn⟩, fun l n hp => hack.path hp⟩
  obtain ⟨info, hinfo, hlog⟩ := hack.reach hn
  exact ⟨info, hinfo, hsim.log _ hlog⟩

/-! ### A run -/

/-- The two servers of `sampleNet`, of different byte orders. -/
def sampleSites : Sites where
  conf := fun _ => sampleConf
  host := fun a => if a.1 = text "a" then .little else .big
  limit := fun _ => 100
  clientHost := fun _ => .little
  respLimit := 100

def sampleWire : Wire := ⟨sampleNet.servers, fun _ _ => none, fun _ => []⟩

/-- A check that suffices for the assumptions: no handler but those of chunks is at work. -/
def wireCheck (w : Wire) (l : WireLabel) : Bool :=
  match l with
  | .deliver a i n alloc =>
    match (w.deliver sampleSites a i n alloc).bind fun w' => (w'.conns a i).map Conn.phase with
    | some (.handling (.send _ _)) | some (.request _ _) => true
    | _ => false
  | .resume a i ans =>
    match (w.servers a).handlers i, ans with
    | .sending x, .wrote n => n = writeSize x.data.length
    | .sending _, .done => true
    | _, _ => false
  | .result a k _ _ =>
    match (w.servers a).handlers k with
    | .sending _ => true
    | _ => false
  | .fail .. => false
  | _ => true

/-- A handler of a chunk leaves the sessions as they are. -/
theorem step_sending_fmap {c : Conf} {s s' : Server} {i : ℕ} {x : Sending} {ans : Answer}
    (hx : s.handlers i = .sending x) (h : step c s (.resume i ans) = some s') :
    s'.store.fmap = s.store.fmap := by
  rcases step_cases h with ⟨_, _, hl, _⟩ | ⟨_, _, st', h', hl, heff, rfl⟩ <;> cases hl
  rw [hx] at heff
  exact heff.sending_fmap

theorem wireAssumed_of_check {l : WireLabel} (h : wireCheck w l = true) :
    WireAssumed sampleSites (fun _ => True) w l := by
  have hfmap : ∀ {a : Addr} {server : Server}, server.store.fmap = (w.servers a).store.fmap →
      ∀ b token, (update w.servers a server b).store.fmap token = (w.servers b).store.fmap token := by
    intro a server hserver b token
    by_cases hb : b = a
    · subst hb
      rw [update_self, hserver]
    · rw [update_of_ne hb]
  cases l with
  | connect id a i stream =>
    refine ⟨fun w' hw b token _ => ?_, trivial⟩
    rw [Wire.opened_eq hw]
    rfl
  | forward a k j i =>
    refine ⟨fun w' hw b token _ => ?_, trivial⟩
    rw [wireStep] at hw
    split at hw
    · cases hw
    · rw [Wire.opened_eq hw]
      rfl
  | deliver a i n alloc =>
    refine ⟨fun w' hw b token _ => ?_, trivial⟩
    rw [wireStep] at hw
    obtain ⟨c, _, _, _, _, _, _, _, ⟨_, rfl⟩ | rfl | ⟨req, server, _, _, hstep, rfl⟩ | ⟨_, _, rfl⟩⟩ :=
      Wire.deliver_cases hw
    · rfl
    · rfl
    · rw [wireCheck, hw] at h
      simp only [Option.bind_some, Wire.conns_setPhase, and_self, if_true, Option.map_some] at h
      refine hfmap ?_ b token
      rcases step_cases hstep with ⟨_, _, hl, _, rfl⟩ | ⟨_, _, _, _, hl, _⟩ <;> cases hl
      cases req with
      | send r d => rfl
      | _ => cases h
    · rfl
  | resume a i ans =>
    cases hx : (w.servers a).handlers i with
    | sending x =>
      refine ⟨fun w' hw b token _ => ?_, ?_⟩
      · obtain ⟨_, server, hstep, rfl⟩ := Wire.resume_cases hw
        exact hfmap (step_sending_fmap hx hstep) b token
      · simp only [wireCheck, hx] at h
        cases ans with
        | wrote n =>
          intro y hy
          cases hx.symm.trans hy
          simpa using h
        | failed e => cases h
        | _ => trivial
    | _ =>
      simp only [wireCheck, hx] at h
      cases h
  | reply a i =>
    refine ⟨fun w' hw b token _ => ?_, trivial⟩
    obtain ⟨_, _, _, _, _, _, rfl⟩ := Wire.reply_cases hw
    rfl
  | receive a i n alloc =>
    refine ⟨fun w' hw b token _ => ?_, trivial⟩
    obtain ⟨_, _, _, _, _, _, _, _, ⟨_, rfl⟩ | rfl | ⟨_, rfl⟩⟩ := Wire.receive_cases hw <;> rfl
  | result a k j i =>
    refine ⟨fun w' hw b token _ => ?_, trivial⟩
    rw [wireStep] at hw
    split at hw
    · cases hw
    split at hw
    · split at hw
      · obtain ⟨server, hstep, rfl⟩ := Option.map_eq_some_iff.mp hw
        cases hx : (w.servers a).handlers k with
        | sending x => exact hfmap (step_sending_fmap hx hstep) b token
        | _ =>
          simp only [wireCheck, hx] at h
          cases h
      · cases hw
    · cases hw
  | fail a k j e => cases h
  | lose a i =>
    refine ⟨fun w' hw b token _ => ?_, trivial⟩
    obtain ⟨_, _, rfl⟩ := Option.map_eq_some_iff.mp hw
    rfl

theorem sampleWire_quiet : WireQuiet sampleSites sampleWire where
  reached a := by
    have hshort : ∀ l ∈ sampleCreate ++ [.arrive 1 (.setChain ⟨text "4", [⟨text "b", 1, text "4"⟩]⟩)],
        ∀ i req, l = .arrive i req → req.Short := by
      intro l hl i req heq
      simp only [sampleCreate, List.cons_append, List.nil_append, List.mem_cons, List.not_mem_nil,
        or_false] at hl
      subst heq
      rcases hl with hl | hl | hl | hl | hl <;> cases hl
      · trivial
      · intro t ht
        cases List.mem_singleton.mp ht
        exact (by decide +kernel : (text "4").length < 2 ^ 32)
    have hprefix : ∀ l ∈ sampleCreate, ∀ i req, l = .arrive i req → req.Short :=
      fun l hl => hshort l (List.mem_append_left _ hl)
    have hreach : ∀ labels : List Label, (∀ l ∈ labels, ∀ i req, l = .arrive i req → req.Short) →
        ∃ s ls, Initial s ∧
          Runs sampleConf s ls ((exec (step sampleConf) sampleServer labels).getD sampleServer) ∧
          ∀ l ∈ ls, ∀ i req, l = .arrive i req → req.Short := by
      intro labels hlabels
      cases h : exec (step sampleConf) sampleServer labels with
      | none => exact ⟨sampleServer, [], sampleServer_initial, .nil _, fun l hl => by cases hl⟩
      | some t => exact ⟨sampleServer, labels, sampleServer_initial, steps_iff_exec.mpr h, hlabels⟩
    simp only [sampleWire, sampleNet]
    split
    · exact hreach _ hshort
    · exact hreach _ hprefix
  conns _ _ := rfl

/-- Client 0 has a zero in the response on connection `i` at `a`. -/
def zeroReturned (a : Addr) (i : ℕ) (stream : Bytes) (w : Wire) : Bool :=
  match w.conns a i with
  | some ⟨.client 0, sent, .returned resp⟩ => sent = stream ∧ sendOne (.ok resp) = 0
  | _ => false

theorem zeroReturned_spec {a : Addr} {i : ℕ} {stream : Bytes} (h : zeroReturned a i stream w = true) :
    ∃ resp, w.conns a i = some ⟨.client 0, stream, .returned resp⟩ ∧ sendOne (.ok resp) = 0 := by
  rw [zeroReturned] at h
  split at h
  · rename_i sent resp hconn
    obtain ⟨rfl, hzero⟩ := of_decide_eq_true h
    exact ⟨resp, hconn, hzero⟩
  · cases h

def addrA : Addr := (text "a", 1)

def addrB : Addr := (text "b", 1)

def sampleChunk : SendFileReq := { maxChainLen := 2, fileToken := text "4" }

def sampleMessage : Message := (Message.new (.sendFileReq sampleChunk)).setDataView (text "hi")

/-- Two bytes sent to `a`, in two pieces, which writes them and forwards them to `b`. -/
def sampleExchange : List WireLabel :=
  let all : ℕ → Bool := fun _ => true
  [.connect 0 addrA 5 (encodeBytes .little sampleMessage), .deliver addrA 5 10 all,
    .deliver addrA 5 90 all, .forward addrA 5 0 5, .deliver addrB 5 90 all,
    .resume addrB 5 (.wrote 8192), .resume addrB 5 .done, .reply addrB 5, .receive addrB 5 3 all,
    .receive addrB 5 90 all, .result addrA 5 0 5, .resume addrA 5 (.wrote 8192),
    .resume addrA 5 .done, .reply addrA 5, .receive addrA 5 90 all]

theorem sampleExchange_run : ∃ (w' : Wire) (resp : FcopyMessage),
    WireRuns sampleSites sampleWire sampleExchange w' ∧
      EveryStep (ofStep (wireStep sampleSites)) (WireAssumed sampleSites fun _ => True) sampleWire
        sampleExchange ∧
      w'.conns addrA 5 = some ⟨.client 0, encodeBytes .little sampleMessage, .returned resp⟩ ∧
      sendOne (.ok resp) = 0 := by
  have hcheck : (execIf (wireStep sampleSites) wireCheck sampleWire sampleExchange).any
      (zeroReturned addrA 5 (encodeBytes .little sampleMessage)) = true := by
    decide +kernel
  obtain ⟨w', hexec, hend⟩ := (Option.any_eq_true _ _).mp hcheck
  obtain ⟨resp, hconn, hzero⟩ := zeroReturned_spec hend
  obtain ⟨hrun, hass⟩ := of_execIf (G := WireAssumed sampleSites fun _ => True)
    (I := fun _ => True) (fun _ _ _ h => wireAssumed_of_check h) (fun _ _ _ _ _ _ => trivial)
    trivial hexec
  exact ⟨w', resp, hrun, hass, hconn, hzero⟩

/-- The client's response there is the reply of handler 5 at `a`. -/
theorem wire_refines_network_two : ∃ (w' : Wire) (resp : FcopyMessage) (ms : List NetLabel) (net' : Net)
    (r : Reply), NetRuns (fun _ => sampleConf) sampleWire.net ms net' ∧
      EveryStep (ofStep (netStep fun _ => sampleConf)) (Assumed (fun _ => sampleConf) fun _ => True)
        sampleWire.net ms ∧
      net'.servers = w'.servers ∧
      w'.conns addrA 5 = some ⟨.client 0, encodeBytes .little sampleMessage, .returned resp⟩ ∧
      ((w'.servers addrA).handlers 5).reply = some r := by
  obtain ⟨w', resp, hrun, hass, hconn, _⟩ := sampleExchange_run
  obtain ⟨ms, net', hnet, hpass, hservers, _, hall⟩ :=
    wire_refines_network sampleSites (fun _ => True) sampleWire w' _ sampleWire_quiet hrun
  obtain ⟨_, _, r, _, _, _, hr, _⟩ := hall addrA 5 _ resp hconn rfl
  exact ⟨w', resp, ms, net', r, hnet, hpass hass, hservers, hconn, hr⟩

/-- Both files have the chunk. -/
theorem bytes_zero_written_two : ∃ (w' : Wire) (resp : FcopyMessage),
    w'.conns addrA 5 = some ⟨.client 0, encodeBytes .little sampleMessage, .returned resp⟩ ∧
      sendOne (.ok resp) = 0 ∧
      ∀ n, Relation.ReflTransGen (Hop sampleWire.net.tables) (addrA, sampleChunk.fileToken) n →
        ∃ info, sampleWire.net.tables n.1 n.2 = some info ∧
          ⟨info.desc.file, sampleChunk.offset, writeData (text "hi")⟩ ∈ w'.log n.1 := by
  obtain ⟨w', resp, hrun, hass, hconn, hzero⟩ := sampleExchange_run
  obtain ⟨hall, _⟩ := bytes_zero_written sampleSites (fun _ => True) sampleWire w' _ sampleWire_quiet
    (fun _ _ _ _ => trivial) hrun hass addrA 5 0 sampleChunk 0 (text "hi") sampleMessage (.view _ rfl)
    (by decide +kernel) (by decide +kernel) resp hconn trivial hzero
  exact ⟨w', resp, hconn, hzero, fun n hn => (hall n hn).1⟩

end Fcopy
