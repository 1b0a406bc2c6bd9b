import Fcopy.Network.Acknowledge
import Fcopy.Network.Transport

/-! The network of requests and answers, seen through the bytes.

    `Simulates` says that a network is what the bytes of a wire amount to: the servers are the same, and
    every connection is where its bytes put it (`ConnInv`). Each step of the wire is a step of the network,
    or none (`wireStep_simulated`):

        last byte of a request  ──  request or forward     last byte of a response  ──  nothing
        result of a forward     ──  answer                 all other bytes          ──  nothing

    A forward that has been given up may still arrive; its handler is then one of those that the network
    does not follow (`other`). -/

namespace Fcopy
open Function Endian Run FcopyMessage

variable {conf : Addr → Conf} {net net' : Net}

/-- A forward that is awaited later has been awaited all along. -/
theorem NetLater.pending {a : Addr} {k j : ℕ} {x' : Sending} {t : ChainTarget} (h : NetLater net net')
    (hk : (net.servers a).handlers k ≠ .idle) (hp : pending net' a k j = some (x', t)) :
    ∃ x, pending net a k j = some (x, t) ∧ x.req = x'.req ∧ x.data = x'.data := by
  obtain ⟨hx', ht, hj⟩ := pending_some.mp hp
  obtain ⟨x, hx, hreq, hdata, htargets, hj'⟩ := (h.handlers a k hk).waiting x' j hx' hj
  exact ⟨x, pending_some.mpr ⟨hx, htargets ▸ ht, hj'⟩, hreq, hdata⟩

/-! ### Where a connection is -/

/-- Forward `j` of handler `k` at `a` is this one, if it is still awaited. -/
structure Awaits (net : Net) (a : Addr) (k j : ℕ) (req : SendFileReq) (data : Bytes) (t : ChainTarget) :
    Prop where
  started : (net.servers a).handlers k ≠ .idle
  same : ∀ x t', pending net a k j = some (x, t') → x.req = req ∧ x.data = data ∧ t' = t

theorem Awaits.later {a : Addr} {k j : ℕ} {req : SendFileReq} {data : Bytes} {t : ChainTarget}
    (h : Awaits net a k j req data t) (hl : NetLater net net') : Awaits net' a k j req data t := by
  refine ⟨(hl.handlers a k h.started).started, fun x' t' hp => ?_⟩
  obtain ⟨x, hp, hreq, hdata⟩ := hl.pending h.started hp
  obtain ⟨hr, hd, ht⟩ := h.same x t' hp
  exact ⟨hreq ▸ hr, hdata ▸ hd, ht⟩

/-- What a server sends on its own connections. -/
def Launched (net : Net) (b : Addr) (o : Origin) (sent : Bytes) : Prop :=
  ∀ a k j, o = .hop a k j → ∃ req data t, Awaits net a k j req data t ∧ b = t.addr ∧
    data.length < 2 ^ 32 ∧ t.fileToken.length < 2 ^ 32 ∧ sent = frameOf (chainMessage req data t)

/-- The request of the connection has started its handler. Requests of clients for the sessions `M`, and
    forwards that have arrived in time, are those the network follows. -/
structure Asked (sites : Sites) (M : Node → Prop) (net : Net) (b : Addr) (i : ℕ) (o : Origin)
    (sent : Bytes) (req : Request) : Prop where
  started : (net.servers b).handlers i ≠ .idle
  accepted : ∃ task, finalAt (sites.host b) (sites.limit b) sent = (.accepted, task) ∧
    process task = some req
  sender : ∀ r d, req = .send r d → ((net.servers b).handlers i).Sender
  client : ∀ id r d, o = .client id → req = .send r d → M (b, r.fileToken) →
    net.served b i = some ⟨.client id, r, d⟩
  hop : ∀ a k j, o = .hop a k j → net.served a k = none ∨ (∀ v, pending net a k j ≠ some v) ∨
    ∃ r d, req = .send r d ∧ net.served b i = some ⟨.hop a k j, r, d⟩

theorem Launched.later {b : Addr} {o : Origin} {sent : Bytes} (h : Launched net b o sent)
    (hl : NetLater net net') : Launched net' b o sent := by
  intro a k j ho
  obtain ⟨req, data, t, hw, hrest⟩ := h a k j ho
  exact ⟨req, data, t, hw.later hl, hrest⟩

variable {sites : Sites} {M : Node → Prop} {w w' : Wire}

theorem Asked.later {b : Addr} {i : ℕ} {o : Origin} {sent : Bytes} {req : Request}
    (hc : Launched net b o sent) (h : Asked sites M net b i o sent req) (hl : NetLater net net') :
    Asked sites M net' b i o sent req := by
  have hserved := hl.served b i h.started
  refine ⟨(hl.handlers b i h.started).started, h.accepted,
    fun r d hr => (hl.handlers b i h.started).sender (h.sender r d hr), fun id r d ho hr hM => ?_,
    fun a k j ho => ?_⟩
  · rw [hserved]
    exact h.client id r d ho hr hM
  · obtain ⟨_, _, _, hw, _⟩ := hc a k j ho
    rcases h.hop a k j ho with hn | hn | ⟨r, d, hr, hs⟩
    · exact .inl ((hl.served a k hw.started).trans hn)
    · refine .inr (.inl fun v hv => ?_)
      obtain ⟨x, hp, _⟩ := hl.pending hw.started hv
      exact hn _ hp
    · exact .inr (.inr ⟨r, d, hr, hserved.trans hs⟩)

/-- How far a connection is, by its bytes. -/
def PhaseInv (sites : Sites) (M : Node → Prop) (net : Net) (b : Addr) (i : ℕ) (c : Conn) : Prop :=
  match c.phase with
  | .request rest task => Arriving (sites.host b) (sites.limit b) c.sent rest task
  | .handling req => Asked sites M net b i c.origin c.sent req
  | .response rest task =>
    (∃ req r, Asked sites M net b i c.origin c.sent req ∧ ((net.servers b).handlers i).reply = some r ∧
      Arriving (sites.hostOf c.origin) sites.respLimit (frameOf (req.response r)) rest task) ∨
    Arriving (sites.hostOf c.origin) sites.respLimit (frameOf unknownResponse) rest task
  | .returned resp =>
    ∃ req r m, Asked sites M net b i c.origin c.sent req ∧ ((net.servers b).handlers i).reply = some r ∧
      resp.message = some m ∧ m.command = req.respCmd.code ∧ m.error = BitVec.ofInt 16 r.error ∧
      (r.fileToken.length + 4 < 2 ^ 32 → m.payload = req.responsePayload r)
  | .closed => True

theorem PhaseInv.later {b : Addr} {i : ℕ} {c : Conn} (hc : Launched net b c.origin c.sent)
    (h : PhaseInv sites M net b i c) (hl : NetLater net net') : PhaseInv sites M net' b i c := by
  have hreply : ∀ {req r}, Asked sites M net b i c.origin c.sent req →
      ((net.servers b).handlers i).reply = some r → ((net'.servers b).handlers i).reply = some r :=
    fun ha hr => (hl.handlers b i ha.started).reply _ hr
  rw [PhaseInv] at h ⊢
  split at h
  · exact h
  · exact h.later hc hl
  · rcases h with ⟨req, r, ha, hr, harr⟩ | h
    · exact .inl ⟨req, r, ha.later hc hl, hreply ha hr, harr⟩
    · exact .inr h
  · obtain ⟨req, r, m, ha, hr, hm⟩ := h
    exact ⟨req, r, m, ha.later hc hl, hreply ha hr, hm⟩
  · trivial

/-- Tokens and data sections that have come over the wire. -/
structure ShortServer (s : Server) : Prop where
  session : ∀ token info t, s.store.fmap token = some info → t ∈ info.targets →
    t.fileToken.length < 2 ^ 32
  sending : ∀ k x, s.handlers k = .sending x → x.data.length < 2 ^ 32 ∧
    ∀ t ∈ x.targets, t.fileToken.length < 2 ^ 32

/-- The network is what the bytes amount to. -/
structure Simulates (sites : Sites) (M : Node → Prop) (w : Wire) (net : Net) : Prop where
  servers : net.servers = w.servers
  followed : Followed net
  short : ∀ a, ShortServer (net.servers a)
  log : ∀ a, net.log a ⊆ w.log a
  conns : ∀ b i c, w.conns b i = some c → Launched net b c.origin c.sent ∧ PhaseInv sites M net b i c

/-! ### Lengths -/

/-- What a request brings is short. -/
def Request.Short : Request → Prop
  | .send _ data => data.length < 2 ^ 32
  | .setChain req => ∀ t ∈ req.targets, t.fileToken.length < 2 ^ 32
  | _ => True

theorem process_short {h : Host} {limit : ℕ} {s : Bytes} {task : FcopyMessage} {req : Request}
    (hacc : finalAt h limit s = (.accepted, task)) (hreq : process task = some req) : req.Short := by
  obtain ⟨m, hm, hfits, hdata⟩ := finalAt_accepted hacc
  obtain ⟨_, hreq⟩ := process_some hm hreq
  cases hp : m.payload with
  | setChainReq r =>
    rw [hp] at hreq hfits
    cases hreq
    exact fun t ht => (hfits.2.2 t ht).2
  | _ =>
    rw [hp] at hreq
    cases hreq <;> first | exact hdata | trivial

theorem ShortServer.preserved {c : Conf} {s s' : Server} {l : Label} (hs : ShortServer s)
    (h : step c s l = some s') (hreq : ∀ i req, l = .arrive i req → req.Short) : ShortServer s' := by
  rcases step_cases h with ⟨i, req, rfl, hidle, rfl⟩ | ⟨i, ans, st', h', rfl, heff, rfl⟩
  · have hshort := hreq i req rfl
    refine ⟨fun token info t ht hmem => ?_, fun k x hx => ?_⟩
    · cases req with
      | setChain r =>
        simp only [accept, Store.setChainTargets] at ht
        split at ht
        · exact hs.session token info t ht hmem
        · rename_i info₀ hinfo
          by_cases htok : token = r.fileToken
          · subst htok
            simp only [update_self, Option.some.injEq] at ht
            subst ht
            exact hshort t hmem
          · simp only [update_of_ne htok] at ht
            exact hs.session token info t ht hmem
      | _ => exact hs.session token info t ht hmem
    · by_cases hk : k = i
      · subst hk
        simp only [update_self] at hx
        obtain ⟨r, data, info, rfl, hinfo, rfl⟩ := accept_sending hx
        exact ⟨hshort, fun t ht => hs.session _ info t hinfo ht⟩
      · simp only [update_of_ne hk] at hx
        exact hs.sending k x hx
  · refine ⟨fun token info t ht hmem => ?_, fun k x hx => ?_⟩
    · have hbefore : s.store.fmap token = some info ∨ info.targets = [] := by
        generalize s.handlers i = h₀ at heff
        cases heff with
        | erased tok reply info₀ hinfo =>
          by_cases htok : token = tok
          · subst htok
            simp only [update_self] at ht
            cases ht
          · simp only [update_of_ne htok] at ht
            exact .inl ht
        | inserted c fd desc hfree =>
          by_cases htok : token = c.token
          · subst htok
            simp only [update_self, Option.some.injEq] at ht
            subst ht
            exact .inr rfl
          · simp only [update_of_ne htok] at ht
            exact .inl ht
        | _ => exact .inl ht
      rcases hbefore with hbefore | hnil
      · exact hs.session token info t hbefore hmem
      · rw [hnil] at hmem
        cases hmem
    · by_cases hk : k = i
      · subst hk
        simp only [update_self] at hx
        subst hx
        obtain ⟨y, hy, _, hdata, _, _, htargets, _⟩ := heff.sending_before
        rw [hdata, htargets]
        exact hs.sending k y hy
      · simp only [update_of_ne hk] at hx
        exact hs.sending k x hx

/-- A server that has only had requests from the wire. -/
theorem shortServer_run {c : Conf} {s s' : Server} {ls : List Label} (h₀ : Initial s)
    (hrun : Runs c s ls s') (hls : ∀ l ∈ ls, ∀ i req, l = .arrive i req → req.Short) :
    ShortServer s' := by
  have hstart : ShortServer s := by
    refine ⟨fun token info t ht => ?_, fun k x hx => ?_⟩
    · rw [h₀.fmap] at ht
      cases ht
    · rw [h₀.handlers] at hx
      cases hx
  exact hrun.guarded (fun _ _ _ hs hl h => hs.preserved h hl) (hrun.everyStep_label_iff.mpr hls) hstart

/-! ### Steps that only move bytes -/

/-- One connection gets on, the network stays. -/
theorem Simulates.setPhase (hsim : Simulates sites M w net) {b : Addr} {i : ℕ} {c : Conn} {phase : ConnPhase}
    (hc : Launched net b c.origin c.sent) (hp : PhaseInv sites M net b i { c with phase }) :
    Simulates sites M (w.setPhase b i c phase) net := by
  refine ⟨hsim.servers, hsim.followed, hsim.short, hsim.log, fun b' i' c' h => ?_⟩
  rw [Wire.conns_setPhase] at h
  split at h
  · rename_i heq
    cases h
    rw [heq.1, heq.2]
    exact ⟨hc, hp⟩
  · exact hsim.conns b' i' c' h

/-- A server takes a step that the network takes as well. -/
theorem Simulates.advance (hsim : Simulates sites M w net) {l : NetLabel}
    (h : netStep sites.conf net l = some net') {b : Addr} {l' : Label} {server : Server}
    (hstep : step (sites.conf b) (w.servers b) l' = some server)
    (hserver : net'.servers = update w.servers b server)
    (hreq : ∀ i req, l' = .arrive i req → req.Short) {log : Addr → List Write}
    (hlog : ∀ a, net'.log a ⊆ log a) : Simulates sites M { w.setServer b server with log } net' := by
  have hl := netStep_after h
  refine ⟨hserver, hsim.followed.preserved h, fun a => ?_, hlog, fun b' i c hc => ?_⟩
  · have hshort := hsim.short a
    rw [hsim.servers] at hshort
    rw [hserver]
    by_cases hab : a = b
    · subst hab
      rw [update_self]
      exact hshort.preserved hstep hreq
    · rwa [update_of_ne hab]
  · obtain ⟨hc, hp⟩ := hsim.conns b' i c hc
    exact ⟨hc.later hl, hp.later hc hl⟩

/-! ### The steps of the wire -/

/-- Sessions `M` are left alone, error codes are not zero and fit the header, and a `pwrite` that succeeds
    writes everything. -/
def WireAssumed (sites : Sites) (M : Node → Prop) (w : Wire) (l : WireLabel) : Prop :=
  (∀ w', wireStep sites w l = some w' → ∀ a token, M (a, token) →
    (w'.servers a).store.fmap token = (w.servers a).store.fmap token) ∧
  match l with
  | .resume _ _ (.failed e) => (e : ℤ) ≠ 0 ∧ Fits e
  | .resume a i (.wrote n) =>
    ∀ x, (w.servers a).handlers i = .sending x → n = writeSize x.data.length
  | .fail _ _ _ e => e ≠ 0 ∧ Fits e
  | _ => True

/-- A step of the wire is matched. -/
def Matched (sites : Sites) (M : Node → Prop) (w : Wire) (l : WireLabel) (w' : Wire) (net : Net) : Prop :=
  Simulates sites M w' net ∨ ∃ m net', netStep sites.conf net m = some net' ∧ Simulates sites M w' net' ∧
    (WireAssumed sites M w l → Assumed sites.conf M net m)

/-- What `M` is not touched by on the wire is not touched in the network. -/
theorem others_assumed {a : Addr} {l : Label} {server : Server} (hsim : Simulates sites M w net)
    (hstep : step (sites.conf a) (w.servers a) l = some server) (hservers : w'.servers a = server)
    {wl : WireLabel} (hw : wireStep sites w wl = some w') (hass : WireAssumed sites M w wl) :
    Assumed sites.conf M net (.other a l) := by
  intro server' token hstep' hM
  rw [hsim.servers, hstep] at hstep'
  cases hstep'
  rw [hsim.servers, ← hservers]
  exact hass.1 w' hw a token hM

theorem connect_simulated (hsim : Simulates sites M w net) {id : ℕ} {a : Addr} {i : ℕ} {stream : Bytes}
    (h : w.opened sites (.client id) a i stream = some w') : Simulates sites M w' net := by
  rw [Wire.opened_eq h]
  exact hsim.setPhase (fun _ _ _ ho => (by cases ho)) (arriving_fresh ..)

theorem forward_simulated (hsim : Simulates sites M w net) {a : Addr} {k j i : ℕ} {x : Sending}
    {t : ChainTarget} (hp : pending net a k j = some (x, t))
    (h : w.opened sites (.hop a k j) t.addr i
      (encodeBytes (sites.host a) (chainMessage x.req x.data t)) = some w') :
    Simulates sites M w' net := by
  rw [Wire.opened_eq h]
  obtain ⟨hx, ht, hj⟩ := pending_some.mp hp
  obtain ⟨hdata, htargets⟩ := (hsim.short a).sending k x hx
  refine hsim.setPhase (fun a' k' j' ho => ?_) (arriving_fresh ..)
  cases ho
  refine ⟨x.req, x.data, t, ⟨?_, fun x' t' hp' => ?_⟩, rfl, hdata,
    htargets t (List.mem_of_getElem? ht), encodeBytes_eq _ (chainMessage_ready ..)⟩
  · rw [hx]
    simp
  · cases hp.symm.trans hp'
    exact ⟨rfl, rfl, rfl⟩

/-- A request starts its handler; the network follows it or not. -/
theorem Simulates.started (hsim : Simulates sites M w net) {m : NetLabel}
    (h : netStep sites.conf net m = some net') {a : Addr} {i : ℕ} {c : Conn} {req : Request}
    {server : Server} (hc : Launched net a c.origin c.sent)
    (hstep : step (sites.conf a) (w.servers a) (.arrive i req) = some server)
    (hserver : net'.servers = update w.servers a server) (hlog : net'.log = net.log)
    (hacc : ∃ task, finalAt (sites.host a) (sites.limit a) c.sent = (.accepted, task) ∧
      process task = some req)
    (hclient : ∀ id r d, c.origin = .client id → req = .send r d → M (a, r.fileToken) →
      net'.served a i = some ⟨.client id, r, d⟩)
    (hhop : ∀ b k j, c.origin = .hop b k j → net'.served b k = none ∨
      (∀ v, pending net' b k j ≠ some v) ∨
      ∃ r d, req = .send r d ∧ net'.served a i = some ⟨.hop b k j, r, d⟩) :
    Simulates sites M ((w.setServer a server).setPhase a i c (.handling req)) net' := by
  have hshort : req.Short := by
    obtain ⟨task, htask, hreq⟩ := hacc
    exact process_short htask hreq
  have hadv : Simulates sites M (w.setServer a server) net' :=
    hsim.advance h hstep hserver (fun j req' hl => by cases hl; exact hshort)
      (fun b => by rw [hlog]; exact hsim.log b)
  refine hadv.setPhase (hc.later (netStep_after h)) ⟨?_, hacc, fun r d hr => ?_, hclient, hhop⟩
  all_goals
    rcases step_cases hstep with ⟨_, _, hl, _, rfl⟩ | ⟨_, _, _, _, hl, _⟩ <;> cases hl
    rw [hserver]
    simp only [update_self]
  · exact accept_started _ _ _
  · subst hr
    rcases handleSendFile_kinds (w.servers a).store r d with ⟨_, e, he, _⟩ | ⟨_, info, _, hx⟩
    · exact .inr ⟨_, he⟩
    · exact .inl ⟨_, hx⟩

/-- The last byte of a request that starts a handler. -/
theorem arrive_simulated (hsim : Simulates sites M w net) {a : Addr} {i : ℕ} {c : Conn} {req : Request}
    {server : Server} {task : FcopyMessage} {wl : WireLabel} (hc : Launched net a c.origin c.sent)
    (hfin : finalAt (sites.host a) (sites.limit a) c.sent = (.accepted, task))
    (hreq : process task = some req)
    (hstep : step (sites.conf a) (w.servers a) (.arrive i req) = some server)
    (hw : wireStep sites w wl = some ((w.setServer a server).setPhase a i c (.handling req))) :
    Matched sites M w wl ((w.setServer a server).setPhase a i c (.handling req)) net := by
  have hidle : (w.servers a).handlers i = .idle := by
    rcases step_cases hstep with ⟨_, _, hl, hidle, _⟩ | ⟨_, _, _, _, hl, _⟩ <;> cases hl
    exact hidle
  have hfree : net.served a i = none := hsim.followed.fresh a i (by rw [hsim.servers, hidle])
  have hstep' : step (sites.conf a) (net.servers a) (.arrive i req) = some server := by
    rwa [hsim.servers]
  have hupdate : update net.servers a server = update w.servers a server := by rw [hsim.servers]
  -- a request the network does not follow
  have hother : (∀ id r d, c.origin = .client id → req = .send r d → ¬M (a, r.fileToken)) →
      (∀ b k j, c.origin = .hop b k j → net.served b k = none ∨ ∀ v, pending net b k j ≠ some v) →
      Matched sites M w wl ((w.setServer a server).setPhase a i c (.handling req)) net := by
    intro hclient hhop
    have hnet : netStep sites.conf net (.other a (.arrive i req)) = some _ := others_some hfree hstep'
    have hl := netStep_after hnet
    refine .inr ⟨_, _, hnet, hsim.started hnet hc hstep hupdate rfl ⟨task, hfin, hreq⟩
      (fun id r d ho hr hM => absurd hM (hclient id r d ho hr)) (fun b k j ho => ?_), ?_⟩
    · obtain ⟨_, _, _, haw, _⟩ := hc b k j ho
      rcases hhop b k j ho with hn | hn
      · exact .inl hn
      · refine .inr (.inl fun v hv => ?_)
        obtain ⟨x, hp, _⟩ := hl.pending haw.started hv
        exact hn _ hp
    · exact others_assumed hsim hstep (by simp only [Wire.setPhase, Wire.setServer, update_self]) hw
  cases ho : c.origin with
  | client id =>
    by_cases hM : ∃ r d, req = .send r d ∧ M (a, r.fileToken)
    · obtain ⟨r, d, rfl, hM⟩ := hM
      have hnet : netStep sites.conf net (.request id a i r d) = _ :=
        arrival_some (s := ⟨.client id, r, d⟩) hstep'
      refine .inr ⟨_, _, hnet, hsim.started hnet hc hstep hupdate rfl ⟨task, hfin, hreq⟩ ?_ ?_, fun _ => hM⟩
      · intro id' r' d' ho' hr' _
        cases ho.symm.trans ho'
        cases hr'
        simp only [update_self]
      · intro b k j ho'
        cases ho.symm.trans ho'
    · refine hother (fun id' r d _ hr hM' => hM ⟨r, d, hr, hM'⟩) fun b k j ho' => ?_
      cases ho.symm.trans ho'
  | hop b k j =>
    obtain ⟨r, d, t, haw, rfl, hdata, htoken, hsent⟩ := hc b k j ho
    have hsend : req = .send (chainRequest r t) d := by
      rw [hsent] at hfin
      exact Option.some.inj (hreq.symm.trans (process_chain htoken hdata hfin))
    subst hsend
    by_cases hin : ∃ p x t', net.served b k = some p ∧ pending net b k j = some (x, t')
    · obtain ⟨p, x, t', hp, hpend⟩ := hin
      obtain ⟨rfl, rfl, rfl⟩ := haw.same x t' hpend
      have harr := arrival_some (s := ⟨.hop b k j, chainRequest x.req t', x.data⟩) hstep'
      have hforward : netStep sites.conf net (.forward b k j i) =
          arrival sites.conf net t'.addr i ⟨.hop b k j, chainRequest x.req t', x.data⟩ := by
        rw [netStep, hp, hpend]
      have hnet := hforward.trans harr
      refine .inr ⟨_, _, hnet, hsim.started hnet hc hstep hupdate rfl ⟨task, hfin, hreq⟩ ?_ ?_,
        fun _ => trivial⟩
      · intro id' r' d' ho'
        cases ho.symm.trans ho'
      · intro b' k' j' ho'
        cases ho.symm.trans ho'
        refine .inr (.inr ⟨_, _, rfl, ?_⟩)
        simp only [update_self]
    · refine hother (fun id' r' d' ho' => by cases ho.symm.trans ho') fun b' k' j' ho' => ?_
      cases ho.symm.trans ho'
      cases hs : net.served b k with
      | none => exact .inl rfl
      | some p =>
        refine .inr fun v hv => hin ⟨p, v.1, v.2, hs, hv⟩

theorem deliver_simulated (hsim : Simulates sites M w net) {a : Addr} {i n : ℕ} {alloc : ℕ → Bool}
    (h : w.deliver sites a i n alloc = some w') : Matched sites M w (.deliver a i n alloc) w' net := by
  obtain ⟨c, rest, task, ret, task', hconn, hphase, happ, hcases⟩ := Wire.deliver_cases h
  obtain ⟨hc, hp⟩ := hsim.conns a i c hconn
  rw [PhaseInv, hphase] at hp
  obtain ⟨hagain, hacc⟩ := Arriving.append hp n happ
  rcases hcases with ⟨rfl, rfl⟩ | rfl | ⟨req, server, rfl, hreq, hstep, rfl⟩ | ⟨rfl, hreq, rfl⟩
  · exact .inl (hsim.setPhase hc (hagain rfl))
  · exact .inl (hsim.setPhase hc trivial)
  · exact arrive_simulated hsim hc (hacc rfl) hreq hstep h
  · refine .inl (hsim.setPhase hc (.inr ?_))
    rw [encodeBytes_eq _ unknownResponse_ready]
    exact arriving_fresh ..

theorem reply_simulated (hsim : Simulates sites M w net) {a : Addr} {i : ℕ}
    (h : w.reply sites a i = some w') : Simulates sites M w' net := by
  obtain ⟨c, req, r, hconn, hphase, hr, rfl⟩ := Wire.reply_cases h
  obtain ⟨hc, hp⟩ := hsim.conns a i c hconn
  rw [PhaseInv, hphase] at hp
  rw [← hsim.servers] at hr
  refine hsim.setPhase hc (.inl ⟨req, r, hp, hr, ?_⟩)
  rw [encodeBytes_eq _ (req.response_ready r)]
  exact arriving_fresh ..

theorem receive_simulated (hsim : Simulates sites M w net) {a : Addr} {i n : ℕ} {alloc : ℕ → Bool}
    (h : w.receive sites a i n alloc = some w') : Simulates sites M w' net := by
  obtain ⟨c, rest, task, ret, task', hconn, hphase, happ, hcases⟩ := Wire.receive_cases h
  obtain ⟨hc, hp⟩ := hsim.conns a i c hconn
  rw [PhaseInv, hphase] at hp
  rcases hcases with ⟨rfl, rfl⟩ | rfl | ⟨rfl, rfl⟩
  · rcases hp with ⟨req, r, ha, hr, harr⟩ | harr
    · exact hsim.setPhase hc (.inl ⟨req, r, ha, hr, (harr.append n happ).1 rfl⟩)
    · exact hsim.setPhase hc (.inr ((harr.append n happ).1 rfl))
  · exact hsim.setPhase hc trivial
  · rcases hp with ⟨req, r, ha, hr, harr⟩ | harr
    · obtain ⟨_, m, hm, hcmd, herr⟩ := finalAt_frameOf (req.response_ready r) ((harr.append n happ).2 rfl)
      rw [(req.responsePayload_cmd r).1] at hcmd
      refine hsim.setPhase hc ⟨req, r, m, ha, hr, hm, hcmd, herr, fun hlen => ?_⟩
      have hbody : (req.responsePayload r).bytes.length < 2 ^ 32 := by
        have := req.length_responsePayload r
        omega
      obtain ⟨m', hm', _, hpay, _⟩ :=
        finalAt_fields (req.response_ready r) hbody (by decide) ((harr.append n happ).2 rfl)
      cases hm.symm.trans hm'
      exact hpay
    · have hrefused := (unknownResponse_refused (sites.hostOf c.origin) sites.respLimit).2.2
      rw [(harr.append n happ).2 rfl] at hrefused
      cases hrefused

/-- What a handler that serves a request can be told. -/
theorem Effect.sender_answer {st st' : Store} {h h' : Handler} {ans : Answer}
    (heff : Effect st h ans st' h') (hs : h.Sender) (hans : ∀ j e, ans ≠ .answered j e) :
    ans = .done ∨ (∃ n, ans = .wrote n) ∨ ∃ e, ans = .failed e := by
  rcases hs with ⟨x, rfl⟩ | ⟨r, rfl⟩
  · cases heff with
    | wrote x n => exact .inr (.inl ⟨n, rfl⟩)
    | writeFailed x e => exact .inr (.inr ⟨e, rfl⟩)
    | answered x j e => exact absurd rfl (hans j e)
    | joined => exact .inl rfl
  · cases heff

theorem resume_simulated (hsim : Simulates sites M w net) {a : Addr} {i : ℕ} {ans : Answer}
    (h : w.resume sites a i ans = some w') : Matched sites M w (.resume a i ans) w' net := by
  obtain ⟨hans, server, hstep, rfl⟩ := Wire.resume_cases h
  have hstep' : step (sites.conf a) (net.servers a) (.resume i ans) = some server := by
    rwa [hsim.servers]
  have hupdate : update net.servers a server = update w.servers a server := by rw [hsim.servers]
  have hgrow : ∀ b, net.log b ⊆ update w.log a (w.log a ++ written (w.servers a) i ans) b := by
    intro b
    by_cases hb : b = a
    · subst hb
      rw [update_self]
      exact List.Subset.trans (hsim.log b) (List.subset_append_left ..)
    · rw [update_of_ne hb]
      exact hsim.log b
  cases hs : net.served a i with
  | none =>
    have hnet : netStep sites.conf net (.other a (.resume i ans)) = some _ := others_some hs hstep'
    exact .inr ⟨_, _, hnet, hsim.advance hnet hstep hupdate (fun j req hl => by cases hl) hgrow,
      others_assumed hsim hstep (by simp only [Wire.setServer, update_self]) h⟩
  | some s =>
    have hmove := move_some hs hstep'
    have heff : ∃ st' h', Effect (net.servers a).store ((net.servers a).handlers i) ans st' h' := by
      obtain ⟨_, st', h', _, heff, _⟩ := move_eq hmove
      exact ⟨st', h', heff⟩
    obtain ⟨st', h', heff⟩ := heff
    have hnet : netStep sites.conf net (.proceed a i ans) = move sites.conf net a i ans := by
      rcases heff.sender_answer (hsim.followed.sender a i s hs) hans with rfl | ⟨n, rfl⟩ | ⟨e, rfl⟩ <;> rfl
    refine .inr ⟨_, _, hnet.trans hmove,
      hsim.advance (hnet.trans hmove) hstep hupdate (fun j req hl => by cases hl) fun b => ?_, fun hass => ?_⟩
    · by_cases hb : b = a
      · subst hb
        simp only [update_self, hsim.servers]
        exact fun v hv => List.mem_append.mpr ((List.mem_append.mp hv).imp_left fun hv => hsim.log b hv)
      · simp only [update_of_ne hb]
        exact hsim.log b
    · rcases heff.sender_answer (hsim.followed.sender a i s hs) hans with rfl | ⟨n, rfl⟩ | ⟨e, rfl⟩
      · trivial
      · intro x hx
        rw [hsim.servers] at hx
        exact hass.2 x hx
      · exact hass.2

/-- A forward ends: for a handler the network follows by `l`, else as a step of its own. -/
theorem ended_simulated (hsim : Simulates sites M w net) {a : Addr} {k j : ℕ}
    {res : Except ℤ FcopyMessage} {wl : WireLabel} (h : w.ended sites a k j res = some w')
    (hw : wireStep sites w wl = some w')
    (hfollow : ∀ s, net.served a k = some s → ∃ l,
      netStep sites.conf net l = move sites.conf net a k (.answered j (sendOne res)) ∧
      (WireAssumed sites M w wl → Assumed sites.conf M net l)) : Matched sites M w wl w' net := by
  obtain ⟨server, hstep, rfl⟩ := Option.map_eq_some_iff.mp h
  have hstep' : step (sites.conf a) (net.servers a) (.resume k (.answered j (sendOne res))) =
      some server := by rwa [hsim.servers]
  have hupdate : update net.servers a server = update w.servers a server := by rw [hsim.servers]
  cases hs : net.served a k with
  | none =>
    have hnet : netStep sites.conf net (.other a (.resume k (.answered j (sendOne res)))) = some _ :=
      others_some hs hstep'
    exact .inr ⟨_, _, hnet, hsim.advance hnet hstep hupdate (fun _ _ hl => by cases hl) hsim.log,
      others_assumed hsim hstep (by simp only [Wire.setServer, update_self]) hw⟩
  | some s =>
    obtain ⟨l, hl, hass⟩ := hfollow s hs
    have hmove := move_some hs hstep'
    have hwritten : written (net.servers a) k (.answered j (sendOne res)) = [] := by
      cases hk : (net.servers a).handlers k <;> simp only [written, hk]
    refine .inr ⟨l, _, hl.trans hmove,
      hsim.advance (hl.trans hmove) hstep hupdate (fun _ _ hl => by cases hl) fun b => ?_, hass⟩
    simp only [hwritten, List.append_nil, update_eq_self]
    exact hsim.log b

/-- The response to a forward is what its handler replied. -/
theorem result_simulated (hsim : Simulates sites M w net) {a : Addr} {k j i : ℕ} {x : Sending}
    {t : ChainTarget} {sent : Bytes} {resp : FcopyMessage} (hp : pending net a k j = some (x, t))
    (hconn : w.conns t.addr i = some ⟨.hop a k j, sent, .returned resp⟩)
    (h : w.ended sites a k j (.ok resp) = some w')
    (hw : wireStep sites w (.result a k j i) = some w') :
    Matched sites M w (.result a k j i) w' net := by
  obtain ⟨hc, req, r, m, hasked, hr, hm, hcmd, herr, _⟩ := hsim.conns _ i _ hconn
  obtain ⟨origin, d, t', _, _, hdata, htoken, rfl⟩ := hc a k j rfl
  obtain ⟨task, hfin, hreq⟩ := hasked.accepted
  cases hreq.symm.trans (process_chain htoken hdata hfin)
  have herror : sendOne (.ok resp) = wireError r.error :=
    (sendOne_ok hm hcmd).trans (getError_wireError herr)
  refine ended_simulated hsim h hw fun s hs => ⟨.answer a k j i, ?_, fun _ => trivial⟩
  rcases hasked.hop a k j rfl with hn | hn | ⟨r', d', _, hserved⟩
  · rw [hs] at hn
    cases hn
  · exact absurd hp (hn _)
  · have hfinished : (net.servers t.addr).handlers i = .finished r := by
      rcases hasked.sender _ _ rfl with ⟨y, hy⟩ | ⟨r'', hr''⟩
      · rw [hy] at hr
        cases hr
      · rw [hr''] at hr
        cases hr
        exact hr''
    rw [netStep, hp]
    simp only [hserved, hfinished, if_true, herror]

theorem Wire.pending_net (hsim : Simulates sites M w net) (a : Addr) (k j : ℕ) :
    pending w.net a k j = pending net a k j := by
  rw [pending, pending, hsim.servers]
  rfl

/-- CORRECT (one step): every step of the wire is a step of the network, or none. -/
theorem wireStep_simulated (hsim : Simulates sites M w net) {l : WireLabel}
    (h : wireStep sites w l = some w') : Matched sites M w l w' net := by
  have hw := h
  cases l with
  | connect id a i stream => exact .inl (connect_simulated hsim h)
  | forward a k j i =>
    rw [wireStep, Wire.pending_net hsim] at h
    split at h
    · cases h
    · rename_i x t hp
      exact .inl (forward_simulated hsim hp h)
  | deliver a i n alloc => exact deliver_simulated hsim h
  | resume a i ans => exact resume_simulated hsim h
  | reply a i => exact .inl (reply_simulated hsim h)
  | receive a i n alloc => exact .inl (receive_simulated hsim h)
  | result a k j i =>
    rw [wireStep, Wire.pending_net hsim] at h
    split at h
    · cases h
    rename_i x t hp
    split at h
    · rename_i o sent resp hconn
      split at h
      · rename_i ho
        subst ho
        exact result_simulated hsim hp hconn h hw
      · cases h
    · cases h
  | fail a k j e =>
    refine ended_simulated hsim h hw fun s _ => ⟨.fail a k j e, ?_, fun hass => hass.2⟩
    rw [sendOne_error]
    rfl
  | lose a i =>
    obtain ⟨c, hconn, rfl⟩ := Option.map_eq_some_iff.mp h
    exact .inl (hsim.setPhase (hsim.conns a i c hconn).1 trivial)

end Fcopy
