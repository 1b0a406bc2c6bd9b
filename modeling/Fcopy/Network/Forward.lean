import Fcopy.Server.Replies

/-! A network of servers that forward chunks (`send_one`, `send_chain`, `FcopyClient::request`).

    Each address has a server with the machine of its handlers. A `SEND_FILE_REQ` comes from a client
    or is forward `j` of a handler at another server; it is delivered once or, on a retry, again, each
    time to a handler of its own. A forward ends with the reply of one of these handlers, or with an
    error of the transport. All other handlers of the servers take their steps in between (`other`):

        client ──request──▶ (a, k) ──forward──▶ (b, i)      (a, k) writes, and waits for its forwards
                            (a, k) ◀──answer─── (b, i)
                            (a, k) ◀──fail                  the transport gave up

    `served` and `log` are not part of the servers: what each handler was asked, and which writes the
    system has carried out at each server. -/

namespace Fcopy
open Function

/-- Host and port. -/
abbrev Addr := Bytes × BitVec 16

def ChainTarget.addr (t : ChainTarget) : Addr := (t.host, t.port)

/-- Who waits for a reply: a client, or forward `j` of handler `k` at `a`. -/
inductive Origin where
  | client (id : ℕ)
  | hop (a : Addr) (k j : ℕ)
  deriving DecidableEq

structure Served where
  origin : Origin
  req : SendFileReq
  data : Bytes
  deriving DecidableEq

structure Write where
  file : List Bytes
  offset : BitVec 64
  bytes : Bytes
  deriving DecidableEq

structure Net where
  servers : Addr → Server
  served : Addr → ℕ → Option Served
  log : Addr → List Write

inductive NetLabel where
  | request (id : ℕ) (a : Addr) (i : ℕ) (req : SendFileReq) (data : Bytes)
  | forward (a : Addr) (k j i : ℕ)
  | answer (a : Addr) (k j i : ℕ)
  | fail (a : Addr) (k j : ℕ) (error : ℤ)
  | proceed (a : Addr) (i : ℕ) (ans : Answer)
  | other (a : Addr) (l : Label)
  deriving DecidableEq

/-- The handler that takes a step of a server. -/
def Label.handler : Label → ℕ
  | .arrive i _ | .resume i _ => i

/-- The write the system carries out when it answers handler `i` so. -/
def written (s : Server) (i : ℕ) (ans : Answer) : List Write :=
  match s.handlers i, ans with
  | .sending x, .wrote n =>
    ((s.store.os.fds x.fd).map fun d =>
      (⟨d.file, x.req.offset, (writeData x.data).take n⟩ : Write)).toList
  | _, _ => []

section
variable (conf : Addr → Conf) (net : Net)

/-- A request reaches the server at `a`, where handler `i` takes it. -/
def arrival (a : Addr) (i : ℕ) (s : Served) : Option Net :=
  (step (conf a) (net.servers a) (.arrive i (.send s.req s.data))).map fun server =>
    { net with
      servers := update net.servers a server
      served := update net.served a (update (net.served a) i (some s)) }

/-- A handler at `a` that serves none of the requests takes a step. -/
def others (a : Addr) (l : Label) : Option Net :=
  if net.served a l.handler = none then
    (step (conf a) (net.servers a) l).map fun server =>
      { net with servers := update net.servers a server }
  else none

/-- Handler `i` at `a`, which serves a request, moves on. -/
def move (a : Addr) (i : ℕ) (ans : Answer) : Option Net :=
  if net.served a i = none then none
  else (step (conf a) (net.servers a) (.resume i ans)).map fun server =>
    { net with
      servers := update net.servers a server
      log := update net.log a (net.log a ++ written (net.servers a) i ans) }

/-- The target of forward `j` of handler `k` at `a`, while the handler waits for it. -/
def pending (a : Addr) (k j : ℕ) : Option (Sending × ChainTarget) :=
  match (net.servers a).handlers k with
  | .sending x =>
    if x.chainErrors[j]? = some none then x.targets[j]?.map fun t => (x, t) else none
  | _ => none

def netStep : NetLabel → Option Net
  | .request id a i req data => arrival conf net a i ⟨.client id, req, data⟩
  | .forward a k j i =>
    match net.served a k, pending net a k j with
    | some _, some (x, t) => arrival conf net t.addr i ⟨.hop a k j, chainRequest x.req t, x.data⟩
    | _, _ => none
  | .answer a k j i =>
    match pending net a k j with
    | none => none
    | some (_, t) =>
      match net.served t.addr i, (net.servers t.addr).handlers i with
      | some s, .finished r =>
        if s.origin = .hop a k j then move conf net a k (.answered j (wireError r.error)) else none
      | _, _ => none
  | .fail a k j error => move conf net a k (.answered j error)
  | .proceed a i ans =>
    match ans with
    | .wrote _ | .failed _ | .done => move conf net a i ans
    | _ => none
  | .other a l => others conf net a l

end

/-- Runs of the network. -/
abbrev NetRuns (conf : Addr → Conf) : Net → List NetLabel → Net → Prop :=
  Run.Steps (Run.ofStep (netStep conf))

/-! ### What a step of the network is -/

variable {conf : Addr → Conf} {net net' : Net}

theorem served_update {f : Addr → ℕ → Option Served} {a b : Addr} {i j : ℕ} {v : Option Served} :
    update f a (update (f a) i v) b j = if b = a ∧ j = i then v else f b j := by
  by_cases hb : b = a
  · subst hb
    by_cases hj : j = i
    · rw [hj, update_self, update_self, if_pos ⟨rfl, rfl⟩]
    · rw [update_self, update_of_ne hj, if_neg fun h => hj h.2]
  · rw [update_of_ne hb, if_neg fun h => hb h.1]

theorem handlers_update {servers : Addr → Server} {a b : Addr} {i j : ℕ} {st : Store} {h : Handler} :
    (update servers a ⟨st, update (servers a).handlers i h⟩ b).handlers j =
      if b = a ∧ j = i then h else (servers b).handlers j := by
  by_cases hb : b = a
  · subst hb
    by_cases hj : j = i
    · simp only [hj, update_self, and_self, if_true]
    · simp only [update_self, update_of_ne hj, hj, and_false, if_false]
  · rw [update_of_ne hb, if_neg fun h => hb h.1]

theorem arrival_eq {a : Addr} {i : ℕ} {s : Served} (h : arrival conf net a i s = some net') :
    (net.servers a).handlers i = .idle ∧
      net' = ⟨update net.servers a ⟨(net.servers a).store, update (net.servers a).handlers i
          (handleSendFile (net.servers a).store s.req s.data)⟩,
        update net.served a (update (net.served a) i (some s)), net.log⟩ := by
  obtain ⟨server, hstep, rfl⟩ := Option.map_eq_some_iff.mp h
  rcases step_cases hstep with ⟨_, _, hl, hidle, rfl⟩ | ⟨_, _, _, _, hl, _⟩ <;> cases hl
  exact ⟨hidle, rfl⟩

theorem move_eq {a : Addr} {i : ℕ} {ans : Answer} (h : move conf net a i ans = some net') :
    ∃ s st' h', net.served a i = some s ∧
      Effect (net.servers a).store ((net.servers a).handlers i) ans st' h' ∧
      net' = ⟨update net.servers a ⟨st', update (net.servers a).handlers i h'⟩, net.served,
        update net.log a (net.log a ++ written (net.servers a) i ans)⟩ := by
  rw [move] at h
  split at h
  · cases h
  rename_i hs
  obtain ⟨s, hs⟩ := Option.ne_none_iff_exists'.mp hs
  obtain ⟨server, hstep, rfl⟩ := Option.map_eq_some_iff.mp h
  rcases step_cases hstep with ⟨_, _, hl, _⟩ | ⟨_, _, st', h', hl, heff, rfl⟩ <;> cases hl
  exact ⟨s, st', h', hs, heff, rfl⟩

theorem others_eq {a : Addr} {l : Label} (h : others conf net a l = some net') :
    net.served a l.handler = none ∧ ∃ server, step (conf a) (net.servers a) l = some server ∧
      net' = { net with servers := update net.servers a server } := by
  rw [others] at h
  split at h
  · rename_i hs
    obtain ⟨server, hstep, rfl⟩ := Option.map_eq_some_iff.mp h
    exact ⟨hs, server, hstep, rfl⟩
  · cases h

/-- A step leaves the other handlers of its server as they are. -/
theorem handlers_step {c : Conf} {s s' : Server} {l : Label} (h : step c s l = some s') {i : ℕ}
    (hi : i ≠ l.handler) : s'.handlers i = s.handlers i := by
  rcases step_cases h with ⟨j, req, rfl, _, rfl⟩ | ⟨j, ans, st', h', rfl, _, rfl⟩
  · exact update_of_ne hi ..
  · exact update_of_ne hi ..

theorem others_handlers {a b : Addr} {i : ℕ} {l : Label} (h : others conf net a l = some net')
    (hs : net.served b i ≠ none) : (net'.servers b).handlers i = (net.servers b).handlers i := by
  obtain ⟨hfree, server, hstep, rfl⟩ := others_eq h
  by_cases hb : b = a
  · subst hb
    simp only [update_self]
    exact handlers_step hstep (by rintro rfl; exact hs hfree)
  · simp only [update_of_ne hb]

theorem pending_eq {a : Addr} {k j : ℕ} {x : Sending} {t : ChainTarget}
    (h : pending net a k j = some (x, t)) :
    (net.servers a).handlers k = .sending x ∧ x.targets[j]? = some t ∧
      x.chainErrors[j]? = some none := by
  rw [pending] at h
  split at h
  · rename_i x' hk
    split at h
    · rename_i hj
      obtain ⟨t', ht, heq⟩ := Option.map_eq_some_iff.mp h
      cases heq
      exact ⟨hk, ht, hj⟩
    · cases h
  · cases h

/-- The steps of the network: a request from a client, a request from a handler that waits for it, a
    move of a handler, with where the results of forwards come from, or a step of another handler. -/
theorem netStep_cases {l : NetLabel} (h : netStep conf net l = some net') :
    (∃ id a i req data, l = .request id a i req data ∧
      arrival conf net a i ⟨.client id, req, data⟩ = some net') ∨
    (∃ a k j i p x t, l = .forward a k j i ∧ net.served a k = some p ∧
      pending net a k j = some (x, t) ∧
      arrival conf net t.addr i ⟨.hop a k j, chainRequest x.req t, x.data⟩ = some net') ∨
    (∃ a k j i x t s r, l = .answer a k j i ∧ pending net a k j = some (x, t) ∧
      net.served t.addr i = some s ∧ (net.servers t.addr).handlers i = .finished r ∧
      s.origin = .hop a k j ∧ move conf net a k (.answered j (wireError r.error)) = some net') ∨
    (∃ a k j e, l = .fail a k j e ∧ move conf net a k (.answered j e) = some net') ∨
    (∃ a i ans, l = .proceed a i ans ∧ (∀ j e, ans ≠ .answered j e) ∧
      move conf net a i ans = some net') ∨
    ∃ a l', l = .other a l' ∧ others conf net a l' = some net' := by
  cases l with
  | request id a i req data => exact .inl ⟨id, a, i, req, data, rfl, h⟩
  | forward a k j i =>
    rw [netStep] at h
    split at h
    · rename_i p x t hp ht
      exact .inr (.inl ⟨a, k, j, i, p, x, t, rfl, hp, ht, h⟩)
    · cases h
  | answer a k j i =>
    rw [netStep] at h
    split at h
    · cases h
    rename_i x t ht
    split at h
    · rename_i s r hs hr
      split at h
      · rename_i ho
        exact .inr (.inr (.inl ⟨a, k, j, i, x, t, s, r, rfl, ht, hs, hr, ho, h⟩))
      · cases h
    · cases h
  | fail a k j e => exact .inr (.inr (.inr (.inl ⟨a, k, j, e, rfl, h⟩)))
  | proceed a i ans =>
    cases ans with
    | wrote n => exact .inr (.inr (.inr (.inr (.inl ⟨a, i, _, rfl, by simp, h⟩))))
    | failed e => exact .inr (.inr (.inr (.inr (.inl ⟨a, i, _, rfl, by simp, h⟩))))
    | done => exact .inr (.inr (.inr (.inr (.inl ⟨a, i, _, rfl, by simp, h⟩))))
    | _ => cases h
  | other a l => exact .inr (.inr (.inr (.inr (.inr ⟨a, l, rfl, h⟩))))

/-- A request served after a step was served before, or is the client's, or a forward. -/
theorem netStep_served {l : NetLabel} (h : netStep conf net l = some net') {b : Addr} {j : ℕ}
    {s : Served} (hs : net'.served b j = some s) :
    net.served b j = some s ∨
      (∃ id req data, l = .request id b j req data ∧ s = ⟨.client id, req, data⟩) ∨
      ∃ a k j' p x t, l = .forward a k j' j ∧ net.served a k = some p ∧
        pending net a k j' = some (x, t) ∧ b = t.addr ∧
        s = ⟨.hop a k j', chainRequest x.req t, x.data⟩ := by
  have harr : ∀ {a i v}, arrival conf net a i v = some net' →
      net.served b j = some s ∨ (b = a ∧ j = i) ∧ s = v := by
    intro a i v h
    obtain ⟨_, rfl⟩ := arrival_eq h
    simp only [served_update] at hs
    split at hs
    · rename_i hbj
      cases hs
      exact .inr ⟨hbj, rfl⟩
    · exact .inl hs
  have hmove : ∀ {a i ans}, move conf net a i ans = some net' → net.served b j = some s := by
    intro a i ans h
    obtain ⟨_, _, _, _, _, rfl⟩ := move_eq h
    exact hs
  rcases netStep_cases h with ⟨id, a, i, req, data, rfl, h⟩ | ⟨a, k, j', i, p, x, t, rfl, hp, hpend, h⟩ |
    ⟨_, _, _, _, _, _, _, _, _, _, _, _, _, h⟩ | ⟨_, _, _, _, _, h⟩ | ⟨_, _, _, _, _, h⟩ |
    ⟨_, _, _, h⟩
  · rcases harr h with h | ⟨⟨rfl, rfl⟩, rfl⟩
    · exact .inl h
    · exact .inr (.inl ⟨id, req, data, rfl, rfl⟩)
  · rcases harr h with h | ⟨⟨rfl, rfl⟩, rfl⟩
    · exact .inl h
    · exact .inr (.inr ⟨a, k, j', p, x, t, rfl, hp, hpend, rfl, rfl⟩)
  · exact .inl (hmove h)
  · exact .inl (hmove h)
  · exact .inl (hmove h)
  · obtain ⟨_, _, _, rfl⟩ := others_eq h
    exact .inl hs

/-- The three kinds of steps, without where they come from. -/
theorem netStep_kinds {l : NetLabel} (h : netStep conf net l = some net') :
    (∃ a i s, arrival conf net a i s = some net') ∨ (∃ a i ans, move conf net a i ans = some net') ∨
      ∃ a l', others conf net a l' = some net' := by
  rcases netStep_cases h with ⟨_, a, i, _, _, _, h⟩ | ⟨_, _, _, i, _, _, t, _, _, _, h⟩ |
    ⟨a, k, _, _, _, _, _, _, _, _, _, _, _, h⟩ | ⟨a, k, _, _, _, h⟩ | ⟨a, i, ans, _, _, h⟩ |
    ⟨a, l', _, h⟩
  · exact .inl ⟨a, i, _, h⟩
  · exact .inl ⟨t.addr, i, _, h⟩
  · exact .inr (.inl ⟨a, k, _, h⟩)
  · exact .inr (.inl ⟨a, k, _, h⟩)
  · exact .inr (.inl ⟨a, i, ans, h⟩)
  · exact .inr (.inr ⟨a, l', h⟩)

/-- What a handler that is not idle serves stays. -/
theorem served_kept {l : NetLabel} (h : netStep conf net l = some net') {a : Addr} {i : ℕ}
    (hi : (net.servers a).handlers i ≠ .idle) : net'.served a i = net.served a i := by
  rcases netStep_kinds h with ⟨b, j, s, h⟩ | ⟨b, j, ans, h⟩ | ⟨b, l', h⟩
  · obtain ⟨hidle, rfl⟩ := arrival_eq h
    simp only [served_update]
    rw [if_neg]
    rintro ⟨rfl, rfl⟩
    exact hi hidle
  · obtain ⟨_, _, _, _, _, rfl⟩ := move_eq h
    rfl
  · obtain ⟨_, _, _, rfl⟩ := others_eq h
    rfl

/-- A step of the network is a step of one server. -/
theorem netStep_server {l : NetLabel} (h : netStep conf net l = some net') :
    ∃ a l' server, step (conf a) (net.servers a) l' = some server ∧
      net'.servers = update net.servers a server := by
  rcases netStep_kinds h with ⟨a, i, s, h⟩ | ⟨a, i, ans, h⟩ | ⟨a, l', h⟩
  · obtain ⟨server, hstep, rfl⟩ := Option.map_eq_some_iff.mp h
    exact ⟨a, _, server, hstep, rfl⟩
  · rw [move] at h
    split at h
    · cases h
    obtain ⟨server, hstep, rfl⟩ := Option.map_eq_some_iff.mp h
    exact ⟨a, _, server, hstep, rfl⟩
  · obtain ⟨_, server, hstep, rfl⟩ := others_eq h
    exact ⟨a, l', server, hstep, rfl⟩

end Fcopy
