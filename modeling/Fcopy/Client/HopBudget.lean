import Fcopy.Network.Hops
import Fcopy.Client.Topology

/-! The hops of an upload (`max_chain_len`).

    A worker sends a chunk with as many hops as there are targets. A target at depth `d` of the topology
    gets what is left of them, and answers `-ECANCELED` if that is not more than one and it has targets
    itself:

        worker ── n ──▶ 0 ── n - 1 ──▶ 1 ── n - 2 ──▶ 3
                        └─── n - 1 ──▶ 2

    A tree of `n` targets is less than `n` deep, so that is enough as long as the field can hold `n`. The
    client puts the low 16 bits of `n` into it, and neither the command line nor the target file stops at
    65535 targets. -/

namespace Fcopy
open Function Relation Relay Rooted Run

/-- The session of target `i` forwards to the targets it was given. -/
def LinkedAt (p : SenderParams) (tokens : List Bytes) (i : ℕ) (st : Store) : Prop :=
  ∃ info, st.fmap (tokenOf tokens i) = some info ∧ info.targets = linkTargets p tokens i

/-- The request for a chunk that reaches a target, with the targets it went through, last one first. -/
inductive Arrives (p : SenderParams) (tokens : List Bytes) (offset : BitVec 64) (data : Bytes) :
    List ℕ → SendFileReq → Prop
  | sent : Arrives p tokens offset data [0] (sendRequest p tokens offset data)
  | forwarded {i : ℕ} {ns : List ℕ} {req : SendFileReq} {st : Store} {x : Sending} {k j : ℕ}
      {t : ChainTarget} (h : Arrives p tokens offset data (i :: ns) req) (hst : LinkedAt p tokens i st)
      (hx : handleSendFile st req data = .sending x) (ht : x.targets[k]? = some t)
      (hj : (linksOf p.sendMethod tokens.length i)[k]? = some j) :
      Arrives p tokens offset data (j :: i :: ns) (chainRequest x.req t)

/-- A request at depth `d` has `n - d` hops, and no target that has to forward it refuses it. -/
def HopBudget (p : SenderParams) (tokens : List Bytes) : Prop :=
  ∀ offset data i ns req, Arrives p tokens offset data (i :: ns) req →
    req.maxChainLen.toNat = p.targets.length - ns.length ∧
      (linkTargets p tokens i ≠ [] → ∀ st, LinkedAt p tokens i st →
        handleSendFile st req data ≠ .finished ⟨-ECANCELED, []⟩)

variable {p : SenderParams} {tokens : List Bytes} {offset : BitVec 64} {data : Bytes} {ns : List ℕ}
  {req : SendFileReq} {i : ℕ}

/-- What a request meets at a target. -/
theorem handleSendFile_linked (data : Bytes) {st : Store} (hst : LinkedAt p tokens i st)
    (hreq : req.fileToken = tokenOf tokens i) :
    req.maxChainLen.toNat ≤ 1 ∧ linkTargets p tokens i ≠ [] ∧
        handleSendFile st req data = .finished ⟨-ECANCELED, []⟩ ∨
      (linkTargets p tokens i ≠ [] → 1 < req.maxChainLen.toNat) ∧
        ∃ x, handleSendFile st req data = .sending x ∧ x.req = req ∧ x.data = data ∧
          x.targets = linkTargets p tokens i := by
  obtain ⟨info, hf, htargets⟩ := hst
  simp only [handleSendFile, sendStart, Store.getFd, hreq, hf, htargets]
  split
  · rename_i e he
    split at he
    · rename_i hcancel
      cases he
      exact .inl ⟨hcancel.1, hcancel.2, rfl⟩
    · cases he
  · rename_i x hx
    split at hx
    · cases hx
    · rename_i hgo
      cases hx
      exact .inr ⟨fun hne => Nat.lt_of_not_le fun hle => hgo ⟨hle, hne⟩, _, rfl, rfl, rfl, rfl⟩

namespace Arrives

/-- The way of a request is a walk of the topology, and the request names the session there. -/
theorem walk : ∀ {ns : List ℕ} {req : SendFileReq}, Arrives p tokens offset data ns req →
    Walk (Forwards p.sendMethod tokens.length) 0 ns
  | _, _, .sent => .root
  | _, _, .forwarded h _ _ _ hj => h.walk.step (List.mem_of_getElem? hj)

/-- A forward goes to a link of the topology. -/
theorem forward_eq {st : Store} {x : Sending} {k j : ℕ} {t : ChainTarget}
    (hreq : req.fileToken = tokenOf tokens i) (hst : LinkedAt p tokens i st)
    (hx : handleSendFile st req data = .sending x) (ht : x.targets[k]? = some t)
    (hj : (linksOf p.sendMethod tokens.length i)[k]? = some j) :
    x.req = req ∧ t = chainTarget p tokens j ∧ 1 < req.maxChainLen.toNat := by
  rcases handleSendFile_linked data hst hreq with ⟨_, _, hfin⟩ | ⟨hlen, x', hx', hxreq, _, hxt⟩
  · rw [hfin] at hx
    cases hx
  · obtain rfl : x' = x := by simpa [hx'] using hx
    rw [hxt] at ht
    have hne : linkTargets p tokens i ≠ [] := List.ne_nil_of_mem (List.mem_of_getElem? ht)
    rw [linkTargets, List.getElem?_map, hj] at ht
    exact ⟨hxreq, (Option.some.inj ht).symm, hlen hne⟩

theorem fileToken : ∀ {i : ℕ} {ns : List ℕ} {req : SendFileReq},
    Arrives p tokens offset data (i :: ns) req → req.fileToken = tokenOf tokens i
  | _, _, _, .sent => rfl
  | _, _, _, .forwarded h hst hx ht hj => by
    obtain ⟨_, rfl, _⟩ := forward_eq h.fileToken hst hx ht hj
    rfl

/-- What the field holds at first, less one for each forward. -/
theorem hops : ∀ {i : ℕ} {ns : List ℕ} {req : SendFileReq},
    Arrives p tokens offset data (i :: ns) req →
      req.maxChainLen.toNat + ns.length = p.targets.length % 2 ^ 16
  | _, _, _, .sent => BitVec.toNat_ofNat ..
  | _, _, _, .forwarded h hst hx ht hj => by
    obtain ⟨hreq, _, hlen⟩ := forward_eq h.fileToken hst hx ht hj
    have hbefore := h.hops
    rw [hreq, chainRequest_maxChainLen _ hlen, List.length_cons]
    omega

end Arrives

/-- A target with links is not as deep as the number of targets. -/
theorem depth_lt (hn : 1 ≤ tokens.length) (h : Walk (Forwards p.sendMethod tokens.length) 0 (i :: ns))
    (hlinks : linkTargets p tokens i ≠ []) : ns.length + 1 < tokens.length := by
  obtain ⟨j, hj⟩ := List.exists_mem_of_ne_nil _ (mt List.map_eq_nil_iff.mpr hlinks)
  have hlen := (targets_tree p.sendMethod hn).length_le (h.step hj)
  have hlt : j < tokens.length := (mem_linksOf.mp hj).2.1
  simp only [List.length_cons, id_eq] at hlen
  omega

theorem linkedAt_exists (p : SenderParams) (tokens : List Bytes) (i : ℕ) : ∃ st, LinkedAt p tokens i st :=
  ⟨⟨fun _ => some ⟨3, 0, [], [], [], linkTargets p tokens i, ⟨0, []⟩⟩, sampleServer.store.os⟩, _, rfl, rfl⟩

/-- Where the hops suffice, the chunk reaches each target, by its one walk. -/
theorem arrives_of_walk (hn : 1 ≤ tokens.length) (hlen : tokens.length = p.targets.length)
    (hsmall : p.targets.length < 2 ^ 16) (offset : BitVec 64) (data : Bytes) {ns : List ℕ}
    (h : Walk (Forwards p.sendMethod tokens.length) 0 ns) :
    ∃ req, Arrives p tokens offset data ns req := by
  induction h with
  | root => exact ⟨_, .sent⟩
  | @step i j _ h hij ih =>
    obtain ⟨req, hreq⟩ := ih
    obtain ⟨k, hk⟩ := List.mem_iff_getElem?.mp hij
    obtain ⟨st, hst⟩ := linkedAt_exists p tokens i
    have hlinks : linkTargets p tokens i ≠ [] := mt List.map_eq_nil_iff.mp (List.ne_nil_of_mem hij)
    have hdepth := depth_lt hn h hlinks
    have hhops := hreq.hops
    rw [Nat.mod_eq_of_lt hsmall] at hhops
    rcases handleSendFile_linked data hst hreq.fileToken with ⟨hle, _⟩ | ⟨_, x, hx, _, _, hxt⟩
    · omega
    · have ht : x.targets[k]? = some (chainTarget p tokens j) := by
        rw [hxt, linkTargets, List.getElem?_map, hk, Option.map_some]
      exact ⟨_, hreq.forwarded hst hx ht hk⟩

/-- A chunk that is sent with one hop or none ends at target 0, if that has to forward it. -/
theorem sent_refused (hsmall : p.targets.length % 2 ^ 16 ≤ 1) (hlinks : linkTargets p tokens 0 ≠ [])
    {st : Store} (hst : LinkedAt p tokens 0 st) (offset : BitVec 64) (data : Bytes) :
    handleSendFile st (sendRequest p tokens offset data) data = .finished ⟨-ECANCELED, []⟩ := by
  have hlen : (sendRequest p tokens offset data).maxChainLen.toNat = p.targets.length % 2 ^ 16 :=
    BitVec.toNat_ofNat ..
  have htoken : (sendRequest p tokens offset data).fileToken = tokenOf tokens 0 := rfl
  rcases handleSendFile_linked data hst htoken with ⟨_, _, h⟩ | ⟨hlt, _⟩
  · exact h
  · have := hlt hlinks
    omega

/-- CORRECT (exact condition): the hops suffice exactly when the field can hold the number of targets. -/
theorem hop_budget_iff (p : SenderParams) (tokens : List Bytes)
    (hlen : tokens.length = p.targets.length) (hn : 1 ≤ p.targets.length) :
    HopBudget p tokens ↔ p.targets.length < 2 ^ 16 := by
  constructor
  · intro h
    have hfirst : (sendRequest p tokens 0 []).maxChainLen.toNat = p.targets.length :=
      (h 0 [] 0 [] _ .sent).1
    exact hfirst ▸ (sendRequest p tokens 0 []).maxChainLen.isLt
  · intro hsmall offset data i ns req h
    have hhops := h.hops
    rw [Nat.mod_eq_of_lt hsmall] at hhops
    refine ⟨by omega, fun hlinks st hst hfin => ?_⟩
    have hdepth := depth_lt (hlen ▸ hn) h.walk hlinks
    rcases handleSendFile_linked data hst h.fileToken with ⟨hle, _⟩ | ⟨_, x, hx, _⟩
    · omega
    · rw [hx] at hfin
      cases hfin

/-- Three targets, as a chain. -/
theorem hop_budget_three :
    let p : SenderParams :=
      { chunkSize := 8192, remoteFileName := [97], parallel := 1,
        targets := [([1], 1), ([2], 2), ([3], 3)] }
    HopBudget p [[48], [49], [50]] :=
  (hop_budget_iff _ _ rfl (by decide)).mpr (by decide)

/-- 65536 targets, as a chain: a chunk is sent without hops, and target 0 refuses it. -/
theorem hop_budget_fails :
    let p : SenderParams :=
      { chunkSize := 8192, remoteFileName := [97], parallel := 1,
        targets := (List.range 65536).map fun i => (decimal i, 5200) }
    let tokens := List.replicate 65536 [48]
    linkTargets p tokens 0 ≠ [] ∧
      (∀ st, LinkedAt p tokens 0 st →
        handleSendFile st (sendRequest p tokens 0 [104]) [104] = .finished ⟨-ECANCELED, []⟩) ∧
      ¬HopBudget p tokens := by
  intro p tokens
  have hlinks : linkTargets p tokens 0 ≠ [] := by
    rw [Ne, linkTargets_eq_nil, List.length_replicate]
    decide
  have hn : p.targets.length = 65536 := by rw [List.length_map, List.length_range]
  refine ⟨hlinks, fun st hst => sent_refused (by rw [hn]; decide) hlinks hst 0 [104], fun hb => ?_⟩
  have hlt := (hb 0 [104] 0 [] _ .sent).1 ▸ (sendRequest p tokens 0 [104]).maxChainLen.isLt
  rw [hn] at hlt
  exact absurd hlt (by decide)

/-! ### In the network -/

/-- The sessions of the upload are set up. -/
def Linked (p : SenderParams) (tokens : List Bytes) (net : Net) : Prop :=
  ∀ i < tokens.length, LinkedAt p tokens i (net.servers (addrOf p i)).store

/-- The handlers that work on the request of handler `x₀`, each at its target. -/
def Follows (p : SenderParams) (tokens : List Bytes) (offset : BitVec 64) (data : Bytes)
    (x₀ : Addr × ℕ) (net : Net) : Prop :=
  ∀ y s, ReflTransGen (Caused net) x₀ y → net.served y.1 y.2 = some s →
    ∃ j ns, Arrives p tokens offset data (j :: ns) s.req ∧ s.data = data ∧ y.1 = addrOf p j ∧
      ∀ x, (net.servers y.1).handlers y.2 = .sending x → x.data = data ∧ x.targets = linkTargets p tokens j

section
variable {conf : Addr → Conf} {net net' : Net} {x₀ x y : Addr × ℕ} {l : NetLabel}

theorem Arrives.lt (hn : 1 ≤ tokens.length) (h : Arrives p tokens offset data (i :: ns) req) :
    i < tokens.length :=
  (targets_tree p.sendMethod hn).walk_mem h.walk

/-- What led to a request that was there before led to it before. -/
theorem caused_before (hn : Hops net) (h : netStep conf net l = some net')
    (hr : ReflTransGen (Caused net') x y) (hy : net.served y.1 y.2 ≠ none) :
    ReflTransGen (Caused net) x y := by
  induction hr with
  | refl => exact .refl
  | @tail z y _ hzy ih =>
    obtain ⟨s, hs⟩ := Option.ne_none_iff_exists'.mp hy
    obtain ⟨s', j, hs', ho⟩ := hzy
    obtain rfl : s' = s := Option.some.inj (hs'.symm.trans (hn.served_step h hs))
    obtain ⟨q, _, hq, _⟩ := hn.cause _ _ _ _ _ _ hs ho
    exact (ih (by rw [hq]; exact Option.some_ne_none q)).tail ⟨s', j, hs, ho⟩

/-- The targets of a handler that starts with a request of the upload. -/
theorem linked_targets {st : Store} (hst : LinkedAt p tokens i st) (hreq : req.fileToken = tokenOf tokens i)
    {x : Sending} (hx : handleSendFile st req data = .sending x) :
    x.data = data ∧ x.targets = linkTargets p tokens i := by
  rcases handleSendFile_linked data hst hreq with ⟨_, _, hfin⟩ | ⟨_, x', hx', _, hdata, ht⟩
  · rw [hfin] at hx
    cases hx
  · obtain rfl : x' = x := by simpa [hx'] using hx
    exact ⟨hdata, ht⟩

theorem Follows.step {id : ℕ} (hlen : 1 ≤ tokens.length) (hn : Hops net) (hlinked : Linked p tokens net)
    (hx₀ : x₀.1 = addrOf p 0) (h : netStep conf net l = some net')
    (hstart : net'.served x₀.1 x₀.2 = some ⟨.client id, sendRequest p tokens offset data, data⟩)
    (hf : Follows p tokens offset data x₀ net) : Follows p tokens offset data x₀ net' := by
  intro y s hr hs
  cases hold : net.served y.1 y.2 with
  | some s₀ =>
    obtain rfl : s₀ = s := Option.some.inj ((hn.served_step h hold).symm.trans hs)
    have hy : net.served y.1 y.2 ≠ none := by simp [hold]
    obtain ⟨j, ns, harr, hdata, haddr, hsend⟩ := hf y s₀ (caused_before hn h hr hy) hold
    refine ⟨j, ns, harr, hdata, haddr, fun x hx => ?_⟩
    obtain ⟨x', hx', _, hxdata, htargets⟩ := hn.sending_step h hy hx
    rw [hxdata, htargets]
    exact hsend x' hx'
  | none =>
    obtain ⟨hhandler, _⟩ := new_served h hold hs
    -- it is enough to know where the request comes from
    suffices hfrom : ∃ j ns, Arrives p tokens offset data (j :: ns) s.req ∧ s.data = data ∧
        y.1 = addrOf p j by
      obtain ⟨j, ns, harr, hdata, haddr⟩ := hfrom
      refine ⟨j, ns, harr, hdata, haddr, fun x hx => ?_⟩
      rw [hhandler, hdata, haddr] at hx
      exact linked_targets (hlinked j (harr.lt hlen)) harr.fileToken hx
    rcases hr.cases_tail with heq | ⟨z, hz, hzy⟩
    · rw [heq, hstart] at hs
      cases hs
      exact ⟨0, [], .sent, rfl, heq ▸ hx₀⟩
    · obtain ⟨s', k, hs', ho⟩ := hzy
      obtain rfl : s' = s := Option.some.inj (hs'.symm.trans hs)
      rcases netStep_served h hs with hs | ⟨_, _, _, _, rfl⟩ | ⟨_, _, _, q, x, t, _, hq, hp, haddr, rfl⟩
      · rw [hold] at hs
        cases hs
      · cases ho
      · cases ho
        obtain ⟨hx, ht, _⟩ := pending_eq hp
        have hz' : net.served z.1 z.2 ≠ none := by simp [hq]
        obtain ⟨i, ns, harr, hdata, hi, hsend⟩ := hf z q (caused_before hn h hz hz') hq
        obtain ⟨hxreq, hhops⟩ := hn.sender _ _ q x hq hx
        obtain ⟨hxdata, hxt⟩ := hsend x hx
        have hlt := hhops (List.ne_nil_of_mem (List.mem_of_getElem? ht))
        rw [hxt, linkTargets, List.getElem?_map] at ht
        obtain ⟨j, hj, rfl⟩ := Option.map_eq_some_iff.mp ht
        -- the session still says what the handler started with
        have hst := hlinked i (harr.lt hlen)
        rcases handleSendFile_linked data hst harr.fileToken with
          ⟨hle, _⟩ | ⟨_, x', hx', hxreq', _, hxt'⟩
        · omega
        · rw [linkTargets] at hxt'
          have hnext : x'.targets[k]? = some (chainTarget p tokens j) := by
            rw [hxt', List.getElem?_map, hj, Option.map_some]
          refine ⟨j, i :: ns, ?_, hxdata, haddr⟩
          rw [hxreq, ← hxreq']
          exact harr.forwarded hst hx' hnext hj

/-- CORRECT (network): in any run of the network in which the sessions of the upload stay as they were
    set up, a request that a chunk sent to target 0 leads to, at whatever remove, arrives so. -/
theorem upload_arrives {ls : List NetLabel} {id : ℕ} (hlen : 1 ≤ tokens.length)
    (h₀ : ∀ a i, net.served a i = none) (h : NetRuns conf net ls net')
    (hlinked : Everywhere (ofStep (netStep conf)) (Linked p tokens) net ls) (hx₀ : x₀.1 = addrOf p 0)
    (hstart : net'.served x₀.1 x₀.2 = some ⟨.client id, sendRequest p tokens offset data, data⟩) :
    Follows p tokens offset data x₀ net' := by
  have hevery : EveryStep (ofStep (netStep conf)) (fun net _ => Linked p tokens net) net ls :=
    fun ls₁ l ls₂ t heq ht => hlinked ls₁ (l :: ls₂) t heq ht
  have hempty : Hops net := by
    refine ⟨fun a i hs => absurd (h₀ a i) hs, fun a i s x hs => ?_, fun b i s a k j hs => ?_⟩
    · rw [h₀] at hs
      cases hs
    · rw [h₀] at hs
      cases hs
  refine (h.guarded (P := fun net => Hops net ∧
    (net.served x₀.1 x₀.2 = some ⟨.client id, sendRequest p tokens offset data, data⟩ →
      Follows p tokens offset data x₀ net)) ?_ hevery ⟨hempty, ?_⟩).2 hstart
  · intro net l net' ⟨hn, hf⟩ hl hstep
    refine ⟨hn.preserved hstep, fun hs => Follows.step hlen hn hl hx₀ hstep hs ?_⟩
    cases hold : net.served x₀.1 x₀.2 with
    | some s => exact hf (hold ▸ (hn.served_step hstep hold).symm.trans hs)
    | none =>
      -- nothing follows from a request that is yet to come
      intro y s hr hy
      rcases hr.cases_head with rfl | ⟨z, ⟨s', j, hz, ho⟩, _⟩
      · rw [hold] at hy
        cases hy
      · obtain ⟨q, _, hq, _⟩ := hn.cause _ _ _ _ _ _ hz ho
        rw [hold] at hq
        cases hq
  · intro hs
    rw [h₀] at hs
    cases hs

end

end Fcopy
