import Fcopy.Network.Acknowledge

/-! Forwarding ends.

    A request has the hops `max_chain_len`. A server forwards it with one hop less, and only if it has
    more than one (`Hops`), so whatever the session tables say, and however they change meanwhile, the
    forwards of a request are a tree of at most that depth:

        client ── 3 ──▶ (a, 0) ── 2 ──▶ (b, 0) ── 1 ──▶ (a, 1)      (a, 1) forwards to nobody

    An execution is any infinite sequence of steps, with pauses. If each forward is delivered only so
    many times, as the retry limit of the transport has it, the tree below a request is finite. -/

namespace Fcopy
open Function Relation Relay Run

/-- Handler `y.2` at `y.1` serves a forward of handler `x.2` at `x.1`. -/
def Caused (net : Net) (x y : Addr × ℕ) : Prop :=
  ∃ s j, net.served y.1 y.2 = some s ∧ s.origin = .hop x.1 x.2 j

/-- The hops of the request a handler serves. -/
def hopsOf (net : Net) (x : Addr × ℕ) : ℕ :=
  ((net.served x.1 x.2).map fun s => s.req.maxChainLen.toNat).getD 0

/-- The number of targets a sender has. -/
def targetCount (net : Net) (a : Addr) (k : ℕ) : ℕ :=
  match (net.servers a).handlers k with
  | .sending x => x.targets.length
  | _ => 0

/-- Senders serve their request and have hops left if they have targets, and forwards come from such. -/
structure Hops (net : Net) : Prop where
  busy : ∀ a i, net.served a i ≠ none → (net.servers a).handlers i ≠ .idle
  sender : ∀ a i s x, net.served a i = some s → (net.servers a).handlers i = .sending x →
    x.req = s.req ∧ (x.targets ≠ [] → 1 < s.req.maxChainLen.toNat)
  cause : ∀ b i s a k j, net.served b i = some s → s.origin = .hop a k j →
    ∃ p t, net.served a k = some p ∧ 1 < p.req.maxChainLen.toNat ∧ s.req = chainRequest p.req t

/-- Each forward is delivered only so many times. -/
def RetriesEnd (labels : ℕ → Option NetLabel) : Prop :=
  ∀ a k j, {n | ∃ i, labels n = some (.forward a k j i)}.Finite

variable {conf : Addr → Conf} {net net' : Net}

/-! ### One step -/

theorem handleSendFile_hops {st : Store} {req : SendFileReq} {data : Bytes} {x : Sending}
    (h : handleSendFile st req data = .sending x) :
    x.req = req ∧ (x.targets ≠ [] → 1 < req.maxChainLen.toNat) := by
  rcases handleSendFile_kinds st req data with ⟨_, e, he, _⟩ | ⟨href, info, hinfo, hx⟩
  · rw [he] at h
    cases h
  · rw [hx] at h
    cases h
    refine ⟨rfl, fun ht => Nat.lt_of_not_le fun hle => href (.inr ⟨info, hinfo, hle, ht⟩)⟩

theorem handleSendFile_not_idle (st : Store) (req : SendFileReq) (data : Bytes) :
    handleSendFile st req data ≠ .idle := by
  rcases handleSendFile_kinds st req data with ⟨_, e, he, _⟩ | ⟨_, info, _, hx⟩
  · rw [he]
    simp
  · rw [hx]
    simp

/-- An arrival takes a handler that serves nothing yet. -/
theorem Hops.arrival_free {a : Addr} {i : ℕ} {s : Served} (hn : Hops net)
    (h : arrival conf net a i s = some net') : net.served a i = none :=
  by_contra fun hne => hn.busy a i hne (arrival_eq h).1

/-- What a handler serves stays. -/
theorem Hops.served_step {l : NetLabel} (hn : Hops net) (h : netStep conf net l = some net') {b : Addr}
    {j : ℕ} {s : Served} (hs : net.served b j = some s) : net'.served b j = some s := by
  rcases netStep_kinds h with ⟨a, i, s', h⟩ | ⟨a, i, ans, h⟩ | ⟨a, l', h⟩
  · have hfree := hn.arrival_free h
    obtain ⟨_, rfl⟩ := arrival_eq h
    simp only [served_update]
    rw [if_neg, hs]
    rintro ⟨rfl, rfl⟩
    rw [hfree] at hs
    cases hs
  · obtain ⟨_, _, _, _, _, rfl⟩ := move_eq h
    exact hs
  · obtain ⟨_, _, _, rfl⟩ := others_eq h
    exact hs

/-- A handler that serves a request and is a sender was one before. -/
theorem Hops.sending_step {l : NetLabel} (hn : Hops net) (h : netStep conf net l = some net') {b : Addr}
    {j : ℕ} {x : Sending} (hs : net.served b j ≠ none)
    (hx : (net'.servers b).handlers j = .sending x) :
    ∃ y, (net.servers b).handlers j = .sending y ∧ x.req = y.req ∧ x.data = y.data ∧
      x.targets = y.targets := by
  rcases netStep_kinds h with ⟨a, i, s', h⟩ | ⟨a, i, ans, h⟩ | ⟨a, l', h⟩
  · have hfree := hn.arrival_free h
    obtain ⟨_, rfl⟩ := arrival_eq h
    simp only [handlers_update] at hx
    rw [if_neg] at hx
    · exact ⟨x, hx, rfl, rfl, rfl⟩
    · rintro ⟨rfl, rfl⟩
      exact hs hfree
  · obtain ⟨_, st', h', _, heff, rfl⟩ := move_eq h
    simp only [handlers_update] at hx
    split at hx
    · rename_i heq
      obtain ⟨rfl, rfl⟩ := heq
      subst hx
      obtain ⟨y, hy, hreq, hdata, _, _, htargets, _⟩ := heff.sending_before
      exact ⟨y, hy, hreq, hdata, htargets⟩
    · exact ⟨x, hx, rfl, rfl, rfl⟩
  · rw [others_handlers h hs] at hx
    exact ⟨x, hx, rfl, rfl, rfl⟩

/-- A handler that serves its first request starts as `handleSendFile` says. -/
theorem new_served {l : NetLabel} (h : netStep conf net l = some net') {b : Addr} {i : ℕ} {s : Served}
    (hfree : net.served b i = none) (hs : net'.served b i = some s) :
    (net'.servers b).handlers i = handleSendFile (net.servers b).store s.req s.data ∧
      arrival conf net b i s = some net' := by
  have hmove : net'.served ≠ net.served := by
    intro heq
    rw [heq, hfree] at hs
    cases hs
  rcases netStep_kinds h with ⟨a, j, s', h⟩ | ⟨a, j, ans, h⟩ | ⟨a, l', h⟩
  · have harr := h
    obtain ⟨_, rfl⟩ := arrival_eq h
    simp only [served_update] at hs
    split at hs
    · rename_i heq
      obtain ⟨rfl, rfl⟩ := heq
      cases hs
      exact ⟨by simp only [handlers_update, and_self, if_true], harr⟩
    · rw [hfree] at hs
      cases hs
  · obtain ⟨_, _, _, _, _, rfl⟩ := move_eq h
    exact absurd rfl hmove
  · obtain ⟨_, _, _, rfl⟩ := others_eq h
    exact absurd rfl hmove

/-- CORRECT (one step): forwards keep coming from senders with hops left, with one hop less. -/
theorem Hops.preserved {l : NetLabel} (hn : Hops net) (h : netStep conf net l = some net') :
    Hops net' := by
  have hstep := h
  refine ⟨fun b i hs => ?_, fun b i s x hs hx => ?_, fun b i s a k j hs ho => ?_⟩
  · rcases netStep_kinds h with ⟨a, j, s', h⟩ | ⟨a, j, ans, h⟩ | ⟨a, l', h⟩
    · obtain ⟨_, rfl⟩ := arrival_eq h
      simp only [handlers_update, served_update] at hs ⊢
      split
      · exact handleSendFile_not_idle _ _ _
      · rename_i hne
        rw [if_neg hne] at hs
        exact hn.busy b i hs
    · obtain ⟨_, st', h', _, heff, rfl⟩ := move_eq h
      simp only [handlers_update]
      split
      · exact heff.not_idle
      · exact hn.busy b i hs
    · obtain ⟨_, _, _, hnet⟩ := others_eq h
      have hold : net.served b i ≠ none := by rwa [hnet] at hs
      rw [others_handlers h hold]
      exact hn.busy b i hold
  · cases hold : net.served b i with
    | some s₀ =>
      have heq : s₀ = s := Option.some.inj ((hn.served_step hstep hold).symm.trans hs)
      subst heq
      obtain ⟨y, hy, hreq, _, htargets⟩ := hn.sending_step hstep (by simp [hold]) hx
      have := hn.sender b i s₀ y hold hy
      rwa [hreq, htargets]
    | none =>
      obtain ⟨hsend, _⟩ := new_served h hold hs
      rw [hx] at hsend
      exact handleSendFile_hops hsend.symm
  · cases hold : net.served b i with
    | some s₀ =>
      have heq : s₀ = s := Option.some.inj ((hn.served_step hstep hold).symm.trans hs)
      subst heq
      obtain ⟨p, t, hp, hlen, hreq⟩ := hn.cause b i s₀ a k j hold ho
      exact ⟨p, t, hn.served_step hstep hp, hlen, hreq⟩
    | none =>
      rcases netStep_served h hs with hs | ⟨_, _, _, _, rfl⟩ | ⟨_, _, _, p, x, t, _, hp, ht, _, rfl⟩
      · rw [hold] at hs
        cases hs
      · cases ho
      · cases ho
        obtain ⟨hx, htarget, _⟩ := pending_eq ht
        obtain ⟨hxp, hlen⟩ := hn.sender a k p x hp hx
        refine ⟨p, t, hn.served_step hstep hp, hlen ?_, by rw [hxp]⟩
        exact List.ne_nil_of_mem (List.mem_of_getElem? htarget)

/-- One hop less than the handler that waits, and at least one. -/
theorem Hops.pending {a : Addr} {k j : ℕ} {p : Served} {x : Sending} {t : ChainTarget} (hn : Hops net)
    (hp : net.served a k = some p) (ht : pending net a k j = some (x, t)) :
    (chainRequest x.req t).maxChainLen.toNat + 1 = p.req.maxChainLen.toNat ∧
      1 ≤ (chainRequest x.req t).maxChainLen.toNat := by
  obtain ⟨hx, htarget, _⟩ := pending_eq ht
  obtain ⟨hreq, hlen⟩ := hn.sender a k p x hp hx
  have hlen := hlen (List.ne_nil_of_mem (List.mem_of_getElem? htarget))
  rw [hreq, chainRequest_maxChainLen t hlen]
  omega

theorem Hops.caused {x y : Addr × ℕ} (hn : Hops net) (h : Caused net x y) :
    ∃ p s, net.served x.1 x.2 = some p ∧ net.served y.1 y.2 = some s ∧
      s.req.maxChainLen.toNat + 1 = p.req.maxChainLen.toNat ∧ 1 ≤ s.req.maxChainLen.toNat := by
  obtain ⟨s, j, hs, ho⟩ := h
  obtain ⟨p, t, hp, hlen, hreq⟩ := hn.cause _ _ _ _ _ _ hs ho
  refine ⟨p, s, hp, hs, ?_⟩
  rw [hreq, chainRequest_maxChainLen t hlen]
  omega

theorem Hops.hopsOf {x y : Addr × ℕ} (hn : Hops net) (h : Caused net x y) :
    hopsOf net y + 1 = hopsOf net x ∧ 1 ≤ hopsOf net y := by
  obtain ⟨p, s, hp, hs, hlen⟩ := hn.caused h
  simp only [Fcopy.hopsOf, hp, hs, Option.map_some, Option.getD_some]
  exact hlen

/-! ### Executions -/

section
variable {nets : ℕ → Net} {labels : ℕ → Option NetLabel}

theorem hops_execution (hex : Execution (netStep conf) nets labels)
    (h₀ : ∀ a i, (nets 0).served a i = none) (n : ℕ) : Hops (nets n) := by
  refine hex.onward (fun _ _ _ hn h => hn.preserved h) n.zero_le ⟨?_, ?_, ?_⟩
  · exact fun a i hs => absurd (h₀ a i) hs
  · intro a i s x hs
    rw [h₀] at hs
    cases hs
  · intro b i s a k j hs
    rw [h₀] at hs
    cases hs

theorem served_onward (hex : Execution (netStep conf) nets labels) {m n : ℕ} (hmn : m ≤ n)
    (hm : Hops (nets m)) {b : Addr} {j : ℕ} {s : Served} (hs : (nets m).served b j = some s) :
    (nets n).served b j = some s :=
  (hex.onward (P := fun net => Hops net ∧ net.served b j = some s)
    (fun _ _ _ h hl => ⟨h.1.preserved hl, h.1.served_step hl h.2⟩) hmn ⟨hm, hs⟩).2

/-- A sender that has served its request since `m` has the targets it had then. -/
theorem targets_onward (hex : Execution (netStep conf) nets labels) {m n : ℕ} (hmn : m ≤ n)
    (hm : Hops (nets m)) {a : Addr} {k : ℕ} (hs : (nets m).served a k ≠ none) {x : Sending}
    (hx : ((nets n).servers a).handlers k = .sending x) :
    x.targets.length = targetCount (nets m) a k := by
  have hsame : Hops (nets n) ∧ (nets n).served a k ≠ none ∧
      ∀ x, ((nets n).servers a).handlers k = .sending x →
        x.targets.length = targetCount (nets m) a k := by
    refine hex.onward (P := fun net => Hops net ∧ net.served a k ≠ none ∧
      ∀ x, (net.servers a).handlers k = .sending x → x.targets.length = targetCount (nets m) a k)
      (fun net l net' hnet hl => ?_) hmn ⟨hm, hs, fun x hx => by simp only [targetCount, hx]⟩
    obtain ⟨hnet, hserved, htargets⟩ := hnet
    obtain ⟨s, hs⟩ := Option.ne_none_iff_exists'.mp hserved
    refine ⟨hnet.preserved hl, by simp [hnet.served_step hl hs], fun x hx => ?_⟩
    obtain ⟨y, hy, _, _, heq⟩ := hnet.sending_step hl hserved hx
    rw [heq]
    exact htargets y hy
  exact hsame.2.2 x hx

/-- A handler forwards only so often, at all times. -/
theorem targets_bounded (hex : Execution (netStep conf) nets labels)
    (h₀ : ∀ a i, (nets 0).served a i = none) (a : Addr) (k : ℕ) :
    ∃ J, ∀ n j, (nets n).served a k ≠ none → pending (nets n) a k j ≠ none → j < J := by
  have hhops := hops_execution hex h₀
  by_cases hever : ∃ n, (nets n).served a k ≠ none
  · obtain ⟨n, hn⟩ := hever
    obtain ⟨m, _, _, _, _, hfree, hm⟩ :=
      hex.begins (P := fun net => net.served a k ≠ none) (not_not.mpr (h₀ a k)) hn
    refine ⟨targetCount (nets (m + 1)) a k, fun n j hs hp => ?_⟩
    have hlater : m + 1 ≤ n := by
      by_contra hle
      obtain ⟨s, hs⟩ := Option.ne_none_iff_exists'.mp hs
      have hm := served_onward hex (Nat.le_of_lt_succ (Nat.lt_of_not_le hle)) (hhops n) hs
      exact hfree (by simp [hm])
    obtain ⟨⟨x, t⟩, hp⟩ := Option.ne_none_iff_exists'.mp hp
    obtain ⟨hx, htarget, _⟩ := pending_eq hp
    rw [← targets_onward hex hlater (hhops _) hm hx]
    exact (List.getElem?_eq_some_iff.mp htarget).1
  · simp only [not_exists, not_not] at hever
    exact ⟨0, fun n j hs => absurd (hever n) hs⟩

/-- The handler that takes a request in a step is the only one. -/
theorem taken_unique {l : NetLabel} (h : netStep conf net l = some net') {x y : Addr × ℕ}
    (hx : net.served x.1 x.2 = none) (hx' : net'.served x.1 x.2 ≠ none)
    (hy : net.served y.1 y.2 = none) (hy' : net'.served y.1 y.2 ≠ none) : x = y := by
  obtain ⟨s, hs⟩ := Option.ne_none_iff_exists'.mp hx'
  obtain ⟨_, rfl⟩ := arrival_eq (new_served h hx hs).2
  simp only [served_update] at hy'
  split at hy'
  · rename_i heq
    exact Prod.ext heq.1.symm heq.2.symm
  · exact absurd hy hy'

/-- A request causes only so many others directly. -/
theorem caused_finite (hex : Execution (netStep conf) nets labels)
    (h₀ : ∀ a i, (nets 0).served a i = none) (hretry : RetriesEnd labels) (x : Addr × ℕ) :
    {y | ∃ n, Caused (nets n) x y}.Finite := by
  obtain ⟨J, hJ⟩ := targets_bounded hex h₀ x.1 x.2
  have hmoments : (⋃ j ∈ {j | j < J}, {n | ∃ i, labels n = some (.forward x.1 x.2 j i)}).Finite :=
    (Set.finite_lt_nat J).biUnion fun j _ => hretry x.1 x.2 j
  refine (hmoments.biUnion (t := fun n => {y : Addr × ℕ | (nets n).served y.1 y.2 = none ∧
    (nets (n + 1)).served y.1 y.2 ≠ none ∧ (labels n).isSome}) fun n _ => ?_).subset ?_
  · refine Set.Subsingleton.finite fun y hy z hz => ?_
    obtain ⟨hy, hy', hl⟩ := hy
    obtain ⟨l, hl⟩ := Option.isSome_iff_exists.mp hl
    have hstep := hex n
    rw [hl] at hstep
    exact taken_unique hstep hy hy' hz.1 hz.2.1
  · rintro y ⟨n, s, j, hs, ho⟩
    -- the moment at which `y` took the forward
    obtain ⟨m, l, hmn, hl, hstep, hfree, hm⟩ :=
      hex.begins (P := fun net => net.served y.1 y.2 ≠ none) (not_not.mpr (h₀ _ _)) (n := n)
        (by simp [hs])
    rw [not_not] at hfree
    obtain ⟨s', hs'⟩ := Option.ne_none_iff_exists'.mp hm
    have hlater := served_onward hex hmn (hops_execution hex h₀ (m + 1)) hs'
    cases hlater.symm.trans hs
    rcases netStep_served hstep hs' with hold | ⟨_, _, _, _, rfl⟩ |
      ⟨_, _, _, p, z, t, rfl, hp, ht, _, rfl⟩
    · rw [hfree] at hold
      cases hold
    · cases ho
    · cases ho
      refine Set.mem_biUnion (Set.mem_biUnion (hJ m j ?_ ?_) ⟨y.2, hl⟩) ⟨hfree, hm, ?_⟩
      · simp [hp]
      · simp [ht]
      · simp [hl]

/-- Going from a request to those it causes comes to an end. -/
theorem caused_acc (hex : Execution (netStep conf) nets labels)
    (h₀ : ∀ a i, (nets 0).served a i = none) (x : Addr × ℕ) :
    Acc (flip fun x y => ∃ n, Caused (nets n) x y) x := by
  have hserved : ∀ m x n p, (nets n).served x.1 x.2 = some p → p.req.maxChainLen.toNat = m →
      Acc (flip fun x y => ∃ n, Caused (nets n) x y) x := by
    intro m
    induction m using Nat.strong_induction_on with
    | _ m ih =>
      intro x n p hp hm
      refine ⟨_, fun y ⟨n', hy⟩ => ?_⟩
      obtain ⟨p', s, hp', hs, hlen, _⟩ := (hops_execution hex h₀ n').caused hy
      have hsame : p' = p := by
        rcases Nat.le_total n n' with hle | hle
        · exact Option.some.inj
            (hp'.symm.trans (served_onward hex hle (hops_execution hex h₀ n) hp))
        · exact Option.some.inj
            ((served_onward hex hle (hops_execution hex h₀ n') hp').symm.trans hp)
      rw [hsame] at hlen
      exact ih _ (by omega) y n' s hs rfl
  refine ⟨_, fun y ⟨n, hy⟩ => ?_⟩
  obtain ⟨_, s, _, hs, _⟩ := (hops_execution hex h₀ n).caused hy
  exact hserved _ y n s hs rfl

/-- CORRECT (forwarding ends): a forward has one hop less than the request that causes it and at least
    one, whether it arrives or not; so no path of forwards is longer than the hops allow, and a request
    leads to finitely many others, those that are lost included. -/
theorem forwarding_ends (conf : Addr → Conf) (nets : ℕ → Net) (labels : ℕ → Option NetLabel)
    (hex : Execution (netStep conf) nets labels) (h₀ : ∀ a i, (nets 0).served a i = none)
    (hretry : RetriesEnd labels) :
    (∀ n a k j p x t, (nets n).served a k = some p → pending (nets n) a k j = some (x, t) →
      (chainRequest x.req t).maxChainLen.toNat + 1 = p.req.maxChainLen.toNat ∧
        1 ≤ (chainRequest x.req t).maxChainLen.toNat) ∧
    (∀ n x y, Caused (nets n) x y → ∃ p s, (nets n).served x.1 x.2 = some p ∧
      (nets n).served y.1 y.2 = some s ∧ s.req.maxChainLen.toNat + 1 = p.req.maxChainLen.toNat ∧
        1 ≤ s.req.maxChainLen.toNat) ∧
    (∀ n l x y p, (nets n).served x.1 x.2 = some p → Path (Caused (nets n)) l x y →
      l ≤ p.req.maxChainLen.toNat - 1) ∧
    ∀ x, {y | ∃ n, ReflTransGen (Caused (nets n)) x y}.Finite ∧
      {f : (Addr × ℕ) × ℕ | ∃ n, ReflTransGen (Caused (nets n)) x f.1 ∧
        (nets n).served f.1.1 f.1.2 ≠ none ∧ pending (nets n) f.1.1 f.1.2 f.2 ≠ none}.Finite := by
  have hhops := hops_execution hex h₀
  refine ⟨fun n a k j p x t hp ht => (hhops n).pending hp ht, fun n x y h => (hhops n).caused h,
    fun n l x y p hp hpath => ?_, fun x => ?_⟩
  · have hlen : ∀ x y, Caused (nets n) x y → hopsOf (nets n) y + 1 = hopsOf (nets n) x :=
      fun _ _ h => ((hhops n).hopsOf h).1
    have := hpath.length_le hlen fun _ _ h => ((hhops n).hopsOf h).2
    rwa [hopsOf, hp] at this
  · have hreach : {y | ∃ n, ReflTransGen (Caused (nets n)) x y}.Finite := by
      refine (finite_reach (caused_finite hex h₀ hretry) (caused_acc hex h₀ x)).subset ?_
      rintro y ⟨n, hy⟩
      exact ReflTransGen.mono (fun _ _ h => ⟨n, h⟩) _ _ hy
    choose J hJ using targets_bounded hex h₀
    refine ⟨hreach, (hreach.biUnion (t := fun y => (fun j => (y, j)) '' {j | j < J y.1 y.2})
      fun y _ => (Set.finite_lt_nat _).image _).subset ?_⟩
    rintro ⟨y, j⟩ ⟨n, hy, hs, hp⟩
    exact Set.mem_biUnion ⟨n, hy⟩ ⟨j, hJ y.1 y.2 n j hs hp, rfl⟩

end

theorem retriesEnd_list (ls : List NetLabel) : RetriesEnd fun n => ls[n]? := by
  intro a k j
  refine (Set.finite_lt_nat ls.length).subset ?_
  rintro n ⟨i, hi⟩
  exact (List.getElem?_eq_some_iff.mp hi).1

/-- A request with two hops reaches `a`, which forwards it to `b`. -/
def sampleForward : List NetLabel :=
  [.request 0 (text "a", 1) 5 { maxChainLen := 2, fileToken := text "4" } (text "hi"),
    .forward (text "a", 1) 5 0 5]

def sampleNets (n : ℕ) : Net :=
  (exec (netStep fun _ => sampleConf) sampleNet (sampleForward.take n)).getD sampleNet

theorem forwarding_ends_two :
    let x : Addr × ℕ := ((text "a", 1), 5)
    let y : Addr × ℕ := ((text "b", 1), 5)
    Caused (sampleNets 2) x y ∧
    (∃ p s, (sampleNets 2).served x.1 x.2 = some p ∧ (sampleNets 2).served y.1 y.2 = some s ∧
      s.req.maxChainLen.toNat + 1 = p.req.maxChainLen.toNat ∧ 1 ≤ s.req.maxChainLen.toNat) ∧
    (∀ l z, Path (Caused (sampleNets 2)) l x z → l ≤ 1) ∧
    {z | ∃ n, ReflTransGen (Caused (sampleNets n)) x z}.Finite := by
  intro x y
  have hrun : (exec (netStep fun _ => sampleConf) sampleNet sampleForward).any (fun net =>
      net.served x.1 x.2 = some ⟨.client 0, { maxChainLen := 2, fileToken := text "4" }, text "hi"⟩ ∧
        (net.served y.1 y.2).any fun s => s.origin = .hop (text "a", 1) 5 0) = true := by
    decide +kernel
  obtain ⟨net, hnet, hcheck⟩ := (Option.any_eq_true _ _).mp hrun
  obtain ⟨hx, hy⟩ := of_decide_eq_true hcheck
  obtain ⟨s, hs, ho⟩ := (Option.any_eq_true _ _).mp hy
  have hlast : sampleNets 2 = net := by
    rw [sampleNets, show sampleForward.take 2 = sampleForward from rfl, hnet]
    rfl
  have hcaused : Caused (sampleNets 2) x y := by
    rw [hlast]
    exact ⟨s, 0, hs, of_decide_eq_true ho⟩
  obtain ⟨_, hone, hpath, hfin⟩ := forwarding_ends (fun _ => sampleConf) sampleNets _
    (execution_of_exec (by rw [hnet]; rfl)) (fun _ _ => rfl) (retriesEnd_list sampleForward)
  refine ⟨hcaused, hone 2 x y hcaused, fun l z hp => ?_, (hfin x).1⟩
  exact hpath 2 l x z _ (by rw [hlast, hx]) hp

end Fcopy
