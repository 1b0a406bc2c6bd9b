import Fcopy.Client.Upload

/-! The calls of the sender, step by step.

    Each phase in turn: the handler at work on a request of the sender takes a step (`own`), the
    request ends (`receive`), the sender goes on where it has no request out (`next`). -/

namespace Fcopy
open Function Content

variable {conf : Addr → Conf} {p : SenderParams} {source : Bytes} {net net' : Net} {sys sys' : Sys}

/-! ### Steps of the sender's requests -/

theorem linksOf_ne_nil {m : SendMethod} {n i : ℕ} (h : linksOf m n i ≠ []) : i < n := by
  obtain ⟨j, hj⟩ := List.exists_mem_of_ne_nil _ h
  cases m with
  | chain =>
    simp only [linksOf] at hj
    split at hj
    · omega
    · cases hj
  | tree =>
    simp only [linksOf] at hj
    split at hj
    · omega
    · cases hj

/-- The requests of the sender. -/
theorem FileSender.request_cases {f : FileSender} {a : Addr} {req : Request}
    (h : f.request p source = some (a, req)) :
    (f.phase = .opening ∧ f.fileTokens.length < p.targets.length ∧
      a = addrOf p f.fileTokens.length ∧ req = .create (openRequest p source)) ∨
    (∃ i, f.phase = .linking i ∧ linkTargets p f.fileTokens i ≠ [] ∧ a = addrOf p i ∧
      req = .setChain ⟨tokenOf f.fileTokens i, linkTargets p f.fileTokens i⟩) ∨
    ∃ i e, f.phase = .closing i e ∧ i < f.fileTokens.length ∧ tokenOf f.fileTokens i ≠ [] ∧
      a = addrOf p i ∧ req = .close ⟨if p.waitClose then 1 else 0, tokenOf f.fileTokens i⟩ := by
  rw [FileSender.request] at h
  split at h
  · rename_i hphase
    split at h <;> cases h
    exact .inl ⟨hphase, ‹_›, rfl, rfl⟩
  · rename_i i hphase
    split at h <;> cases h
    exact .inr (.inl ⟨i, hphase, ‹_›, rfl, rfl⟩)
  · rename_i i e hphase
    split at h
    · rename_i hi
      cases h
      exact .inr (.inr ⟨i, e, hphase, hi.1, hi.2, rfl, rfl⟩)
    · cases h
  · cases h

/-- Chunks are sent by the workers. -/
theorem FileSender.request_ne_send {f : FileSender} {a : Addr} {q : SendFileReq} {data : Bytes} :
    f.request p source ≠ some (a, .send q data) := by
  intro h
  rcases request_cases h with ⟨_, _, _, heq⟩ | ⟨_, _, _, _, heq⟩ | ⟨_, _, _, _, _, _, heq⟩ <;> cases heq

/-- All targets get the same request. -/
theorem FileSender.request_create {f : FileSender} {a : Addr} {q : CreateFileReq}
    (h : f.request p source = some (a, .create q)) : q = openRequest p source := by
  rcases request_cases h with ⟨_, _, _, heq⟩ | ⟨_, _, _, _, heq⟩ | ⟨_, _, _, _, _, _, heq⟩ <;> cases heq
  rfl

/-- The handler at work on a request of `remote_open` takes a step. -/
theorem Opening.own (h : Opening conf p source sys) (hd : p.targets.Nodup) {l : Label} {j : ℕ}
    (hlt : sys.sender.fileTokens.length < p.targets.length)
    (hoth : others conf sys.net (addrOf p sys.sender.fileTokens.length) l = some net')
    (hcur : Creating (conf (addrOf p sys.sender.fileTokens.length)) (openRequest p source)
      (net'.servers (addrOf p sys.sender.fileTokens.length))
      ((net'.servers (addrOf p sys.sender.fileTokens.length)).handlers j)) :
    Opening conf p source { sys with net := net', call := some j } := by
  refine ⟨h.unasked.others hoth, h.tokens, fun k hk => ?_, fun j' hj => ?_⟩
  · exact (h.opened k hk).spared
      (others_spares source hd hlt hoth (Nat.lt_of_lt_of_le hk h.tokens) (Nat.ne_of_lt hk))
  · cases hj
    exact ⟨hlt, hcur⟩

theorem Linking.own {i : ℕ} (h : Linking conf p source i sys) (hd : p.targets.Nodup) {l : Label}
    {j : ℕ} (hlt : i < p.targets.length) (hne : linkTargets p sys.sender.fileTokens i ≠ [])
    (hoth : others conf sys.net (addrOf p i) l = some net')
    (hcur : ∃ r, (net'.servers (addrOf p i)).handlers j = .finished r ∧ (wireError r.error = 0 →
      OpenedAt conf p source sys.sender (linkTargets p sys.sender.fileTokens i) i net')) :
    Linking conf p source i { sys with net := net', call := some j } := by
  refine ⟨h.unasked.others hoth, h.pos, h.tokens, fun k hk hkn => ?_, fun k hk hkn => ?_,
    fun j' hj => ?_⟩
  · exact (h.linked k hk hkn).spared (others_spares source hd hlt hoth hkn (Nat.ne_of_lt hk))
  · rcases hk with hk | ⟨_, hk⟩
    · exact (h.opened k (.inl hk) hkn).spared (others_spares source hd hlt hoth hkn (Nat.ne_of_gt hk))
    · cases hk
  · cases hj
    exact ⟨hlt, hne, hcur⟩

theorem ClosingAt.own {i : ℕ} (h : ClosingAt conf p source i sys) (hd : p.targets.Nodup) {l : Label}
    {j : ℕ} (hlt : i < p.targets.length) (hne : tokenOf sys.sender.fileTokens i ≠ [])
    (hoth : others conf sys.net (addrOf p i) l = some net')
    (hcur : Closing (conf (addrOf p i)) (openRequest p source) source p.chunkSize.toNat
      (tokenOf sys.sender.fileTokens i) (net'.servers (addrOf p i))
      ((net'.servers (addrOf p i)).handlers j)) :
    ClosingAt conf p source i { sys with net := net', call := some j } := by
  refine ⟨h.settled.others hoth, h.chunkSize, h.tokens, fun k hk hkn => ?_, fun k hk hkn => ?_,
    fun j' hj => ?_⟩
  · exact (h.done k hk hkn).spared (others_spares source hd hlt hoth hkn (Nat.ne_of_lt hk))
  · rcases hk with hk | ⟨_, hk⟩
    · have hsp := others_spares source hd hlt hoth hkn (Nat.ne_of_gt hk)
      obtain ⟨⟨targets, ho⟩, hc⟩ := h.waiting k (.inl hk) hkn
      exact ⟨⟨targets, ho.spared hsp⟩, hc.spared hsp⟩
    · cases hk
  · cases hj
    exact ⟨hlt, hne, hcur⟩

/-- The request is delivered. -/
theorem Good.call (h : Inv conf p source sys) (hd : p.targets.Nodup) (hwait : p.waitClose = true)
    {i : ℕ} {a : Addr} {req : Request} (hcall : sys.call = none)
    (hreq : sys.sender.request p source = some (a, req))
    (hoth : others conf sys.net a (.arrive i req) = some net') :
    Good conf p source { sys with net := net', call := some i } := by
  have hgood := h.good
  rcases FileSender.request_cases hreq with ⟨hphase, hlt, rfl, rfl⟩ | ⟨k, hphase, hne, rfl, rfl⟩ |
    ⟨k, e, hphase, hlt, hne, rfl, rfl⟩
  · simp only [Good, hphase] at hgood ⊢
    exact hgood.own hd hlt hoth (creating_arrive (others_step hoth))
  · simp only [Good, hphase] at hgood ⊢
    have hlt : k < p.targets.length := by
      rw [← hgood.tokens]
      exact linksOf_ne_nil fun h0 => hne (by rw [linkTargets, h0, List.map_nil])
    exact hgood.own hd hlt hne hoth
      (linking_arrive (h.sound _) (hgood.opened k (.inr ⟨rfl, hcall⟩) hlt) (others_step hoth))
  · simp only [Good, hphase] at hgood ⊢
    intro hc hs he
    have hclosing := hgood hc hs he
    rw [hclosing.tokens] at hlt
    obtain ⟨⟨targets, ho⟩, hcomp⟩ := hclosing.waiting k (.inr ⟨rfl, hcall⟩) hlt
    exact hclosing.own hd hlt hne hoth
      (closing_arrive (by rw [hwait]; decide) ho hcomp (others_step hoth))

/-- The handler at work on the request takes a step. -/
theorem Good.serve (h : Inv conf p source sys) (hd : p.targets.Nodup)
    (hsource : source.length < 2 ^ 63) {i : ℕ} {a : Addr} {ans : Answer}
    (hcur : sys.current p source = some (a, i))
    (hans : SysCalm conf p source sys (.serve ans))
    (hoth : others conf sys.net a (.resume i ans) = some net') :
    Good conf p source { sys with net := net' } := by
  have hgood := h.good
  obtain ⟨hcall, req, hreq⟩ : sys.call = some i ∧ ∃ req,
      sys.sender.request p source = some (a, req) := by
    rw [Sys.current] at hcur
    split at hcur
    · rename_i hcall hreq
      cases hcur
      exact ⟨hcall, _, hreq⟩
    · cases hcur
  have heq : ({ sys with net := net' } : Sys) = { sys with net := net', call := some i } := by
    rw [← hcall]
  rw [heq]
  rcases FileSender.request_cases hreq with ⟨hphase, hlt, rfl, _⟩ | ⟨k, hphase, hne, rfl, _⟩ |
    ⟨k, e, hphase, hlt, hne, rfl, _⟩
  · simp only [Good, hphase] at hgood ⊢
    exact hgood.own hd hlt hoth
      (creating_resume (h.sound _) (hgood.current i hcall).2 (others_step hoth))
  · simp only [Good, hphase] at hgood ⊢
    obtain ⟨hlt, _, r, hr, _⟩ := hgood.current i hcall
    rcases step_cases (others_step hoth) with ⟨_, _, hl, _⟩ | ⟨_, _, _, _, hl, heff, _⟩ <;> cases hl
    rw [hr] at heff
    cases heff
  · simp only [Good, hphase] at hgood ⊢
    intro hc hs he
    have hclosing := hgood hc hs he
    obtain ⟨hlt', _, hclose⟩ := hclosing.current i hcall
    exact hclosing.own hd hlt' hne hoth (closing_resume (h.sound _) (fileSize_toNat hsource)
      hclosing.chunkSize hclose (fun info reply e => hans _ _ info reply e hcur) (others_step hoth))

/-! ### Steps of the sender -/

/-- After a failed `create_file` nothing is promised. -/
theorem Good.failed {f : FileSender} {call : Option ℕ} {e : ℤ} (he : e ≠ 0) :
    Good conf p source ⟨net, f.returnCreate e, call⟩ := by
  simp only [Good, FileSender.returnCreate, if_neg he]
  intro h
  exact absurd (Option.some.inj h) he

theorem tokenOf_append {tokens : List Bytes} {token : Bytes} {k : ℕ} (hk : k < tokens.length) :
    tokenOf (tokens ++ [token]) k = tokenOf tokens k := by
  rw [tokenOf, tokenOf, List.getElem?_append_left hk]

theorem tokenOf_append_self (tokens : List Bytes) (token : Bytes) :
    tokenOf (tokens ++ [token]) tokens.length = token := by
  rw [tokenOf, List.getElem?_concat_length, Option.getD_some]

theorem tokenOf_set {tokens : List Bytes} {token : Bytes} {i k : ℕ} (hk : i ≠ k) :
    tokenOf (tokens.set i token) k = tokenOf tokens k := by
  rw [tokenOf, tokenOf, List.getElem?_set_ne hk]

/-- A create has answered 0. -/
theorem Opening.receive (h : Opening conf p source sys) {j : ℕ} {r : Reply} (hcall : sys.call = some j)
    (hr : (sys.net.servers (addrOf p sys.sender.fileTokens.length)).handlers j = .finished r)
    (hzero : wireError r.error = 0) : Opening conf p source
      { sys with
        sender := { sys.sender with fileTokens := sys.sender.fileTokens ++ [r.fileToken] }
        call := none } := by
  obtain ⟨hlt, hc⟩ := h.current j hcall
  rw [hr] at hc
  refine ⟨h.unasked, ?_, fun k hk => ?_, fun _ hj => by cases hj⟩
  · rw [List.length_append]
    exact hlt
  · rw [List.length_append, List.length_singleton, Nat.lt_succ_iff_lt_or_eq] at hk
    rcases hk with hk | rfl
    · rw [OpenedAt, tokenOf_append hk]
      exact h.opened k hk
    · rw [OpenedAt, tokenOf_append_self]
      cases hc with
      | running _ _ _ hc => cases hc
      | finished _ ho => exact ho hzero

/-- A link has answered 0. -/
theorem Linking.receive {i : ℕ} (h : Linking conf p source i sys) {j : ℕ} {r : Reply}
    (hcall : sys.call = some j) (hr : (sys.net.servers (addrOf p i)).handlers j = .finished r)
    (hzero : wireError r.error = 0) : Linking conf p source (i + 1)
      { sys with sender := { sys.sender with phase := .linking (i + 1) }, call := none } := by
  obtain ⟨_, _, r', hr', ho⟩ := h.current j hcall
  cases hr.symm.trans hr'
  refine ⟨h.unasked, h.pos, h.tokens, fun k hk hkn => ?_, fun k hk hkn => ?_,
    fun _ hj => by cases hj⟩
  · rcases Nat.lt_succ_iff_lt_or_eq.mp hk with hk | rfl
    · exact h.linked k hk hkn
    · exact ho hzero
  · exact h.opened k (.inl (by omega)) hkn

/-- A close has answered 0. -/
theorem ClosingAt.receive {i : ℕ} (h : ClosingAt conf p source i sys) {j : ℕ} {r : Reply}
    {phase : Phase} (hcall : sys.call = some j)
    (hr : (sys.net.servers (addrOf p i)).handlers j = .finished r) (hzero : wireError r.error = 0) :
    ClosingAt conf p source (i + 1)
      { sys with
        sender := { sys.sender with phase := phase, fileTokens := sys.sender.fileTokens.set i [] }
        call := none } := by
  obtain ⟨_, _, hclose⟩ := h.current j hcall
  rw [hr] at hclose
  refine ⟨h.settled, h.chunkSize, ?_, fun k hk hkn => ?_, fun k hk hkn => ?_,
    fun _ hj => by cases hj⟩
  · rw [List.length_set]
    exact h.tokens
  · rcases Nat.lt_succ_iff_lt_or_eq.mp hk with hk | rfl
    · exact h.done k hk hkn
    · cases hclose with
      | finished _ hsealed => exact hsealed hzero
  · have hik : i < k := by omega
    obtain ⟨⟨targets, ho⟩, hcomp⟩ := h.waiting k (.inl hik) hkn
    refine ⟨⟨targets, ?_⟩, hcomp⟩
    rw [OpenedAt, tokenOf_set (Nat.ne_of_lt hik)]
    exact ho

/-- A request has ended, with the reply of its handler if the result is 0. -/
theorem Good.receive (h : Inv conf p source sys) {a : Addr} {req : Request} {e : ℤ} {token : Bytes}
    (hreq : sys.sender.request p source = some (a, req))
    (hreply : e = 0 → ∃ j r, sys.call = some j ∧ (sys.net.servers a).handlers j = .finished r ∧
      wireError r.error = 0 ∧ r.fileToken = token) :
    Good conf p source { sys with sender := sys.sender.receive e token, call := none } := by
  have hgood := h.good
  rcases FileSender.request_cases hreq with ⟨hphase, _, rfl, _⟩ | ⟨i, hphase, _, rfl, _⟩ |
    ⟨i, firstError, hphase, _, _, rfl, _⟩
  · simp only [Good, hphase] at hgood
    simp only [FileSender.receive, hphase]
    by_cases he : e = 0
    · obtain ⟨j, r, hcall, hr, hzero, rfl⟩ := hreply he
      rw [if_neg (not_not.mpr he)]
      have hopening := hgood.receive hcall hr hzero
      simp only [Good, hphase] at hopening ⊢
      exact hopening
    · rw [if_pos he]
      exact Good.failed he
  · simp only [Good, hphase] at hgood
    simp only [FileSender.receive, hphase]
    by_cases he : e = 0
    · obtain ⟨j, r, hcall, hr, hzero, _⟩ := hreply he
      rw [if_neg (not_not.mpr he)]
      exact hgood.receive hcall hr hzero
    · rw [if_pos he]
      exact Good.failed he
  · simp only [Good, hphase] at hgood
    simp only [FileSender.receive, hphase, Good]
    intro hc hs hfirst
    -- the first error is still 0, so this result is 0 too
    have he : e = 0 ∧ firstError = 0 := by
      split at hfirst
      · rename_i hne
        exact absurd hfirst hne.1
      · rename_i hne
        exact ⟨by_contra fun he => hne ⟨he, hfirst⟩, hfirst⟩
    obtain ⟨j, r, hcall, hr, hzero, _⟩ := hreply he.1
    rw [if_pos he.1]
    exact (hgood hc hs he.2).receive hcall hr hzero

/-- Nothing has been sent yet, and everything is set up. -/
theorem Uploading.start {i : ℕ} (hsound : ∀ a, Sound (conf a) (sys.net.servers a))
    (h : Linking conf p source i sys) (hcall : sys.call = none)
    (hend : linkTargets p sys.sender.fileTokens i = []) {f : FileSender}
    (hf : f.fileTokens = sys.sender.fileTokens) (hcur : f.curOffset = 0)
    (hworkers : f.workers = fun _ => .start) :
    Uploading conf p source sys.net.tables sys.net f := by
  have hopened : ∀ k < p.targets.length, Opened (conf (addrOf p k)) (openRequest p source)
      (linkTargets p f.fileTokens k) (tokenOf f.fileTokens k) (sys.net.servers (addrOf p k)) := by
    intro k hk
    rw [hf]
    rcases Nat.lt_or_ge k i with hlt | hge
    · exact h.linked k hlt hk
    · have hnil : linkTargets p sys.sender.fileTokens k = [] := by
        rw [linkTargets, List.map_eq_nil_iff] at hend ⊢
        exact linksOf_end hend hge
      rw [hnil]
      refine h.opened k ?_ hk
      rcases Nat.eq_or_lt_of_le hge with heq | hlt
      · exact .inr ⟨heq.symm, hcall⟩
      · exact .inl hlt
  have htokens : f.fileTokens.length = p.targets.length := by rw [hf, h.tokens]
  have hno : ∀ {a i s} {P : Prop}, sys.net.served a i = some s → P := by
    intro a i s P hs
    rw [h.unasked.served] at hs
    cases hs
  refine ⟨relays_start hsound h.unasked.served (members_closed htokens hopened hsound), htokens,
    hopened, fun _ _ _ hs => hno hs, fun k hk call hopen => ?_, fun _ _ _ _ hs => hno hs,
    .start (hopened 0 h.pos).chunkSize.1 hcur hworkers⟩
  intro off j hoff
  obtain ⟨w, hw, _⟩ := hoff
  rw [h.unasked.log] at hw
  cases hw

/-- All creates have answered 0. -/
theorem Opening.next (h : Opening conf p source sys) (hphase : sys.sender.phase = .opening)
    (hreq : sys.sender.request p source = none) (hne : p.targets ≠ []) {f : FileSender}
    (hf : f.fileTokens = sys.sender.fileTokens) :
    Linking conf p source 0 { sys with sender := f } := by
  have hge : ¬ sys.sender.fileTokens.length < p.targets.length := by
    intro hlt
    simp only [FileSender.request, hphase, if_pos hlt, reduceCtorEq] at hreq
  have hlen : sys.sender.fileTokens.length = p.targets.length :=
    Nat.le_antisymm h.tokens (Nat.not_lt.mp hge)
  refine ⟨h.unasked, List.length_pos_iff.mpr hne, by simp only [hf, hlen],
    fun k hk => absurd hk (Nat.not_lt_zero k), fun k _ hkn => ?_,
    fun j hj => absurd (h.current j hj).1 hge⟩
  simp only [OpenedAt, hf]
  exact h.opened k (hlen ▸ hkn)

/-- All links have answered 0. -/
theorem Linking.next {i : ℕ} (h : Linking conf p source i sys)
    (hsound : ∀ a, Sound (conf a) (sys.net.servers a)) (hphase : sys.sender.phase = .linking i)
    (hreq : sys.sender.request p source = none) {f : FileSender}
    (hf : f.fileTokens = sys.sender.fileTokens) (hcur : f.curOffset = 0)
    (hworkers : f.workers = fun _ => .start) :
    sys.call = none ∧ Uploading conf p source sys.net.tables sys.net f := by
  have hend : linkTargets p sys.sender.fileTokens i = [] := by
    by_contra hne
    simp only [FileSender.request, hphase, if_pos hne, reduceCtorEq] at hreq
  have hcall : sys.call = none := by
    cases hj : sys.call with
    | none => rfl
    | some j => exact absurd hend (h.current j hj).2.1
  exact ⟨hcall, Uploading.start hsound h hcall hend hf hcur hworkers⟩

/-- All workers have left, without an error. -/
theorem Uploading.next {T : Tables} (h : Uploading conf p source T sys.net sys.sender)
    (hsource : source.length < 2 ^ 63) (hpar : 1 ≤ p.parallel) (hpos : 0 < p.targets.length)
    (hcall : sys.call = none) (hleft : ∀ w < p.parallel, sys.sender.workers w = .left)
    (herr : sys.sender.error = 0) (hsettled : Settled sys.net) {f : FileSender}
    (hf : f.fileTokens = sys.sender.fileTokens) :
    ClosingAt conf p source 0 { sys with sender := f } := by
  refine ⟨hsettled, (h.opened 0 hpos).chunkSize.1, by simp only [hf, h.tokens],
    fun k hk => absurd hk (Nat.not_lt_zero k),
    fun k _ hkn => ⟨⟨linkTargets p sys.sender.fileTokens k, ?_⟩,
      h.complete hsource hpar hleft herr hkn⟩, fun j hj => ?_⟩
  · simp only [OpenedAt, hf]
    exact h.opened k hkn
  · rw [hcall] at hj
    cases hj

/-- A session that is still to be closed has a token. -/
theorem ClosingAt.next {i : ℕ} {firstError : ℤ} (h : ClosingAt conf p source i sys)
    (hsound : ∀ a, Sound (conf a) (sys.net.servers a))
    (hphase : sys.sender.phase = .closing i firstError)
    (hreq : sys.sender.request p source = none) : ¬ i < sys.sender.fileTokens.length := by
  intro hlt
  have htok : tokenOf sys.sender.fileTokens i = [] := by
    by_contra hne
    simp only [FileSender.request, hphase, if_pos (And.intro hlt hne), reduceCtorEq] at hreq
  cases hj : sys.call with
  | some j => exact (h.current j hj).2.1 htok
  | none =>
    obtain ⟨⟨targets, ho⟩, _⟩ := h.waiting i (.inr ⟨rfl, hj⟩) (by rw [← h.tokens]; exact hlt)
    exact ho.token_ne_nil (hsound _) htok

/-- The sender goes on where it has no request out. -/
theorem Good.next (h : Inv conf p source sys) (hsource : source.length < 2 ^ 63)
    (hpar : 1 ≤ p.parallel) (hl : SysCalm conf p source sys .next)
    (hreq : sys.sender.request p source = none) {f : FileSender}
    (hnext : sys.sender.next p = some f) : Good conf p source { sys with sender := f } := by
  have hgood := h.good
  rw [FileSender.next] at hnext
  split at hnext
  · rename_i hphase
    simp only [Good, hphase] at hgood
    split at hnext <;> cases hnext
    · exact Good.failed (by decide)
    · exact hgood.next hphase hreq ‹_› rfl
  · rename_i i hphase
    cases hnext
    simp only [Good, hphase] at hgood
    simp only [Good, FileSender.returnCreate, if_true]
    obtain ⟨hcall, hup⟩ := hgood.next h.sound hphase hreq (f := { sys.sender with
      createResult := some 0, phase := .sending, error := 0, curOffset := 0
      workers := fun _ => .start }) rfl rfl rfl
    exact ⟨hcall, hgood.pos, _, hup⟩
  · rename_i hphase
    simp only [Good, hphase] at hgood
    obtain ⟨hcall, hpos, T, hup⟩ := hgood
    split at hnext <;> cases hnext
    rename_i hall
    simp only [Good]
    intro _ hs _
    have herr : sys.sender.error = 0 := Option.some.inj hs
    exact hup.next hsource hpar hpos hcall
      (fun w hw => of_decide_eq_true (List.all_eq_true.mp hall w (List.mem_range.mpr hw))) herr
      (hl hphase herr) rfl
  · rename_i i firstError hphase
    simp only [Good, hphase] at hgood
    split at hnext <;> cases hnext
    · rename_i hlt
      simp only [Good]
      exact fun hc hs he => absurd hlt ((hgood hc hs he).next h.sound hphase hreq)
    · simp only [Good]
      intro hc hs he
      have hclosing := hgood hc hs (Option.some.inj he)
      have hge := hclosing.next h.sound hphase hreq
      rw [hclosing.tokens] at hge
      exact ⟨hclosing.settled, fun k hk => hclosing.done k (by omega) hk⟩
  · cases hnext

end Fcopy
