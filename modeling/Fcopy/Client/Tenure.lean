import Fcopy.Network.Onward
import Fcopy.Client.Delivery

/-! What a target holds of an upload, while `upload_file` runs (`client/file_sender.cpp`).

    `upload_file` closes what it has opened, also where `create_file` or `send_file` has failed. Whatever
    it is that a create brings to a target and a close takes away (`Tenure`), the requests of the sender
    hand it on from one phase to the next:

        clear ──create──▶ held ──link, chunks──▶ held ──close──▶ clear

    An error of `close_file` ends the promise, and an error of `create_file` does where it may have left
    something behind (`restored` says that it never does). -/

namespace Fcopy
open Function Run

/-- The handler is at work on something else than a `SEND_FILE_REQ`. -/
def Handler.Apart (h : Handler) : Prop := h ≠ .idle ∧ ∀ x, h ≠ .sending x

/-- What `req` brings to a server with configuration `c`, with the rules for the steps it is handed on
    by. `leaves` says of a step of somebody else that it takes and brings none of it. -/
structure Tenure (restored : Prop) (c : Conf) (req : CreateFileReq) where
  clear : Server → Prop
  held : Bytes → Server → Prop
  creating : Server → Handler → Prop
  closing : Bytes → Server → Handler → Prop
  leaves : Server → Server → Prop
  leaves_quiet : ∀ {s s'}, s'.store.fmap = s.store.fmap → s'.store.os.fds = s.store.os.fds → leaves s s'
  clear_left : ∀ {s s'}, clear s → leaves s s' → clear s'
  held_left : ∀ {token s s'}, held token s → leaves s s' → held token s'
  creating_left : ∀ {s s' h}, creating s h → leaves s s' → creating s' h
  closing_left : ∀ {token s s' h}, closing token s h → leaves s s' → closing token s' h
  creating_apart : ∀ {s h}, creating s h → h.Apart
  closing_apart : ∀ {token s h}, closing token s h → h.Apart
  token_ne_nil : ∀ {token s}, Sound c s → held token s → token ≠ []
  create_arrive : ∀ {s s' i}, clear s → step c s (.arrive i (.create req)) = some s' →
    creating s' (s'.handlers i)
  create_resume : ∀ {s s' i a}, Sound c s → creating s (s.handlers i) →
    step c s (.resume i a) = some s' → creating s' (s'.handlers i)
  created : ∀ {s r}, creating s (.finished r) → wireError r.error = 0 → held r.fileToken s
  refused : ∀ {s r}, restored → creating s (.finished r) → wireError r.error ≠ 0 → clear s
  link_arrive : ∀ {s s' i token targets}, Sound c s → held token s →
    step c s (.arrive i (.setChain ⟨token, targets⟩)) = some s' → held token s'
  close_arrive : ∀ {s s' i wait token}, wait ≠ 0 → held token s →
    step c s (.arrive i (.close ⟨wait, token⟩)) = some s' → closing token s' (s'.handlers i)
  close_resume : ∀ {s s' i a token}, Sound c s → closing token s (s.handlers i) →
    step c s (.resume i a) = some s' → closing token s' (s'.handlers i)
  closed : ∀ {s r token}, closing token s (.finished r) → wireError r.error = 0 → clear s

/-! ### All targets -/

section
variable {restored : Prop} {conf : Addr → Conf} {p : SenderParams} {source : Bytes}
  (τ : ∀ k, Tenure restored (conf (addrOf p k)) (openRequest p source))

def ClearAt (k : ℕ) (net : Net) : Prop := (τ k).clear (net.servers (addrOf p k))

/-- Target `k` while nothing of it is closed: it has a session if its create has answered. -/
def Owed (f : FileSender) (k : ℕ) (net : Net) : Prop :=
  if k < f.fileTokens.length then (τ k).held (tokenOf f.fileTokens k) (net.servers (addrOf p k))
  else ClearAt τ k net

structure Obtaining (sys : Sys) : Prop where
  owed : ∀ k < p.targets.length, (k = sys.sender.fileTokens.length → sys.call = none) →
    Owed τ sys.sender k sys.net
  current : ∀ j, sys.call = some j → sys.sender.fileTokens.length < p.targets.length ∧
    (τ sys.sender.fileTokens.length).creating
      (sys.net.servers (addrOf p sys.sender.fileTokens.length))
      ((sys.net.servers (addrOf p sys.sender.fileTokens.length)).handlers j)

structure Relinking (i : ℕ) (sys : Sys) : Prop where
  owed : ∀ k < p.targets.length, Owed τ sys.sender k sys.net
  current : ∀ j, sys.call = some j → linkTargets p sys.sender.fileTokens i ≠ [] ∧
    ∃ r, (sys.net.servers (addrOf p i)).handlers j = .finished r

structure ReleasingAt (i : ℕ) (sys : Sys) : Prop where
  done : ∀ k < i, k < p.targets.length → ClearAt τ k sys.net
  waiting : ∀ k, i < k ∨ k = i ∧ sys.call = none → k < p.targets.length →
    Owed τ sys.sender k sys.net
  current : ∀ j, sys.call = some j → i < sys.sender.fileTokens.length ∧
    tokenOf sys.sender.fileTokens i ≠ [] ∧
    (τ i).closing (tokenOf sys.sender.fileTokens i) (sys.net.servers (addrOf p i))
      ((sys.net.servers (addrOf p i)).handlers j)

/-- What the targets hold of the upload, by phase. -/
def Tidy (sys : Sys) : Prop :=
  match sys.sender.phase with
  | .start | .sending =>
    sys.call = none ∧ ∀ k < p.targets.length, Owed τ sys.sender k sys.net
  | .opening => Obtaining τ sys
  | .linking i => Relinking τ i sys
  | .closing i firstError =>
    restored ∨ sys.sender.createResult = some 0 → firstError = 0 → ReleasingAt τ i sys
  | .closed => restored ∨ sys.sender.createResult = some 0 → sys.sender.closeResult = some 0 →
    ∀ k < p.targets.length, ClearAt τ k sys.net

/-- Nobody else takes or brings what the upload holds; a request is delivered once, and one that gets lost
    is an error and no create on its way back where errors are to leave nothing. -/
def Alone (sys : Sys) : SysLabel → Prop
  | .retry _ => False
  | .lost e => e ≠ 0 ∧ (restored → sys.sender.phase = .opening → sys.call = none)
  | .net (.other a l) => ∀ k < p.targets.length, a = addrOf p k → ∀ server,
    step (conf a) (sys.net.servers a) l = some server → (τ k).leaves (sys.net.servers a) server
  | _ => True

structure Keeping (sys : Sys) : Prop where
  sound : ∀ a, Sound (conf a) (sys.net.servers a)
  followed : Followed sys.net
  tokens : sys.sender.fileTokens.length ≤ p.targets.length
  tidy : Tidy τ sys

end

variable {restored : Prop} {conf : Addr → Conf} {p : SenderParams} {source : Bytes}
  {τ : ∀ k, Tenure restored (conf (addrOf p k)) (openRequest p source)} {net net' : Net}
  {sys sys' : Sys} {f f' : FileSender} {k : ℕ}

theorem ClearAt.left (h : ClearAt τ k net)
    (hl : (τ k).leaves (net.servers (addrOf p k)) (net'.servers (addrOf p k))) : ClearAt τ k net' :=
  (τ k).clear_left h hl

theorem Owed.left (h : Owed τ f k net)
    (hl : (τ k).leaves (net.servers (addrOf p k)) (net'.servers (addrOf p k))) : Owed τ f k net' := by
  rw [Owed] at h ⊢
  split
  · rename_i hk
    rw [if_pos hk] at h
    exact (τ k).held_left h hl
  · rename_i hk
    rw [if_neg hk] at h
    exact h.left hl

theorem Owed.congr (h : Owed τ f k net) (hf : f'.fileTokens = f.fileTokens) : Owed τ f' k net := by
  rw [Owed, hf]
  exact h

/-- The targets are left as they were, and so is the handler at work on the sender's request. -/
theorem Tidy.left (h : Tidy τ sys) (htok : sys.sender.fileTokens.length ≤ p.targets.length)
    (hl : ∀ k < p.targets.length, (τ k).leaves (sys.net.servers (addrOf p k)) (net'.servers (addrOf p k)))
    (hcur : ∀ k j, sys.current p source = some (addrOf p k, j) →
      ((sys.net.servers (addrOf p k)).handlers j).Apart →
      (net'.servers (addrOf p k)).handlers j = (sys.net.servers (addrOf p k)).handlers j) :
    Tidy τ { sys with net := net' } := by
  cases hp : sys.sender.phase with
  | start =>
    simp only [Tidy, hp] at h ⊢
    exact ⟨h.1, fun k hk => (h.2 k hk).left (hl k hk)⟩
  | sending =>
    simp only [Tidy, hp] at h ⊢
    exact ⟨h.1, fun k hk => (h.2 k hk).left (hl k hk)⟩
  | opening =>
    simp only [Tidy, hp] at h ⊢
    refine ⟨fun k hk hcall => (h.owed k hk hcall).left (hl k hk), fun j hj => ?_⟩
    obtain ⟨hlt, hc⟩ := h.current j hj
    refine ⟨hlt, ?_⟩
    rw [hcur _ j (by rw [Sys.current, hj]; simp only [FileSender.request, hp, if_pos hlt])
      ((τ _).creating_apart hc)]
    exact (τ _).creating_left hc (hl _ hlt)
  | linking i =>
    simp only [Tidy, hp] at h ⊢
    refine ⟨fun k hk => (h.owed k hk).left (hl k hk), fun j hj => ?_⟩
    obtain ⟨hne, r, hr⟩ := h.current j hj
    refine ⟨hne, r, ?_⟩
    rw [hcur i j (by rw [Sys.current, hj]; simp only [FileSender.request, hp, if_pos hne])
      (by rw [hr]; exact ⟨by simp, by simp⟩), hr]
  | closing i firstError =>
    simp only [Tidy, hp] at h ⊢
    intro hres he
    have hrel := h hres he
    refine ⟨fun k hk hkn => (hrel.done k hk hkn).left (hl k hkn),
      fun k hk hkn => (hrel.waiting k hk hkn).left (hl k hkn), fun j hj => ?_⟩
    obtain ⟨hlt, hne, hc⟩ := hrel.current j hj
    refine ⟨hlt, hne, ?_⟩
    rw [hcur i j (by
      rw [Sys.current, hj]
      simp only [FileSender.request, hp, if_pos (And.intro hlt hne)]) ((τ i).closing_apart hc)]
    exact (τ i).closing_left hc (hl i (Nat.lt_of_lt_of_le hlt htok))
  | closed =>
    simp only [Tidy, hp] at h ⊢
    exact fun hres he k hk => (h hres he k hk).left (hl k hk)

/-! ### Steps of the sender's requests -/

/-- A step at one target leaves the others alone. -/
theorem others_leaves (hd : p.targets.Nodup) {k₀ : ℕ} (hk₀ : k₀ < p.targets.length)
    {l : Label} (h : others conf net (addrOf p k₀) l = some net') (hk : k < p.targets.length)
    (hne : k ≠ k₀) : (τ k).leaves (net.servers (addrOf p k)) (net'.servers (addrOf p k)) := by
  obtain ⟨_, server, _, rfl⟩ := others_eq h
  simp only [update_of_ne fun heq => hne (addrOf_inj hd hk hk₀ heq)]
  exact (τ k).leaves_quiet rfl rfl

theorem Obtaining.own (h : Obtaining τ sys) (hd : p.targets.Nodup) {l : Label} {j : ℕ}
    (hlt : sys.sender.fileTokens.length < p.targets.length)
    (hoth : others conf sys.net (addrOf p sys.sender.fileTokens.length) l = some net')
    (hcur : (τ sys.sender.fileTokens.length).creating
      (net'.servers (addrOf p sys.sender.fileTokens.length))
      ((net'.servers (addrOf p sys.sender.fileTokens.length)).handlers j)) :
    Obtaining τ { sys with net := net', call := some j } := by
  refine ⟨fun k hk hcall => ?_, fun j' hj => ?_⟩
  · by_cases hk₀ : k = sys.sender.fileTokens.length
    · cases hcall hk₀
    · exact (h.owed k hk fun heq => absurd heq hk₀).left (others_leaves hd hlt hoth hk hk₀)
  · cases hj
    exact ⟨hlt, hcur⟩

theorem Relinking.own {i : ℕ} (h : Relinking τ i sys) (hd : p.targets.Nodup) {l : Label}
    {j : ℕ} (hlt : i < p.targets.length) (hne : linkTargets p sys.sender.fileTokens i ≠ [])
    (hoth : others conf sys.net (addrOf p i) l = some net') (howed : Owed τ sys.sender i net')
    (hcur : ∃ r, (net'.servers (addrOf p i)).handlers j = .finished r) :
    Relinking τ i { sys with net := net', call := some j } := by
  refine ⟨fun k hk => ?_, fun j' hj => ?_⟩
  · by_cases hki : k = i
    · rw [hki]
      exact howed
    · exact (h.owed k hk).left (others_leaves hd hlt hoth hk hki)
  · cases hj
    exact ⟨hne, hcur⟩

theorem ReleasingAt.own {i : ℕ} (h : ReleasingAt τ i sys) (hd : p.targets.Nodup)
    {l : Label} {j : ℕ} (hlt : i < sys.sender.fileTokens.length)
    (htok : sys.sender.fileTokens.length ≤ p.targets.length) (hne : tokenOf sys.sender.fileTokens i ≠ [])
    (hoth : others conf sys.net (addrOf p i) l = some net')
    (hcur : (τ i).closing (tokenOf sys.sender.fileTokens i) (net'.servers (addrOf p i))
      ((net'.servers (addrOf p i)).handlers j)) :
    ReleasingAt τ i { sys with net := net', call := some j } := by
  have hin : i < p.targets.length := Nat.lt_of_lt_of_le hlt htok
  refine ⟨fun k hk hkn => ?_, fun k hk hkn => ?_, fun j' hj => ?_⟩
  · exact (h.done k hk hkn).left (others_leaves hd hin hoth hkn (Nat.ne_of_lt hk))
  · rcases hk with hk | ⟨_, hk⟩
    · exact (h.waiting k (.inl hk) hkn).left (others_leaves hd hin hoth hkn (Nat.ne_of_gt hk))
    · cases hk
  · cases hj
    exact ⟨hlt, hne, hcur⟩

/-- The request is delivered. -/
theorem Tidy.call (h : Keeping τ sys) (hd : p.targets.Nodup) (hwait : p.waitClose = true)
    {i : ℕ} {a : Addr} {req : Request} (hcall : sys.call = none)
    (hreq : sys.sender.request p source = some (a, req))
    (hoth : others conf sys.net a (.arrive i req) = some net') :
    Tidy τ { sys with net := net', call := some i } := by
  have htidy := h.tidy
  rcases FileSender.request_cases hreq with ⟨hphase, hlt, rfl, rfl⟩ | ⟨k, hphase, hne, rfl, rfl⟩ |
    ⟨k, e, hphase, hlt, hne, rfl, rfl⟩
  · simp only [Tidy, hphase] at htidy ⊢
    have howed := htidy.owed _ hlt fun _ => hcall
    rw [Owed, if_neg (Nat.lt_irrefl _)] at howed
    exact htidy.own hd hlt hoth ((τ _).create_arrive howed (others_step hoth))
  · simp only [Tidy, hphase] at htidy ⊢
    have hlt : k < sys.sender.fileTokens.length :=
      linksOf_ne_nil fun h0 => hne (by rw [linkTargets, h0, List.map_nil])
    have hkn := Nat.lt_of_lt_of_le hlt h.tokens
    have howed := htidy.owed k hkn
    rw [Owed, if_pos hlt] at howed
    have hstep := others_step hoth
    refine htidy.own hd hkn hne hoth ?_ ?_
    · rw [Owed, if_pos hlt]
      exact (τ k).link_arrive (h.sound _) howed hstep
    · rcases step_cases hstep with ⟨_, _, hl, _, hnet⟩ | ⟨_, _, _, _, hl, _⟩ <;> cases hl
      rw [hnet]
      simp only [update_self, accept]
      exact ⟨_, rfl⟩
  · simp only [Tidy, hphase] at htidy ⊢
    intro hres he
    have hrel := htidy hres he
    have howed := hrel.waiting k (.inr ⟨rfl, hcall⟩) (Nat.lt_of_lt_of_le hlt h.tokens)
    rw [Owed, if_pos hlt] at howed
    exact hrel.own hd hlt h.tokens hne hoth
      ((τ k).close_arrive (by rw [hwait]; decide) howed (others_step hoth))

/-- The handler at work on the request takes a step. -/
theorem Tidy.serve (h : Keeping τ sys) (hd : p.targets.Nodup) {i : ℕ} {a : Addr}
    {ans : Answer} (hcur : sys.current p source = some (a, i))
    (hoth : others conf sys.net a (.resume i ans) = some net') : Tidy τ { sys with net := net' } := by
  have htidy := h.tidy
  obtain ⟨hcall, req, hreq⟩ := current_eq hcur
  have heq : ({ sys with net := net' } : Sys) = { sys with net := net', call := some i } := by
    rw [← hcall]
  rw [heq]
  rcases FileSender.request_cases hreq with ⟨hphase, hlt, rfl, _⟩ | ⟨k, hphase, hne, rfl, _⟩ |
    ⟨k, e, hphase, hlt, hne, rfl, _⟩
  · simp only [Tidy, hphase] at htidy ⊢
    exact htidy.own hd hlt hoth
      ((τ _).create_resume (h.sound _) (htidy.current i hcall).2 (others_step hoth))
  · simp only [Tidy, hphase] at htidy ⊢
    obtain ⟨_, r, hr⟩ := htidy.current i hcall
    rcases step_cases (others_step hoth) with ⟨_, _, hl, _⟩ | ⟨_, _, _, _, hl, heff, _⟩ <;> cases hl
    rw [hr] at heff
    cases heff
  · simp only [Tidy, hphase] at htidy ⊢
    intro hres he
    have hrel := htidy hres he
    exact hrel.own hd hlt h.tokens hne hoth
      ((τ k).close_resume (h.sound _) (hrel.current i hcall).2.2 (others_step hoth))

/-! ### Steps of the sender -/

/-- `create_file` returns, and `upload_file` goes on to send or to close. -/
theorem Tidy.returnCreate {e : ℤ}
    (h : restored ∨ e = 0 → ∀ k < p.targets.length, Owed τ f k net) :
    Tidy τ ⟨net, f.returnCreate e, none⟩ := by
  rw [FileSender.returnCreate]
  split
  · rename_i he
    simp only [Tidy]
    exact ⟨trivial, fun k hk => (h (.inr he) k hk).congr rfl⟩
  · simp only [Tidy]
    intro hres _
    have hrel := h (hres.imp_right Option.some.inj)
    exact ⟨fun k hk => absurd hk (Nat.not_lt_zero k), fun k _ hk => (hrel k hk).congr rfl,
      fun j hj => by cases hj⟩

/-- A create has answered 0. -/
theorem Obtaining.receive (h : Obtaining τ sys) {j : ℕ} {r : Reply} (hcall : sys.call = some j)
    (hr : (sys.net.servers (addrOf p sys.sender.fileTokens.length)).handlers j = .finished r)
    (hzero : wireError r.error = 0) : Obtaining τ
      { sys with
        sender := { sys.sender with fileTokens := sys.sender.fileTokens ++ [r.fileToken] }
        call := none } := by
  obtain ⟨_, hc⟩ := h.current j hcall
  rw [hr] at hc
  refine ⟨fun k hk _ => ?_, fun _ hj => by cases hj⟩
  rw [Owed, List.length_append, List.length_singleton]
  rcases Nat.lt_trichotomy k sys.sender.fileTokens.length with hlt | rfl | hgt
  · have howed := h.owed k hk fun heq => absurd heq (Nat.ne_of_lt hlt)
    rw [Owed, if_pos hlt] at howed
    rw [if_pos (Nat.lt_succ_of_lt hlt), tokenOf_append hlt]
    exact howed
  · rw [if_pos (Nat.lt_succ_self _), tokenOf_append_self]
    exact (τ _).created hc hzero
  · have howed := h.owed k hk fun heq => absurd heq (Nat.ne_of_gt hgt)
    rw [Owed, if_neg (by omega)] at howed
    rw [if_neg (by omega)]
    exact howed

/-- A create has answered an error, or has not got there. -/
theorem Obtaining.refused (h : Obtaining τ sys) (hres : restored) {e : ℤ} (he : e ≠ 0)
    (hreply : (∃ j r, sys.call = some j ∧
      (sys.net.servers (addrOf p sys.sender.fileTokens.length)).handlers j = .finished r ∧
      wireError r.error = e) ∨ sys.call = none) (hk : k < p.targets.length) :
    Owed τ sys.sender k sys.net := by
  by_cases hlen : k = sys.sender.fileTokens.length
  · subst hlen
    rcases hreply with ⟨j, r, hcall, hr, rfl⟩ | hcall
    · obtain ⟨_, hc⟩ := h.current j hcall
      rw [hr] at hc
      rw [Owed, if_neg (Nat.lt_irrefl _)]
      exact (τ _).refused hres hc he
    · exact h.owed _ hk fun _ => hcall
  · exact h.owed k hk fun heq => absurd heq hlen

/-- A close has answered 0. -/
theorem ReleasingAt.receive {i : ℕ} (h : ReleasingAt τ i sys) {j : ℕ} {r : Reply}
    {phase : Phase} (hcall : sys.call = some j)
    (hr : (sys.net.servers (addrOf p i)).handlers j = .finished r) (hzero : wireError r.error = 0) :
    ReleasingAt τ (i + 1)
      { sys with
        sender := { sys.sender with phase := phase, fileTokens := sys.sender.fileTokens.set i [] }
        call := none } := by
  obtain ⟨_, _, hc⟩ := h.current j hcall
  rw [hr] at hc
  refine ⟨fun k hk hkn => ?_, fun k hk hkn => ?_, fun _ hj => by cases hj⟩
  · rcases Nat.lt_succ_iff_lt_or_eq.mp hk with hk | rfl
    · exact h.done k hk hkn
    · exact (τ k).closed hc hzero
  · have hik : i < k := by omega
    have howed := h.waiting k (.inl hik) hkn
    rw [Owed] at howed ⊢
    rw [List.length_set, tokenOf_set (Nat.ne_of_lt hik)]
    exact howed

/-- A request has ended. -/
theorem Tidy.receive (h : Keeping τ sys) {a : Addr} {req : Request} {e : ℤ}
    {token : Bytes} (hreq : sys.sender.request p source = some (a, req))
    (hreply : (∃ j r, sys.call = some j ∧ (sys.net.servers a).handlers j = .finished r ∧
      wireError r.error = e ∧ r.fileToken = token) ∨
      e ≠ 0 ∧ (restored → sys.sender.phase = .opening → sys.call = none)) :
    Tidy τ { sys with sender := sys.sender.receive e token, call := none } := by
  have htidy := h.tidy
  rcases FileSender.request_cases hreq with ⟨hphase, _, rfl, _⟩ | ⟨i, hphase, _, rfl, _⟩ |
    ⟨i, firstError, hphase, _, _, rfl, _⟩
  · simp only [Tidy, hphase] at htidy
    simp only [FileSender.receive, hphase]
    by_cases he : e = 0
    · rcases hreply with ⟨j, r, hcall, hr, hzero, rfl⟩ | ⟨hne, _⟩
      · rw [if_neg (not_not.mpr he)]
        have hnext := htidy.receive hcall hr (hzero.trans he)
        simp only [Tidy, hphase] at hnext ⊢
        exact hnext
      · exact absurd he hne
    · rw [if_pos he]
      refine Tidy.returnCreate fun hres k hk => ?_
      have hres := hres.resolve_right he
      refine htidy.refused hres he ?_ hk
      rcases hreply with ⟨j, r, hcall, hr, hzero, _⟩ | ⟨_, hnone⟩
      · exact .inl ⟨j, r, hcall, hr, hzero⟩
      · exact .inr (hnone hres hphase)
  · simp only [Tidy, hphase] at htidy
    simp only [FileSender.receive, hphase]
    by_cases he : e = 0
    · rw [if_neg (not_not.mpr he)]
      simp only [Tidy]
      exact ⟨fun k hk => (htidy.owed k hk).congr rfl, fun _ hj => by cases hj⟩
    · rw [if_pos he]
      exact Tidy.returnCreate fun _ => htidy.owed
  · simp only [Tidy, hphase] at htidy
    simp only [FileSender.receive, hphase, Tidy]
    intro hres hfirst
    -- the first error is still 0, so this result is 0 too
    have he : e = 0 ∧ firstError = 0 := by
      split at hfirst
      · rename_i hne
        exact absurd hfirst hne.1
      · rename_i hne
        exact ⟨by_contra fun he => hne ⟨he, hfirst⟩, hfirst⟩
    rcases hreply with ⟨j, r, hcall, hr, hzero, _⟩ | ⟨hne, _⟩
    · rw [if_pos he.1]
      exact (htidy hres he.2).receive hcall hr (hzero.trans he.1)
    · exact absurd he.1 hne

/-- The sender goes on where it has no request out. -/
theorem Tidy.next (h : Keeping τ sys) (hreq : sys.sender.request p source = none)
    (hnext : sys.sender.next p = some f) : Tidy τ { sys with sender := f } := by
  have htidy := h.tidy
  rw [FileSender.next] at hnext
  split at hnext
  · rename_i hphase
    simp only [Tidy, hphase] at htidy
    have hge : ¬ sys.sender.fileTokens.length < p.targets.length := by
      intro hlt
      simp only [FileSender.request, hphase, if_pos hlt, reduceCtorEq] at hreq
    have hcall : sys.call = none := by
      cases hj : sys.call with
      | none => rfl
      | some j => exact absurd (htidy.current j hj).1 hge
    have howed := fun k hk => htidy.owed k hk fun _ => hcall
    split at hnext <;> cases hnext
    · rw [hcall]
      exact Tidy.returnCreate fun _ => howed
    · simp only [Tidy]
      exact ⟨fun k hk => (howed k hk).congr rfl, fun j hj => by rw [hcall] at hj; cases hj⟩
  · rename_i i hphase
    cases hnext
    simp only [Tidy, hphase] at htidy
    have hcall : sys.call = none := by
      cases hj : sys.call with
      | none => rfl
      | some j =>
        have hne := (htidy.current j hj).1
        simp only [FileSender.request, hphase, if_pos hne, reduceCtorEq] at hreq
    rw [hcall]
    exact Tidy.returnCreate fun _ => htidy.owed
  · rename_i hphase
    simp only [Tidy, hphase] at htidy
    split at hnext <;> cases hnext
    simp only [Tidy]
    exact fun _ _ => ⟨fun k hk => absurd hk (Nat.not_lt_zero k), fun k _ hk => (htidy.2 k hk).congr rfl,
      fun j hj => by rw [htidy.1] at hj; cases hj⟩
  · rename_i i firstError hphase
    simp only [Tidy, hphase] at htidy
    have hover : restored ∨ sys.sender.createResult = some 0 → firstError = 0 →
        sys.call = none ∧ ¬ i < sys.sender.fileTokens.length := by
      intro hres he
      have hrel := htidy hres he
      have hcall : sys.call = none := by
        cases hj : sys.call with
        | none => rfl
        | some j =>
          obtain ⟨hlt, hne, _⟩ := hrel.current j hj
          simp only [FileSender.request, hphase, if_pos (And.intro hlt hne), reduceCtorEq] at hreq
      refine ⟨hcall, fun hlt => ?_⟩
      have howed := hrel.waiting i (.inr ⟨rfl, hcall⟩) (Nat.lt_of_lt_of_le hlt h.tokens)
      rw [Owed, if_pos hlt] at howed
      simp only [FileSender.request, hphase, if_pos (And.intro hlt ((τ i).token_ne_nil (h.sound _) howed)),
        reduceCtorEq] at hreq
    split at hnext <;> cases hnext
    · rename_i hlt
      simp only [Tidy]
      exact fun hres he => absurd hlt (hover hres he).2
    · simp only [Tidy]
      intro hres he k hk
      have he := Option.some.inj he
      obtain ⟨hcall, hge⟩ := hover hres he
      rcases Nat.lt_or_ge k i with hlt | hle
      · exact (htidy hres he).done k hlt hk
      · have howed := (htidy hres he).waiting k
          ((Nat.lt_or_eq_of_le hle).imp_right fun heq => ⟨heq.symm, hcall⟩) hk
        rw [Owed, if_neg (by omega)] at howed
        exact howed
  · cases hnext

/-! ### Steps of the system -/

theorem FileSender.returnCreate_tokens (f : FileSender) (e : ℤ) :
    (f.returnCreate e).fileTokens = f.fileTokens := by
  rw [returnCreate]
  split <;> rfl

theorem FileSender.receive_tokens {a : Addr} {req : Request} (hreq : f.request p source = some (a, req))
    (htok : f.fileTokens.length ≤ p.targets.length) (e : ℤ) (token : Bytes) :
    (f.receive e token).fileTokens.length ≤ p.targets.length := by
  rcases FileSender.request_cases hreq with ⟨hphase, hlt, _⟩ | ⟨i, hphase, _⟩ | ⟨i, first, hphase, _⟩
  · simp only [receive, hphase]
    split
    · rwa [returnCreate_tokens]
    · rwa [List.length_append, List.length_singleton]
  · simp only [receive, hphase]
    split
    · rwa [returnCreate_tokens]
    · exact htok
  · simp only [receive, hphase]
    split
    · rwa [List.length_set]
    · exact htok

theorem FileSender.next_tokens (h : f.next p = some f') : f'.fileTokens = f.fileTokens := by
  rw [next] at h
  split at h
  · split at h <;> cases h
    · exact returnCreate_tokens f EINVAL
    · rfl
  · cases h
    exact returnCreate_tokens f 0
  · split at h <;> cases h
    rfl
  · split at h <;> cases h <;> rfl
  · cases h

/-- CORRECT (one step of the system): what a target holds is what the sender has still to close. -/
theorem Keeping.preserved (h : Keeping τ sys) (hd : p.targets.Nodup)
    (hwait : p.waitClose = true) {l : SysLabel} (hl : Alone τ sys l)
    (hstep : sysStep p source conf sys l = some sys') : Keeping τ sys' := by
  have hbase : (∀ a, Sound (conf a) (sys'.net.servers a)) ∧ Followed sys'.net := by
    rcases sysStep_netStep hstep with heq | ⟨l', hnet, _⟩
    · rw [heq]
      exact ⟨h.sound, h.followed⟩
    · exact ⟨sound_netStep hnet h.sound, h.followed.preserved hnet⟩
  suffices hrest : sys'.sender.fileTokens.length ≤ p.targets.length ∧ Tidy τ sys' from
    ⟨hbase.1, hbase.2, hrest.1, hrest.2⟩
  have htidy := h.tidy
  cases sysStep_effect hstep with
  | openFile hphase =>
    simp only [Tidy, hphase] at htidy ⊢
    exact ⟨h.tokens, fun k hk _ => (htidy.2 k hk).congr rfl,
      fun j hj => by rw [htidy.1] at hj; cases hj⟩
  | openFailed e hphase =>
    simp only [Tidy, hphase] at htidy
    refine ⟨by rw [FileSender.returnCreate_tokens]; exact h.tokens, ?_⟩
    rw [htidy.1]
    exact Tidy.returnCreate fun _ => htidy.2
  | call i a req net' hcall hreq hoth => exact ⟨h.tokens, Tidy.call h hd hwait hcall hreq hoth⟩
  | retry => cases hl
  | serve ans a i net' hcur hoth => exact ⟨h.tokens, Tidy.serve h hd hcur hoth⟩
  | reply a i r hcur hr =>
    obtain ⟨hcall, req, hreq⟩ := current_eq hcur
    exact ⟨FileSender.receive_tokens hreq h.tokens _ _,
      Tidy.receive h hreq (.inl ⟨i, r, hcall, hr, rfl, rfl⟩)⟩
  | lost e a req hreq =>
    exact ⟨FileSender.receive_tokens hreq h.tokens _ _, Tidy.receive h hreq (.inr hl)⟩
  | next f hreq hnext =>
    exact ⟨by rw [FileSender.next_tokens hnext]; exact h.tokens, Tidy.next h hreq hnext⟩
  | work w l net' f' hphase _ hwork =>
    simp only [Tidy, hphase] at htidy
    rcases workerStep_cases hwork with ⟨rfl, _, _, _, rfl⟩ | ⟨i, _, _, _, _, rfl, hnet⟩
    · simp only [Tidy, hphase]
      exact ⟨h.tokens, htidy.1, fun k hk => (htidy.2 k hk).congr rfl⟩
    · simp only [Tidy, hphase]
      have hquiet := h.followed.quiet hnet fun _ _ heq => by cases heq
      exact ⟨h.tokens, htidy.1, fun k hk => (htidy.2 k hk).left
        ((τ k).leaves_quiet (hquiet _).1 (hquiet _).2)⟩
  | net l net' hnet _ hcur =>
    refine ⟨h.tokens, htidy.left h.tokens (fun k hk => ?_) fun k j hkj hapart => ?_⟩
    · by_cases hoth : ∃ a l', l = .other a l'
      · obtain ⟨a, l', rfl⟩ := hoth
        obtain ⟨_, server, hs, rfl⟩ := others_eq hnet
        by_cases hka : addrOf p k = a
        · subst hka
          simp only [update_self]
          exact hl k hk rfl server hs
        · simp only [update_of_ne hka]
          exact (τ k).leaves_quiet rfl rfl
      · have hquiet := h.followed.quiet hnet fun a l' heq => hoth ⟨a, l', heq⟩
        exact (τ k).leaves_quiet (hquiet _).1 (hquiet _).2
    · refine h.followed.still hnet hapart.1 hapart.2 fun l' heq => ?_
      rintro rfl
      exact hcur _ l' heq hkj

/-! ### Runs -/

theorem Quiet.followed (h : Quiet conf net) : Followed net :=
  ⟨fun a i _ => h.served a i, fun a i s hs => by rw [h.served] at hs; cases hs⟩

theorem SysInitial.keeping (h : SysInitial conf sys)
    (hclear : ∀ k < p.targets.length, ClearAt τ k sys.net) : Keeping τ sys where
  sound := h.quiet.sound
  followed := h.quiet.followed
  tokens := by
    rw [h.sender]
    exact Nat.zero_le _
  tidy := by
    simp only [Tidy, h.sender]
    exact ⟨h.call, hclear⟩

/-- CORRECT (an upload that is closed): where `close_file` has returned 0 nothing is left. -/
theorem Keeping.closed (h : Keeping τ sys) (hu : Unclosed sys.sender)
    (hres : restored ∨ sys.sender.createResult = some 0) (hclose : sys.sender.closeResult = some 0) :
    ∀ k < p.targets.length, ClearAt τ k sys.net := by
  have hphase : sys.sender.phase = .closed := by
    by_contra hne
    rw [hu hne] at hclose
    cases hclose
  have htidy := h.tidy
  simp only [Tidy, hphase] at htidy
  exact htidy hres hclose

end Fcopy
