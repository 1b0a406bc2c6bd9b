import Fcopy.Server.Replies

/-! Requests that outlive their session.

    A token is the hash of a path, so a path that is created again gets the token it had before, and a
    request delayed since then finds the new session. A `SEND_FILE_REQ` that has looked up its session
    carries on with a descriptor number, which may have been given to another file meanwhile. The audit
    of a run lists which token was returned for which open file:

        create a ──▶ ("4", a₀)    close "4"    create a ──▶ ("4", a₁)
                                  SET_CHAIN "4", sent for a₀ ──────────▶ a₁

    A stale request can reach a later session exactly after one of two steps: a token is returned a
    second time (`Reissues`), or a number some write is going to use is opened (`Reuses`). -/

namespace Fcopy
open Function Ownership

/-- A server, and what each `create_file` that succeeded returned and opened, in this order. -/
structure Audit where
  server : Server
  issued : List (Bytes × Desc)

/-- The token a step returns, if it is the last of a `create_file` that succeeds. -/
def issuedBy (s : Server) (l : Label) : List (Bytes × Desc) :=
  match l with
  | .arrive _ _ => []
  | .resume i a =>
    match s.handlers i, a with
    | .createInsert c _ desc, .done => if s.store.fmap c.token = none then [(c.token, desc)] else []
    | _, _ => []

def auditStep (conf : Conf) (t : Audit) (l : Label) : Option Audit :=
  (step conf t.server l).map fun s => ⟨s, t.issued ++ issuedBy t.server l⟩

abbrev AuditRuns (conf : Conf) : Audit → List Label → Audit → Prop :=
  Run.Steps (Run.ofStep (auditStep conf))

/-- The step applies a request with the token to the open file `d`: it gives the session new targets,
    takes it out of the table, resizes or closes its file, or writes. -/
inductive Applies (s : Server) : Label → Bytes → Desc → Prop
  | retarget (i : ℕ) (req : SetChainReq) (info : FileInfo) (hi : s.handlers i = .idle)
      (hf : s.store.fmap req.fileToken = some info) :
      Applies s (.arrive i (.setChain req)) req.fileToken info.desc
  | erase (i : ℕ) (token : Bytes) (reply : Option Reply) (info : FileInfo)
      (hi : s.handlers i = .closeErase token reply) (hf : s.store.fmap token = some info) :
      Applies s (.resume i .done) token info.desc
  | release (i : ℕ) (info : FileInfo) (reply : Option Reply) (d : Desc)
      (hi : s.handlers i = .closeTruncate info reply ∨ s.handlers i = .closeFd info reply)
      (hd : s.store.os.fds info.fd = some d) : Applies s (.resume i .done) info.fileToken d
  | write (i : ℕ) (x : Sending) (n : ℕ) (d : Desc) (hi : s.handlers i = .sending x)
      (hx : x.writeError = none) (hn : n ≤ writeSize x.data.length)
      (ho : x.req.offset.toNat < 2 ^ 63) (hd : s.store.os.fds x.fd = some d) :
      Applies s (.resume i (.wrote n)) x.req.fileToken d

/-- The step looks up the session for a request with the token. -/
inductive LooksUp (s : Server) : Label → ℕ → Bytes → Prop
  | send (i : ℕ) (req : SendFileReq) (data : Bytes) :
      LooksUp s (.arrive i (.send req data)) i req.fileToken
  | setChain (i : ℕ) (req : SetChainReq) : LooksUp s (.arrive i (.setChain req)) i req.fileToken
  | close (i : ℕ) (req : CloseFileReq) : LooksUp s (.arrive i (.close req)) i req.fileToken
  | erase (i : ℕ) (token : Bytes) (reply : Option Reply) (hi : s.handlers i = .closeErase token reply) :
      LooksUp s (.resume i .done) i token

/-- The handler has replied with an error, or has yet to look for a session and not replied anything
    else. -/
def Handler.Denies : Handler → Prop
  | .finished r => r.error ≠ 0
  | .closeErase _ reply => ∀ r, reply = some r → r.error ≠ 0
  | _ => False

/-- When the token was returned for `d`, the open file `d'` had not been returned yet. -/
def Later (t : Audit) (token : Bytes) (d d' : Desc) : Prop :=
  ∃ before after, t.issued = before ++ (token, d) :: after ∧
    d' ∉ (before ++ [(token, d)]).map Prod.snd

/-- Requests with a token do not reach later sessions. Once the session is out of the table they are
    denied and change nothing, and once its file is closed those on their way do nothing either. -/
structure Fresh (conf : Conf) (t : Audit) : Prop where
  never : ∀ l token d d', Later t token d d' → ¬Applies t.server l token d'
  denied : ∀ l i token d s', (token, d) ∈ t.issued →
    (∀ info, t.server.store.fmap token = some info → info.desc ≠ d) → LooksUp t.server l i token →
    step conf t.server l = some s' → s'.store = t.server.store ∧
      (t.server.handlers i = .idle ∨ (t.server.handlers i).Denies → (s'.handlers i).Denies)
  ended : ∀ l token d d', (token, d) ∈ t.issued → (∀ fd, t.server.store.os.fds fd ≠ some d) →
    ¬Applies t.server l token d'

/-- The step returns a token that has been returned before. -/
def Reissues (t : Audit) (l : Label) : Prop :=
  ∃ i c fd desc d, l = .resume i .done ∧ t.server.handlers i = .createInsert c fd desc ∧
    t.server.store.fmap c.token = none ∧ (c.token, d) ∈ t.issued

/-- The step opens a descriptor that a `SEND_FILE_REQ` has looked up and not written to yet. -/
def Reuses (s : Server) (l : Label) : Prop :=
  ∃ i c fd errno j x, l = .resume i (.opened fd errno) ∧ s.handlers i = .createOpen c ∧
    s.handlers j = .sending x ∧ x.writeError = none ∧ x.req.offset.toNat < 2 ^ 63 ∧ x.fd = fd

/-- What the records of the server and the audit have in common. -/
structure Audited (t : Audit) : Prop where
  exclusive : Exclusive t.server.owned t.server.store.os.fds
  single : ∀ token d d', (token, d) ∈ t.issued → (token, d') ∈ t.issued → d = d'
  serial : ∀ p ∈ t.issued, p.2.serial < t.server.store.os.serial
  session : ∀ token info, t.server.store.fmap token = some info →
    info.fileToken = token ∧ (token, info.desc) ∈ t.issued
  closer : ∀ i info reply,
    t.server.handlers i = .closeTruncate info reply ∨ t.server.handlers i = .closeFd info reply →
    (info.fileToken, info.desc) ∈ t.issued
  sender : ∀ i x, t.server.handlers i = .sending x → (x.req.fileToken, x.desc) ∈ t.issued ∧
    (x.writeError = none → x.req.offset.toNat < 2 ^ 63 →
      ∀ d, t.server.store.os.fds x.fd = some d → d = x.desc)
  creator : ∀ i fd d, (t.server.handlers i).creatorHolds = some (fd, d) →
    d.serial < t.server.store.os.serial ∧ (∀ p ∈ t.issued, p.2 ≠ d) ∧
      ∀ j fd', (t.server.handlers j).creatorHolds = some (fd', d) → j = i
  idle : ∃ n, ∀ i, n ≤ i → t.server.handlers i = .idle

variable {conf : Conf} {s s' : Server} {t t' : Audit} {l : Label}

/-! ### One step -/

/-- The descriptor of a session stands for its file. -/
theorem Audited.live (ht : Audited t) {token : Bytes} {info : FileInfo}
    (hf : t.server.store.fmap token = some info) :
    t.server.store.os.fds info.fd = some info.desc :=
  ht.exclusive.live (.session token) _ _ (by simp only [Server.owned, hf, Option.map_some])

/-- A step that returns no token: what is new in it is a descriptor just opened, or a request that has
    looked up its session. -/
theorem Audited.frame (ht : Audited t) {st : Store} {i : ℕ} {h : Handler}
    (hex : Exclusive (⟨st, update t.server.handlers i h⟩ : Server).owned st.os.fds)
    (hserial : t.server.store.os.serial ≤ st.os.serial)
    (hsession : ∀ token info, st.fmap token = some info → ∃ old,
      t.server.store.fmap token = some old ∧ info.fileToken = old.fileToken ∧ info.desc = old.desc)
    (hcloser : ∀ info reply, h = .closeTruncate info reply ∨ h = .closeFd info reply →
      (info.fileToken, info.desc) ∈ t.issued)
    (hsender : ∀ x, h = .sending x → (x.req.fileToken, x.desc) ∈ t.issued ∧
      (x.writeError = none → x.req.offset.toNat < 2 ^ 63 → ∀ d, st.os.fds x.fd = some d → d = x.desc))
    (hother : ∀ j x, t.server.handlers j = .sending x → x.writeError = none →
      x.req.offset.toNat < 2 ^ 63 → ∀ d, st.os.fds x.fd = some d →
        t.server.store.os.fds x.fd = some d)
    (hcreator : ∀ fd d, h.creatorHolds = some (fd, d) →
      (t.server.handlers i).creatorHolds = some (fd, d) ∨
        d.serial = t.server.store.os.serial ∧ t.server.store.os.serial < st.os.serial) :
    Audited ⟨⟨st, update t.server.handlers i h⟩, t.issued⟩ where
  exclusive := hex
  single := ht.single
  serial p hp := (ht.serial p hp).trans_le hserial
  session token info hf := by
    obtain ⟨old, hold, htoken, hdesc⟩ := hsession token info hf
    rw [htoken, hdesc]
    exact ht.session token old hold
  closer j info reply hj := by
    rcases eq_or_ne j i with rfl | hne
    · simp only [update_self] at hj
      exact hcloser info reply hj
    · simp only [update_of_ne hne] at hj
      exact ht.closer j info reply hj
  sender j x hj := by
    rcases eq_or_ne j i with rfl | hne
    · simp only [update_self] at hj
      exact hsender x hj
    · simp only [update_of_ne hne] at hj
      obtain ⟨hmem, hfd⟩ := ht.sender j x hj
      exact ⟨hmem, fun hx ho d hd => hfd hx ho d (hother j x hj hx ho d hd)⟩
  creator := by
    -- what a handler holds it held before, or it has just opened it
    have hback : ∀ j fd d, (update t.server.handlers i h j).creatorHolds = some (fd, d) →
        (t.server.handlers j).creatorHolds = some (fd, d) ∨
          j = i ∧ d.serial = t.server.store.os.serial ∧
            t.server.store.os.serial < st.os.serial := by
      intro j fd d hj
      rcases eq_or_ne j i with rfl | hne
      · rw [update_self] at hj
        exact (hcreator fd d hj).imp_right fun hnew => ⟨rfl, hnew⟩
      · rw [update_of_ne hne] at hj
        exact .inl hj
    intro j fd d hj
    rcases hback j fd d hj with hold | ⟨rfl, hnew, hlt⟩
    · obtain ⟨hlt, hnot, honly⟩ := ht.creator j fd d hold
      refine ⟨hlt.trans_le hserial, hnot, fun k fd' hk => ?_⟩
      rcases hback k fd' d hk with hold' | ⟨_, hnew, _⟩
      · exact honly k fd' hold'
      · omega
    · refine ⟨hnew.trans_lt hlt, fun p hp heq => ?_, fun k fd' hk => ?_⟩
      · have := ht.serial p hp
        rw [heq] at this
        omega
      · rcases hback k fd' d hk with hold' | ⟨hki, _⟩
        · have := (ht.creator k fd' d hold').1
          omega
        · exact hki
  idle := by
    obtain ⟨n, hn⟩ := ht.idle
    refine ⟨max n (i + 1), fun j hj => ?_⟩
    simp only [update_of_ne (by omega : j ≠ i)]
    exact hn j (by omega)

/-! ### Pieces of a handler -/

section
variable {st st' : Store} {h h' : Handler} {a : Answer}

theorem Effect.serial_le (heff : Effect st h a st' h') : st.os.serial ≤ st'.os.serial := by
  cases heff with
  | opened c fd errno os desc hfd ho =>
    obtain ⟨_, _, _, rfl⟩ := Os.openFile_eq ho
    exact Nat.le_succ _
  | leaked c errno os desc ho =>
    obtain ⟨_, _, _, rfl⟩ := Os.openFile_eq ho
    exact Nat.le_succ _
  | truncated c fd desc os ht =>
    obtain ⟨_, _, _, rfl⟩ := Os.ftruncate_eq ht
    exact le_rfl
  | resized info reply os ht =>
    obtain ⟨_, _, _, rfl⟩ := Os.ftruncate_eq ht
    exact le_rfl
  | wrote x n os _ _ hw =>
    obtain ⟨_, _, _, rfl⟩ := Os.pwrite_eq hw
    exact le_rfl
  | _ => exact le_rfl

/-- A session was there before, or a create has just inserted it. -/
theorem Effect.fmap_before (heff : Effect st h a st' h') {token : Bytes} {info : FileInfo}
    (hf : st'.fmap token = some info) : st.fmap token = some info ∨
      ∃ c fd desc, h = .createInsert c fd desc ∧ st.fmap c.token = none ∧ a = .done := by
  cases heff with
  | inserted c fd desc hnone => exact .inr ⟨c, fd, desc, rfl, hnone, rfl⟩
  | erased token' reply info' hf' =>
    rcases eq_or_ne token token' with rfl | hne
    · simp only [update_self, reduceCtorEq] at hf
    · exact .inl (by simpa only [update_of_ne hne] using hf)
  | _ => exact .inl hf

/-- A close that has taken a session out of the table had it before, or has found it in the table. -/
theorem Effect.closer_before (heff : Effect st h a st' h') {info : FileInfo} {reply : Option Reply}
    (hk : h' = .closeTruncate info reply ∨ h' = .closeFd info reply) :
    (h = .closeTruncate info reply ∨ h = .closeFd info reply) ∨
      ∃ token, st.fmap token = some info := by
  cases heff with
  | erased token reply' info' hf =>
    rcases hk with hk | hk
    · cases hk
      exact .inr ⟨token, hf⟩
    · cases hk
  | resized info' reply' os ht =>
    rcases hk with hk | hk
    · cases hk
    · cases hk
      exact .inl (.inl rfl)
  | resizeFailed info' reply' e =>
    rcases hk with hk | hk
    · cases hk
    · cases hk
      exact .inl (.inl rfl)
  | _ => simp at hk

/-- A create holds what it held before, or the file just opened. -/
theorem Effect.creator_before (heff : Effect st h a st' h') {fd : ℕ} {d : Desc}
    (hc : h'.creatorHolds = some (fd, d)) : h.creatorHolds = some (fd, d) ∨
      d.serial = st.os.serial ∧ st.os.serial < st'.os.serial := by
  cases heff with
  | opened c n errno os desc hn ho =>
    obtain ⟨_, _, rfl, rfl⟩ := Os.openFile_eq ho
    cases hc
    exact .inr ⟨rfl, Nat.lt_succ_self _⟩
  | truncated c n desc os ht => exact .inl hc
  | _ => cases hc

end

/-! ### Steps of the audit -/

theorem auditStep_eq (h : auditStep conf t l = some t') : ∃ s', step conf t.server l = some s' ∧
    t' = ⟨s', t.issued ++ issuedBy t.server l⟩ := by
  obtain ⟨s', hs, rfl⟩ := Option.map_eq_some_iff.mp h
  exact ⟨s', hs, rfl⟩

/-- A token is returned by the step that inserts its session, and by no other. -/
theorem issuedBy_effect {i : ℕ} {a : Answer} {st' : Store} {h' : Handler}
    (heff : Effect s.store (s.handlers i) a st' h') : issuedBy s (.resume i a) = [] ∨
      ∃ c fd desc, a = .done ∧ s.handlers i = .createInsert c fd desc ∧
        s.store.fmap c.token = none ∧ issuedBy s (.resume i a) = [(c.token, desc)] := by
  simp only [issuedBy]
  generalize s.handlers i = hd at heff
  cases heff with
  | duplicate c fd desc info hf => simp [hf]
  | inserted c fd desc hf => exact .inr ⟨c, fd, desc, rfl, rfl, hf, if_pos hf⟩
  | _ => exact .inl rfl

/-- An arrival keeps the records. -/
theorem Audited.arrive (ht : Audited t) {i : ℕ} {req : Request}
    (hex : Exclusive (⟨(accept conf t.server.store req).1,
      update t.server.handlers i (accept conf t.server.store req).2⟩ : Server).owned
      (accept conf t.server.store req).1.os.fds) :
    Audited ⟨⟨(accept conf t.server.store req).1,
      update t.server.handlers i (accept conf t.server.store req).2⟩, t.issued⟩ := by
  obtain ⟨hos, _⟩ := accept_store conf t.server.store req
  obtain ⟨hcreator, hcloser, _⟩ := accept_holds conf t.server.store req
  refine ht.frame hex (by rw [hos]) (fun token info hf => ?_) (fun info reply hk => ?_)
    (fun x hx => ?_) (fun j x _ _ _ d hd => by rwa [hos] at hd) (fun fd d hc => ?_)
  · obtain ⟨old, hold, hinfo⟩ := accept_session t.server.store req token hf
    exact ⟨old, hold, by rw [hinfo], by rw [hinfo]⟩
  · rcases hk with hk | hk
    · rw [hk] at hcloser
      cases hcloser
    · rw [hk] at hcloser
      cases hcloser
  · obtain ⟨r, data, info, rfl, hinfo, rfl⟩ := accept_sending hx
    refine ⟨(ht.session r.fileToken info hinfo).2, fun _ _ d hd => ?_⟩
    rw [hos, ht.live hinfo] at hd
    exact (Option.some.inj hd).symm
  · rw [hcreator] at hc
    cases hc

/-- A piece of a handler keeps the records, unless it returns a token or opens a descriptor that is
    going to be written to. -/
theorem Audited.resume (ht : Audited t) {i : ℕ} {a : Answer} {st' : Store} {h' : Handler}
    (heff : Effect t.server.store (t.server.handlers i) a st' h')
    (hreuse : ¬Reuses t.server (.resume i a))
    (hinsert : ∀ c fd desc, t.server.handlers i = .createInsert c fd desc → a = .done →
      t.server.store.fmap c.token ≠ none)
    (hex : Exclusive (⟨st', update t.server.handlers i h'⟩ : Server).owned st'.os.fds) :
    Audited ⟨⟨st', update t.server.handlers i h'⟩, t.issued⟩ := by
  have hfds : ∀ j x, t.server.handlers j = .sending x → x.writeError = none →
      x.req.offset.toNat < 2 ^ 63 → ∀ d, st'.os.fds x.fd = some d →
        t.server.store.os.fds x.fd = some d := by
    intro j x hj hx ho d hd
    rcases heff.fds_before hd with hold | ⟨c, errno, hi, rfl⟩
    · exact hold
    · exact absurd ⟨i, c, x.fd, errno, j, x, rfl, hi, hj, hx, ho, rfl⟩ hreuse
  refine ht.frame hex heff.serial_le (fun token info hf => ?_) (fun info reply hk => ?_)
    (fun x hx => ?_) hfds fun fd d hc => heff.creator_before hc
  · rcases heff.fmap_before hf with hold | ⟨c, fd, desc, hi, hnone, ha⟩
    · exact ⟨info, hold, rfl, rfl⟩
    · exact absurd hnone (hinsert c fd desc hi ha)
  · rcases heff.closer_before hk with hold | ⟨token, hf⟩
    · exact ht.closer i info reply hold
    · obtain ⟨htoken, hmem⟩ := ht.session token info hf
      rwa [htoken]
  · subst hx
    obtain ⟨y, hy, hreq, _, hfd, hdesc, _, hw⟩ := heff.sending_before
    obtain ⟨hmem, hown⟩ := ht.sender i y hy
    rw [hreq, hfd, hdesc]
    exact ⟨hmem, fun hx ho d hd => hown (hw hx) ho d (hfds i y hy (hw hx) ho d hd)⟩

/-- The end of a `create_file` whose token is new keeps the records. -/
theorem Audited.insert (ht : Audited t) {i : ℕ} {c : CreateCall} {fd : ℕ} {desc : Desc}
    (hi : t.server.handlers i = .createInsert c fd desc)
    (hnew : ∀ d, (c.token, d) ∉ t.issued)
    (hex : Exclusive
      (⟨{ t.server.store with
            fmap := update t.server.store.fmap c.token (some (Store.createInfo c fd desc)) },
        update t.server.handlers i (.finished ⟨0, c.token⟩)⟩ : Server).owned
      t.server.store.os.fds) :
    Audited ⟨⟨{ t.server.store with
          fmap := update t.server.store.fmap c.token (some (Store.createInfo c fd desc)) },
        update t.server.handlers i (.finished ⟨0, c.token⟩)⟩, t.issued ++ [(c.token, desc)]⟩ := by
  obtain ⟨hserial, hnot, honly⟩ := ht.creator i fd desc (by rw [hi]; rfl)
  have hother : ∀ j h, update t.server.handlers i (.finished ⟨0, c.token⟩) j = h →
      (∀ r, h ≠ .finished r) → t.server.handlers j = h ∧ j ≠ i := by
    intro j h hj hne
    rcases eq_or_ne j i with rfl | hji
    · rw [update_self] at hj
      exact absurd hj.symm (hne _)
    · rw [update_of_ne hji] at hj
      exact ⟨hj, hji⟩
  refine ⟨hex, ?_, ?_, ?_, ?_, ?_, ?_, ?_⟩
  · intro token d d' hd hd'
    simp only [List.mem_append, List.mem_singleton, Prod.mk.injEq] at hd hd'
    rcases hd with hd | ⟨rfl, rfl⟩
    · rcases hd' with hd' | ⟨rfl, rfl⟩
      · exact ht.single token d d' hd hd'
      · exact absurd hd (hnew d)
    · rcases hd' with hd' | ⟨_, rfl⟩
      · exact absurd hd' (hnew d')
      · rfl
  · intro p hp
    rcases List.mem_append.mp hp with hp | hp
    · exact ht.serial p hp
    · rw [List.mem_singleton.mp hp]
      exact hserial
  · intro token info hf
    rcases eq_or_ne token c.token with rfl | hne
    · simp only [update_self, Option.some.injEq] at hf
      subst hf
      exact ⟨rfl, List.mem_append_right _ (List.mem_singleton.mpr rfl)⟩
    · simp only [update_of_ne hne] at hf
      obtain ⟨htoken, hmem⟩ := ht.session token info hf
      exact ⟨htoken, List.mem_append_left _ hmem⟩
  · intro j info reply hj
    refine List.mem_append_left _ (ht.closer j info reply ?_)
    exact hj.imp (fun hj => (hother j _ hj (by simp)).1) fun hj => (hother j _ hj (by simp)).1
  · intro j x hj
    obtain ⟨hmem, hown⟩ := ht.sender j x (hother j _ hj (by simp)).1
    exact ⟨List.mem_append_left _ hmem, hown⟩
  · intro j fd' d hj
    have hback : ∀ k n, (update t.server.handlers i (.finished ⟨0, c.token⟩) k).creatorHolds =
        some (n, d) → (t.server.handlers k).creatorHolds = some (n, d) ∧ k ≠ i := by
      intro k n hk
      rcases eq_or_ne k i with rfl | hki
      · rw [update_self] at hk
        cases hk
      · rw [update_of_ne hki] at hk
        exact ⟨hk, hki⟩
    obtain ⟨hold, hji⟩ := hback j fd' hj
    obtain ⟨hlt, hfree, hone⟩ := ht.creator j fd' d hold
    refine ⟨hlt, fun p hp heq => ?_, fun k n hk => hone k n (hback k n hk).1⟩
    rcases List.mem_append.mp hp with hp | hp
    · exact hfree p hp heq
    · -- two creates do not hold the same open file
      rw [List.mem_singleton.mp hp] at heq
      subst heq
      exact hji (honly j fd' hold)
  · obtain ⟨n, hn⟩ := ht.idle
    refine ⟨n, fun j hj => ?_⟩
    rcases eq_or_ne j i with rfl | hji
    · rw [hn j hj] at hi
      cases hi
    · simp only [update_of_ne hji]
      exact hn j hj

/-- CORRECT (one step): the records stay as long as no token is returned again and no descriptor that
    is going to be written to is opened. -/
theorem Audited.preserved (ht : Audited t) (hissue : ¬Reissues t l) (hreuse : ¬Reuses t.server l)
    (h : auditStep conf t l = some t') : Audited t' := by
  obtain ⟨server', hstep, rfl⟩ := auditStep_eq h
  obtain ⟨_, hm, _⟩ := step_move hstep
  have hex := hm.exclusive ht.exclusive
  rcases step_cases hstep with ⟨i, req, rfl, hidle, rfl⟩ | ⟨i, a, st', h', rfl, heff, rfl⟩
  · rw [issuedBy, List.append_nil]
    exact ht.arrive hex
  · rcases issuedBy_effect heff with hno | ⟨c, fd, desc, rfl, hi, hnone, hnew⟩
    · rw [hno, List.append_nil]
      refine ht.resume heff hreuse (fun c fd desc hi ha hnone => ?_) hex
      simp [issuedBy, hi, ha, hnone] at hno
    · rw [hnew]
      rw [hi] at heff
      cases heff with
      | duplicate _ _ _ info hf =>
        rw [hnone] at hf
        cases hf
      | inserted =>
        exact ht.insert hi (fun d hd => hissue ⟨i, c, fd, desc, d, rfl, hi, hnone, hd⟩) hex

/-! ### What the records say about requests -/

/-- A request is applied to the open file its token was returned for, which is still open. -/
theorem Audited.applies (ht : Audited t) {token : Bytes} {d : Desc}
    (h : Applies t.server l token d) :
    (token, d) ∈ t.issued ∧ ∃ fd, t.server.store.os.fds fd = some d := by
  cases h with
  | retarget i req info hi hf => exact ⟨(ht.session _ info hf).2, _, ht.live hf⟩
  | erase i token reply info hi hf => exact ⟨(ht.session _ info hf).2, _, ht.live hf⟩
  | release i info reply d hi hd =>
    have hlive : t.server.store.os.fds info.fd = some info.desc := by
      refine ht.exclusive.live (.closer i) _ _ ?_
      rcases hi with hi | hi
      · rw [Server.owned, hi]
        rfl
      · rw [Server.owned, hi]
        rfl
    cases hlive.symm.trans hd
    exact ⟨ht.closer i info reply hi, _, hlive⟩
  | write i x n d hi hx hn ho hd =>
    obtain ⟨hmem, hown⟩ := ht.sender i x hi
    obtain rfl := hown hx ho d hd
    exact ⟨hmem, _, hd⟩

/-- A request whose session is not in the table is denied. -/
theorem LooksUp.denied {i : ℕ} {token : Bytes} (hl : LooksUp s l i token)
    (hf : s.store.fmap token = none) (h : step conf s l = some s') :
    s'.store = s.store ∧ (s.handlers i = .idle ∨ (s.handlers i).Denies → (s'.handlers i).Denies) := by
  rcases step_cases h with ⟨j, req, rfl, _, rfl⟩ | ⟨j, a, st', h', rfl, heff, rfl⟩
  · cases hl with
    | send =>
      simp only [accept, handleSendFile, sendStart, Store.getFd, hf, update_self]
      exact ⟨trivial, fun _ => (by decide : (-ENOENT : ℤ) ≠ 0)⟩
    | setChain =>
      simp only [accept, Store.setChainTargets, hf, update_self]
      exact ⟨trivial, fun _ => (by decide : (-1 : ℤ) ≠ 0)⟩
    | close =>
      simp only [accept, handleCloseFile, Store.hasFile, hf, update_self]
      refine ⟨trivial, fun _ => ?_⟩
      split
      · exact fun r hr => by cases hr
      · exact fun r hr => by cases hr; decide
  · cases hl with
    | erase _ _ reply hi =>
      rw [hi] at heff
      cases heff with
      | erased _ _ info hf' =>
        rw [hf] at hf'
        cases hf'
      | notFound =>
        refine ⟨rfl, fun hbefore => ?_⟩
        rw [hi] at hbefore
        simp only [update_self]
        rcases hbefore with hidle | hdenies
        · cases hidle
        · cases reply with
          | none => exact (by decide : (-ENOENT : ℤ) ≠ 0)
          | some r => exact hdenies r rfl

theorem Audited.fresh (ht : Audited t) : Fresh conf t where
  never l token d d' hlater happ := by
    obtain ⟨before, after, hsplit, hnot⟩ := hlater
    have hmem : (token, d) ∈ t.issued := by
      rw [hsplit]
      exact List.mem_append_right _ List.mem_cons_self
    obtain rfl := ht.single token d d' hmem (ht.applies happ).1
    simp at hnot
  denied l i token d s' hmem hgone hl h := by
    refine hl.denied ?_ h
    cases hf : t.server.store.fmap token with
    | none => rfl
    | some info =>
      exact absurd (ht.single token info.desc d (ht.session token info hf).2 hmem) (hgone info hf)
  ended l token d d' hmem hclosed happ := by
    obtain ⟨hmem', fd, hfd⟩ := ht.applies happ
    obtain rfl := ht.single token d d' hmem hmem'
    exact hclosed fd hfd

/-! ### Steps after which a stale request reaches a later session -/

/-- What has not been returned at all is later than everything that has. -/
theorem later_of_new {token : Bytes} {d d' : Desc} (hmem : (token, d) ∈ t.issued)
    (hnew : ∀ p ∈ t.issued, p.2 ≠ d') (more : List (Bytes × Desc)) :
    Later ⟨s, t.issued ++ more⟩ token d d' := by
  obtain ⟨before, after, hsplit⟩ := List.append_of_mem hmem
  refine ⟨before, after ++ more, by simp [hsplit], fun hd => ?_⟩
  obtain ⟨p, hp, rfl⟩ := List.mem_map.mp hd
  refine hnew p ?_ rfl
  rw [hsplit, List.append_cons]
  exact List.mem_append_left _ hp

/-- After a token has been returned twice, new targets for the first session reach the second. -/
theorem Reissues.not_fresh (hl : Reissues t l) (ht : Audited t) (h : auditStep conf t l = some t') :
    ¬Fresh conf t' := by
  obtain ⟨i, c, fd, desc, d, rfl, hi, hnone, hmem⟩ := hl
  obtain ⟨server', hstep, rfl⟩ := auditStep_eq h
  have hnew : ∀ p ∈ t.issued, p.2 ≠ desc := (ht.creator i fd desc (by rw [hi]; rfl)).2.1
  have hlater := later_of_new (s := server') hmem hnew (issuedBy t.server (.resume i .done))
  rcases step_cases hstep with ⟨_, _, hl, _⟩ | ⟨_, _, st', h', hl, heff, rfl⟩
  · cases hl
  cases hl
  rw [hi] at heff
  cases heff with
  | duplicate _ _ _ info hf =>
    rw [hnone] at hf
    cases hf
  | inserted =>
    obtain ⟨n, hn⟩ := ht.idle
    have hidle : update t.server.handlers i (.finished ⟨0, c.token⟩) (max n (i + 1)) = .idle := by
      rw [update_of_ne (by omega)]
      exact hn _ (le_max_left ..)
    exact fun hfresh => hfresh.never _ _ _ _ hlater
      (.retarget (max n (i + 1)) { fileToken := c.token, targets := [] }
        (Store.createInfo c fd desc) hidle (update_self ..))

/-- After a number has been opened that a sender has looked up, the sender writes to the wrong file. -/
theorem Reuses.not_fresh (hl : Reuses t.server l) (ht : Audited t)
    (h : auditStep conf t l = some t') : ¬Fresh conf t' := by
  obtain ⟨i, c, fd, errno, j, x, rfl, hi, hj, hx, ho, rfl⟩ := hl
  obtain ⟨server', hstep, rfl⟩ := auditStep_eq h
  have hji : j ≠ i := by
    rintro rfl
    rw [hj] at hi
    cases hi
  have hmem := (ht.sender j x hj).1
  rcases step_cases hstep with ⟨_, _, hl, _⟩ | ⟨_, _, st', h', hl, heff, rfl⟩
  · cases hl
  cases hl
  rw [hi] at heff
  obtain ⟨os, desc, hopen, hos, _⟩ := heff.opened_eq
  obtain ⟨_, _, rfl, rfl⟩ := Os.openFile_eq hopen
  have hnew : ∀ p ∈ t.issued, p.2 ≠ ⟨t.server.store.os.serial, fileOf c.path⟩ := by
    intro p hp heq
    have := ht.serial p hp
    rw [heq] at this
    exact absurd this (lt_irrefl _)
  refine fun hfresh => hfresh.never _ _ _ _ (later_of_new hmem hnew _)
    (.write j x (writeSize x.data.length) _ ?_ hx le_rfl ho ?_)
  · simp only [update_of_ne hji, hj]
  · simp only [hos, update_self]

/-! ### Runs -/

theorem Initial.audited (h : Initial s) : Audited ⟨s, []⟩ where
  exclusive := h.exclusive
  single token d d' hd := by cases hd
  serial p hp := by cases hp
  session token info hf := by
    rw [h.fmap] at hf
    cases hf
  closer i info reply hi := by
    rw [h.handlers] at hi
    simp at hi
  sender i x hi := by
    rw [h.handlers] at hi
    cases hi
  creator i fd d hc := by
    rw [h.handlers] at hc
    cases hc
  idle := ⟨0, fun i _ => by rw [h.handlers]⟩

/-- CORRECT (freshness): in a run of the server from its start, no request reaches a session that is
    later than the one its token was returned for, and requests for a closed session are denied and
    change nothing, if and only if no token is returned twice and no `open` returns a descriptor that a
    `SEND_FILE_REQ` has looked up and not written to yet. -/
theorem requests_fresh_iff {ls : List Label} (h₀ : Initial s) (hr : AuditRuns conf ⟨s, []⟩ ls t) :
    Run.Everywhere (Run.ofStep (auditStep conf)) (Fresh conf) ⟨s, []⟩ ls ↔
      Run.EveryStep (Run.ofStep (auditStep conf)) (fun u l => ¬Reissues u l ∧ ¬Reuses u.server l)
        ⟨s, []⟩ ls := by
  refine Run.everywhere_iff (I := Audited) (fun _ _ _ ht hl h => ht.preserved hl.1 hl.2 h)
    (fun _ ht => ht.fresh) (fun u l _ ht hl h => ?_) hr h₀.audited
  rcases not_and_or.mp hl with hl | hl
  · exact (not_not.mp hl).not_fresh ht h
  · exact (not_not.mp hl).not_fresh ht h

/-- The file `a` is created, and closed. -/
def sampleCreateClose : List Label :=
  sampleCreate ++ [.arrive 1 (.close { waitClose := 1, fileToken := text "4" }),
    .resume 1 .done, .resume 1 .done, .resume 1 .done]

/-- After the close there come new targets for it. -/
theorem requests_fresh_iff_late : ∃ t,
    let ls := sampleCreateClose ++ [.arrive 2 (.setChain { fileToken := text "4", targets := [] })]
    AuditRuns sampleConf ⟨sampleServer, []⟩ ls t ∧
      (Run.Everywhere (Run.ofStep (auditStep sampleConf)) (Fresh sampleConf) ⟨sampleServer, []⟩ ls ↔
        Run.EveryStep (Run.ofStep (auditStep sampleConf))
          (fun u l => ¬Reissues u l ∧ ¬Reuses u.server l) ⟨sampleServer, []⟩ ls) := by
  obtain ⟨t, ht⟩ := Option.isSome_iff_exists.mp
    (by decide +kernel : (Run.exec (auditStep sampleConf) ⟨sampleServer, []⟩
      (sampleCreateClose ++
        [.arrive 2 (.setChain { fileToken := text "4", targets := [] })])).isSome = true)
  have hr := Run.steps_iff_exec.mpr ht
  exact ⟨t, hr, requests_fresh_iff sampleServer_initial hr⟩

/-- The file `a` is created, closed and created again, and both creates return the token `4`. New
    targets for the first session, delivered now, are taken by the second. -/
theorem token_returned_twice : ∃ ls t s' info,
    let first : Desc := ⟨0, [text "p", text "a"]⟩
    let second : Desc := ⟨1, [text "p", text "a"]⟩
    let late : Label := .arrive 3 (.setChain ⟨text "4", [⟨text "b", 1, text "4"⟩]⟩)
    Initial sampleServer ∧ AuditRuns sampleConf ⟨sampleServer, []⟩ ls t ∧
      t.issued = [(text "4", first), (text "4", second)] ∧ Later t (text "4") first second ∧
      Applies t.server late (text "4") second ∧ ¬Fresh sampleConf t ∧
      step sampleConf t.server late = some s' ∧ s'.handlers 3 = .finished ⟨0, []⟩ ∧
      s'.store.fmap (text "4") = some info ∧ info.desc = second ∧
      info.targets = [⟨text "b", 1, text "4"⟩] := by
  let first : Desc := ⟨0, [text "p", text "a"]⟩
  let second : Desc := ⟨1, [text "p", text "a"]⟩
  let req : SetChainReq := ⟨text "4", [⟨text "b", 1, text "4"⟩]⟩
  let ls : List Label := sampleCreateClose ++
    [.arrive 2 (.create { chunkSize := 8192, fileName := text "a" }),
      .resume 2 (.opened 3 0), .resume 2 .done, .resume 2 .done]
  have hrun : (Run.exec (auditStep sampleConf) ⟨sampleServer, []⟩ ls).any (fun t =>
      t.issued = [(text "4", first), (text "4", second)] ∧ t.server.handlers 3 = .idle ∧
        (t.server.store.fmap (text "4")).any (fun info => info.desc = second) ∧
        (step sampleConf t.server (.arrive 3 (.setChain req))).any fun s =>
          s.handlers 3 = .finished ⟨0, []⟩ ∧ (s.store.fmap (text "4")).any fun info =>
            info.desc = second ∧ info.targets = req.targets) = true := by decide +kernel
  obtain ⟨t, hr, hcheck⟩ := Run.steps_of_any hrun
  obtain ⟨hissued, hidle, hbefore, hstep⟩ := of_decide_eq_true hcheck
  obtain ⟨old, hold, hdesc⟩ := (Option.any_eq_true _ _).mp hbefore
  obtain ⟨s', hs', hafter⟩ := (Option.any_eq_true _ _).mp hstep
  obtain ⟨hreply, hsession⟩ := of_decide_eq_true hafter
  obtain ⟨info, hinfo, htargets⟩ := (Option.any_eq_true _ _).mp hsession
  obtain ⟨hsecond, htargets⟩ := of_decide_eq_true htargets
  have hlater : Later t (text "4") first second := ⟨[], [(text "4", second)], hissued, by decide⟩
  have happ : Applies t.server (.arrive 3 (.setChain req)) (text "4") second :=
    of_decide_eq_true hdesc ▸ .retarget 3 req old hidle hold
  exact ⟨ls, t, s', info, sampleServer_initial, hr, hissued, hlater, happ,
    fun hfresh => hfresh.never _ _ _ _ hlater happ, hs', hreply, hinfo, hsecond, htargets⟩

end Fcopy
