import Fcopy.Server.Sound

/-! Descriptors and entries of the session table (`FileManager::create_file`, `close_file`).

    The calls of `create_file` and `close_file` by themselves, by any number of threads: `callStep` starts
    a call or takes one piece of it, as a handler does that makes the call. `held` is kept by watching the
    descriptor table of the system: a number that a piece finds free and leaves in use has been opened by
    the manager, and is held until a piece frees it.

    `create_fd` compares the result of `open` with `> 0`, everything else with `< 0`. A descriptor 0 is
    therefore opened and forgotten; and as `open` has not failed, `create_file` returns whatever `errno`
    was left at. -/

namespace Fcopy
open Function Ownership

inductive Call where
  | create (name : Bytes) (size chunkSize : BitVec 64)
  | close (token : Bytes)
  deriving DecidableEq

/-- A call up to the first point where others can act. -/
def Call.start (conf : Conf) : Call → Handler
  | .create name size chunkSize =>
    match Store.createFile conf name size chunkSize with
    | .error r => .finished r
    | .ok c => .createOpen c
  | .close token => .closeErase token none

inductive CallLabel where
  | call (i : ℕ) (c : Call)
  | resume (i : ℕ) (a : Answer)
  deriving DecidableEq

/-- The manager with its calls, and the descriptors it holds. -/
structure Ledger where
  server : Server
  held : ℕ → Bool

def callMove (conf : Conf) (s : Server) : CallLabel → Option Server
  | .call i c =>
    if s.handlers i = .idle then some { s with handlers := update s.handlers i (c.start conf) }
    else none
  | .resume i a => step conf s (.resume i a)

def callStep (conf : Conf) (t : Ledger) (l : CallLabel) : Option Ledger :=
  (callMove conf t.server l).map fun s =>
    ⟨s, taken t.server.store.os.fds s.store.os.fds t.held⟩

/-- Runs of the manager. -/
abbrev CallRuns (conf : Conf) : Ledger → List CallLabel → Ledger → Prop :=
  Run.Steps (Run.ofStep (callStep conf))

/-! ### What should hold -/

/-- A call that has not returned yet has the descriptor in a local variable. -/
def Server.UnderWay (s : Server) (i fd : ℕ) : Prop :=
  (∃ d, (s.handlers i).creatorHolds = some (fd, d)) ∨ ∃ d, (s.handlers i).closerHolds = some (fd, d)

/-- The descriptors held are those of the entries, and of calls under way; no two entries have one. -/
structure Booked (t : Ledger) : Prop where
  held : ∀ fd, t.held fd = true ↔
    (∃ token info, t.server.store.fmap token = some info ∧ info.fd = fd) ∨
      ∃ i, t.server.UnderWay i fd
  distinct : ∀ token token' info info', t.server.store.fmap token = some info →
    t.server.store.fmap token' = some info' → info.fd = info'.fd → token = token'

/-- The argument of the `close` that a piece makes. -/
def Server.closing (s : Server) : CallLabel → Option ℕ
  | .call _ _ => none
  | .resume i a =>
    match s.handlers i, a with
    | .createTruncate _ fd _, .failed _ => some fd
    | .createInsert c fd _, .done => if (s.store.fmap c.token).isSome then some fd else none
    | .closeFd info _, .done => some info.fd
    | _, _ => none

/-- Only a descriptor that is held is closed. -/
def ClosesHeld (t : Ledger) (l : CallLabel) : Prop :=
  ∀ fd, t.server.closing l = some fd → t.held fd = true

/-- A piece of the `create_file` number `i`. -/
def Creates (t : Ledger) (i : ℕ) : CallLabel → Prop
  | .call j c => j = i ∧ ∃ name size chunkSize, c = .create name size chunkSize
  | .resume j _ => j = i ∧ (t.server.handlers i).call ≠ none

/-- A piece of `create_file` adds one entry and returns 0 and its token, or adds none and does not
    return 0. -/
def CreateReturns (conf : Conf) (t : Ledger) (l : CallLabel) : Prop :=
  ∀ i t', Creates t i l → callStep conf t l = some t' →
    (∃ r info, t'.server.handlers i = .finished r ∧ r.error = 0 ∧
      t.server.store.fmap r.fileToken = none ∧
      t'.server.store.fmap = update t.server.store.fmap r.fileToken (some info)) ∨
    t'.server.store.fmap = t.server.store.fmap ∧
      ∀ r, t'.server.handlers i = .finished r → r.error ≠ 0

variable {conf : Conf} {s s' : Server} {t t' : Ledger} {l : CallLabel}

/-! ### Pieces of a call -/

theorem callStep_eq (h : callStep conf t l = some t') :
    callMove conf t.server l = some t'.server ∧
      t'.held = taken t.server.store.os.fds t'.server.store.os.fds t.held := by
  obtain ⟨s, hs, rfl⟩ := Option.map_eq_some_iff.mp h
  exact ⟨hs, rfl⟩

theorem Call.start_holds (conf : Conf) (c : Call) :
    (c.start conf).creatorHolds = none ∧ (c.start conf).closerHolds = none := by
  cases c with
  | close token => exact ⟨rfl, rfl⟩
  | create name size chunkSize =>
    simp only [Call.start]
    split <;> exact ⟨rfl, rfl⟩

/-- A call that starts changes no descriptor and no entry. -/
theorem callMove_call {i : ℕ} {c : Call} (h : callMove conf s (.call i c) = some s') :
    s.handlers i = .idle ∧ s' = { s with handlers := update s.handlers i (c.start conf) } := by
  rw [callMove] at h
  split at h
  · cases h
    exact ⟨‹_›, rfl⟩
  · cases h

theorem callMove_resume {i : ℕ} {a : Answer} (h : callMove conf s (.resume i a) = some s') :
    step conf s (.resume i a) = some s' ∧ ∃ st' h', Effect s.store (s.handlers i) a st' h' ∧
      s' = ⟨st', update s.handlers i h'⟩ := by
  refine ⟨h, ?_⟩
  rcases step_cases (show step conf s (.resume i a) = some s' from h) with
    ⟨_, _, hl, _⟩ | ⟨_, _, st', h', hl, heff, heq⟩
  · cases hl
  · cases hl
    exact ⟨st', h', heff, heq⟩

theorem callMove_move (h : callMove conf s l = some s') :
    ∃ gone, Move Owner.lends s.owned s.store.os.fds gone s'.owned s'.store.os.fds := by
  cases l with
  | call i c =>
    obtain ⟨hidle, rfl⟩ := callMove_call h
    obtain ⟨hc, hk⟩ := c.start_holds conf
    exact ⟨none, move_same rfl (fun _ => rfl) (by rw [hc, hidle]; rfl) (by rw [hk, hidle]; rfl)⟩
  | resume i a =>
    obtain ⟨gone, hm, _⟩ := step_move (callMove_resume h).1
    exact ⟨gone, hm⟩

/-- A piece that leaves a free number in use is an `open`: the call has it, or it is 0. -/
theorem opened_effect {st st' : Store} {h h' : Handler} {a : Answer} (heff : Effect st h a st' h')
    {fd : ℕ} (hfree : st.os.fds fd = none) (hopen : st'.os.fds fd ≠ none) :
    (∃ d, h'.creatorHolds = some (fd, d)) ∨ ∃ errno, a = .opened 0 errno := by
  obtain ⟨d, hd⟩ := Option.ne_none_iff_exists'.mp hopen
  rcases heff.fds_before hd with hold | ⟨c, errno, rfl, rfl⟩
  · rw [hfree] at hold
    cases hold
  obtain ⟨_, desc, _, _, hholds | rfl⟩ := heff.opened_eq
  · exact .inl ⟨desc, by rw [hholds]; rfl⟩
  · exact .inr ⟨errno, rfl⟩

theorem held_iff (fd : ℕ) : Held s.owned fd ↔
    (∃ token info, s.store.fmap token = some info ∧ info.fd = fd) ∨ ∃ i, s.UnderWay i fd := by
  constructor
  · rintro ⟨token | i | i, d, ho⟩
    · obtain ⟨info, hinfo, heq⟩ := Option.map_eq_some_iff.mp ho
      cases heq
      exact .inl ⟨token, info, hinfo, rfl⟩
    · exact .inr ⟨i, .inl ⟨d, ho⟩⟩
    · exact .inr ⟨i, .inr ⟨d, ho⟩⟩
  · rintro (⟨token, info, hinfo, rfl⟩ | ⟨i, ⟨d, ho⟩ | ⟨d, ho⟩⟩)
    · exact ⟨.session token, info.desc, by simp only [Server.owned, hinfo, Option.map_some]⟩
    · exact ⟨.creator i, d, ho⟩
    · exact ⟨.closer i, d, ho⟩

/-! ### Runs -/

/-- The invariant behind `Booked`. -/
structure Accounted (t : Ledger) : Prop where
  exclusive : Exclusive t.server.owned t.server.store.os.fds
  held : ∀ fd, t.held fd = true ↔ Held t.server.owned fd

theorem Accounted.booked (h : Accounted t) : Booked t where
  held fd := (h.held fd).trans (held_iff fd)
  distinct token token' info info' ht ht' hfd := by
    have := h.exclusive.unique (.session token) (.session token') info.fd info.desc info'.desc
      (by simp only [Server.owned, ht, Option.map_some])
      (by simp only [Server.owned, ht', Option.map_some, hfd])
    exact Owner.session.inj this

theorem Initial.accounted (h : Initial s) : Accounted ⟨s, fun _ => false⟩ where
  exclusive := h.exclusive
  held fd := by
    refine iff_of_false (by simp) ?_
    rintro ⟨o, d, ho⟩
    rw [h.owned] at ho
    cases ho

/-- A step keeps the accounts when no `open` returns 0. -/
theorem Accounted.preserved (ht : Accounted t) (hl : ∀ i errno, l ≠ .resume i (.opened 0 errno))
    (h : callStep conf t l = some t') : Accounted t' := by
  obtain ⟨hmove, hheld⟩ := callStep_eq h
  obtain ⟨gone, hm⟩ := callMove_move hmove
  refine ⟨hm.exclusive ht.exclusive, fun fd => ?_⟩
  rw [hheld]
  refine hm.accounts ht.exclusive (fun fd hfree hopen => ?_) ht.held fd
  cases l with
  | call i c =>
    rw [(callMove_call hmove).2] at hopen
    exact absurd hfree hopen
  | resume i a =>
    obtain ⟨_, st', h', heff, heq⟩ := callMove_resume hmove
    rw [heq] at hopen ⊢
    rcases opened_effect heff hfree hopen with ⟨d, hd⟩ | ⟨errno, rfl⟩
    · exact ⟨.creator i, d, by simp only [Server.owned, update_self, hd]⟩
    · exact absurd rfl (hl i errno)

/-- After an `open` that returns 0 the descriptor is held and nobody has it. -/
theorem Accounted.leaked (ht : Accounted t) {i errno : ℕ}
    (h : callStep conf t (.resume i (.opened 0 errno)) = some t') : ¬Booked t' := by
  obtain ⟨hmove, hheld⟩ := callStep_eq h
  obtain ⟨_, st', h', heff, heq⟩ := callMove_resume hmove
  intro hbooked
  generalize hi : t.server.handlers i = hd at heff
  cases heff with
  | opened c fd errno os desc hfd => exact absurd hfd (lt_irrefl 0)
  | leaked c errno os desc ho =>
    obtain ⟨hfree, _, _, hos⟩ := Os.openFile_eq ho
    have hown : t'.server.owned = t.server.owned := by
      rw [heq]
      exact owned_update (fun _ => rfl) (by rw [Server.owned, hi]; rfl)
        (by rw [Server.owned, hi]; rfl) fun _ _ => ⟨rfl, rfl⟩
    have hzero : t'.held 0 = true := by
      simp only [hheld, taken, heq, hos, hfree, update_self, Option.isSome_some, Option.isNone_none,
        Bool.or_true, Bool.and_self]
    have hheld₀ := (held_iff 0).mpr ((hbooked.held 0).mp hzero)
    rw [hown] at hheld₀
    exact ht.exclusive.live_of_held hheld₀ hfree

/-- What is about to be closed is held. -/
theorem Accounted.closesHeld (ht : Accounted t) (l : CallLabel) : ClosesHeld t l := by
  intro fd hclose
  rw [ht.held fd]
  cases l with
  | call i c => cases hclose
  | resume i a =>
    simp only [Server.closing] at hclose
    split at hclose
    · rename_i c fd' desc e hi
      cases hclose
      exact ⟨.creator i, desc, by rw [Server.owned, hi]; rfl⟩
    · rename_i c fd' desc hi
      split at hclose
      · cases hclose
        exact ⟨.creator i, desc, by rw [Server.owned, hi]; rfl⟩
      · cases hclose
    · rename_i info reply hi
      cases hclose
      exact ⟨.closer i, info.desc, by rw [Server.owned, hi]; rfl⟩
    · cases hclose

theorem returnError_ne_zero {e : ℕ} (he : e ≠ 0) (type : String) : (returnError e type).error ≠ 0 := by
  simpa [returnError] using he

/-- A piece of `create_file` adds its entry and returns 0, or neither. -/
theorem createReturns (t : Ledger) (hl : ∀ i errno, l ≠ .resume i (.opened 0 errno))
    (herrno : ∀ i e, l = .resume i (.failed e) → e ≠ 0) : CreateReturns conf t l := by
  intro i t' hc h
  obtain ⟨hmove, _⟩ := callStep_eq h
  cases l with
  | call j c =>
    obtain ⟨rfl, name, size, chunkSize, rfl⟩ := hc
    obtain ⟨_, heq⟩ := callMove_call hmove
    refine .inr ⟨by rw [heq], fun r hr => ?_⟩
    simp only [heq, update_self, Call.start, Store.createFile] at hr
    by_cases hchunk : chunkSize.toNat = 0 ∨ chunkSize.toNat % pageSize ≠ 0
    · rw [if_pos hchunk] at hr
      cases hr
      exact returnError_ne_zero (by decide) _
    · rw [if_neg hchunk] at hr
      cases hr
  | resume j a =>
    obtain ⟨rfl, hcall⟩ := hc
    obtain ⟨_, st', h', heff, heq⟩ := callMove_resume hmove
    simp only [heq, update_self]
    generalize t.server.handlers j = hd at heff hcall
    -- all errors of a piece are constants or what a failed call left in `errno`
    cases heff with
    | inserted c fd desc hf => exact .inl ⟨_, _, rfl, rfl, hf, rfl⟩
    | noDirectory c =>
      exact .inr ⟨rfl, fun r hr => by cases hr; exact returnError_ne_zero (by decide) _⟩
    | duplicate c fd desc info hf =>
      exact .inr ⟨rfl, fun r hr => by cases hr; exact returnError_ne_zero (by decide) _⟩
    | openFailed c e =>
      exact .inr ⟨rfl, fun r hr => by cases hr; exact returnError_ne_zero (herrno j e rfl) _⟩
    | truncateFailed c fd desc e =>
      exact .inr ⟨rfl, fun r hr => by cases hr; exact returnError_ne_zero (herrno j e rfl) _⟩
    | opened c fd errno os desc => exact .inr ⟨rfl, fun r hr => by cases hr⟩
    | truncated c fd desc os => exact .inr ⟨rfl, fun r hr => by cases hr⟩
    | leaked c errno os desc => exact absurd rfl (hl j errno)
    | _ => exact absurd rfl hcall

/-- CORRECT (bookkeeping): in a run of `create_file` and `close_file` from the start of the manager, the
    descriptors held are always those of the entries and of calls under way, each of one of them, only
    a descriptor held is closed, and `create_file` returns 0 exactly when it adds an entry, if and only
    if no `open` of the run returns descriptor 0. -/
theorem descriptors_booked_iff {ls : List CallLabel} (h₀ : Initial s)
    (hr : CallRuns conf ⟨s, fun _ => false⟩ ls t)
    (herrno : ∀ i e, .resume i (.failed e) ∈ ls → e ≠ 0) :
    Run.Everywhere (Run.ofStep (callStep conf)) Booked ⟨s, fun _ => false⟩ ls ∧
      Run.EveryStep (Run.ofStep (callStep conf)) ClosesHeld ⟨s, fun _ => false⟩ ls ∧
      Run.EveryStep (Run.ofStep (callStep conf)) (CreateReturns conf) ⟨s, fun _ => false⟩ ls ↔
    ∀ i errno, .resume i (.opened 0 errno) ∉ ls := by
  have hiff := Run.everywhere_iff (f := callStep conf) (I := Accounted) (P := Booked)
    (G := fun _ l => ∀ i errno, l ≠ .resume i (.opened 0 errno))
    (fun _ _ _ ht hl h => ht.preserved hl h) (fun _ ht => ht.booked)
    (fun _ _ _ ht hl h => by
      simp only [not_forall, not_not] at hl
      obtain ⟨i, errno, rfl⟩ := hl
      exact ht.leaked h) hr h₀.accounted
  have hevery := hr.everyStep_label_iff (g := fun l => ∀ i errno, l ≠ .resume i (.opened 0 errno))
  have hlabels : (∀ l ∈ ls, ∀ i errno, l ≠ .resume i (.opened 0 errno)) ↔
      ∀ i errno, .resume i (.opened 0 errno) ∉ ls :=
    ⟨fun h i errno hmem => h _ hmem i errno rfl, fun h l hl i errno heq => h i errno (heq ▸ hl)⟩
  constructor
  · rintro ⟨hbooked, _, _⟩
    exact hlabels.mp (hevery.mp (hiff.mp hbooked))
  · intro hno
    have hstep := hevery.mpr (hlabels.mpr hno)
    refine ⟨hiff.mpr hstep, ?_, ?_⟩
    · intro ls₁ l ls₂ u heq hu
      subst heq
      have hacc : Accounted u := hu.guarded (fun _ _ _ ht hl h => ht.preserved hl h) hstep.take
        h₀.accounted
      exact hacc.closesHeld l
    · intro ls₁ l ls₂ u heq hu
      refine createReturns u (hstep ls₁ l ls₂ u heq hu) fun i e hl => herrno i e ?_
      rw [heq, hl]
      exact List.mem_append_right _ List.mem_cons_self

/-- A file is created on descriptor 3 and closed. -/
def sampleCalls : List CallLabel :=
  [.call 0 (.create (text "/p/a") 5 8192), .resume 0 (.opened 3 0), .resume 0 .done, .resume 0 .done,
    .call 1 (.close (text "4")), .resume 1 .done, .resume 1 .done, .resume 1 .done]

theorem descriptors_booked_iff_close : ∃ t,
    CallRuns sampleConf ⟨sampleServer, fun _ => false⟩ sampleCalls t ∧
      (Run.Everywhere (Run.ofStep (callStep sampleConf)) Booked ⟨sampleServer, fun _ => false⟩
          sampleCalls ∧
        Run.EveryStep (Run.ofStep (callStep sampleConf)) ClosesHeld ⟨sampleServer, fun _ => false⟩
          sampleCalls ∧
        Run.EveryStep (Run.ofStep (callStep sampleConf)) (CreateReturns sampleConf)
          ⟨sampleServer, fun _ => false⟩ sampleCalls ↔
      ∀ i errno, .resume i (.opened 0 errno) ∉ sampleCalls) := by
  obtain ⟨t, ht⟩ := Option.isSome_iff_exists.mp
    (by decide +kernel : (Run.exec (callStep sampleConf) ⟨sampleServer, fun _ => false⟩
      sampleCalls).isSome = true)
  have hr := Run.steps_iff_exec.mpr ht
  exact ⟨t, hr, descriptors_booked_iff sampleServer_initial hr (by simp [sampleCalls])⟩

/-- `open` returns descriptor 0 while `errno` is 0: `create_file` returns 0, there is no entry, and the
    descriptor is never closed. -/
theorem descriptor_zero_leaked : ∃ t r,
    Initial sampleServer ∧
      CallRuns sampleConf ⟨sampleServer, fun _ => false⟩
        [.call 0 (.create (text "/p/a") 5 8192), .resume 0 (.opened 0 0)] t ∧
      t.server.handlers 0 = .finished r ∧ r.error = 0 ∧ t.server.store.fmap r.fileToken = none ∧
      t.held 0 = true ∧ ¬Booked t := by
  have hrun : (Run.exec (callStep sampleConf) ⟨sampleServer, fun _ => false⟩
      [.call 0 (.create (text "/p/a") 5 8192), .resume 0 (.opened 0 0)]).any (fun t =>
        t.server.handlers 0 = .finished (returnError 0 "create_file") ∧
          t.server.store.fmap (returnError 0 "create_file").fileToken = none ∧
          t.held 0 = true) = true := by decide +kernel
  obtain ⟨t, hr, hcheck⟩ := Run.steps_of_any hrun
  obtain ⟨hfin, hnone, hheld⟩ := of_decide_eq_true hcheck
  refine ⟨t, _, sampleServer_initial, hr, hfin, rfl, hnone, hheld, ?_⟩
  cases hr with
  | cons hcall hrest =>
    cases hrest with
    | cons hopen hnil =>
      cases hnil
      have hstart := sampleServer_initial.accounted.preserved (by simp) hcall
      exact hstart.leaked hopen

end Fcopy
