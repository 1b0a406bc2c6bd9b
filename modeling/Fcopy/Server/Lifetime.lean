import Mathlib.Data.List.Dedup
import Fcopy.Server.Bookkeeping

/-! The whole life of a server, from `start` to the end of `main`.

    `service.reset()` destroys the manager, which closes the descriptors of the sessions that are still
    there. Every other descriptor the server has opened has been closed by the handler that held it:

        start table ──handlers──▶ start table + sessions ──~FileManager──▶ start table

    Descriptor 0 is the exception, as `create_fd` forgets it. A server whose standard input is open, or
    that `daemon` has given `/dev/null`, is never given it. -/

namespace Fcopy
open Function Ownership

/-- The entries of the session table in the order of the map, each once. -/
structure Enumerates (fmap : Bytes → Option FileInfo) (entries : List (Bytes × FileInfo)) : Prop where
  nodup : (entries.map Prod.fst).Nodup
  mem : ∀ token info, (token, info) ∈ entries ↔ fmap token = some info

/-- `~FileManager`. -/
def Store.destroy (st : Store) (entries : List (Bytes × FileInfo)) : Os :=
  entries.foldl (fun os it => os.close it.2.fd) st.os

/-- No handler is under way. -/
def Server.AtRest (s : Server) : Prop :=
  ∀ i, s.handlers i = .idle ∨ ∃ r, s.handlers i = .finished r

variable {conf : Conf} {s s' : Server} {l : Label}

/-! ### The entries -/

/-- All sessions are among `tokens`. -/
def Among (tokens : List Bytes) (fmap : Bytes → Option FileInfo) : Prop :=
  ∀ token, fmap token ≠ none → token ∈ tokens

theorem Among.enumerates {tokens : List Bytes} {fmap : Bytes → Option FileInfo} (h : Among tokens fmap) :
    ∃ entries, Enumerates fmap entries := by
  refine ⟨tokens.dedup.filterMap fun token => (fmap token).map fun info => (token, info), ?_, ?_⟩
  · have hfst : (tokens.dedup.filterMap fun token => (fmap token).map fun info => (token, info)).map
        Prod.fst = tokens.dedup.filter fun token => (fmap token).isSome := by
      rw [List.map_filterMap, ← List.filterMap_eq_filter]
      refine List.filterMap_congr fun token _ => ?_
      cases hf : fmap token <;> simp [Option.guard, hf]
    rw [hfst]
    exact tokens.nodup_dedup.filter _
  · intro token info
    rw [List.mem_filterMap]
    constructor
    · rintro ⟨token', _, hinfo⟩
      obtain ⟨info', hinfo', heq⟩ := Option.map_eq_some_iff.mp hinfo
      cases heq
      exact hinfo'
    · intro hinfo
      refine ⟨token, List.mem_dedup.mpr (h token (by rw [hinfo]; simp)), ?_⟩
      rw [hinfo, Option.map_some]

/-- A step makes at most one new session. -/
theorem Among.preserved {tokens : List Bytes} (ht : Among tokens s.store.fmap)
    (h : step conf s l = some s') : ∃ tokens', Among tokens' s'.store.fmap := by
  rcases step_cases h with ⟨i, req, rfl, _, rfl⟩ | ⟨i, a, st', h', rfl, heff, rfl⟩
  · refine ⟨tokens, fun token hne => ?_⟩
    obtain ⟨info, hinfo⟩ := Option.ne_none_iff_exists'.mp hne
    obtain ⟨old, hold, _⟩ := accept_session s.store req token hinfo
    exact ht token (by rw [hold]; simp)
  · generalize s.handlers i = hd at heff
    cases heff with
    | inserted c fd desc hnew =>
      refine ⟨c.token :: tokens, fun token hne => ?_⟩
      by_cases htok : token = c.token
      · rw [htok]
        exact List.mem_cons_self
      · simp only [update_of_ne htok] at hne
        exact List.mem_cons_of_mem _ (ht token hne)
    | erased tok reply info hf =>
      refine ⟨tokens, fun token hne => ?_⟩
      by_cases htok : token = tok
      · simp only [htok, update_self] at hne
        exact absurd rfl hne
      · simp only [update_of_ne htok] at hne
        exact ht token hne
    | _ => exact ⟨tokens, ht⟩

/-! ### The descriptors -/

theorem Effect.opened_free {st st' : Store} {h h' : Handler} {fd errno : ℕ}
    (heff : Effect st h (.opened fd errno) st' h') : st.os.fds fd = none := by
  cases heff with
  | opened _ _ _ _ _ _ ho => exact (Os.openFile_eq ho).1
  | leaked _ _ _ _ ho => exact (Os.openFile_eq ho).1

/-- CORRECT (one step): beside the descriptors at the start there are those that are held. -/
theorem grown_step {start : ℕ → Option Desc} (hzero : start 0 ≠ none)
    (he : Exclusive s.owned s.store.os.fds) (hg : Grown s.owned start s.store.os.fds)
    (h : step conf s l = some s') : Grown s'.owned start s'.store.os.fds := by
  obtain ⟨gone, hm, _⟩ := step_move h
  refine hm.grown he (fun fd hfree hopen => ?_) hg
  rcases step_cases h with ⟨i, req, rfl, _, rfl⟩ | ⟨i, a, st', h', rfl, heff, rfl⟩
  · simp only [(accept_store conf s.store req).1] at hopen
    exact absurd hfree hopen
  · rcases opened_effect heff hfree hopen with ⟨d, hd⟩ | ⟨errno, rfl⟩
    · exact ⟨.creator i, d, by simp only [Server.owned, update_self, hd]⟩
    · have hfree₀ := heff.opened_free
      rcases hg 0 with ⟨_, hnone⟩ | ⟨_, hsame⟩
      · exact absurd hnone hzero
      · exact absurd (hsame ▸ hfree₀) hzero

theorem destroy_fds (entries : List (Bytes × FileInfo)) (st : Store) (fd : ℕ) :
    (st.destroy entries).fds fd =
      if fd ∈ entries.map (fun it => it.2.fd) then none else st.os.fds fd := by
  rw [Store.destroy]
  generalize st.os = os
  induction entries generalizing os with
  | nil => rfl
  | cons it entries ih =>
    rw [List.foldl_cons, ih, List.map_cons]
    by_cases hmem : fd ∈ entries.map (fun it => it.2.fd)
    · rw [if_pos hmem, if_pos (List.mem_cons_of_mem _ hmem)]
    · rw [if_neg hmem]
      by_cases hfd : fd = it.2.fd
      · rw [if_pos (by rw [hfd]; exact List.mem_cons_self), hfd]
        simp only [Os.close, update_self]
      · rw [if_neg (by rw [List.mem_cons, not_or]; exact ⟨hfd, hmem⟩)]
        simp only [Os.close, update_of_ne hfd]

/-- At rest only sessions hold descriptors. -/
theorem Server.AtRest.held_iff (hrest : s.AtRest) {entries : List (Bytes × FileInfo)}
    (hl : Enumerates s.store.fmap entries) (fd : ℕ) :
    Held s.owned fd ↔ fd ∈ entries.map (fun it => it.2.fd) := by
  rw [Fcopy.held_iff]
  constructor
  · rintro (⟨token, info, hinfo, rfl⟩ | ⟨i, ⟨d, hd⟩ | ⟨d, hd⟩⟩)
    · exact List.mem_map.mpr ⟨(token, info), (hl.mem token info).mpr hinfo, rfl⟩
    · rcases hrest i with hi | ⟨r, hi⟩ <;> rw [hi] at hd <;> cases hd
    · rcases hrest i with hi | ⟨r, hi⟩ <;> rw [hi] at hd <;> cases hd
  · intro hmem
    obtain ⟨⟨token, info⟩, hin, rfl⟩ := List.mem_map.mp hmem
    exact .inl ⟨token, info, (hl.mem token info).mp hin, rfl⟩

/-- No two entries have one descriptor. -/
theorem Enumerates.fds_nodup {entries : List (Bytes × FileInfo)} (hl : Enumerates s.store.fmap entries)
    (he : Exclusive s.owned s.store.os.fds) : (entries.map fun it => it.2.fd).Nodup := by
  refine List.Nodup.map_on ?_ (List.Nodup.of_map _ hl.nodup)
  rintro ⟨token, info⟩ hin ⟨token', info'⟩ hin' (hfd : info.fd = info'.fd)
  have ht := (hl.mem token info).mp hin
  have ht' := (hl.mem token' info').mp hin'
  have howner := he.unique (.session token) (.session token') info.fd info.desc info'.desc
    (by simp only [Server.owned, ht, Option.map_some])
    (by simp only [Server.owned, ht', Option.map_some, hfd])
  cases howner
  rw [Option.some.inj (ht.symm.trans ht')]

/-! ### The whole life -/

theorem Initial.grown (h : Initial s) : Grown s.owned s.store.os.fds s.store.os.fds := by
  refine fun fd => .inr ⟨?_, rfl⟩
  rintro ⟨o, d, ho⟩
  rw [h.owned] at ho
  cases ho

/-- CORRECT (life of a server): whatever requests it got, once its handlers are done and the manager is
    destroyed the descriptors are what they were before, and each `close` of the destructor found its
    descriptor open. -/
theorem lifetime_descriptors (conf : Conf) (s t : Server) (ls : List Label) (h₀ : Initial s)
    (hzero : s.store.os.fds 0 ≠ none) (hr : Runs conf s ls t) (hrest : t.AtRest) :
    (∃ entries, Enumerates t.store.fmap entries) ∧ ∀ entries, Enumerates t.store.fmap entries →
      (t.store.destroy entries).fds = s.store.os.fds ∧
        ∀ before it after, entries = before ++ it :: after →
          (t.store.destroy before).fds it.2.fd ≠ none := by
  obtain ⟨he, hg, tokens, hamong⟩ := hr.invariant (P := fun u => Exclusive u.owned u.store.os.fds ∧
      Grown u.owned s.store.os.fds u.store.os.fds ∧ ∃ tokens, Among tokens u.store.fmap)
    (fun u l u' ⟨he, hg, tokens, hamong⟩ h => by
      obtain ⟨_, hm, _⟩ := step_move h
      exact ⟨hm.exclusive he, grown_step hzero he hg h, hamong.preserved h⟩)
    ⟨h₀.exclusive, h₀.grown, [], fun token hne => absurd (by rw [h₀.fmap]) hne⟩
  refine ⟨hamong.enumerates, fun entries hl => ⟨?_, ?_⟩⟩
  · funext fd
    rw [destroy_fds]
    rcases hg fd with ⟨hheld, hstart⟩ | ⟨hno, hsame⟩
    · rw [if_pos ((hrest.held_iff hl fd).mp hheld), hstart]
    · rw [if_neg fun hmem => hno ((hrest.held_iff hl fd).mpr hmem), hsame]
  · intro before it after hsplit
    have hnodup := hl.fds_nodup he
    rw [hsplit, List.map_append, List.map_cons] at hnodup
    have hfresh : it.2.fd ∉ before.map fun it => it.2.fd := fun hmem =>
      (List.disjoint_of_nodup_append hnodup) hmem List.mem_cons_self
    rw [destroy_fds, if_neg hfresh]
    refine he.live_of_held ((hrest.held_iff hl _).mpr ?_)
    rw [hsplit]
    exact List.mem_map.mpr ⟨it, List.mem_append_right _ List.mem_cons_self, rfl⟩

/-- A server whose standard input is open. -/
def inputServer : Server :=
  ⟨⟨fun _ => none, ⟨fun _ => none, update (fun _ => none) 0 (some ⟨0, []⟩), 1⟩⟩, fun _ => .idle⟩

/-- The session of `sampleCreate` is there until the manager is destroyed. -/
theorem lifetime_descriptors_create : ∃ t : Server, t.store.hasFile (text "4") = true ∧
    (∃ entries, Enumerates t.store.fmap entries) ∧ ∀ entries, Enumerates t.store.fmap entries →
      (t.store.destroy entries).fds = inputServer.store.os.fds ∧
        ∀ before it after, entries = before ++ it :: after →
          (t.store.destroy before).fds it.2.fd ≠ none := by
  have hcheck : (Run.exec (step sampleConf) inputServer sampleCreate).any (fun t =>
      t.store.hasFile (text "4") = true ∧ t.handlers 0 = .finished ⟨0, text "4"⟩) = true := by
    decide +kernel
  obtain ⟨t, hexec, hend⟩ := (Option.any_eq_true _ _).mp hcheck
  obtain ⟨hfile, hzero⟩ := of_decide_eq_true hend
  have hrun : Runs sampleConf inputServer sampleCreate t := Run.steps_iff_exec.mpr hexec
  -- only handler 0 takes steps
  have hidle : ∀ i, i ≠ 0 → t.handlers i = .idle := by
    intro i hi
    have hlabels : ∀ l ∈ sampleCreate, (∀ req, l ≠ .arrive i req) ∧ ∀ a, l ≠ .resume i a := by
      simp [sampleCreate, hi.symm]
    refine hrun.guarded (P := fun u => u.handlers i = .idle) (fun u l u' h hl hstep => ?_)
      (hrun.everyStep_label_iff.mpr hlabels) rfl
    rcases handler_cases hstep i with hsame | ⟨req, heq, _⟩ | ⟨a, _, heq, _⟩
    · rw [hsame, h]
    · exact absurd heq (hl.1 req)
    · exact absurd heq (hl.2 a)
  refine ⟨t, hfile, lifetime_descriptors sampleConf inputServer t sampleCreate ⟨rfl, rfl⟩
    (by simp [inputServer]) hrun fun i => ?_⟩
  by_cases hi : i = 0
  · rw [hi]
    exact .inr ⟨_, hzero⟩
  · exact .inl (hidle i hi)

end Fcopy
