import Fcopy.Schemes.Linear
import Fcopy.Server.Replies

/-! The session table as the requests see it.

    `fmap` is guarded by a mutex and each call of the manager takes it once. What a token stands for
    apart from descriptors is an entry of a catalog, and each section under the lock performs one
    operation on the catalog:

        create_file          checks ── open ── ftruncate ──▶ insert ──▶ reply
        close_file           ──────────────────────────────▶ erase ── ftruncate ── close ──▶ reply
        set_chain_targets    ──────────────────────────────▶ retarget ──▶ reply
        get_fd               ──────────────────────────────▶ route ── send_chain, write_file ──▶ reply
        has_file             ──────────────────────────────▶ probe ──▶ reply

    A CLOSE that does not wait probes first and erases after its reply. -/

namespace Fcopy
open Function Linear Run

/-! ### The catalog -/

structure TableEntry where
  path : Bytes
  size : BitVec 64
  targets : List ChainTarget
  deriving DecidableEq

abbrev Catalog := Bytes → Option TableEntry

inductive TableOp where
  | insert (token : Bytes) (entry : TableEntry)
  | erase (token : Bytes)
  | retarget (token : Bytes) (targets : List ChainTarget)
  | route (token : Bytes)
  | probe (token : Bytes)
  deriving DecidableEq

inductive TableResult where
  | done
  | missing
  | present
  | routes (targets : List ChainTarget)
  deriving DecidableEq

/-- The operations by themselves. -/
def TableOp.run (T : Catalog) : TableOp → Catalog × TableResult
  | .insert token entry =>
    match T token with
    | some _ => (T, .present)
    | none => (update T token (some entry), .done)
  | .erase token =>
    match T token with
    | some _ => (update T token none, .done)
    | none => (T, .missing)
  | .retarget token targets =>
    match T token with
    | some entry => (update T token (some { entry with targets }), .done)
    | none => (T, .missing)
  | .route token =>
    match T token with
    | some entry => (T, .routes entry.targets)
    | none => (T, .missing)
  | .probe token =>
    match T token with
    | some _ => (T, .present)
    | none => (T, .missing)

/-! ### What the server does to it -/

def FileInfo.entry (info : FileInfo) : TableEntry := ⟨info.filePath, info.totalSize, info.targets⟩

def Store.catalog (st : Store) : Catalog := fun token => (st.fmap token).map FileInfo.entry

def CreateCall.entry (c : CreateCall) : TableEntry := ⟨c.path, c.size, []⟩

/-- The operation that a request starts with. -/
def Request.op : Request → Option TableOp
  | .create _ => none
  | .close q => if q.waitClose ≠ 0 then none else some (.probe q.fileToken)
  | .send q _ => some (.route q.fileToken)
  | .setChain q => some (.retarget q.fileToken q.targets)

/-- The operation of a later piece of a handler. -/
def Handler.op : Handler → Answer → Option TableOp
  | .createInsert c _ _, .done => some (.insert c.token c.entry)
  | .closeErase token _, .done => some (.erase token)
  | _, _ => none

/-- The operation of a step, with the handler that performs it. -/
def point (s : Server) : Label → Option (ℕ × TableOp)
  | .arrive i req => req.op.map fun op => (i, op)
  | .resume i a => ((s.handlers i).op a).map fun op => (i, op)

def perform (T : Catalog) (e : ℕ × TableOp) : Catalog × TableResult := e.2.run T

/-- The operations of a run one at a time, from the empty catalog on. -/
def performed (conf : Conf) (s : Server) (ls : List Label) :
    Catalog × List ((ℕ × TableOp) × TableResult) :=
  replay perform (fun _ => none) (history (step conf) point s ls)

/-- Those of one handler. -/
def eventsOf (i : ℕ) (es : List ((ℕ × TableOp) × TableResult)) : List (TableOp × TableResult) :=
  (es.filter fun e => e.1.1 = i).map fun e => (e.1.2, e.2)

/-! ### Replies -/

/-- What a CLOSE has done and decided before it erases. -/
def Probed (q : CloseFileReq) (evs : List (TableOp × TableResult)) (reply : Option Reply) : Prop :=
  if q.waitClose ≠ 0 then evs = [] ∧ reply = none
  else ∃ o, evs = [(.probe q.fileToken, o)] ∧
    reply = some ⟨if o = .present then 0 else errNoFile, []⟩

/-- The reply `r` follows from the operations of its request and their outcomes. -/
def Answers (conf : Conf) : Request → List (TableOp × TableResult) → Reply → Prop
  | .create q, evs, r =>
    handleCreateFile conf q = .finished r ∧ evs = [] ∨
    ∃ c, handleCreateFile conf q = .createOpen c ∧
      ((∃ e type, r = returnError e type) ∧ evs = [] ∨
        evs = [(.insert c.token c.entry, .present)] ∧ r = returnError EEXIST "duplicate_token" ∨
        evs = [(.insert c.token c.entry, .done)] ∧ r = ⟨0, c.token⟩)
  | .close q, evs, r =>
    ∃ first reply o, Probed q first reply ∧ evs = first ++ [(.erase q.fileToken, o)] ∧
      r = reply.getD ⟨if o = .done then 0 else -ENOENT, []⟩
  | .setChain q, evs, r =>
    ∃ o, evs = [(.retarget q.fileToken q.targets, o)] ∧ r = ⟨if o = .done then 0 else -1, []⟩
  | .send q _, evs, r =>
    evs = [(.route q.fileToken, .missing)] ∧ r = ⟨-ENOENT, []⟩ ∨
    ∃ targets, evs = [(.route q.fileToken, .routes targets)] ∧
      if q.maxChainLen.toNat ≤ 1 ∧ targets ≠ [] then r = ⟨-ECANCELED, []⟩
      else ∃ errors writeError, errors.length = targets.length ∧ r = ⟨firstError errors writeError, []⟩

/-- What a handler has done by where it is. -/
def Midway (conf : Conf) (req : Request) (evs : List (TableOp × TableResult)) : Handler → Prop
  | .idle => False
  | .createOpen c | .createTruncate c _ _ | .createInsert c _ _ =>
    (∃ q, req = .create q ∧ handleCreateFile conf q = .createOpen c) ∧ evs = []
  | .closeErase token reply => ∃ q, req = .close q ∧ token = q.fileToken ∧ Probed q evs reply
  | .closeTruncate _ reply | .closeFd _ reply => ∃ q first, req = .close q ∧ Probed q first reply ∧
    evs = first ++ [(.erase q.fileToken, .done)]
  | .sending x => (∃ data, req = .send x.req data) ∧
    evs = [(.route x.req.fileToken, .routes x.targets)] ∧
    ¬(x.req.maxChainLen.toNat ≤ 1 ∧ x.targets ≠ []) ∧ x.chainErrors.length = x.targets.length
  | .finished r => Answers conf req evs r

variable {conf : Conf} {s s' : Server} {l : Label}

/-! ### Steps -/

theorem catalog_update (st : Store) (os : Os) (token : Bytes) (info : Option FileInfo) :
    (⟨update st.fmap token info, os⟩ : Store).catalog =
      update st.catalog token (info.map FileInfo.entry) := by
  funext t
  by_cases ht : t = token
  · simp only [ht, Store.catalog, update_self]
  · simp only [Store.catalog, update_of_ne ht]

theorem catalog_none {st : Store} {token : Bytes} (h : st.fmap token = none) :
    st.catalog token = none := by
  rw [Store.catalog, h, Option.map_none]

theorem catalog_some {st : Store} {token : Bytes} {info : FileInfo} (h : st.fmap token = some info) :
    st.catalog token = some info.entry := by
  rw [Store.catalog, h, Option.map_some]

/-- The operations and their outcomes. -/
def outcomes (T : Catalog) (op : Option TableOp) : List (TableOp × TableResult) :=
  op.toList.map fun op => (op, (op.run T).2)

theorem eventsOf_append (i : ℕ) (es fs : List ((ℕ × TableOp) × TableResult)) :
    eventsOf i (es ++ fs) = eventsOf i es ++ eventsOf i fs := by
  rw [eventsOf, List.filter_append, List.map_append, eventsOf, eventsOf]

theorem eventsOf_perform (T : Catalog) (op : Option TableOp) (i j : ℕ) :
    eventsOf j (replay perform T (op.map fun op => (i, op)).toList).2 =
      if j = i then outcomes T op else [] := by
  cases op with
  | none => simp [replay, eventsOf, outcomes]
  | some op =>
    by_cases hij : j = i
    · simp [replay, eventsOf, outcomes, perform, hij]
    · simp [replay, eventsOf, hij, Ne.symm hij]

/-- CORRECT (one section under the lock): it does its operation. -/
theorem catalog_step (h : step conf s l = some s') :
    s'.store.catalog = (replay perform s.store.catalog (point s l).toList).1 := by
  rcases step_cases h with ⟨i, req, rfl, _, rfl⟩ | ⟨i, a, st', h', rfl, heff, rfl⟩
  · cases req with
    | create q => rfl
    | close q =>
      simp only [point, Request.op, accept]
      split
      · rfl
      · cases hf : s.store.catalog q.fileToken <;>
          simp only [Option.map_some, Option.toList_some, replay, perform, TableOp.run, hf]
    | send q data =>
      simp only [point, Request.op, accept]
      cases hf : s.store.catalog q.fileToken <;>
        simp only [Option.map_some, Option.toList_some, replay, perform, TableOp.run, hf]
    | setChain q =>
      simp only [point, Request.op, accept, Option.map_some, Option.toList_some, replay, perform,
        Store.setChainTargets]
      cases hf : s.store.fmap q.fileToken with
      | none => simp only [TableOp.run, catalog_none hf]
      | some info =>
        simp only [TableOp.run, catalog_some hf, catalog_update]
        rfl
  · simp only [point]
    generalize s.handlers i = hd at heff
    cases heff with
    | duplicate c fd desc info hf =>
      simp only [Handler.op, Option.map_some, Option.toList_some, replay, perform, TableOp.run,
        catalog_some hf]
      rfl
    | inserted c fd desc hf =>
      simp only [Handler.op, Option.map_some, Option.toList_some, replay, perform, TableOp.run,
        catalog_none hf, catalog_update]
      rfl
    | notFound token reply hf =>
      simp only [Handler.op, Option.map_some, Option.toList_some, replay, perform, TableOp.run,
        catalog_none hf]
    | erased token reply info hf =>
      simp only [Handler.op, Option.map_some, Option.toList_some, replay, perform, TableOp.run,
        catalog_some hf, catalog_update]
      rfl
    | _ => rfl

/-! ### Replies -/

theorem handleCreateFile_kinds (conf : Conf) (q : CreateFileReq) :
    (∃ r, handleCreateFile conf q = .finished r) ∨ ∃ c, handleCreateFile conf q = .createOpen c := by
  simp only [handleCreateFile]
  split
  · exact .inl ⟨_, rfl⟩
  split
  · exact .inl ⟨_, rfl⟩
  split
  · exact .inl ⟨_, rfl⟩
  · exact .inr ⟨_, rfl⟩

/-- A request on its arrival. -/
theorem midway_arrive (conf : Conf) (st : Store) (req : Request) :
    Midway conf req (outcomes st.catalog req.op) (accept conf st req).2 := by
  cases req with
  | create q =>
    simp only [accept, Request.op, outcomes, Option.toList_none, List.map_nil]
    rcases handleCreateFile_kinds conf q with ⟨r, hr⟩ | ⟨c, hc⟩
    · rw [hr]
      exact .inl ⟨hr, rfl⟩
    · rw [hc]
      exact ⟨⟨q, rfl, hc⟩, rfl⟩
  | close q =>
    simp only [accept, handleCloseFile, Request.op]
    split
    · rename_i hwait
      exact ⟨q, rfl, rfl, by rw [Probed, if_pos hwait]; exact ⟨rfl, rfl⟩⟩
    · rename_i hwait
      refine ⟨q, rfl, rfl, ?_⟩
      rw [Probed, if_neg hwait]
      refine ⟨_, rfl, ?_⟩
      rw [Store.hasFile, TableOp.run]
      cases hf : st.fmap q.fileToken with
      | none => simp [catalog_none hf]
      | some info => simp [catalog_some hf]
  | send q data =>
    simp only [accept, handleSendFile, sendStart, Store.getFd, Request.op, outcomes,
      Option.toList_some, List.map_cons, List.map_nil, TableOp.run]
    cases hf : st.fmap q.fileToken with
    | none =>
      simp only [catalog_none hf]
      exact .inl ⟨rfl, rfl⟩
    | some info =>
      simp only [catalog_some hf]
      by_cases hop : q.maxChainLen.toNat ≤ 1 ∧ info.targets ≠ []
      · simp only [if_pos hop]
        exact .inr ⟨info.targets, rfl, by rw [if_pos hop]⟩
      · simp only [if_neg hop]
        exact ⟨⟨data, rfl⟩, rfl, hop, List.length_map _⟩
  | setChain q =>
    simp only [accept, Store.setChainTargets, Request.op, outcomes, Option.toList_some,
      List.map_cons, List.map_nil]
    refine ⟨_, rfl, ?_⟩
    cases hf : st.fmap q.fileToken with
    | none => simp [TableOp.run, catalog_none hf]
    | some info => simp [TableOp.run, catalog_some hf]

/-- CORRECT (one piece of a handler): the reply follows from what it has done. -/
theorem midway_effect {st st' : Store} {h h' : Handler} {a : Answer} {req : Request}
    {evs : List (TableOp × TableResult)} (hm : Midway conf req evs h) (heff : Effect st h a st' h') :
    Midway conf req (evs ++ outcomes st.catalog (h.op a)) h' := by
  -- a piece that is not under the lock
  have hsame : ∀ {h' : Handler}, Midway conf req evs h' → h.op a = none →
      Midway conf req (evs ++ outcomes st.catalog (h.op a)) h' := by
    intro h' hm' hop
    rw [hop, outcomes, Option.toList_none, List.map_nil, List.append_nil]
    exact hm'
  cases heff with
  | noDirectory c | openFailed c | leaked c =>
    obtain ⟨⟨q, rfl, hopen⟩, rfl⟩ := hm
    exact hsame (.inr ⟨c, hopen, .inl ⟨⟨_, _, rfl⟩, rfl⟩⟩) rfl
  | truncateFailed c =>
    obtain ⟨⟨q, rfl, hopen⟩, rfl⟩ := hm
    exact hsame (.inr ⟨c, hopen, .inl ⟨⟨_, _, rfl⟩, rfl⟩⟩) rfl
  | opened | truncated => exact hsame hm rfl
  | duplicate c fd desc info hf =>
    obtain ⟨⟨q, rfl, hopen⟩, rfl⟩ := hm
    refine .inr ⟨c, hopen, .inr (.inl ⟨?_, rfl⟩)⟩
    simp only [Handler.op, outcomes, Option.toList_some, List.map_cons, List.map_nil, TableOp.run,
      catalog_some hf, List.nil_append]
  | inserted c fd desc hf =>
    obtain ⟨⟨q, rfl, hopen⟩, rfl⟩ := hm
    refine .inr ⟨c, hopen, .inr (.inr ⟨?_, rfl⟩)⟩
    simp only [Handler.op, outcomes, Option.toList_some, List.map_cons, List.map_nil, TableOp.run,
      catalog_none hf, List.nil_append]
  | notFound token reply hf =>
    obtain ⟨q, rfl, rfl, hprobed⟩ := hm
    refine ⟨evs, reply, .missing, hprobed, ?_, rfl⟩
    simp only [Handler.op, outcomes, Option.toList_some, List.map_cons, List.map_nil, TableOp.run,
      catalog_none hf]
  | erased token reply info hf =>
    obtain ⟨q, rfl, rfl, hprobed⟩ := hm
    refine ⟨q, evs, rfl, hprobed, ?_⟩
    simp only [Handler.op, outcomes, Option.toList_some, List.map_cons, List.map_nil, TableOp.run,
      catalog_some hf]
  | resized | resizeFailed => exact hsame hm rfl
  | closed info reply =>
    obtain ⟨q, first, rfl, hprobed, rfl⟩ := hm
    exact hsame ⟨first, reply, .done, hprobed, rfl, rfl⟩ rfl
  | wrote | writeFailed => exact hsame hm rfl
  | answered x j e hx =>
    obtain ⟨hreq, hevs, hop, hlen⟩ := hm
    exact hsame ⟨hreq, hevs, hop, by rw [List.length_set]; exact hlen⟩ rfl
  | joined x e hx =>
    obtain ⟨⟨data, rfl⟩, rfl, hop, hlen⟩ := hm
    obtain ⟨w, errors, hw, herrors, rfl⟩ := Sending.error_eq hx
    refine hsame (.inr ⟨x.targets, rfl, ?_⟩) rfl
    rw [if_neg hop]
    refine ⟨errors, w, ?_, rfl⟩
    rw [← hlen, herrors, List.length_map]

/-! ### Runs -/

/-- What holds of the handlers after the labels `ls`. -/
structure Told (conf : Conf) (ls : List Label) (es : List ((ℕ × TableOp) × TableResult)) (s : Server) :
    Prop where
  unasked : ∀ i req, s.handlers i = .idle → .arrive i req ∉ ls
  silent : ∀ i, s.handlers i = .idle → eventsOf i es = []
  midway : ∀ i req, .arrive i req ∈ ls → Midway conf req (eventsOf i es) (s.handlers i)

theorem Told.preserved {ls : List Label} {es : List ((ℕ × TableOp) × TableResult)} (ht : Told conf ls es s)
    (h : step conf s l = some s') :
    Told conf (ls ++ [l]) (es ++ (replay perform s.store.catalog (point s l).toList).2) s' := by
  rcases step_cases h with ⟨i, req, rfl, hidle, rfl⟩ | ⟨i, a, st', h', rfl, heff, rfl⟩
  · have hold : ∀ j req', j ≠ i → .arrive j req' ∈ ls ++ [.arrive i req] → .arrive j req' ∈ ls := by
      intro j req' hj hmem
      rcases List.mem_append.mp hmem with hmem | hmem
      · exact hmem
      · cases List.mem_singleton.mp hmem
        exact absurd rfl hj
    refine ⟨fun j req' hj hmem => ?_, fun j hj => ?_, fun j req' hmem => ?_⟩
    · by_cases hji : j = i
      · subst hji
        simp only [update_self] at hj
        exact accept_started conf s.store req hj
      · simp only [update_of_ne hji] at hj
        exact ht.unasked j req' hj (hold j req' hji hmem)
    · rw [eventsOf_append, point, eventsOf_perform]
      by_cases hji : j = i
      · subst hji
        simp only [update_self] at hj
        exact absurd hj (accept_started conf s.store req)
      · simp only [update_of_ne hji] at hj
        rw [if_neg hji, ht.silent j hj, List.append_nil]
    · rw [eventsOf_append, point, eventsOf_perform]
      by_cases hji : j = i
      · subst hji
        have hreq : req' = req := by
          rcases List.mem_append.mp hmem with hmem | hmem
          · exact absurd hmem (ht.unasked j req' hidle)
          · cases List.mem_singleton.mp hmem
            rfl
        rw [if_pos rfl, ht.silent j hidle, List.nil_append, hreq]
        simp only [update_self]
        exact midway_arrive conf s.store req
      · simp only [if_neg hji, List.append_nil, update_of_ne hji]
        exact ht.midway j req' (hold j req' hji hmem)
  · have hold : ∀ j req', .arrive j req' ∈ ls ++ [.resume i a] → .arrive j req' ∈ ls := by
      intro j req' hmem
      rcases List.mem_append.mp hmem with hmem | hmem
      · exact hmem
      · cases List.mem_singleton.mp hmem
    refine ⟨fun j req' hj hmem => ?_, fun j hj => ?_, fun j req' hmem => ?_⟩
    · by_cases hji : j = i
      · subst hji
        simp only [update_self] at hj
        exact heff.not_idle hj
      · simp only [update_of_ne hji] at hj
        exact ht.unasked j req' hj (hold j req' hmem)
    · rw [eventsOf_append, point, eventsOf_perform]
      by_cases hji : j = i
      · subst hji
        simp only [update_self] at hj
        exact absurd hj heff.not_idle
      · simp only [update_of_ne hji] at hj
        rw [if_neg hji, ht.silent j hj, List.append_nil]
    · rw [eventsOf_append, point, eventsOf_perform]
      have hm := ht.midway j req' (hold j req' hmem)
      by_cases hji : j = i
      · subst hji
        rw [if_pos rfl]
        simp only [update_self]
        exact midway_effect hm heff
      · simp only [if_neg hji, List.append_nil, update_of_ne hji]
        exact hm

theorem Initial.catalog (h : Initial s) : s.store.catalog = fun _ => none := by
  funext token
  rw [Store.catalog, h.fmap, Option.map_none]

/-- One at a time, the operations of a run leave the table as the run does. -/
theorem performed_catalog {ls : List Label} {t : Server} (h₀ : Initial s) (hr : Runs conf s ls t) :
    (performed conf s ls).1 = t.store.catalog := by
  have hcat : (replay perform s.store.catalog (history (step conf) point s ls)).1 = t.store.catalog :=
    replay_run (fun _ _ _ h => catalog_step h) hr
  rw [h₀.catalog] at hcat
  exact hcat

theorem told_run {ls : List Label} {t : Server} (h₀ : Initial s) (hr : Runs conf s ls t) :
    Told conf ls (performed conf s ls).2 t := by
  have hend := hr.recorded (G := fun _ _ => True)
    (P := fun ms u => Runs conf s ms u ∧ Told conf ms (performed conf s ms).2 u)
    (fun ms u l u' ⟨hrun, ht⟩ _ hl => by
      refine ⟨hrun.append (.cons hl (.nil u')), ?_⟩
      rw [performed, history_concat hrun hl, replay_append]
      have hcat := performed_catalog h₀ hrun
      rw [performed] at hcat
      rw [hcat]
      exact ht.preserved hl)
    (fun _ _ _ _ _ _ => trivial)
    ⟨.nil s, fun _ _ _ hmem => (by cases hmem), fun _ _ => rfl, fun _ _ hmem => by cases hmem⟩
  exact hend.2

/-- A handler that is done performs no operation. -/
theorem finished_point {i : ℕ} {r : Reply} (hf : s.handlers i = .finished r) (h : step conf s l = some s')
    {e : ℕ × TableOp} (he : point s l = some e) : e.1 ≠ i := by
  rintro rfl
  rcases step_cases h with ⟨j, req, rfl, hidle, _⟩ | ⟨j, a, st', h', rfl, heff, _⟩
  · obtain ⟨op, _, rfl⟩ := Option.map_eq_some_iff.mp he
    rw [hf] at hidle
    cases hidle
  · obtain ⟨op, _, rfl⟩ := Option.map_eq_some_iff.mp he
    rw [hf] at heff
    cases heff

/-- A run does to the table and replies what its operations do one at a time, each of them performed
    after its request has arrived and before its handler is done. -/
structure Linearized (conf : Conf) (s : Server) (ls : List Label) (t : Server) : Prop where
  table : (performed conf s ls).1 = t.store.catalog
  replies : ∀ i req r, .arrive i req ∈ ls → t.handlers i = .finished r →
    Answers conf req (eventsOf i (performed conf s ls).2) r
  order : ∀ ls₁ ls₂ u, ls = ls₁ ++ ls₂ → Runs conf s ls₁ u →
    history (step conf) point s ls =
      history (step conf) point s ls₁ ++ history (step conf) point u ls₂ ∧
    (∀ i, u.handlers i = .idle → ∀ e ∈ history (step conf) point s ls₁, e.1 ≠ i) ∧
    ∀ i r, u.handlers i = .finished r → ∀ e ∈ history (step conf) point u ls₂, e.1 ≠ i

/-- CORRECT (the session table): every run of the server, with any number of handlers at work, is
    linearized by the order in which they take the lock. -/
theorem table_linearizable (conf : Conf) (s t : Server) (ls : List Label) (h₀ : Initial s)
    (hr : Runs conf s ls t) : Linearized conf s ls t := by
  refine ⟨?_, fun i req r hmem hf => ?_, fun ls₁ ls₂ u heq hu => ⟨?_, fun i hidle e he => ?_, ?_⟩⟩
  · exact performed_catalog h₀ hr
  · have hm := (told_run h₀ hr).midway i req hmem
    rw [hf] at hm
    exact hm
  · rw [heq, history_append hu]
  · have hsilent := (told_run h₀ hu).silent i hidle
    rw [eventsOf, List.map_eq_nil_iff, List.filter_eq_nil_iff] at hsilent
    rw [← replay_map_fst (g := perform) (fun _ => none) (history (step conf) point s ls₁)] at he
    obtain ⟨e', he', rfl⟩ := List.mem_map.mp he
    exact fun hi => hsilent e' he' (decide_eq_true hi)
  · intro i r hf
    subst heq
    obtain ⟨u', hu', hr₂⟩ := hr.split
    cases hu.unique hu'
    exact history_all (P := fun v => v.handlers i = .finished r) (fun _ _ _ hv h => finished_step h hv)
      (fun _ _ _ _ hv h he => finished_point hv h he) hr₂ hf

/-- A file is created twice at a time and closed: the second `create_file` finds the token taken. -/
def sampleRace : List Label :=
  let req : CreateFileReq := { chunkSize := 8192, fileName := text "a" }
  [.arrive 0 (.create req), .arrive 1 (.create req), .resume 0 (.opened 3 0), .resume 1 (.opened 4 0),
    .resume 1 .done, .resume 0 .done, .resume 0 .done, .resume 1 .done,
    .arrive 2 (.close { waitClose := 1, fileToken := text "4" }),
    .resume 2 .done, .resume 2 .done, .resume 2 .done]

theorem table_linearizable_race : ∃ t : Server,
    t.handlers 1 = .finished (returnError EEXIST "duplicate_token") ∧ t.handlers 2 = .finished ⟨0, []⟩ ∧
      Linearized sampleConf sampleServer sampleRace t := by
  have hcheck : (Run.exec (step sampleConf) sampleServer sampleRace).any (fun t =>
      t.handlers 1 = .finished (returnError EEXIST "duplicate_token") ∧
        t.handlers 2 = .finished ⟨0, []⟩) = true := by
    decide +kernel
  obtain ⟨t, hexec, hend⟩ := (Option.any_eq_true _ _).mp hcheck
  obtain ⟨hfirst, hsecond⟩ := of_decide_eq_true hend
  exact ⟨t, hfirst, hsecond, table_linearizable sampleConf sampleServer t sampleRace
    sampleServer_initial (Run.steps_iff_exec.mpr hexec)⟩

end Fcopy
