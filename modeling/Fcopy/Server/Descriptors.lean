import Fcopy.Server.Service
import Fcopy.Schemes.Ownership

/-! Who holds which descriptor.

    A descriptor is held by the `create_file` that opened it, then by its session, then by the
    `close_file` that erased the session, and given back by whoever holds it:

        open ──▶ creator ──insert──▶ session ──erase──▶ closer ──close──▶
                    └──────────────── duplicate or ftruncate failed ───────▶

    A `handle_send_file` only borrows it: it has copied the number out of the table. Every step of the
    server is one move of this game (`step_move`), so in every run what is held is open and nothing is
    held twice (`owned_exclusive`). What is borrowed is another matter. -/

namespace Fcopy
open Function Ownership

inductive Owner where
  | session (token : Bytes)
  | creator (i : ℕ)
  | closer (i : ℕ)
  deriving DecidableEq

/-- Sessions and those that close them lend their descriptor to senders. -/
def Owner.lends : Owner → Prop
  | .creator _ => False
  | _ => True

namespace Handler

def creatorHolds : Handler → Option (ℕ × Desc)
  | .createTruncate _ fd desc | .createInsert _ fd desc => some (fd, desc)
  | _ => none

def closerHolds : Handler → Option (ℕ × Desc)
  | .closeTruncate info _ | .closeFd info _ => some (info.fd, info.desc)
  | _ => none

/-- The descriptor a sender is going to write to. -/
def borrows : Handler → Option (ℕ × Desc)
  | .sending x => if x.writeError = none then some (x.fd, x.desc) else none
  | _ => none

end Handler

namespace Server

def owned (s : Server) : Owner → Option (ℕ × Desc)
  | .session token => (s.store.fmap token).map fun info => (info.fd, info.desc)
  | .creator i => (s.handlers i).creatorHolds
  | .closer i => (s.handlers i).closerHolds

def borrowed (s : Server) (i : ℕ) : Option (ℕ × Desc) := (s.handlers i).borrows

/-- The handler at `i` is about to give back the descriptor of an owner. -/
def Returns (s : Server) (i : ℕ) : Owner → Prop
  | .session _ => False
  | .creator j => j = i
  | .closer j => j = i ∧ ∃ info reply, s.handlers i = .closeFd info reply

end Server

variable {conf : Conf} {s s' : Server} {l : Label}

/-! ### Pieces of a handler -/

theorem Effect.not_idle {st st' : Store} {h h' : Handler} {a : Answer}
    (heff : Effect st h a st' h') : h' ≠ .idle := by
  cases heff <;> simp

/-- An `open` that succeeds, whether or not the server takes the descriptor. -/
theorem Effect.opened_eq {st st' : Store} {h' : Handler} {c : CreateCall} {fd errno : ℕ}
    (heff : Effect st (.createOpen c) (.opened fd errno) st' h') :
    ∃ os desc, st.os.openFile c.path fd = some (os, desc) ∧ st'.os = os ∧
      (h' = .createTruncate c fd desc ∨ fd = 0) := by
  cases heff with
  | opened _ _ _ os desc _ ho => exact ⟨os, desc, ho, rfl, .inl rfl⟩
  | leaked _ _ os desc ho => exact ⟨os, desc, ho, rfl, .inr rfl⟩

/-- A descriptor stands for what it stood for before, or has just been opened. -/
theorem Effect.fds_before {st st' : Store} {h h' : Handler} {a : Answer}
    (heff : Effect st h a st' h') {fd : ℕ} {d : Desc}
    (hd : st'.os.fds fd = some d) :
    st.os.fds fd = some d ∨ ∃ c errno, h = .createOpen c ∧ a = .opened fd errno := by
  have hclose : ∀ n, (st.os.close n).fds fd = some d → st.os.fds fd = some d := by
    intro n hn
    rcases eq_or_ne fd n with rfl | hne
    · simp only [Os.close, update_self, reduceCtorEq] at hn
    · simpa only [Os.close, update_of_ne hne] using hn
  cases heff with
  | opened c n errno os desc hn ho =>
    obtain ⟨_, _, _, rfl⟩ := Os.openFile_eq ho
    rcases eq_or_ne fd n with rfl | hne
    · exact .inr ⟨c, errno, rfl, rfl⟩
    · exact .inl (by simpa only [update_of_ne hne] using hd)
  | leaked c errno os desc ho =>
    obtain ⟨_, _, _, rfl⟩ := Os.openFile_eq ho
    rcases eq_or_ne fd 0 with rfl | hne
    · exact .inr ⟨c, errno, rfl, rfl⟩
    · exact .inl (by simpa only [update_of_ne hne] using hd)
  | truncated c n desc os ht =>
    obtain ⟨_, _, _, rfl⟩ := Os.ftruncate_eq ht
    exact .inl hd
  | resized info reply os ht =>
    obtain ⟨_, _, _, rfl⟩ := Os.ftruncate_eq ht
    exact .inl hd
  | wrote x n os _ _ hw =>
    obtain ⟨_, _, _, rfl⟩ := Os.pwrite_eq hw
    exact .inl hd
  | truncateFailed c n desc e => exact .inl (hclose n hd)
  | duplicate c n desc info hf => exact .inl (hclose n hd)
  | closed info reply => exact .inl (hclose info.fd hd)
  | _ => exact .inl hd

/-! ### Arrivals -/

theorem handleCreateFile_holds (conf : Conf) (req : CreateFileReq) :
    (handleCreateFile conf req).creatorHolds = none ∧ (handleCreateFile conf req).closerHolds = none ∧
      (handleCreateFile conf req).borrows = none := by
  simp only [handleCreateFile]
  split
  · exact ⟨rfl, rfl, rfl⟩
  split
  · exact ⟨rfl, rfl, rfl⟩
  split <;> exact ⟨rfl, rfl, rfl⟩

theorem handleCloseFile_holds (st : Store) (req : CloseFileReq) :
    (handleCloseFile st req).creatorHolds = none ∧ (handleCloseFile st req).closerHolds = none ∧
      (handleCloseFile st req).borrows = none := by
  rw [handleCloseFile]
  split <;> exact ⟨rfl, rfl, rfl⟩

/-- A sender borrows from the session it looked up. -/
theorem handleSendFile_holds (st : Store) (req : SendFileReq) (data : Bytes) :
    (handleSendFile st req data).creatorHolds = none ∧
      (handleSendFile st req data).closerHolds = none ∧
      ∀ x, (handleSendFile st req data).borrows = some x →
        ∃ info, st.fmap req.fileToken = some info ∧ x = (info.fd, info.desc) := by
  simp only [handleSendFile, sendStart, Store.getFd]
  cases st.fmap req.fileToken with
  | none => exact ⟨rfl, rfl, fun x h => by cases h⟩
  | some info =>
    by_cases hop : req.maxChainLen.toNat ≤ 1 ∧ info.targets ≠ []
    · simp only [if_pos hop]
      exact ⟨rfl, rfl, fun x h => by cases h⟩
    · simp only [if_neg hop]
      exact ⟨rfl, rfl, fun x h => ⟨info, rfl, by simpa [Handler.borrows] using h.symm⟩⟩

/-- An arrival changes nothing but the chain targets of a session. -/
theorem accept_store (conf : Conf) (st : Store) (req : Request) :
    (accept conf st req).1.os = st.os ∧
      ∀ token, ((accept conf st req).1.fmap token).map (fun info => (info.fd, info.desc)) =
        (st.fmap token).map fun info => (info.fd, info.desc) := by
  cases req with
  | create req => exact ⟨rfl, fun _ => rfl⟩
  | close req => exact ⟨rfl, fun _ => rfl⟩
  | send req data => exact ⟨rfl, fun _ => rfl⟩
  | setChain req =>
    simp only [accept, Store.setChainTargets]
    cases hf : st.fmap req.fileToken with
    | none => exact ⟨rfl, fun _ => rfl⟩
    | some info =>
      refine ⟨rfl, fun token => ?_⟩
      by_cases ht : token = req.fileToken
      · subst ht
        simp only [update_self, hf, Option.map_some]
      · simp only [update_of_ne ht]

theorem accept_holds (conf : Conf) (st : Store) (req : Request) :
    (accept conf st req).2.creatorHolds = none ∧ (accept conf st req).2.closerHolds = none ∧
      ∀ x, (accept conf st req).2.borrows = some x →
        ∃ token info, st.fmap token = some info ∧ x = (info.fd, info.desc) := by
  cases req with
  | create req =>
    obtain ⟨h₁, h₂, h₃⟩ := handleCreateFile_holds conf req
    exact ⟨h₁, h₂, fun x h => by rw [accept, h₃] at h; cases h⟩
  | close req =>
    obtain ⟨h₁, h₂, h₃⟩ := handleCloseFile_holds st req
    exact ⟨h₁, h₂, fun x h => by rw [accept, h₃] at h; cases h⟩
  | send req data =>
    obtain ⟨h₁, h₂, h₃⟩ := handleSendFile_holds st req data
    exact ⟨h₁, h₂, fun x h => ⟨_, h₃ x h⟩⟩
  | setChain req => exact ⟨rfl, rfl, fun x h => by cases h⟩

/-! ### Steps as moves -/

/-- The steps of the server, taken apart. -/
theorem step_cases (h : step conf s l = some s') :
    (∃ i req, l = .arrive i req ∧ s.handlers i = .idle ∧
      s' = ⟨(accept conf s.store req).1, update s.handlers i (accept conf s.store req).2⟩) ∨
    ∃ i a st' h', l = .resume i a ∧ Effect s.store (s.handlers i) a st' h' ∧
      s' = ⟨st', update s.handlers i h'⟩ := by
  cases l with
  | arrive i req =>
    rw [step] at h
    split at h
    · cases h
      exact .inl ⟨i, req, rfl, ‹_›, rfl⟩
    · cases h
  | resume i a =>
    obtain ⟨⟨st', h'⟩, hadv, heq⟩ := Option.map_eq_some_iff.mp h
    cases heq
    exact .inr ⟨i, a, st', h', rfl, advance_effect hadv, rfl⟩

/-- What a step does to one handler: nothing, or it is the one that takes the request, or moves on. -/
theorem handler_cases (h : step conf s l = some s') (i : ℕ) :
    s'.handlers i = s.handlers i ∨
    (∃ req, l = .arrive i req ∧ s.handlers i = .idle ∧
      s'.handlers i = (accept conf s.store req).2) ∨
    ∃ a st', l = .resume i a ∧ Effect s.store (s.handlers i) a st' (s'.handlers i) := by
  rcases step_cases h with ⟨j, req, rfl, hidle, rfl⟩ | ⟨j, a, st', h', rfl, heff, rfl⟩
  · rcases eq_or_ne i j with rfl | hne
    · exact .inr (.inl ⟨req, rfl, hidle, update_self ..⟩)
    · exact .inl (update_of_ne hne ..)
  · rcases eq_or_ne i j with rfl | hne
    · exact .inr (.inr ⟨a, st', rfl, by simpa only [update_self] using heff⟩)
    · exact .inl (update_of_ne hne ..)

/-- The owners after the handler at `i` has moved on to `h`. -/
theorem owned_update {st : Store} {i : ℕ} {h : Handler} {o : Owner → Option (ℕ × Desc)}
    (hs : ∀ token, o (.session token) = (st.fmap token).map fun info => (info.fd, info.desc))
    (hc : o (.creator i) = h.creatorHolds) (hk : o (.closer i) = h.closerHolds)
    (ho : ∀ j, j ≠ i → o (.creator j) = s.owned (.creator j) ∧
      o (.closer j) = s.owned (.closer j)) :
    (⟨st, update s.handlers i h⟩ : Server).owned = o := by
  funext p
  cases p with
  | session token => exact (hs token).symm
  | creator j =>
    by_cases hj : j = i
    · subst hj
      simp only [Server.owned, update_self, hc]
    · simp only [(ho j hj).1, Server.owned, update_of_ne hj]
  | closer j =>
    by_cases hj : j = i
    · subst hj
      simp only [Server.owned, update_self, hk]
    · simp only [(ho j hj).2, Server.owned, update_of_ne hj]

/-- No descriptor changes hands when the handler holds afterwards what it held before. -/
theorem move_same {st : Store} {i : ℕ} {h : Handler} (hfds : st.os.fds = s.store.os.fds)
    (hs : ∀ token, (st.fmap token).map (fun info => (info.fd, info.desc)) =
      (s.store.fmap token).map fun info => (info.fd, info.desc))
    (hc : h.creatorHolds = (s.handlers i).creatorHolds)
    (hk : h.closerHolds = (s.handlers i).closerHolds) :
    Move Owner.lends s.owned s.store.os.fds none (⟨st, update s.handlers i h⟩ : Server).owned
      st.os.fds := by
  rw [hfds, owned_update (fun token => (hs token).symm) hc.symm hk.symm fun _ _ => ⟨rfl, rfl⟩]
  exact .same

/-- CORRECT (descriptors): a step of the server takes a descriptor the operating system had free,
    hands one on, or gives back one of its own handler. -/
theorem step_move (h : step conf s l = some s') :
    ∃ gone, Move Owner.lends s.owned s.store.os.fds gone s'.owned s'.store.os.fds ∧
      ∀ o, gone = some o → ∃ i a, l = .resume i a ∧ s.Returns i o := by
  have hno : ∀ o : Owner, none = some o → ∃ i a, l = .resume i a ∧ s.Returns i o :=
    fun o ho => by cases ho
  rcases step_cases h with ⟨i, req, rfl, hidle, rfl⟩ | ⟨i, a, st', h', rfl, heff, rfl⟩
  · obtain ⟨hos, hmap⟩ := accept_store conf s.store req
    obtain ⟨hc, hk, _⟩ := accept_holds conf s.store req
    exact ⟨none, move_same (by rw [hos]) hmap (by rw [hc, hidle]; rfl) (by rw [hk, hidle]; rfl), hno⟩
  generalize hi : s.handlers i = hd at heff
  have hcr : s.owned (.creator i) = hd.creatorHolds := by rw [Server.owned, hi]
  have hcl : s.owned (.closer i) = hd.closerHolds := by rw [Server.owned, hi]
  cases heff with
  | noDirectory c =>
    exact ⟨none, move_same rfl (fun _ => rfl) (by rw [hi]; rfl) (by rw [hi]; rfl), hno⟩
  | openFailed c e =>
    exact ⟨none, move_same rfl (fun _ => rfl) (by rw [hi]; rfl) (by rw [hi]; rfl), hno⟩
  | opened c fd errno os desc hfd hopen =>
    obtain ⟨hfree, _, _, rfl⟩ := Os.openFile_eq hopen
    refine ⟨none, ?_, hno⟩
    rw [owned_update (s := s) (o := update s.owned (.creator i) (some (fd, desc)))
      (fun token => by rw [update_of_ne (by simp)]; rfl) (by rw [update_self]; rfl)
      (by rw [update_of_ne (by simp), hcl]; rfl)
      (fun j hj => ⟨update_of_ne (by simpa using hj) .., update_of_ne (by simp) ..⟩)]
    exact .acquire _ _ _ hcr hfree
  | leaked c errno os desc hopen =>
    obtain ⟨hfree, _, _, hos⟩ := Os.openFile_eq hopen
    have hown : (⟨{ s.store with os },
        update s.handlers i (.finished (returnError errno "create_file"))⟩ : Server).owned = s.owned :=
      owned_update (fun _ => rfl) hcr hcl fun _ _ => ⟨rfl, rfl⟩
    refine ⟨none, ?_, hno⟩
    rw [hown, hos]
    exact .leak _ _ hfree
  | truncated c fd desc os htr =>
    obtain ⟨d, _, _, rfl⟩ := Os.ftruncate_eq htr
    exact ⟨none, move_same rfl (fun _ => rfl) (by rw [hi]; rfl) (by rw [hi]; rfl), hno⟩
  | truncateFailed c fd desc e =>
    refine ⟨some (.creator i), ?_, fun o ho => by cases ho; exact ⟨i, _, rfl, rfl⟩⟩
    rw [owned_update (s := s) (o := update s.owned (.creator i) none)
      (fun token => by rw [update_of_ne (by simp)]; rfl) (by rw [update_self]; rfl)
      (by rw [update_of_ne (by simp), hcl]; rfl)
      (fun j hj => ⟨update_of_ne (by simpa using hj) .., update_of_ne (by simp) ..⟩)]
    exact .release _ _ _ hcr
  | duplicate c fd desc info hdup =>
    refine ⟨some (.creator i), ?_, fun o ho => by cases ho; exact ⟨i, _, rfl, rfl⟩⟩
    rw [owned_update (s := s) (o := update s.owned (.creator i) none)
      (fun token => by rw [update_of_ne (by simp)]; rfl) (by rw [update_self]; rfl)
      (by rw [update_of_ne (by simp), hcl]; rfl)
      (fun j hj => ⟨update_of_ne (by simpa using hj) .., update_of_ne (by simp) ..⟩)]
    exact .release _ _ _ hcr
  | inserted c fd desc hnew =>
    refine ⟨none, ?_, hno⟩
    rw [owned_update (s := s)
      (o := update (update s.owned (.creator i) none) (.session c.token) (some (fd, desc)))
      (fun token => ?_) (by rw [update_of_ne (by simp), update_self]; rfl)
      (by rw [update_of_ne (by simp), update_of_ne (by simp), hcl]; rfl)
      (fun j hj => ⟨?_, ?_⟩)]
    · exact .transfer _ _ _ hcr (by rw [Server.owned, hnew]; rfl) fun _ => trivial
    · by_cases ht : token = c.token
      · subst ht
        simp [Store.createInfo]
      · rw [update_of_ne (by simpa using ht), update_of_ne (by simp)]
        simp only [update_of_ne ht]
        rfl
    · rw [update_of_ne (by simp), update_of_ne (by simpa using hj)]
    · rw [update_of_ne (by simp), update_of_ne (by simp)]
  | notFound token reply hf =>
    exact ⟨none, move_same rfl (fun _ => rfl) (by rw [hi]; rfl) (by rw [hi]; rfl), hno⟩
  | erased token reply info hf =>
    refine ⟨none, ?_, hno⟩
    rw [owned_update (s := s)
      (o := update (update s.owned (.session token) none) (.closer i) (some (info.fd, info.desc)))
      (fun t => ?_) (by rw [update_of_ne (by simp), update_of_ne (by simp), hcr]; rfl)
      (by rw [update_self]; rfl) (fun j hj => ⟨?_, ?_⟩)]
    · exact .transfer _ _ _ (by rw [Server.owned, hf]; rfl) hcl fun _ => trivial
    · by_cases ht : t = token
      · subst ht
        simp
      · rw [update_of_ne (by simp), update_of_ne (by simpa using ht)]
        simp only [update_of_ne ht]
        rfl
    · rw [update_of_ne (by simp), update_of_ne (by simp)]
    · rw [update_of_ne (by simpa using hj), update_of_ne (by simp)]
  | resized info reply os htr =>
    obtain ⟨d, _, _, rfl⟩ := Os.ftruncate_eq htr
    exact ⟨none, move_same rfl (fun _ => rfl) (by rw [hi]; rfl) (by rw [hi]; rfl), hno⟩
  | resizeFailed info reply e =>
    exact ⟨none, move_same rfl (fun _ => rfl) (by rw [hi]; rfl) (by rw [hi]; rfl), hno⟩
  | closed info reply =>
    refine ⟨some (.closer i), ?_, fun o ho => by cases ho; exact ⟨i, _, rfl, rfl, info, reply, hi⟩⟩
    rw [owned_update (s := s) (o := update s.owned (.closer i) none)
      (fun token => by rw [update_of_ne (by simp)]; rfl)
      (by rw [update_of_ne (by simp), hcr]; rfl) (by rw [update_self]; rfl)
      (fun j hj => ⟨update_of_ne (by simp) .., update_of_ne (by simpa using hj) ..⟩)]
    exact .release _ _ _ hcl
  | wrote x n os hx hn hw =>
    obtain ⟨d, _, _, rfl⟩ := Os.pwrite_eq hw
    exact ⟨none, move_same rfl (fun _ => rfl) (by rw [hi]; rfl) (by rw [hi]; rfl), hno⟩
  | writeFailed x e hx =>
    exact ⟨none, move_same rfl (fun _ => rfl) (by rw [hi]; rfl) (by rw [hi]; rfl), hno⟩
  | answered x j e hx =>
    exact ⟨none, move_same rfl (fun _ => rfl) (by rw [hi]; rfl) (by rw [hi]; rfl), hno⟩
  | joined x e hx =>
    exact ⟨none, move_same rfl (fun _ => rfl) (by rw [hi]; rfl) (by rw [hi]; rfl), hno⟩

/-! ### Runs -/

theorem Initial.owned (h : Initial s) : s.owned = fun _ => none := by
  funext o
  cases o with
  | session token => simp only [Server.owned, h.fmap, Option.map_none]
  | creator i => simp only [Server.owned, h.handlers, Handler.creatorHolds]
  | closer i => simp only [Server.owned, h.handlers, Handler.closerHolds]

theorem Initial.exclusive (h : Initial s) : Exclusive s.owned s.store.os.fds := by
  rw [h.owned]
  exact ⟨fun _ _ _ h => (by cases h), fun _ _ _ _ _ h => by cases h⟩

/-- What is held is open, and nothing is held twice. -/
theorem owned_exclusive {ls : List Label} {t : Server} (h₀ : Initial s) (hr : Runs conf s ls t) :
    Exclusive t.owned t.store.os.fds := by
  refine hr.invariant (P := fun s => Exclusive s.owned s.store.os.fds) ?_ h₀.exclusive
  intro s l s' he hs
  obtain ⟨_, hm, _⟩ := step_move hs
  exact hm.exclusive he

end Fcopy
