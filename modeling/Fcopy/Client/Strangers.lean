import Fcopy.Client.Seclusion

/-! End-to-end delivery among strangers (`upload_file` with everyone else who uses the servers).

    Others keep to other paths. That keeps them away from the files of an upload (`Hidden`) as long as
    neither a descriptor number nor a token of the upload is taken for another's (`Unmistaken`), and as
    long as no request of the upload gets lost on its way back; if one does, the upload ends with an error
    (`Doomed`):

        Hidden ──▶ Hidden ──▶ ... ──▶ closed, all results 0
           └──lost──▶ Doomed ──▶ ... ──▶ closed, an error -/

namespace Fcopy
open Function Content Run

section
variable (conf : Addr → Conf) (p : SenderParams) (source : Bytes)

/-- The handler serves the upload: it is at work on a request of the sender, or serves a chunk. -/
def Sys.Mine (sys : Sys) (a : Addr) (i : ℕ) : Prop :=
  sys.current p source = some (a, i) ∨ sys.net.served a i ≠ none

/-- Each target keeps the file of the upload to the handlers that serve it. -/
structure Hidden (sys : Sys) : Prop where
  busy : sys.sender.request p source = none → sys.call = none
  secluded : ∀ a ∈ p.targets, ∀ call, handleCreateFile (conf a) (openRequest p source) = .createOpen call →
    Secluded call (sys.Mine p source a) (sys.net.servers a)

/-- Nobody has a file of the upload open or is about to open it or to close its session. -/
def Unvisited (net : Net) : Prop :=
  ∀ a ∈ p.targets, ∀ call, handleCreateFile (conf a) (openRequest p source) = .createOpen call →
    Unused call (fun _ => False) (net.servers a)

/-- System calls report errors that are not zero and fit the header, `pread` and `pwrite` transfer
    everything and `ftruncate` succeeds; the requests have all been executed when `send_file` returns
    0, and the others are delivered once; nobody else creates a file of the upload. -/
def SysAssumed (sys : Sys) : SysLabel → Prop
  | .openFailed e | .lost e => e ≠ 0
  | .retry _ => False
  | .serve ans => ∀ a i info reply e, sys.current p source = some (a, i) →
    (sys.net.servers a).handlers i = .closeTruncate info reply → ans ≠ .failed e
  | .next => sys.sender.phase = .sending → sys.sender.error = 0 → Settled sys.net
  | .work w l => WorkerAssumed p source sys.sender w l
  | .net (.other a (.arrive _ req)) => a ∈ p.targets → ∀ call,
    handleCreateFile (conf a) (openRequest p source) = .createOpen call →
      req.file (conf a) ≠ some (fileOf call.path)
  | .net (.other ..) => True
  | .net l => Assumed conf (fun _ => True) sys.net l
  | _ => True

/-- The upload is not taken for another: `open` gives it no number that a sender has still to write to, and
    nobody else makes a request with a token of it. -/
def Unmistaken (sys : Sys) : SysLabel → Prop
  | .serve (.opened fd _) => ∀ a i, sys.current p source = some (a, i) →
    ∀ j x, (sys.net.servers a).handlers j = .sending x → x.writeError = none → x.fd ≠ fd
  | .net (.other a (.arrive _ req)) => a ∈ p.targets → ∀ call,
    handleCreateFile (conf a) (openRequest p source) = .createOpen call → req.token ≠ some call.token
  | _ => True

/-- The upload is going to return an error. -/
def Doomed (f : FileSender) : Prop :=
  match f.phase with
  | .closing _ firstError => f.createResult ≠ some 0 ∨ f.sendResult ≠ some 0 ∨ firstError ≠ 0
  | .closed => f.createResult ≠ some 0 ∨ f.sendResult ≠ some 0 ∨ f.closeResult ≠ some 0
  | _ => False

/-- The upload is going to return an error, or all it relies on is there. -/
structure Delivering (sys : Sys) : Prop where
  sound : ∀ a, Sound (conf a) (sys.net.servers a)
  followed : Followed sys.net
  unclosed : Unclosed sys.sender
  kept : Doomed sys.sender ∨ Inv conf p source sys ∧ Hidden conf p source sys

end

variable {conf : Addr → Conf} {p : SenderParams} {source : Bytes} {f f' : FileSender} {net net' : Net}
  {sys sys' : Sys} {call : CreateCall} {own own' : ℕ → Prop} {a : Addr}

/-! ### Errors stay -/

theorem Doomed.returnCreate (f : FileSender) {e : ℤ} (he : e ≠ 0) : Doomed (f.returnCreate e) := by
  rw [FileSender.returnCreate, if_neg he]
  exact .inl fun h => he (Option.some.inj h)

/-- A request that is lost is an error. -/
theorem Doomed.lost {req : Request} (hreq : f.request p source = some (a, req)) {e : ℤ} (he : e ≠ 0) :
    Doomed (f.receive e []) := by
  rcases FileSender.request_cases hreq with ⟨hphase, _⟩ | ⟨i, hphase, _⟩ | ⟨i, first, hphase, _⟩
  · simp only [FileSender.receive, hphase, if_pos he]
    exact .returnCreate f he
  · simp only [FileSender.receive, hphase, if_pos he]
    exact .returnCreate f he
  · simp only [FileSender.receive, hphase, Doomed]
    refine .inr (.inr ?_)
    split
    · exact he
    · rename_i hfirst
      exact fun h => hfirst ⟨he, h⟩

theorem Doomed.receive (h : Doomed f) (e : ℤ) (token : Bytes) : Doomed (f.receive e token) := by
  rw [FileSender.receive]
  split
  · rename_i hphase
    simp only [Doomed, hphase] at h
  · rename_i i hphase
    simp only [Doomed, hphase] at h
  · rename_i i first hphase
    simp only [Doomed, hphase] at h ⊢
    refine h.imp_right fun h => h.imp_right fun hne => ?_
    rw [if_neg fun h => hne h.2]
    exact hne
  · exact h

theorem Doomed.next (h : Doomed f) (hnext : f.next p = some f') : Doomed f' := by
  rw [FileSender.next] at hnext
  split at hnext
  · rename_i hphase
    simp only [Doomed, hphase] at h
  · rename_i i hphase
    simp only [Doomed, hphase] at h
  · rename_i hphase
    simp only [Doomed, hphase] at h
  · rename_i i first hphase
    simp only [Doomed, hphase] at h
    split at hnext <;> cases hnext
    · exact h
    · exact h.imp_right fun h => h.imp_right fun hne hzero => hne (Option.some.inj hzero)
  · cases hnext

theorem Doomed.not_idle (h : Doomed f) : f.phase ≠ .start ∧ f.phase ≠ .sending := by
  constructor
  all_goals
    intro hphase
    simp only [Doomed, hphase] at h

theorem Doomed.preserved (h : Doomed sys.sender) {l : SysLabel}
    (hstep : sysStep p source conf sys l = some sys') : Doomed sys'.sender := by
  cases sysStep_effect hstep with
  | openFile hphase | openFailed e hphase => exact absurd hphase h.not_idle.1
  | reply => exact h.receive _ _
  | lost e => exact h.receive e []
  | next f _ hnext => exact h.next hnext
  | work w l net f hphase => exact absurd hphase h.not_idle.2
  | _ => exact h

/-! ### Who serves the upload -/

theorem Sys.current_none (hcall : sys.call = none) : sys.current p source = none := by
  rw [Sys.current, hcall]

section
variable (p source)

/-- Between the two states nobody is let go who has not finished, and nobody is taken in who has begun. -/
structure Hands (sys sys' : Sys) : Prop where
  busy : sys'.sender.request p source = none → sys'.call = none
  kept : ∀ a i, sys.Mine p source a i →
    sys'.Mine p source a i ∨ ∃ r, (sys.net.servers a).handlers i = .finished r
  taken : ∀ a i, sys'.Mine p source a i →
    sys.Mine p source a i ∨ (sys.net.servers a).handlers i = .idle

end

/-- A request ends, or none is out. -/
theorem Hands.still (hnet : sys'.net = sys.net) (hcall : sys'.call = none)
    (hover : ∀ a i, sys.current p source = some (a, i) → ∃ r, (sys.net.servers a).handlers i = .finished r) :
    Hands p source sys sys' := by
  refine ⟨fun _ => hcall, fun a i hi => ?_, fun a i hi => ?_⟩
  · rcases hi with hi | hi
    · exact .inr (hover a i hi)
    · exact .inl (.inr (by rwa [hnet]))
  · rw [Sys.Mine, Sys.current_none hcall, hnet] at hi
    exact .inl (.inr (hi.resolve_left fun h => by cases h))

/-- The network takes a step. -/
theorem Hands.moved (hf : Followed sys.net) {l : NetLabel} (hnet : netStep conf sys.net l = some sys'.net)
    (hbusy : sys'.sender.request p source = none → sys'.call = none)
    (hcur : ∀ a i, sys.current p source = some (a, i) → sys'.current p source = some (a, i))
    (hnew : ∀ a i, sys'.current p source = some (a, i) →
      sys.current p source = some (a, i) ∨ (sys.net.servers a).handlers i = .idle) :
    Hands p source sys sys' := by
  refine ⟨hbusy, fun a i hi => .inl (hi.imp (hcur a i) fun hserved => ?_), fun a i hi => ?_⟩
  · obtain ⟨s, hsome⟩ := Option.ne_none_iff_exists'.mp hserved
    rwa [served_kept hnet (hf.started hsome)]
  · rcases hi with hi | hi
    · exact (hnew a i hi).imp_left .inl
    · by_contra hne
      rw [not_or] at hne
      rw [served_kept hnet hne.2] at hi
      exact hne.1 (.inr hi)

/-- CORRECT (one step of the system): the handlers of the upload are let go when they have finished, or the
    upload has failed. -/
theorem sysStep_hands (hbusy : sys.sender.request p source = none → sys.call = none)
    (hf : Followed sys.net) {l : SysLabel} (hl : SysAssumed conf p source sys l)
    (hstep : sysStep p source conf sys l = some sys') : Doomed sys'.sender ∨ Hands p source sys sys' := by
  -- the steps between two requests
  have hidle : sys.sender.request p source = none → sys'.net = sys.net → sys'.call = sys.call →
      Doomed sys'.sender ∨ Hands p source sys sys' := by
    intro hreq hnet hsame
    have hcall := hbusy hreq
    refine .inr (.still hnet (hsame.trans hcall) fun a i hcur => ?_)
    rw [Sys.current_none hcall] at hcur
    cases hcur
  cases sysStep_effect hstep with
  | openFile hphase | openFailed e hphase => exact hidle (by simp only [FileSender.request, hphase]) rfl rfl
  | call i a req net' hcall hreq hoth =>
    refine .inr (.moved hf (l := .other a (.arrive i req)) hoth (fun hnone => ?_) (fun b j hj => ?_)
      fun b j hj => ?_)
    · rw [hreq] at hnone
      cases hnone
    · rw [Sys.current_none hcall] at hj
      cases hj
    · simp only [Sys.current, hreq, Option.some.injEq, Prod.mk.injEq] at hj
      obtain ⟨rfl, rfl⟩ := hj
      rcases step_cases (others_step hoth) with ⟨_, _, hl, hfree, _⟩ | ⟨_, _, _, _, hl, _⟩ <;> cases hl
      exact .inr hfree
  | retry => cases hl
  | serve ans a i net' _ hoth =>
    exact .inr (.moved hf (l := .other _ _) hoth hbusy (fun _ _ => id) fun _ _ => .inl)
  | reply a i r hcur hr =>
    refine .inr (.still rfl rfl fun b j hj => ?_)
    cases hcur.symm.trans hj
    exact ⟨r, hr⟩
  | lost e a req hreq => exact .inl (.lost hreq hl)
  | next f hreq _ => exact hidle hreq rfl rfl
  | work w l net' f hphase _ hwork =>
    have hreq : sys.sender.request p source = none := by simp only [FileSender.request, hphase]
    rcases workerStep_cases hwork with ⟨rfl, _⟩ | ⟨i, _, _, _, _, rfl, hnet⟩
    · exact hidle hreq rfl rfl
    · exact .inr (.moved hf hnet (fun _ => hbusy hreq) (fun _ _ => id) fun _ _ => .inl)
  | net l net' hnet => exact .inr (.moved hf hnet hbusy (fun _ _ => id) fun _ _ => .inl)

/-! ### What one server does -/

/-- A server takes a request of the sender, serves it, serves a chunk, or takes a step for somebody else. -/
theorem sysStep_server (hf : Followed sys.net) {l : SysLabel}
    (hstep : sysStep p source conf sys l = some sys') (a : Addr) :
    sys'.net.servers a = sys.net.servers a ∨
      ∃ l', step (conf a) (sys.net.servers a) l' = some (sys'.net.servers a) ∧
        ((∃ i req, l' = .arrive i req ∧ sys.sender.request p source = some (a, req) ∧
            sys'.current p source = some (a, i)) ∨
          (∃ i ans, l' = .resume i ans ∧ l = .serve ans ∧ sys.current p source = some (a, i)) ∨
          (OnSend (sys.net.servers a) l' ∧ sys'.net.served a l'.handler ≠ none) ∨
          l = .net (.other a l') ∧ ¬sys'.Mine p source a l'.handler) := by
  -- a step for the sender's request, at the server at work on it
  have hone : ∀ {b : Addr} {l'' : Label}, others conf sys.net b l'' = some sys'.net →
      sys'.net.servers a = sys.net.servers a ∨
        a = b ∧ step (conf a) (sys.net.servers a) l'' = some (sys'.net.servers a) := by
    intro b l'' hoth
    obtain ⟨_, server, hserver, hnet⟩ := others_eq hoth
    by_cases hab : a = b
    · subst hab
      rw [hnet]
      exact .inr ⟨rfl, by simp only [update_self]; exact hserver⟩
    · rw [hnet]
      exact .inl (update_of_ne hab ..)
  have hsent : ∀ {l' : NetLabel}, netStep conf sys.net l' = some sys'.net → (∀ b l'', l' ≠ .other b l'') →
      sys'.net.servers a = sys.net.servers a ∨
        ∃ l', step (conf a) (sys.net.servers a) l' = some (sys'.net.servers a) ∧
          OnSend (sys.net.servers a) l' ∧ sys'.net.served a l'.handler ≠ none := by
    intro l' hnet hno
    rcases hf.server_cases hnet a with heq | ⟨l'', hserver, hoth | hsend⟩
    · exact .inl heq
    · exact absurd hoth (hno a l'')
    · exact .inr ⟨l'', hserver, hsend⟩
  cases sysStep_effect hstep with
  | openFile | openFailed | reply | lost | next => exact .inl rfl
  | call i b req net' _ hreq hoth | retry i b req net' _ hreq hoth =>
    rcases hone hoth with heq | ⟨rfl, hserver⟩
    · exact .inl heq
    · exact .inr ⟨_, hserver, .inl ⟨i, req, rfl, hreq, by simp only [Sys.current, hreq]⟩⟩
  | serve ans b i net' hcur hoth =>
    rcases hone hoth with heq | ⟨rfl, hserver⟩
    · exact .inl heq
    · exact .inr ⟨_, hserver, .inr (.inl ⟨i, ans, rfl, rfl, hcur⟩)⟩
  | work w l net' f _ _ hwork =>
    rcases workerStep_cases hwork with ⟨rfl, _⟩ | ⟨_, _, _, _, _, rfl, hnet⟩
    · exact .inl rfl
    · rcases hsent hnet fun _ _ heq => (by cases heq) with heq | ⟨l', hserver, hsend⟩
      · exact .inl heq
      · exact .inr ⟨l', hserver, .inr (.inr (.inl hsend))⟩
  | net l net' hnet _ hcur =>
    by_cases hoth : ∃ b l', l = .other b l'
    · obtain ⟨b, l', rfl⟩ := hoth
      rcases hone hnet with heq | ⟨rfl, hserver⟩
      · exact .inl heq
      · obtain ⟨hfree, _, _, rfl⟩ := others_eq hnet
        exact .inr ⟨l', hserver, .inr (.inr (.inr ⟨rfl, fun hmine =>
          hmine.elim (hcur a l' rfl) fun hs => hs hfree⟩))⟩
    · rcases hsent hnet fun b l' heq => hoth ⟨b, l', heq⟩ with heq | ⟨l', hserver, hsend⟩
      · exact .inl heq
      · exact .inr ⟨l', hserver, .inr (.inr (.inl hsend))⟩

/-! ### Steps -/

/-- What is asked of strangers. -/
theorem heeds_of_assumed (ha : a ∈ p.targets) {l : Label}
    (hopen : handleCreateFile (conf a) (openRequest p source) = .createOpen call)
    (hl : SysAssumed conf p source sys (.net (.other a l)))
    (hu : Unmistaken conf p source sys (.net (.other a l))) (hown : ¬own l.handler) :
    Heeds (conf a) call own (sys.net.servers a) l := by
  cases l with
  | arrive i req => exact ⟨fun h => absurd h hown, fun _ => ⟨hl ha call hopen, hu ha call hopen⟩⟩
  | resume i ans =>
    cases ans with
    | opened fd errno => exact fun h => absurd h hown
    | _ => trivial

/-- A handler that serves a chunk asks for no file and waits for no `open`. -/
theorem OnSend.heeds {c : Conf} {s s' : Server} {l : Label} (hsend : OnSend s l) (hstep : step c s l = some s')
    (hown : own l.handler) : Heeds c call own s l := by
  rcases hsend with ⟨i, req, data, rfl⟩ | ⟨i, ans, rfl, hsender⟩
  · exact ⟨fun _ _ _ heq => (by cases heq), fun hno => absurd hown hno⟩
  · cases ans with
    | opened fd errno =>
      rcases step_cases hstep with ⟨_, _, hl, _⟩ | ⟨_, _, _, _, hl, heff, _⟩ <;> cases hl
      rcases hsender with ⟨x, hx⟩ | ⟨r, hr⟩
      · rw [hx] at heff
        cases heff
      · rw [hr] at heff
        cases heff
    | _ => trivial

/-- CORRECT (one step of the system): the files stay with the upload, or it has failed. -/
theorem Hidden.preserved (h : Hidden conf p source sys) (hf : Followed sys.net)
    (hs : ∀ a, Sound (conf a) (sys.net.servers a)) {l : SysLabel} (hl : SysAssumed conf p source sys l)
    (hu : Unmistaken conf p source sys l) (hstep : sysStep p source conf sys l = some sys') :
    Doomed sys'.sender ∨ Hidden conf p source sys' := by
  refine (sysStep_hands h.busy hf hl hstep).imp_right fun hands => ⟨hands.busy, fun a ha call hopen => ?_⟩
  have hregard : Secluded call (sys'.Mine p source a) (sys.net.servers a) := by
    refine (h.secluded a ha call hopen).regard (fun i hi hno => ?_) fun i hi =>
      (hands.kept a i hi).resolve_left
    exact (hands.taken a i hi).resolve_left hno
  rcases sysStep_server hf hstep a with heq | ⟨l', hserver, hcases⟩
  · rw [heq]
    exact hregard
  refine hregard.preserved (hs a) ?_ hserver
  rcases hcases with ⟨i, req, rfl, hreq, hcur⟩ | ⟨i, ans, rfl, rfl, hcur⟩ | ⟨hsend, hserved⟩ | ⟨rfl, hown⟩
  · refine ⟨fun _ q call' hq hopen' => ?_, fun hno => absurd (.inl hcur) hno⟩
    subst hq
    cases FileSender.request_create hreq
    exact Handler.createOpen.inj (hopen'.symm.trans hopen)
  · cases ans with
    | opened fd errno => exact fun _ => hu a i hcur
    | _ => trivial
  · exact hsend.heeds hserver (.inr hserved)
  · exact heeds_of_assumed ha hopen hl hu hown

/-- CORRECT (one step of a stranger): it spares the file of the upload, and does not open it. -/
theorem Hidden.stranger (h : Hidden conf p source sys) (hs : ∀ a, Sound (conf a) (sys.net.servers a))
    (ha : a ∈ p.targets) (hopen : handleCreateFile (conf a) (openRequest p source) = .createOpen call)
    {l : Label} (hl : SysAssumed conf p source sys (.net (.other a l)))
    (hu : Unmistaken conf p source sys (.net (.other a l)))
    (hstep : sysStep p source conf sys (.net (.other a l)) = some sys') {server : Server}
    (hserver : step (conf a) (sys.net.servers a) l = some server) :
    Spares (fileOf call.path) (sys.net.servers a) server ∧
      ¬Opens (fileOf call.path) (sys.net.servers a) l := by
  have hown : ¬sys.Mine p source a l.handler := by
    cases sysStep_effect hstep with
    | net _ net' hnet _ hcur =>
      exact fun hmine => hmine.elim (hcur a l rfl) fun hserved => hserved (others_eq hnet).1
  exact (h.secluded a ha call hopen).spares (hs a) (heeds_of_assumed ha hopen hl hu hown) hown hserver

/-- What the upload relies on is left to it. -/
theorem Hidden.calm (h : Hidden conf p source sys) (hs : ∀ a, Sound (conf a) (sys.net.servers a))
    {l : SysLabel} (hl : SysAssumed conf p source sys l) (hu : Unmistaken conf p source sys l)
    (hstep : sysStep p source conf sys l = some sys') : SysCalm conf p source sys l := by
  cases l with
  | net l =>
    cases l with
    | other a l => exact fun ha server hserver call hopen => (h.stranger hs ha hopen hl hu hstep hserver).1
    | _ => exact hl
  | _ => exact hl

/-! ### Runs -/

theorem Delivering.preserved (h : Delivering conf p source sys) (hd : p.targets.Nodup)
    (hwait : p.waitClose = true) (hpar : 1 ≤ p.parallel) (hsource : source.length < 2 ^ 63) {l : SysLabel}
    (hl : SysAssumed conf p source sys l) (hu : Unmistaken conf p source sys l)
    (hstep : sysStep p source conf sys l = some sys') : Delivering conf p source sys' := by
  have hbase : (∀ a, Sound (conf a) (sys'.net.servers a)) ∧ Followed sys'.net := by
    rcases sysStep_netStep hstep with heq | ⟨l', hnet, _⟩
    · rw [heq]
      exact ⟨h.sound, h.followed⟩
    · exact ⟨sound_netStep hnet h.sound, h.followed.preserved hnet⟩
  refine ⟨hbase.1, hbase.2, h.unclosed.preserved hstep, ?_⟩
  rcases h.kept with hdoomed | ⟨hinv, hhidden⟩
  · exact .inl (hdoomed.preserved hstep)
  · have hcalm := hhidden.calm h.sound hl hu hstep
    exact (hhidden.preserved h.followed h.sound hl hu hstep).imp_right
      fun hhidden' => ⟨hinv.preserved hd hwait hpar hsource hcalm hstep, hhidden'⟩

theorem SysInitial.delivering (h : SysInitial conf sys) (hv : Unvisited conf p source sys.net) :
    Delivering conf p source sys := by
  refine ⟨h.quiet.sound, h.quiet.followed, by rw [h.sender]; exact fun _ => rfl, .inr ⟨h.inv, ?_⟩⟩
  refine ⟨fun _ => h.call, fun a ha call hopen => ?_⟩
  have hnone : ∀ i, ¬sys.Mine p source a i := by
    intro i
    rw [Sys.Mine, Sys.current_none h.call, h.quiet.served, not_or]
    exact ⟨fun h => (by cases h), fun hne => hne rfl⟩
  exact ((hv a ha call hopen).regard fun _ hno => hno.elim).secluded (h.quiet.sound a) hnone

/-- A sender that has returned 0 three times has not failed. -/
theorem Unclosed.not_doomed (h : Unclosed f) (hcreate : f.createResult = some 0)
    (hsend : f.sendResult = some 0) (hclose : f.closeResult = some 0) : ¬Doomed f := by
  have hphase : f.phase = .closed := by
    by_contra hne
    rw [h hne] at hclose
    cases hclose
  simp only [Doomed, hphase, hcreate, hsend, hclose, ne_eq, not_true_eq_false, or_self, not_false_eq_true]

/-- CORRECT (end to end): when `create_file`, `send_file` and `close_file` have all returned 0, the
    file that each target has opened for the upload holds exactly the source. -/
theorem upload_delivers (conf : Addr → Conf) (p : SenderParams) (source : Bytes) (sys sys' : Sys)
    (ls : List SysLabel) (hsource : source.length < 2 ^ 63) (hpar : 1 ≤ p.parallel)
    (hwait : p.waitClose = true) (hd : p.targets.Nodup) (hstart : SysInitial conf sys)
    (hunvisited : Unvisited conf p source sys.net) (hrun : SysRuns conf p source sys ls sys')
    (hass : EveryStep (ofStep (sysStep p source conf)) (SysAssumed conf p source) sys ls)
    (hunmistaken : EveryStep (ofStep (sysStep p source conf)) (Unmistaken conf p source) sys ls)
    (hcreate : sys'.sender.createResult = some 0) (hsend : sys'.sender.sendResult = some 0)
    (hclose : sys'.sender.closeResult = some 0) (a : Addr) (ha : a ∈ p.targets) :
    ∃ call, handleCreateFile (conf a) (openRequest p source) = .createOpen call ∧
      (sys'.net.servers a).store.os.files (fileOf call.path) = some source := by
  have hend : Delivering conf p source sys' :=
    hrun.guarded (fun _ _ _ h hl hstep => h.preserved hd hwait hpar hsource hl.1 hl.2 hstep)
      (hass.and hunmistaken) (hstart.delivering hunvisited)
  have hinv := (hend.kept.resolve_left (hend.unclosed.not_doomed hcreate hsend hclose)).1
  exact (hinv.delivers hend.unclosed hcreate hsend hclose).2 a ha

/-! ### An upload to two servers -/

/-- Create, link, one chunk through both servers, close. Chunks are served by the handlers 5. -/
def sampleLabels : List SysLabel :=
  let a : Addr := (text "a", 1)
  let b : Addr := (text "b", 1)
  let create : List SysLabel := [.call 0, .serve (.opened 3 0), .serve .done, .serve .done, .reply]
  let close : List SysLabel := [.call 2, .serve .done, .serve .done, .serve .done, .reply]
  [.openFile] ++ create ++ create ++ [.next, .call 1, .reply, .next,
    .work 0 .alloc, .work 0 .check, .work 0 .claim, .work 0 (.read 8192), .work 0 (.request 5),
    .net (.forward a 5 0 5), .net (.proceed b 5 (.wrote 8192)), .net (.proceed b 5 .done),
    .net (.answer a 5 0 5), .net (.proceed a 5 (.wrote 8192)), .net (.proceed a 5 .done),
    .work 0 (.reply 5), .work 0 .check, .work 0 .claim, .work 0 .leave, .next] ++
    close ++ close ++ [.next]

/-- Only the handlers 5 of the targets serve requests. -/
def FiveOnly (p : SenderParams) (sys : Sys) : Prop :=
  ∀ a i, sys.net.served a i ≠ none → i = 5 ∧ a ∈ p.targets

/-- A check that suffices for the assumptions where only the handlers 5 serve requests. -/
def sysCheck (conf : Addr → Conf) (p : SenderParams) (source : Bytes) (sys : Sys) : SysLabel → Bool
  | .openFile | .call _ | .serve .done | .serve (.opened _ _) | .reply => true
  | .next => decide (sys.sender.phase ≠ .sending) || p.targets.all fun a =>
    match (sys.net.servers a).handlers 5 with
    | .finished _ => true
    | _ => false
  | .work _ .alloc | .work _ .check | .work _ .claim | .work _ (.reply _) | .work _ .leave => true
  | .work _ (.read n) => n = p.chunkSize.toNat
  | .work _ (.request i) => i = 5 ∧ addrOf p 0 ∈ p.targets
  | .net (.forward a k j i) => decide (i = 5) && match pending sys.net a k j with
    | some (_, t) => decide (t.addr ∈ p.targets)
    | none => false
  | .net (.answer ..) => true
  | .net (.proceed a i ans) => assumedCheck sys.net (.proceed a i ans)
  | .net (.other a (.arrive _ req)) =>
    match handleCreateFile (conf a) (openRequest p source) with
    | .createOpen call => decide (req.file (conf a) ≠ some (fileOf call.path))
    | _ => true
  | .net (.other ..) => true
  | _ => false

theorem fiveOnly_step {l : SysLabel} (h : FiveOnly p sys) (hl : sysCheck conf p source sys l = true)
    (hstep : sysStep p source conf sys l = some sys') : FiveOnly p sys' := by
  rcases sysStep_netStep hstep with heq | ⟨l', hnet, hfrom⟩
  · rw [FiveOnly, heq]
    exact h
  intro b i hs
  obtain ⟨s, hs⟩ := Option.ne_none_iff_exists'.mp hs
  rcases netStep_served hnet hs with hs | ⟨id, req, data, rfl, _⟩ |
    ⟨a, k, j, _, x, t, rfl, _, hpend, rfl, _⟩
  · exact h b i (by rw [hs]; exact Option.some_ne_none s)
  · rcases hfrom with ⟨_, _, heq⟩ | rfl | ⟨w, i', id', req', data', rfl, heq⟩
    · cases heq
    · cases hl
    · cases heq
      exact of_decide_eq_true hl
  · rcases hfrom with ⟨_, _, heq⟩ | rfl | ⟨_, _, _, _, _, _, heq⟩
    · cases heq
    · simp only [sysCheck, hpend, Bool.and_eq_true, decide_eq_true_eq] at hl
      exact hl
    · cases heq

theorem sysAssumed_of_check {l : SysLabel} (h : FiveOnly p sys) (hl : sysCheck conf p source sys l = true) :
    SysAssumed conf p source sys l := by
  cases l with
  | openFailed | lost | retry => cases hl
  | serve ans =>
    cases ans with
    | failed => cases hl
    | _ => exact fun _ _ _ _ _ _ _ heq => by cases heq
  | next =>
    intro hphase _ a i s hs
    simp only [sysCheck, Bool.or_eq_true, decide_eq_true_eq] at hl
    obtain ⟨rfl, ha⟩ := h a i (by rw [hs]; exact Option.some_ne_none s)
    have hfin := List.all_eq_true.mp (hl.resolve_left fun hne => hne hphase) a ha
    split at hfin
    · rename_i r hr
      exact ⟨r, hr⟩
    · cases hfin
  | work w l =>
    cases l with
    | read n =>
      intro offset _
      rw [of_decide_eq_true hl, chunk]
    | allocFailed | readFailed | lost => cases hl
    | _ => trivial
  | net l =>
    cases l with
    | proceed a i ans => exact assumed_of_check hl
    | request | fail => cases hl
    | other a l =>
      cases l with
      | arrive i req =>
        intro _ call hopen
        simp only [sysCheck, hopen, decide_eq_true_eq] at hl
        exact hl
      | resume => trivial
    | _ => trivial
  | _ => trivial

/-- Only the handlers 5 write. -/
def FiveWrite (net : Net) : Prop := ∀ a i x, (net.servers a).handlers i = .sending x → i = 5

/-- A check that suffices where nobody else is there: handler 5 does not write during an `open`. -/
def unmistakenCheck (p : SenderParams) (source : Bytes) (sys : Sys) : SysLabel → Bool
  | .serve (.opened _ _) => (sys.current p source).all fun (a, _) =>
    match (sys.net.servers a).handlers 5 with
    | .sending _ => false
    | _ => true
  | .net (.other ..) => false
  | _ => true

/-- A handler that writes has been asked to. -/
theorem sending_step {c : Conf} {s s' : Server} {l : Label} (h : step c s l = some s') {j : ℕ} {x : Sending}
    (hj : s'.handlers j = .sending x) :
    (∃ x', s.handlers j = .sending x') ∨ ∃ q data, l = .arrive j (.send q data) := by
  rcases handler_cases h j with hsame | ⟨req, rfl, _, harrive⟩ | ⟨_, _, _, heff⟩
  · exact .inl ⟨x, hsame ▸ hj⟩
  · obtain ⟨q, data, _, rfl, _⟩ := accept_sending (harrive.symm.trans hj)
    exact .inr ⟨q, data, rfl⟩
  · rw [hj] at heff
    generalize s.handlers j = hd at heff
    cases heff <;> exact .inl ⟨_, rfl⟩

theorem fiveWrite_step {l : SysLabel} (hf : Followed sys.net) (h : FiveWrite sys.net) (h' : FiveOnly p sys')
    (hl : unmistakenCheck p source sys l = true) (hstep : sysStep p source conf sys l = some sys') :
    FiveWrite sys'.net := by
  intro a j x hj
  rcases sysStep_server hf hstep a with heq | ⟨l', hserver, hcases⟩
  · exact h a j x (heq ▸ hj)
  rcases sending_step hserver hj with ⟨x', hold⟩ | ⟨q, data, rfl⟩
  · exact h a j x' hold
  rcases hcases with ⟨i, req, heq, hreq, _⟩ | ⟨_, _, heq, _⟩ | ⟨_, hserved⟩ | ⟨rfl, _⟩
  · cases heq
    exact absurd hreq FileSender.request_ne_send
  · cases heq
  · exact (h' a j hserved).1
  · cases hl

theorem unmistaken_of_check {l : SysLabel} (h : FiveWrite sys.net)
    (hl : unmistakenCheck p source sys l = true) : Unmistaken conf p source sys l := by
  cases l with
  | serve ans =>
    cases ans with
    | opened fd errno =>
      intro a i hcur j x hj
      cases h a j x hj
      simp only [unmistakenCheck, hcur, hj, Option.all_some, Bool.false_eq_true] at hl
    | _ => trivial
  | net l =>
    cases l with
    | other => cases hl
    | _ => trivial
  | _ => trivial

/-- What the two checks rely on. -/
structure Fives (p : SenderParams) (sys : Sys) : Prop where
  followed : Followed sys.net
  only : FiveOnly p sys
  write : FiveWrite sys.net

theorem fives_step {l : SysLabel} (h : Fives p sys)
    (hl : (sysCheck conf p source sys l && unmistakenCheck p source sys l) = true)
    (hstep : sysStep p source conf sys l = some sys') : Fives p sys' := by
  rw [Bool.and_eq_true] at hl
  have honly := fiveOnly_step h.only hl.1 hstep
  refine ⟨?_, honly, fiveWrite_step h.followed h.write honly hl.2 hstep⟩
  rcases sysStep_netStep hstep with heq | ⟨l', hnet, _⟩
  · rw [heq]
    exact h.followed
  · exact h.followed.preserved hnet

theorem sampleSys_write : FiveWrite sampleSys.net := fun _ _ _ hx => by cases hx

theorem sampleSys_unvisited : Unvisited conf p source sampleSys.net :=
  fun _ _ _ _ => ⟨⟨fun _ _ hd => (by cases hd), fun _ _ hi => (by cases hi)⟩,
    fun _ _ _ _ hi => by cases hi⟩

/-- Two bytes uploaded to two servers in a chain. -/
theorem upload_delivers_two : ∃ sys' : Sys, ∀ a ∈ sampleUpload.targets, ∃ call,
    handleCreateFile sampleConf (openRequest sampleUpload (text "hi")) = .createOpen call ∧
      (sys'.net.servers a).store.os.files (fileOf call.path) = some (text "hi") := by
  have hcheck : (execIf (sysStep sampleUpload (text "hi") fun _ => sampleConf)
      (fun sys l => sysCheck (fun _ => sampleConf) sampleUpload (text "hi") sys l &&
        unmistakenCheck sampleUpload (text "hi") sys l)
      sampleSys sampleLabels).any (fun sys => sys.sender.createResult = some 0 ∧
        sys.sender.sendResult = some 0 ∧ sys.sender.closeResult = some 0) = true := by
    decide +kernel
  obtain ⟨sys', hexec, hend⟩ := (Option.any_eq_true _ _).mp hcheck
  obtain ⟨hcreate, hsend, hclose⟩ := of_decide_eq_true hend
  obtain ⟨hrun, hass⟩ := of_execIf
    (G := fun sys l => SysAssumed (fun _ => sampleConf) sampleUpload (text "hi") sys l ∧
      Unmistaken (fun _ => sampleConf) sampleUpload (text "hi") sys l) (I := Fives sampleUpload)
    (fun _ _ h hl => ⟨sysAssumed_of_check h.only (Bool.and_eq_true_iff.mp hl).1,
      unmistaken_of_check h.write (Bool.and_eq_true_iff.mp hl).2⟩)
    (fun _ _ _ h hl hstep => fives_step h hl hstep)
    ⟨sampleSys_initial.quiet.followed, fun _ _ hs => absurd rfl hs, sampleSys_write⟩ hexec
  exact ⟨sys', upload_delivers (fun _ => sampleConf) sampleUpload (text "hi") sampleSys sys'
    sampleLabels (by decide) (by decide) rfl (by decide) sampleSys_initial sampleSys_unvisited hrun
    (hass.imp fun _ _ => And.left) (hass.imp fun _ _ => And.right) hcreate hsend hclose⟩

/-! ### A stranger's write -/

def staleUpload : SenderParams := { sampleUpload with targets := [(text "a", 1)] }

/-- Somebody else creates `bb`, sends a chunk and closes before it is written. The upload gets its
    descriptor, and the chunk is written after that of the upload. -/
def staleLabels : List SysLabel :=
  let a : Addr := (text "a", 1)
  let stranger (l : Label) : SysLabel := .net (.other a l)
  [stranger (.arrive 20 (.create { chunkSize := 8192, fileName := text "bb" })),
    stranger (.resume 20 (.opened 3 0)), stranger (.resume 20 .done), stranger (.resume 20 .done),
    stranger (.arrive 21 (.send { maxChainLen := 1, originSize := 2, fileToken := text "5" } [9, 9])),
    stranger (.arrive 22 (.close ⟨1, text "5"⟩)), stranger (.resume 22 .done),
    stranger (.resume 22 .done), stranger (.resume 22 .done),
    .openFile, .call 0, .serve (.opened 3 0), .serve .done, .serve .done, .reply, .next, .next,
    .work 0 .alloc, .work 0 .check, .work 0 .claim, .work 0 (.read 8192), .work 0 (.request 5),
    .net (.proceed a 5 (.wrote 8192)), .net (.proceed a 5 .done),
    stranger (.resume 21 (.wrote 8192)),
    .work 0 (.reply 5), .work 0 .check, .work 0 .claim, .work 0 .leave, .next,
    .call 2, .serve .done, .serve .done, .serve .done, .reply, .next]

/-- All three calls return 0, nobody else has asked for the path or the token of the upload, and the file
    holds what somebody else has sent. -/
theorem stale_write_delivered : ∃ sys' : Sys,
    SysInitial (fun _ => sampleConf) sampleSys ∧
    Unvisited (fun _ => sampleConf) staleUpload (text "hi") sampleSys.net ∧
    SysRuns (fun _ => sampleConf) staleUpload (text "hi") sampleSys staleLabels sys' ∧
    EveryStep (ofStep (sysStep staleUpload (text "hi") fun _ => sampleConf))
      (SysAssumed (fun _ => sampleConf) staleUpload (text "hi")) sampleSys staleLabels ∧
    sys'.sender.createResult = some 0 ∧ sys'.sender.sendResult = some 0 ∧
    sys'.sender.closeResult = some 0 ∧ ∀ a ∈ staleUpload.targets, ∀ call,
      handleCreateFile sampleConf (openRequest staleUpload (text "hi")) = .createOpen call →
        (sys'.net.servers a).store.os.files (fileOf call.path) = some [9, 9] := by
  have hcheck : (execIf (sysStep staleUpload (text "hi") fun _ => sampleConf)
      (sysCheck (fun _ => sampleConf) staleUpload (text "hi")) sampleSys staleLabels).any
      (fun sys => sys.sender.createResult = some 0 ∧ sys.sender.sendResult = some 0 ∧
        sys.sender.closeResult = some 0 ∧ (sys.net.servers (text "a", 1)).store.os.files
          [text "p", text "f"] = some [9, 9]) = true := by
    decide +kernel
  obtain ⟨sys', hexec, hend⟩ := (Option.any_eq_true _ _).mp hcheck
  obtain ⟨hcreate, hsend, hclose, hfile⟩ := of_decide_eq_true hend
  obtain ⟨hrun, hass⟩ := of_execIf
    (G := SysAssumed (fun _ => sampleConf) staleUpload (text "hi")) (I := FiveOnly staleUpload)
    (fun _ _ h hl => sysAssumed_of_check h hl) (fun _ _ _ h hl hstep => fiveOnly_step h hl hstep)
    (fun _ _ hs => absurd rfl hs) hexec
  refine ⟨sys', sampleSys_initial, sampleSys_unvisited, hrun, hass, hcreate, hsend, hclose, ?_⟩
  intro a ha call hopen
  cases List.mem_singleton.mp ha
  have hpath : (Request.create (openRequest staleUpload (text "hi"))).file sampleConf =
      some [text "p", text "f"] := by
    decide +kernel
  rw [Option.some.inj ((Request.file_eq hopen).symm.trans hpath)]
  exact hfile

/-- A create that is delivered twice cuts the file when its first handler goes on. -/
example : (exec (sysStep staleUpload (text "hi") fun _ => sampleConf) sampleSys
    ([.openFile, .call 0, .retry 1, .serve (.opened 3 0), .serve .done, .serve .done, .reply, .next, .next,
      .work 0 .alloc, .work 0 .check, .work 0 .claim, .work 0 (.read 8192), .work 0 (.request 5),
      .net (.proceed (text "a", 1) 5 (.wrote 8192)), .net (.proceed (text "a", 1) 5 .done),
      .work 0 (.reply 5), .work 0 .check, .work 0 .claim, .work 0 .leave, .next,
      .call 2, .serve .done, .serve .done, .serve .done, .reply, .next,
      .net (.other (text "a", 1) (.resume 0 (.opened 3 0))),
      .net (.other (text "a", 1) (.resume 0 .done))])).any
      (fun sys => sys.sender.createResult = some 0 ∧ sys.sender.sendResult = some 0 ∧
        sys.sender.closeResult = some 0 ∧ (sys.net.servers (text "a", 1)).store.os.files
          [text "p", text "f"] = some []) = true := by
  decide +kernel

end Fcopy
