import Fcopy.Client.Calls

/-! End-to-end delivery, as long as the upload keeps its files: every step of the system keeps the
    invariant, and at the end the invariant has the source in each of them. -/

namespace Fcopy
open Function Content Run

variable {conf : Addr → Conf} {p : SenderParams} {source : Bytes} {sys sys' : Sys}

/-! ### What a step of the system is -/

theorem current_eq {a : Addr} {i : ℕ} (h : sys.current p source = some (a, i)) :
    sys.call = some i ∧ ∃ req, sys.sender.request p source = some (a, req) := by
  rw [Sys.current] at h
  split at h
  · rename_i hcall hreq
    cases h
    exact ⟨hcall, _, hreq⟩
  · cases h

/-- The steps, one by one. In the system a step of the network is one of somebody else, or of a handler
    that serves a request. -/
inductive SysEffect (conf : Addr → Conf) (p : SenderParams) (source : Bytes) (sys : Sys) :
    SysLabel → Sys → Prop
  | openFile (hphase : sys.sender.phase = .start) :
      SysEffect conf p source sys .openFile { sys with sender := { sys.sender with phase := .opening } }
  | openFailed (e : ℤ) (hphase : sys.sender.phase = .start) :
      SysEffect conf p source sys (.openFailed e) { sys with sender := sys.sender.returnCreate e }
  | call (i : ℕ) (a : Addr) (req : Request) (net : Net) (hcall : sys.call = none)
      (hreq : sys.sender.request p source = some (a, req))
      (hoth : others conf sys.net a (.arrive i req) = some net) :
      SysEffect conf p source sys (.call i) { sys with net, call := some i }
  | retry (i : ℕ) (a : Addr) (req : Request) (net : Net) (hcall : sys.call ≠ none)
      (hreq : sys.sender.request p source = some (a, req))
      (hoth : others conf sys.net a (.arrive i req) = some net) :
      SysEffect conf p source sys (.retry i) { sys with net, call := some i }
  | serve (ans : Answer) (a : Addr) (i : ℕ) (net : Net) (hcur : sys.current p source = some (a, i))
      (hoth : others conf sys.net a (.resume i ans) = some net) :
      SysEffect conf p source sys (.serve ans) { sys with net }
  | reply (a : Addr) (i : ℕ) (r : Reply) (hcur : sys.current p source = some (a, i))
      (hr : (sys.net.servers a).handlers i = .finished r) :
      SysEffect conf p source sys .reply
        { sys with sender := sys.sender.receive (wireError r.error) r.fileToken, call := none }
  | lost (e : ℤ) (a : Addr) (req : Request) (hreq : sys.sender.request p source = some (a, req)) :
      SysEffect conf p source sys (.lost e) { sys with sender := sys.sender.receive e [], call := none }
  | next (f : FileSender) (hreq : sys.sender.request p source = none)
      (hnext : sys.sender.next p = some f) : SysEffect conf p source sys .next { sys with sender := f }
  | work (w : ℕ) (l : WorkerLabel) (net : Net) (f : FileSender) (hphase : sys.sender.phase = .sending)
      (hw : w < p.parallel) (hwork : workerStep p source conf sys.net sys.sender w l = some (net, f)) :
      SysEffect conf p source sys (.work w l) { sys with net, sender := f }
  | net (l : NetLabel) (net : Net) (hnet : netStep conf sys.net l = some net)
      (hreq : ∀ id a i req data, l ≠ .request id a i req data)
      (hcur : ∀ a l', l = .other a l' → sys.current p source ≠ some (a, l'.handler)) :
      SysEffect conf p source sys (.net l) { sys with net }

/-- CORRECT (inversion): every step of the system is one of the above. -/
theorem sysStep_effect {l : SysLabel} (h : sysStep p source conf sys l = some sys') :
    SysEffect conf p source sys l sys' := by
  cases l with
  | openFile | openFailed e =>
    rw [sysStep] at h
    split at h <;> cases h
    constructor
    assumption
  | call i =>
    rw [sysStep] at h
    split at h
    · rename_i hcall hreq
      obtain ⟨net, hoth, rfl⟩ := Option.map_eq_some_iff.mp h
      exact .call i _ _ net hcall hreq hoth
    · cases h
  | retry i =>
    rw [sysStep] at h
    split at h
    · rename_i hcall hreq
      obtain ⟨net, hoth, rfl⟩ := Option.map_eq_some_iff.mp h
      exact .retry i _ _ net (hcall ▸ Option.some_ne_none _) hreq hoth
    · cases h
  | serve ans =>
    rw [sysStep] at h
    split at h
    · rename_i a i hcur
      obtain ⟨net, hoth, rfl⟩ := Option.map_eq_some_iff.mp h
      exact .serve ans a i net hcur hoth
    · cases h
  | reply =>
    rw [sysStep] at h
    split at h
    · rename_i a i hcur
      split at h <;> cases h
      rename_i r hr
      exact .reply a i r hcur hr
    · cases h
  | lost e =>
    rw [sysStep] at h
    split at h <;> cases h
    rename_i hreq
    exact .lost e _ _ hreq
  | next =>
    rw [sysStep] at h
    split at h
    · cases h
    · rename_i hreq
      obtain ⟨f, hnext, rfl⟩ := Option.map_eq_some_iff.mp h
      exact .next f hreq hnext
  | work w l =>
    rw [sysStep] at h
    split at h
    · rename_i hw
      obtain ⟨⟨net, f⟩, hwork, rfl⟩ := Option.map_eq_some_iff.mp h
      exact .work w l net f hw.1 hw.2 hwork
    · cases h
  | net l =>
    cases l with
    | request => cases h
    | other a l' =>
      rw [sysStep] at h
      split at h
      · cases h
      · rename_i hcur
        obtain ⟨net, hnet, rfl⟩ := Option.map_eq_some_iff.mp h
        refine .net _ net hnet (fun _ _ _ _ _ heq => (by cases heq)) fun b l'' heq => ?_
        cases heq
        exact hcur
    | _ =>
      obtain ⟨net, hnet, rfl⟩ := Option.map_eq_some_iff.mp h
      exact .net _ net hnet (fun _ _ _ _ _ heq => (by cases heq)) fun _ _ heq => by cases heq

/-- A step of the system leaves the network as it is or is a step of the network. -/
theorem sysStep_netStep {l : SysLabel} (h : sysStep p source conf sys l = some sys') :
    sys'.net = sys.net ∨ ∃ l', netStep conf sys.net l' = some sys'.net ∧
      ((∃ a l'', l' = .other a l'') ∨ l = .net l' ∨ ∃ w i id req data, l = .work w (.request i) ∧
        l' = .request id (addrOf p 0) i req data) := by
  cases sysStep_effect h with
  | openFile | openFailed | reply | lost | next => exact .inl rfl
  | call _ a _ _ _ _ hoth | retry _ a _ _ _ _ hoth | serve _ a _ _ _ hoth =>
    exact .inr ⟨.other a _, hoth, .inl ⟨_, _, rfl⟩⟩
  | work w l net f _ _ hwork =>
    rcases workerStep_cases hwork with ⟨rfl, _⟩ | ⟨i, _, _, rfl, _, _, hnet⟩
    · exact .inl rfl
    · exact .inr ⟨_, hnet, .inr (.inr ⟨w, i, _, _, _, rfl, rfl⟩)⟩
  | net l net hnet => exact .inr ⟨l, hnet, .inr (.inl rfl)⟩

/-! ### Steps of the network -/

/-- While the workers send. -/
theorem Good.net_sending {T : Tables} {l : NetLabel} {net' : Net}
    (hup : Uploading conf p source T sys.net sys.sender)
    (hl : SysCalm conf p source sys (.net l)) (hnet : netStep conf sys.net l = some net')
    (hreq : ∀ id a i req data, l ≠ .request id a i req data) :
    Uploading conf p source T net' sys.sender := by
  have hsound := sound_netStep hnet hup.relays.static.sound
  refine hup.preserved ?_ hnet (fun id a i req data heq => absurd heq (hreq id a i req data)) ?_
  · cases l with
    | request id a i req data => exact absurd rfl (hreq id a i req data)
    | other a l' =>
      intro server token hstep ⟨k, hk, heq⟩
      cases heq
      have hsp := hl (addrOf_mem hk) server hstep
      refine (hup.opened k hk).fmap_spared (hup.relays.static.sound _) ?_ hsp
      exact (hup.relays.static.sound _).preserved hstep
    | proceed a i ans =>
      cases ans with
      | wrote n => exact hl
      | failed e => exact hl
      | _ => trivial
    | fail a k j e => exact hl
    | _ => trivial
  · intro a l' heq k hk
    subst heq
    exact assumed_spares hl hnet hk

/-- In the other phases only others take steps, and they spare the upload. -/
theorem Good.net_settled {a : Addr} {l : Label} {net' : Net} (h : Inv conf p source sys)
    (hphase : sys.sender.phase ≠ .sending) (hl : SysCalm conf p source sys (.net (.other a l)))
    (hoth : others conf sys.net a l = some net')
    (hcur : sys.current p source ≠ some (a, l.handler)) :
    Good conf p source { sys with net := net' } := by
  have hsp : ∀ k < p.targets.length, SparesUpload (conf (addrOf p k)) (openRequest p source)
      (sys.net.servers (addrOf p k)) (net'.servers (addrOf p k)) :=
    fun k hk => assumed_spares hl hoth hk
  have hsame : ∀ k j, sys.current p source = some (addrOf p k, j) →
      (net'.servers (addrOf p k)).handlers j = (sys.net.servers (addrOf p k)).handlers j := by
    intro k j hj
    by_cases hka : addrOf p k = a
    · subst hka
      refine handlers_step (others_step hoth) ?_
      rintro rfl
      exact hcur hj
    · obtain ⟨_, _, _, rfl⟩ := others_eq hoth
      simp only [update_of_ne hka]
  have hgood := h.good
  cases hp : sys.sender.phase with
  | start =>
    simp only [Good, hp] at hgood ⊢
    exact ⟨hgood.1.others hoth, hgood.2⟩
  | opening =>
    simp only [Good, hp] at hgood ⊢
    exact hgood.spared (hgood.unasked.others hoth) hsp hsame hp
  | linking i =>
    simp only [Good, hp] at hgood ⊢
    exact hgood.spared (hgood.unasked.others hoth) hsp hsame hp
  | sending => exact absurd hp hphase
  | closing i firstError =>
    simp only [Good, hp] at hgood ⊢
    intro hc hs he
    have hclosing := hgood hc hs he
    exact hclosing.spared (hclosing.settled.others hoth) hsp hsame hp
  | closed =>
    simp only [Good, hp] at hgood ⊢
    intro hc hs he
    obtain ⟨hset, hsealed⟩ := hgood hc hs he
    exact ⟨hset.others hoth, fun k hk => (hsealed k hk).spared (hsp k hk)⟩

/-- Outside `send_file` no request is being served, unless the upload has failed. -/
theorem Good.net_own {l : NetLabel} {net' : Net} (h : Inv conf p source sys)
    (hphase : sys.sender.phase ≠ .sending) (hnet : netStep conf sys.net l = some net')
    (hreq : ∀ id a i req data, l ≠ .request id a i req data) (hoth : ∀ a l', l ≠ .other a l') :
    Good conf p source { sys with net := net' } := by
  have hno : ¬ Settled sys.net := by
    intro hset
    obtain ⟨a, l', heq⟩ := hset.netStep hnet hreq
    exact hoth a l' heq
  have hgood := h.good
  cases hp : sys.sender.phase with
  | start =>
    simp only [Good, hp] at hgood
    exact absurd hgood.1.settled hno
  | opening =>
    simp only [Good, hp] at hgood
    exact absurd hgood.unasked.settled hno
  | linking i =>
    simp only [Good, hp] at hgood
    exact absurd hgood.unasked.settled hno
  | sending => exact absurd hp hphase
  | closing i firstError =>
    simp only [Good, hp] at hgood ⊢
    exact fun hc hs he => absurd (hgood hc hs he).settled hno
  | closed =>
    simp only [Good, hp] at hgood ⊢
    exact fun hc hs he => absurd (hgood hc hs he).1 hno

/-! ### Steps of the system -/

/-- CORRECT (one step of the system): whatever step is taken, and by whom, what the sender has set up
    stays. -/
theorem Inv.preserved (h : Inv conf p source sys) (hd : p.targets.Nodup) (hwait : p.waitClose = true)
    (hpar : 1 ≤ p.parallel) (hsource : source.length < 2 ^ 63) {l : SysLabel}
    (hl : SysCalm conf p source sys l) (hstep : sysStep p source conf sys l = some sys') :
    Inv conf p source sys' := by
  refine ⟨?_, ?_⟩
  · rcases sysStep_netStep hstep with heq | ⟨l', hnet, _⟩
    · rw [heq]
      exact h.sound
    · exact sound_netStep hnet h.sound
  have hgood := h.good
  cases sysStep_effect hstep with
  | openFile hphase =>
    simp only [Good, hphase] at hgood ⊢
    obtain ⟨hu, htok, hcall⟩ := hgood
    refine ⟨hu, by simp only [htok, List.length_nil, Nat.zero_le], fun k hk => ?_, fun j hj => ?_⟩
    · simp only [htok, List.length_nil, Nat.not_lt_zero] at hk
    · simp only [hcall, reduceCtorEq] at hj
  | openFailed e => exact Good.failed hl
  | call i a req net' hcall hreq hoth => exact Good.call h hd hwait hcall hreq hoth
  | retry => cases hl
  | serve ans a i net' hcur hoth => exact Good.serve h hd hsource hcur hl hoth
  | reply a i r hcur hr =>
    obtain ⟨hcall, req, hreq⟩ := current_eq hcur
    exact Good.receive h hreq fun hzero => ⟨i, r, hcall, hr, hzero, rfl⟩
  | lost e a req hreq => exact Good.receive h hreq fun hzero => absurd hzero hl
  | next f hreq hnext => exact Good.next h hsource hpar hl hreq hnext
  | work w l net' f' hphase hw hwork =>
    simp only [Good, hphase] at hgood
    obtain ⟨hcall, hpos, T, hup⟩ := hgood
    have hphase' : f'.phase = .sending := by
      rcases workerStep_cases hwork with ⟨_, _, _, _, rfl⟩ | ⟨_, _, _, _, _, rfl, _⟩ <;> exact hphase
    simp only [Good, hphase']
    exact ⟨hcall, hpos, T, hup.work hsource hpos hw hl hwork⟩
  | net l net' hnet hreq hcur =>
    by_cases hphase : sys.sender.phase = .sending
    · simp only [Good, hphase] at hgood ⊢
      obtain ⟨hcall, hpos, T, hup⟩ := hgood
      exact ⟨hcall, hpos, T, Good.net_sending hup hl hnet hreq⟩
    · by_cases hoth : ∃ a l', l = .other a l'
      · obtain ⟨a, l', rfl⟩ := hoth
        exact Good.net_settled h hphase hl hnet (hcur a l' rfl)
      · rw [not_exists] at hoth
        exact Good.net_own h hphase hnet hreq fun a l' heq => hoth a ⟨l', heq⟩

/-- The sender is closed when `close_file` has returned, and only then. -/
def Unclosed (f : FileSender) : Prop := f.phase ≠ .closed → f.closeResult = none

theorem Unclosed.returnCreate {f : FileSender} (h : f.closeResult = none) (e : ℤ) :
    Unclosed (f.returnCreate e) := by
  intro _
  rw [FileSender.returnCreate]
  split <;> exact h

theorem Unclosed.receive {f : FileSender} (h : Unclosed f) (e : ℤ) (token : Bytes) :
    Unclosed (f.receive e token) := by
  rw [FileSender.receive]
  split
  · rename_i hphase
    have hnone := h (by rw [hphase]; simp)
    split
    · exact .returnCreate hnone e
    · exact fun _ => hnone
  · rename_i i hphase
    have hnone := h (by rw [hphase]; simp)
    split
    · exact .returnCreate hnone e
    · exact fun _ => hnone
  · rename_i i firstError hphase
    exact fun _ => h (by rw [hphase]; simp)
  · exact h

theorem Unclosed.next {f f' : FileSender} (h : Unclosed f) (hnext : f.next p = some f') :
    Unclosed f' := by
  rw [FileSender.next] at hnext
  split at hnext
  · rename_i hphase
    have hnone := h (by rw [hphase]; simp)
    split at hnext <;> cases hnext
    · exact .returnCreate hnone _
    · exact fun _ => hnone
  · rename_i hphase
    cases hnext
    exact .returnCreate (h (by rw [hphase]; simp)) 0
  · rename_i hphase
    split at hnext <;> cases hnext
    exact fun _ => h (by rw [hphase]; simp)
  · rename_i hphase
    split at hnext <;> cases hnext
    · exact fun _ => h (by rw [hphase]; simp)
    · exact fun hne => absurd rfl hne
  · cases hnext

theorem Unclosed.preserved (h : Unclosed sys.sender) {l : SysLabel}
    (hstep : sysStep p source conf sys l = some sys') : Unclosed sys'.sender := by
  cases sysStep_effect hstep with
  | openFile hphase => exact fun _ => h (by rw [hphase]; simp)
  | openFailed e hphase => exact .returnCreate (h (by rw [hphase]; simp)) e
  | reply => exact h.receive _ _
  | lost e => exact h.receive e []
  | next f _ hnext => exact h.next hnext
  | work w l net f _ _ hwork =>
    rcases workerStep_cases hwork with ⟨_, _, _, _, rfl⟩ | ⟨_, _, _, _, _, rfl, _⟩ <;> exact h
  | _ => exact h

/-! ### Runs -/

/-- Before an upload: the servers have run since they were started, the sender has done nothing. -/
structure SysInitial (conf : Addr → Conf) (sys : Sys) : Prop where
  quiet : Quiet conf sys.net
  sender : sys.sender = {}
  call : sys.call = none

theorem SysInitial.inv (h : SysInitial conf sys) : Inv conf p source sys where
  sound := h.quiet.sound
  good := by
    simp only [Good, h.sender]
    exact ⟨⟨h.quiet.served, h.quiet.log⟩, trivial, h.call⟩

/-- CORRECT (the end): when `create_file`, `send_file` and `close_file` have all returned 0, the file that
    each target has opened for the upload holds exactly the source. -/
theorem Inv.delivers (h : Inv conf p source sys) (hu : Unclosed sys.sender)
    (hcreate : sys.sender.createResult = some 0) (hsend : sys.sender.sendResult = some 0)
    (hclose : sys.sender.closeResult = some 0) : Settled sys.net ∧ ∀ a ∈ p.targets, ∃ call,
      handleCreateFile (conf a) (openRequest p source) = .createOpen call ∧
        (sys.net.servers a).store.os.files (fileOf call.path) = some source := by
  have hphase : sys.sender.phase = .closed := by
    by_contra hne
    rw [hu hne] at hclose
    cases hclose
  have hgood := h.good
  simp only [Good, hphase] at hgood
  obtain ⟨hsettled, hall⟩ := hgood hcreate hsend hclose
  refine ⟨hsettled, fun a ha => ?_⟩
  obtain ⟨k, hk, rfl⟩ := List.getElem_of_mem ha
  have hsealed := hall k hk
  rw [SealedAt, addrOf, List.getElem?_eq_getElem hk] at hsealed
  exact hsealed

/-! ### An upload to two servers -/

def sampleUpload : SenderParams where
  chunkSize := 8192
  remoteFileName := text "f"
  parallel := 1
  targets := [(text "a", 1), (text "b", 1)]

def sampleSys : Sys := ⟨⟨fun _ => sampleServer, fun _ _ => none, fun _ => []⟩, {}, none⟩

theorem sampleSys_initial : SysInitial (fun _ => sampleConf) sampleSys where
  quiet := ⟨fun _ => ⟨sampleServer, [], sampleServer_initial, .nil _⟩, fun _ _ => rfl, fun _ => rfl⟩
  sender := rfl
  call := rfl

end Fcopy
