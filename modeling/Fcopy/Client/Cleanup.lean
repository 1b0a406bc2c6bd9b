import Fcopy.Client.Tenure

/-! What an upload leaves behind (`upload_file`, `create_file` and `close_file` of `FileSender`).

    At each target the entry of the upload's token is followed through the requests of the sender:

        Intact ──create──▶ Acquired ──link, chunks──▶ Acquired ──close──▶ Intact
           └──error──▶ Intact

    Only a CREATE whose reply is lost leaves a session that the sender knows no token of. -/

namespace Fcopy
open Function Run

section
variable (c : Conf) (req : CreateFileReq) (T : Bytes → Option FileInfo)

/-- The entry of the session that `req` opens is as in `T`. -/
def Intact (s : Server) : Prop :=
  ∀ call, handleCreateFile c req = .createOpen call → s.store.fmap call.token = T call.token

/-- `token` is that of the session `req` has opened, which was not in `T`; or it is bad. -/
def Acquired (token : Bytes) (s : Server) : Prop :=
  BadToken token ∧ Intact c req T s ∨
    ∃ call, handleCreateFile c req = .createOpen call ∧ token = call.token ∧ T call.token = none

/-- The handler works on `req`. -/
inductive Acquiring (s : Server) : Handler → Prop
  | running (h : Handler) (call : CreateCall) (hopen : handleCreateFile c req = .createOpen call)
      (hc : h.call = some call) (hi : Intact c req T s) : Acquiring s h
  | finished (r : Reply) (hzero : wireError r.error = 0 → Acquired c req T r.fileToken s)
      (hne : wireError r.error ≠ 0 → Intact c req T s) : Acquiring s (.finished r)

/-- The handler closes the session with `token`. -/
inductive Releasing (token : Bytes) (s : Server) : Handler → Prop
  | erase (h : Acquired c req T token s) : Releasing token s (.closeErase token none)
  | truncate (info : FileInfo) (h : Intact c req T s) : Releasing token s (.closeTruncate info none)
  | close (info : FileInfo) (h : Intact c req T s) : Releasing token s (.closeFd info none)
  | finished (r : Reply) (h : Intact c req T s) : Releasing token s (.finished r)

/-- The step leaves the entry as it is. -/
def LeavesEntry (s s' : Server) : Prop :=
  ∀ call, handleCreateFile c req = .createOpen call →
    s'.store.fmap call.token = s.store.fmap call.token

end

variable {c : Conf} {req : CreateFileReq} {T : Bytes → Option FileInfo} {s s' : Server} {i : ℕ}
  {token : Bytes}

/-! ### What others leave -/

theorem LeavesEntry.of_fmap (h : s'.store.fmap = s.store.fmap) : LeavesEntry c req s s' :=
  fun _ _ => by rw [h]

theorem Intact.left (h : Intact c req T s) (hl : LeavesEntry c req s s') : Intact c req T s' :=
  fun call hopen => (hl call hopen).trans (h call hopen)

theorem Acquired.left (h : Acquired c req T token s) (hl : LeavesEntry c req s s') :
    Acquired c req T token s' := by
  rcases h with ⟨hbad, hi⟩ | h
  · exact .inl ⟨hbad, hi.left hl⟩
  · exact .inr h

theorem Acquiring.left {h : Handler} (ha : Acquiring c req T s h) (hl : LeavesEntry c req s s') :
    Acquiring c req T s' h := by
  cases ha with
  | running _ call hopen hc hi => exact .running h call hopen hc (hi.left hl)
  | finished r hzero hne => exact .finished r (fun h => (hzero h).left hl) fun h => (hne h).left hl

theorem Releasing.left {h : Handler} (hr : Releasing c req T token s h) (hl : LeavesEntry c req s s') :
    Releasing c req T token s' h := by
  cases hr with
  | erase h => exact .erase (h.left hl)
  | truncate info h => exact .truncate info (h.left hl)
  | close info h => exact .close info (h.left hl)
  | finished r h => exact .finished r (h.left hl)

theorem Acquired.token_ne_nil (h : Acquired c req T token s) : token ≠ [] := by
  rcases h with ⟨hbad, _⟩ | ⟨call, hopen, rfl, _⟩
  · exact List.ne_nil_of_mem hbad.head
  · obtain ⟨_, _, _, hc⟩ := handleCreateFile_call
      (show (handleCreateFile c req).call = some call by rw [hopen]; rfl)
    rw [(createFile_ok hc).2.2]
    exact fun h0 => Nat.toDigits_ne_nil (List.map_eq_nil_iff.mp h0)

theorem Acquiring.apart {h : Handler} (ha : Acquiring c req T s h) : h.Apart := by
  cases ha with
  | running _ call hopen hc hi =>
    refine ⟨fun hidle => ?_, fun x hx => ?_⟩
    · rw [hidle] at hc
      cases hc
    · rw [hx] at hc
      cases hc
  | finished r hzero hne => exact ⟨by simp, by simp⟩

theorem Releasing.apart {h : Handler} (hr : Releasing c req T token s h) : h.Apart := by
  cases hr <;> exact ⟨by simp, by simp⟩

/-! ### Create -/

theorem acquiring_arrive (hi : Intact c req T s)
    (h : step c s (.arrive i (.create req)) = some s') : Acquiring c req T s' (s'.handlers i) := by
  rcases step_cases h with ⟨j, _, hl, _, rfl⟩ | ⟨_, _, _, _, hl, _⟩ <;> cases hl
  simp only [update_self, accept]
  rcases handleCreateFile_cases c req with ⟨call, hopen⟩ | ⟨r, hr, hne⟩
  · rw [hopen]
    exact .running _ call hopen rfl hi
  · rw [hr]
    exact .finished r (fun hzero => absurd hzero hne) fun _ => hi

/-- CORRECT (one piece of a create): an error leaves the table as it was. -/
theorem acquiring_resume {a : Answer} (ha : Acquiring c req T s (s.handlers i))
    (h : step c s (.resume i a) = some s') : Acquiring c req T s' (s'.handlers i) := by
  rcases step_cases h with ⟨_, _, hl, _⟩ | ⟨j, _, st', h', hl, heff, rfl⟩ <;> cases hl
  simp only [update_self]
  -- an error, whether or not it fits the header, has changed nothing
  have hbad : ∀ {e : ℕ} {type : String} {s : Server}, Intact c req T s →
      Acquiring c req T s (.finished (returnError e type)) :=
    fun hi => .finished _ (fun _ => .inl ⟨⟨_, _, rfl⟩, hi⟩) fun _ => hi
  generalize s.handlers i = hd at ha heff
  cases ha with
  | finished r hzero hne => cases heff
  | running _ call hopen hcall hi =>
    cases heff <;> simp only [Handler.call, reduceCtorEq, Option.some.injEq] at hcall <;> subst hcall
    case opened => exact .running _ _ hopen rfl hi
    case truncated => exact .running _ _ hopen rfl hi
    case inserted call fd desc hnew =>
      refine .finished _ (fun _ => .inr ⟨call, hopen, rfl, ?_⟩) fun hne => absurd rfl hne
      rw [← hi call hopen, hnew]
    all_goals exact hbad hi

/-! ### Link -/

theorem relinking_arrive {targets : List ChainTarget} (hs : Sound c s) (ha : Acquired c req T token s)
    (h : step c s (.arrive i (.setChain ⟨token, targets⟩)) = some s') : Acquired c req T token s' := by
  rcases step_cases h with ⟨j, _, hl, _, rfl⟩ | ⟨_, _, _, _, hl, _⟩ <;> cases hl
  simp only [accept]
  rcases ha with ⟨hbad, hi⟩ | hown
  · refine .inl ⟨hbad, hi.left (.of_fmap ?_)⟩
    simp only [Store.setChainTargets, hbad.no_session hs]
  · exact .inr hown

/-! ### Close -/

theorem releasing_arrive {wait : BitVec 8} (hwait : wait ≠ 0) (ha : Acquired c req T token s)
    (h : step c s (.arrive i (.close ⟨wait, token⟩)) = some s') :
    Releasing c req T token s' (s'.handlers i) := by
  rcases step_cases h with ⟨j, _, hl, _, rfl⟩ | ⟨_, _, _, _, hl, _⟩ <;> cases hl
  simp only [update_self, accept, handleCloseFile, if_pos hwait]
  exact .erase ha

/-- CORRECT (one piece of a close): the entry goes before the file is resized and closed. -/
theorem releasing_resume {a : Answer} (hs : Sound c s) (hr : Releasing c req T token s (s.handlers i))
    (h : step c s (.resume i a) = some s') : Releasing c req T token s' (s'.handlers i) := by
  rcases step_cases h with ⟨_, _, hl, _⟩ | ⟨j, _, st', h', hl, heff, rfl⟩ <;> cases hl
  simp only [update_self]
  generalize s.handlers i = hd at hr heff
  cases hr with
  | finished r hi => cases heff
  | erase ha =>
    cases heff with
    | notFound _ _ hf =>
      refine .finished _ ?_
      rcases ha with ⟨_, hi⟩ | ⟨call, hopen, rfl, hT⟩
      · exact hi
      · intro call' hopen'
        cases hopen.symm.trans hopen'
        rw [hT]
        exact hf
    | erased _ _ info hf =>
      refine .truncate info ?_
      rcases ha with ⟨hbad, _⟩ | ⟨call, hopen, rfl, hT⟩
      · rw [hbad.no_session hs] at hf
        cases hf
      · intro call' hopen'
        cases hopen.symm.trans hopen'
        rw [hT]
        exact update_self ..
  | truncate info hi =>
    cases heff with
    | resized => exact .close info hi
    | resizeFailed => exact .close info hi
  | close info hi =>
    cases heff with
    | closed => exact .finished _ hi

/-- The entry of the session that `req` opens, which is `T`'s before and after. -/
def entryTenure (c : Conf) (req : CreateFileReq) (T : Bytes → Option FileInfo) : Tenure True c req where
  clear := Intact c req T
  held := Acquired c req T
  creating := Acquiring c req T
  closing := Releasing c req T
  leaves := LeavesEntry c req
  leaves_quiet hfmap _ := .of_fmap hfmap
  clear_left := Intact.left
  held_left := Acquired.left
  creating_left := Acquiring.left
  closing_left := Releasing.left
  creating_apart := Acquiring.apart
  closing_apart := Releasing.apart
  token_ne_nil _ := Acquired.token_ne_nil
  create_arrive := acquiring_arrive
  create_resume _ := acquiring_resume
  created
    | .finished _ hzero _, h => hzero h
  refused
    | _, .finished _ _ hne, h => hne h
  link_arrive hs ha h := relinking_arrive hs ha h
  close_arrive := releasing_arrive
  close_resume := releasing_resume
  closed
    | .finished _ hi, _ => hi

/-! ### All targets -/

variable {conf : Addr → Conf} {p : SenderParams} {source : Bytes} {sys sys' : Sys}

def entryAt (T : Tables) (conf : Addr → Conf) (p : SenderParams) (source : Bytes) (k : ℕ) :
    Tenure True (conf (addrOf p k)) (openRequest p source) :=
  entryTenure _ _ (T (addrOf p k))

/-- Nobody else touches the entries of the upload; a request is delivered once, and one that gets lost is
    an error and no CREATE on its way back. -/
def Unshared (conf : Addr → Conf) (p : SenderParams) (source : Bytes) (sys : Sys) : SysLabel → Prop
  | .retry _ => False
  | .lost e => e ≠ 0 ∧ (sys.sender.phase = .opening → sys.call = none)
  | .net (.other a l) => a ∈ p.targets → ∀ server, step (conf a) (sys.net.servers a) l = some server →
    LeavesEntry (conf a) (openRequest p source) (sys.net.servers a) server
  | _ => True

theorem Unshared.alone (T : Tables) {l : SysLabel} (hl : Unshared conf p source sys l) :
    Alone (entryAt T conf p source) sys l := by
  cases l with
  | retry => cases hl
  | lost e => exact ⟨hl.1, fun _ => hl.2⟩
  | net l =>
    cases l with
    | other a l =>
      rintro k hk rfl
      exact hl (addrOf_mem hk)
    | _ => trivial
  | _ => trivial

/-! ### Runs -/

/-- CORRECT (cleanup): when `close_file` has returned 0, no target keeps anything of the upload in its
    session table, whether or not `create_file` and `send_file` have succeeded. -/
theorem upload_leaves_table (conf : Addr → Conf) (p : SenderParams) (source : Bytes) (sys sys' : Sys)
    (ls : List SysLabel) (hwait : p.waitClose = true) (hd : p.targets.Nodup)
    (hstart : SysInitial conf sys) (hrun : SysRuns conf p source sys ls sys')
    (hass : EveryStep (ofStep (sysStep p source conf)) (Unshared conf p source) sys ls)
    (hclose : sys'.sender.closeResult = some 0) (a : Addr) (ha : a ∈ p.targets) (call : CreateCall)
    (hopen : handleCreateFile (conf a) (openRequest p source) = .createOpen call) :
    (sys'.net.servers a).store.fmap call.token = (sys.net.servers a).store.fmap call.token := by
  obtain ⟨hend, hunclosed⟩ := hrun.guarded
    (P := fun t => Keeping (entryAt sys.net.tables conf p source) t ∧ Unclosed t.sender)
    (fun _ _ _ ⟨h, hu⟩ hl hstep => ⟨h.preserved hd hwait (hl.alone _) hstep, hu.preserved hstep⟩)
    hass ⟨hstart.keeping fun _ _ _ _ => rfl, by rw [hstart.sender]; exact fun _ => rfl⟩
  obtain ⟨k, hk, rfl⟩ := List.getElem_of_mem ha
  have hintact : Intact (conf (addrOf p k)) (openRequest p source) (sys.net.tables (addrOf p k))
      (sys'.net.servers (addrOf p k)) := hend.closed hunclosed (.inl trivial) hclose k hk
  rw [addrOf, List.getElem?_eq_getElem hk] at hintact
  exact hintact call hopen

/-- Create at both targets, the second of which has no room, and close. -/
def refusedLabels : List SysLabel :=
  [.openFile, .call 0, .serve (.opened 3 0), .serve .done, .serve .done, .reply,
    .call 0, .serve (.failed 28), .reply,
    .call 2, .serve .done, .serve .done, .serve .done, .reply, .next]

/-- Steps that nobody else takes, where nothing gets lost or is delivered again. -/
def aloneCheck (_ : Sys) : SysLabel → Bool
  | .retry _ | .lost _ | .net (.other ..) => false
  | _ => true

theorem unshared_of_check {l : SysLabel} (hl : aloneCheck sys l = true) : Unshared conf p source sys l := by
  cases l with
  | retry | lost => cases hl
  | net l =>
    cases l with
    | other => cases hl
    | _ => trivial
  | _ => trivial

/-- The create at the second target has failed, and the session at the first is gone. -/
theorem upload_leaves_table_refused : ∃ sys' : Sys, sys'.sender.createResult ≠ some 0 ∧
    ∀ a ∈ sampleUpload.targets, ∀ call,
      handleCreateFile sampleConf (openRequest sampleUpload (text "hi")) = .createOpen call →
        (sys'.net.servers a).store.fmap call.token = (sampleSys.net.servers a).store.fmap call.token := by
  have hcheck : (execIf (sysStep sampleUpload (text "hi") fun _ => sampleConf) aloneCheck
      sampleSys refusedLabels).any (fun sys => sys.sender.createResult ≠ some 0 ∧
        sys.sender.closeResult = some 0) = true := by
    decide +kernel
  obtain ⟨sys', hexec, hend⟩ := (Option.any_eq_true _ _).mp hcheck
  obtain ⟨hcreate, hclose⟩ := of_decide_eq_true hend
  obtain ⟨hrun, hass⟩ := of_execIf
    (G := Unshared (fun _ => sampleConf) sampleUpload (text "hi")) (I := fun _ => True)
    (fun _ _ _ hl => unshared_of_check hl) (fun _ _ _ _ _ _ => trivial) trivial hexec
  exact ⟨sys', hcreate, upload_leaves_table (fun _ => sampleConf) sampleUpload (text "hi") sampleSys sys'
    refusedLabels rfl (by decide) sampleSys_initial hrun hass hclose⟩

/-- A create whose reply is lost leaves its session: there is no token to close it with. -/
example : (exec (sysStep sampleUpload (text "hi") fun _ => sampleConf) sampleSys
    [.openFile, .call 0, .serve (.opened 3 0), .serve .done, .serve .done, .lost 110, .next]).any
      (fun sys => sys.sender.closeResult = some 0 ∧
        (sys.net.servers (text "a", 1)).store.hasFile (text "4")) = true := by
  decide +kernel

end Fcopy
