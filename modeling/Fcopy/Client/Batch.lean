import Fcopy.Client.Strangers

/-! A whole command (the loop of `main` in `client/fcopy_cli.cpp`, with the servers).

    The files are uploaded one after the other, up to the first upload that fails. The servers serve
    others too, during the uploads and in between:

        waiting f₂ f₃, f₁ ──upload_file = 0──▶ waiting f₃, f₂ ──upload_file ≠ 0──▶ nothing waits
                                               done f₁                             done f₁

    What is done stays done. Nobody has the file of a finished upload open or is about to open it, so
    nothing that a later upload leaves behind reaches it, be it a write that is still under way. -/

namespace Fcopy
open Function Run

structure Upload where
  params : SenderParams
  source : Bytes

/-- `upload_file` returns the error of `create_file` or `send_file`, else that of `close_file`. -/
def FileSender.uploadResult (f : FileSender) : Option ℤ := do
  let closeError ← f.closeResult
  let createError ← f.createResult
  if createError ≠ 0 then return createError
  let sendError ← f.sendResult
  return if sendError = 0 then closeError else sendError

/-- Requests of an upload that is over are somebody else's to the next. -/
def Net.restart (net : Net) : Net := ⟨net.servers, fun _ _ => none, fun _ => []⟩

/-- The loop: the upload it is at, those it has not come to, and those that have returned 0. -/
structure Batch where
  sys : Sys
  current : Option Upload
  waiting : List Upload
  done : List Upload

inductive BatchLabel where
  | begin
  | upload (l : SysLabel)
  | finish
  | other (a : Addr) (l : Label)
  deriving DecidableEq

def batchStep (conf : Addr → Conf) (b : Batch) : BatchLabel → Option Batch
  | .begin =>
    match b.current, b.waiting with
    | none, u :: us => some { b with
        sys := ⟨b.sys.net.restart, {}, none⟩, current := some u, waiting := us }
    | _, _ => none
  | .upload l =>
    match b.current with
    | some u => (sysStep u.params u.source conf b.sys l).map fun sys => { b with sys }
    | none => none
  | .finish =>
    match b.current, b.sys.sender.uploadResult with
    | some u, some error =>
      if error ≠ 0 then some { b with current := none, waiting := [] }
      else some { b with current := none, done := b.done ++ [u] }
    | _, _ => none
  | .other a l =>
    match b.current with
    | none => (others conf b.sys.net.restart a l).map fun net => { b with sys := { b.sys with net } }
    | some _ => none

abbrev BatchRuns (conf : Addr → Conf) : Batch → List BatchLabel → Batch → Prop :=
  Steps (ofStep (batchStep conf))

section
variable (conf : Addr → Conf) (uploads : List Upload)

/-- Where the upload is stored at `a`, if its create is accepted. -/
def Upload.file (u : Upload) (a : Addr) : Option (List Bytes) :=
  (Request.create (openRequest u.params u.source)).file (conf a)

/-- What a single upload asks of its parameters. -/
structure Upload.Fits (u : Upload) : Prop where
  source : u.source.length < 2 ^ 63
  parallel : 1 ≤ u.params.parallel
  wait : u.params.waitClose = true
  targets : u.params.targets.Nodup

/-- The uploads do not meet in a file. -/
def Upload.Apart (u v : Upload) : Prop :=
  ∀ a ∈ u.params.targets, ∀ file, u.file conf a = some file → v.file conf a ≠ some file

/-- Nobody else creates a file of the command or makes a request with a token of it. -/
def Spared (a : Addr) (l : Label) : Prop :=
  ∀ u ∈ uploads, a ∈ u.params.targets → ∀ call,
    handleCreateFile (conf a) (openRequest u.params u.source) = .createOpen call → ∀ i req,
      l = .arrive i req → req.file (conf a) ≠ some (fileOf call.path) ∧ req.token ≠ some call.token

/-- Each upload runs as a single one is assumed to, and is not taken for another; nobody else asks for a
    file of the command. -/
def BatchAssumed (b : Batch) : BatchLabel → Prop
  | .upload l => (∀ u, b.current = some u → SysAssumed conf u.params u.source b.sys l ∧
      Unmistaken conf u.params u.source b.sys l) ∧
    ∀ a l', l = .net (.other a l') → Spared conf uploads a l'
  | .other a l => Spared conf uploads a l
  | _ => True

/-- Before the command: the servers have run since they were started, and nobody has a file of the
    command open or is about to open it or to close its session. -/
structure BatchInitial (b : Batch) : Prop where
  reached : ∀ a, ∃ s ls, Initial s ∧ Runs (conf a) s ls (b.sys.net.servers a)
  unvisited : ∀ u ∈ uploads, Unvisited conf u.params u.source b.sys.net
  current : b.current = none
  waiting : b.waiting = uploads
  done : b.done = []

def fileAt (p : SenderParams) (source : Bytes) (k : ℕ) :
    Tenure False (conf (addrOf p k)) (openRequest p source) :=
  fileTenure _ _

/-- The upload is stored at all its targets, and nobody has the file open or is about to open it. -/
def Stored (u : Upload) (net : Net) : Prop :=
  ∀ a ∈ u.params.targets, ∃ file, u.file conf a = some file ∧ Deserted file (net.servers a) ∧
    (net.servers a).store.os.files file = some u.source

/-- Only those in `own` are at work for the upload. -/
def Awaited (u : Upload) (own : Addr → ℕ → Prop) (net : Net) : Prop :=
  ∀ a ∈ u.params.targets, ∀ call,
    handleCreateFile (conf a) (openRequest u.params u.source) = .createOpen call →
      Unused call (own a) (net.servers a)

/-- The upload that is under way, with those that wait for it. -/
structure Current (u : Upload) (waiting : List Upload) (sys : Sys) : Prop where
  delivering : Delivering conf u.params u.source sys
  kept : Doomed sys.sender ∨ Keeping (fileAt conf u.params u.source) sys ∧
    ∀ w ∈ waiting, Awaited conf w (sys.Mine u.params u.source) sys.net

structure BatchInv (b : Batch) : Prop where
  reached : ∀ a, ∃ s ls, Initial s ∧ Runs (conf a) s ls (b.sys.net.servers a)
  order : b.done ++ (b.current.toList ++ b.waiting) <+: uploads
  done : ∀ u ∈ b.done, Stored conf u b.sys.net
  current : ∀ u, b.current = some u → Current conf u b.waiting b.sys
  waiting : b.current = none → ∀ w ∈ b.waiting, Awaited conf w (fun _ _ => False) b.sys.net

end

variable {conf : Addr → Conf} {uploads waiting : List Upload} {u v w : Upload} {p : SenderParams}
  {source : Bytes} {sys sys' : Sys} {net net' : Net} {b b' : Batch}

theorem Upload.file_eq {a : Addr} {file : List Bytes} : u.file conf a = some file ↔
    ∃ call, handleCreateFile (conf a) (openRequest u.params u.source) = .createOpen call ∧
      fileOf call.path = file := by
  rw [Upload.file, Request.file]
  constructor
  · intro h
    split at h
    · rename_i call hopen
      exact ⟨call, hopen, Option.some.inj h⟩
    · cases h
  · rintro ⟨call, hopen, rfl⟩
    rw [hopen]

/-! ### Files of other uploads -/

/-- A sender asks for its own file. -/
theorem request_file {a : Addr} {req : Request} (h : sys.sender.request p source = some (a, req))
    {file : List Bytes} (hfile : req.file (conf a) = some file) :
    a ∈ p.targets ∧ (Request.create (openRequest p source)).file (conf a) = some file := by
  rcases FileSender.request_cases h with ⟨_, hlt, rfl, rfl⟩ | ⟨_, _, _, _, rfl⟩ | ⟨_, _, _, _, _, _, rfl⟩
  · exact ⟨addrOf_mem hlt, hfile⟩
  · cases hfile
  · cases hfile

/-- CORRECT (one step of an upload): another file that nobody touches stays as it is. -/
theorem Deserted.sysStep {a : Addr} {file : List Bytes} (h : Deserted file (sys.net.servers a))
    (hf : Followed sys.net) {l : SysLabel} (hstep : sysStep p source conf sys l = some sys')
    (hown : a ∈ p.targets → (Request.create (openRequest p source)).file (conf a) ≠ some file)
    (hoth : ∀ i req, l = .net (.other a (.arrive i req)) → req.file (conf a) ≠ some file) :
    Deserted file (sys'.net.servers a) ∧
      (sys'.net.servers a).store.os.files file = (sys.net.servers a).store.os.files file := by
  rcases sysStep_server hf hstep a with heq | ⟨l', hserver, hcases⟩
  · rw [heq]
    exact ⟨h, rfl⟩
  refine h.preserved (fun i req harrive hfile => ?_) hserver
  subst harrive
  rcases hcases with ⟨_, _, heq, hreq, _⟩ | ⟨_, _, heq, _⟩ | ⟨hsend, _⟩ | ⟨rfl, _⟩
  · cases heq
    obtain ⟨ha, hmine⟩ := request_file hreq hfile
    exact hown ha hmine
  · cases heq
  · rcases hsend with ⟨_, _, _, heq⟩ | ⟨_, _, heq, _⟩ <;> cases heq
    cases hfile
  · exact hoth i req rfl hfile

/-- CORRECT (one step of an upload): those that wait for it are still awaited. -/
theorem Awaited.sysStep (h : Awaited conf w (sys.Mine p source) sys.net) (hf : Followed sys.net)
    (hands : Hands p source sys sys') {l : SysLabel} (hstep : sysStep p source conf sys l = some sys')
    (hown : ∀ a ∈ w.params.targets, a ∈ p.targets → ∀ file, w.file conf a = some file →
      (Request.create (openRequest p source)).file (conf a) ≠ some file)
    (hoth : ∀ a ∈ w.params.targets, ∀ call,
      handleCreateFile (conf a) (openRequest w.params w.source) = .createOpen call → ∀ i req,
        l = .net (.other a (.arrive i req)) →
          req.file (conf a) ≠ some (fileOf call.path) ∧ req.token ≠ some call.token) :
    Awaited conf w (sys'.Mine p source) sys'.net := by
  intro a ha call hopen
  have hregard : Unused call (sys'.Mine p source a) (sys.net.servers a) :=
    (h a ha call hopen).regard fun i hi => (hands.kept a i hi).resolve_left
  rcases sysStep_server hf hstep a with heq | ⟨l', hserver, hcases⟩
  · rw [heq]
    exact hregard
  refine hregard.preserved (fun i req harrive => ?_) hserver
  subst harrive
  rcases hcases with ⟨_, _, heq, hreq, hcur⟩ | ⟨_, _, heq, _⟩ | ⟨hsend, hserved⟩ | ⟨rfl, _⟩
  · cases heq
    refine ⟨fun hfile => ?_, fun hno => absurd (.inl hcur) hno⟩
    obtain ⟨hap, hmine⟩ := request_file hreq hfile
    exact hown a ha hap _ (Upload.file_eq.mpr ⟨call, hopen, rfl⟩) hmine
  · cases heq
  · rcases hsend with ⟨_, _, _, heq⟩ | ⟨_, _, heq, _⟩ <;> cases heq
    exact ⟨fun hfile => (by cases hfile), fun hno => absurd (.inr hserved) hno⟩
  · exact (hoth a ha call hopen i req rfl).imp_right fun htoken _ => htoken

/-! ### One upload -/

theorem Hidden.alone (h : Hidden conf p source sys) (hs : ∀ a, Sound (conf a) (sys.net.servers a))
    {l : SysLabel} (hl : SysAssumed conf p source sys l) (hu : Unmistaken conf p source sys l)
    (hstep : sysStep p source conf sys l = some sys') : Alone (fileAt conf p source) sys l := by
  cases l with
  | retry => cases hl
  | lost e => exact ⟨hl, fun hno => hno.elim⟩
  | net l =>
    cases l with
    | other a l =>
      rintro k hk rfl server hserver call hopen
      obtain ⟨hspares, hno⟩ := h.stranger hs (addrOf_mem hk) hopen hl hu hstep hserver
      exact ⟨hspares.sessions, fun fd d hd hf => fds_step hserver hno hd hf⟩
    | _ => trivial
  | _ => trivial

theorem Current.preserved (h : Current conf u waiting sys) (hfit : u.Fits) {l : SysLabel}
    (hl : SysAssumed conf u.params u.source sys l) (hu : Unmistaken conf u.params u.source sys l)
    (hapart : ∀ w ∈ waiting, ∀ a ∈ w.params.targets, a ∈ u.params.targets → ∀ file,
      w.file conf a = some file → u.file conf a ≠ some file)
    (hspared : ∀ a l', l = .net (.other a l') → Spared conf waiting a l')
    (hstep : sysStep u.params u.source conf sys l = some sys') : Current conf u waiting sys' := by
  refine ⟨h.delivering.preserved hfit.targets hfit.wait hfit.parallel hfit.source hl hu hstep, ?_⟩
  rcases h.kept with hdoomed | ⟨hkeeping, hwaiting⟩
  · exact .inl (hdoomed.preserved hstep)
  rcases h.delivering.kept with hdoomed | ⟨_, hhidden⟩
  · exact .inl (hdoomed.preserved hstep)
  have hf := h.delivering.followed
  refine (sysStep_hands hhidden.busy hf hl hstep).imp_right fun hands => ⟨?_, fun w hw => ?_⟩
  · exact hkeeping.preserved hfit.targets hfit.wait (hhidden.alone h.delivering.sound hl hu hstep) hstep
  · refine (hwaiting w hw).sysStep hf hands hstep (hapart w hw) fun a ha call hopen i req heq => ?_
    exact hspared a _ heq w hw ha call hopen i req rfl

/-- An upload starts while it is awaited. -/
theorem current_start (hreached : ∀ a, ∃ s ls, Initial s ∧ Runs (conf a) s ls (net.servers a))
    (hall : ∀ w ∈ u :: waiting, Awaited conf w (fun _ _ => False) net) :
    Current conf u waiting ⟨net.restart, {}, none⟩ := by
  have hstart : SysInitial conf ⟨net.restart, {}, none⟩ :=
    ⟨⟨hreached, fun _ _ => rfl, fun _ => rfl⟩, rfl, rfl⟩
  have hu := hall u List.mem_cons_self
  refine ⟨hstart.delivering hu, .inr ⟨hstart.keeping fun k hk call hopen => ?_, fun w hw => ?_⟩⟩
  · exact (hu _ (addrOf_mem hk) call hopen).unopened
  · exact fun a ha call hopen =>
      (hall w (List.mem_cons_of_mem u hw) a ha call hopen).regard fun _ hno => hno.elim

theorem FileSender.uploadResult_zero {f : FileSender} (h : f.uploadResult = some 0) :
    f.createResult = some 0 ∧ f.sendResult = some 0 ∧ f.closeResult = some 0 := by
  rw [uploadResult] at h
  obtain ⟨close, hclose, h⟩ := Option.bind_eq_some_iff.mp h
  obtain ⟨create, hcreate, h⟩ := Option.bind_eq_some_iff.mp h
  split at h
  · rename_i hne
    exact absurd (Option.some.inj h) hne
  · rename_i hzero
    obtain ⟨send, hsend, h⟩ := Option.bind_eq_some_iff.mp h
    split at h
    · rename_i hs
      cases h
      cases not_not.mp hzero
      exact ⟨hcreate, hs ▸ hsend, hclose⟩
    · rename_i hs
      exact absurd (Option.some.inj h) hs

/-- CORRECT (one upload of the command): when it returns 0, its files are stored and nobody touches them,
    and its handlers are over. -/
theorem Current.stored (h : Current conf u waiting sys) (hzero : sys.sender.uploadResult = some 0) :
    Stored conf u sys.net ∧ ∀ w ∈ waiting, Awaited conf w (fun _ _ => False) sys.net := by
  obtain ⟨hcreate, hsend, hclose⟩ := FileSender.uploadResult_zero hzero
  have hu := h.delivering.unclosed
  have hfine := hu.not_doomed hcreate hsend hclose
  obtain ⟨hinv, hhidden⟩ := h.delivering.kept.resolve_left hfine
  obtain ⟨hkeeping, hwaiting⟩ := h.kept.resolve_left hfine
  obtain ⟨hsettled, hfiles⟩ := hinv.delivers hu hcreate hsend hclose
  have hover : ∀ a i, sys.Mine u.params u.source a i → ∃ r, (sys.net.servers a).handlers i = .finished r := by
    rintro a i (hcur | hserved)
    · -- a sender that has closed has no request out
      obtain ⟨_, req, hreq⟩ := current_eq hcur
      have hphase : sys.sender.phase = .closed := by
        by_contra hne
        rw [hu hne] at hclose
        cases hclose
      simp only [FileSender.request, hphase, reduceCtorEq] at hreq
    · obtain ⟨s, hs⟩ := Option.ne_none_iff_exists'.mp hserved
      exact hsettled a i s hs
  refine ⟨fun a ha => ?_, fun w hw a ha call hopen => ?_⟩
  · obtain ⟨call, hopen, hsource⟩ := hfiles a ha
    refine ⟨_, Upload.file_eq.mpr ⟨call, hopen, rfl⟩, ⟨?_, fun i call' hi => ?_⟩, hsource⟩
    · obtain ⟨k, hk, rfl⟩ := List.getElem_of_mem ha
      have haddr : addrOf u.params k = u.params.targets[k] := by
        rw [addrOf, List.getElem?_eq_getElem hk]
        rfl
      rw [← haddr] at hopen ⊢
      exact hkeeping.closed hu (.inr hcreate) hclose k hk call hopen
    · have helse := (hhidden.secluded a ha call hopen).elsewhere i fun hmine => by
        obtain ⟨r, hr⟩ := hover a i hmine
        cases hi.symm.trans hr
      rw [hi] at helse
      exact helse
  · exact (hwaiting w hw a ha call hopen).regard fun i hi _ => hover a i hi

/-! ### The command -/

theorem followed_restart (net : Net) : Followed net.restart :=
  ⟨fun _ _ _ => rfl, fun _ _ _ hs => by cases hs⟩

theorem Followed.reached (hf : Followed net) {l : NetLabel} (h : netStep conf net l = some net') {a : Addr}
    (hr : ∃ s ls, Initial s ∧ Runs (conf a) s ls (net.servers a)) :
    ∃ s ls, Initial s ∧ Runs (conf a) s ls (net'.servers a) := by
  rcases hf.server_cases h a with heq | ⟨l', hstep, _⟩
  · rw [heq]
    exact hr
  · obtain ⟨s, ls, hs, hrun⟩ := hr
    exact ⟨s, ls ++ [l'], hs, hrun.append (.cons hstep (.nil _))⟩

/-- The files of an upload that is not at work are another's than those of the one that is. -/
theorem BatchInv.apart (h : BatchInv conf uploads b) (hapart : uploads.Pairwise (Upload.Apart conf))
    (hcur : b.current = some v) (hu : u ∈ b.done ∨ u ∈ b.waiting) {a : Addr} {file : List Bytes}
    (ha : a ∈ u.params.targets) (hfile : u.file conf a = some file) (hv : a ∈ v.params.targets) :
    v.file conf a ≠ some file := by
  have hpair := hapart.sublist h.order.sublist
  rw [hcur, Option.toList_some, List.singleton_append] at hpair
  obtain ⟨_, hrest, hdone⟩ := List.pairwise_append.mp hpair
  rcases hu with hu | hu
  · exact hdone u hu v List.mem_cons_self a ha file hfile
  · intro hsame
    exact (List.pairwise_cons.mp hrest).1 u hu a hv file hsame hfile

/-- CORRECT (one step of an upload): what another upload has stored stays. -/
theorem Stored.sysStep (h : Stored conf w sys.net) (hf : Followed sys.net) {l : SysLabel}
    (hstep : sysStep p source conf sys l = some sys')
    (hown : ∀ a ∈ w.params.targets, a ∈ p.targets → ∀ file, w.file conf a = some file →
      (Request.create (openRequest p source)).file (conf a) ≠ some file)
    (hoth : ∀ a l', l = .net (.other a l') → Spared conf [w] a l') : Stored conf w sys'.net := by
  intro a ha
  obtain ⟨file, hfile, hdeserted, hsource⟩ := h a ha
  obtain ⟨call, hopen, rfl⟩ := Upload.file_eq.mp hfile
  obtain ⟨hdeserted', hsame⟩ := hdeserted.sysStep hf hstep (fun hap => hown a ha hap _ hfile)
    fun i req heq => (hoth a _ heq w List.mem_cons_self ha call hopen i req rfl).1
  exact ⟨_, hfile, hdeserted', hsame.trans hsource⟩

/-- CORRECT (one step between two uploads): what waits and what is stored stays. -/
theorem between_step {a : Addr} {l : Label} (h : others conf net.restart a l = some net')
    (hl : Spared conf [w] a l) :
    (Stored conf w net → Stored conf w net') ∧
      (Awaited conf w (fun _ _ => False) net → Awaited conf w (fun _ _ => False) net') := by
  obtain ⟨_, server, hserver, rfl⟩ := others_eq h
  refine ⟨fun hstored c hc => ?_, fun hwait c hc call hopen => ?_⟩
  · obtain ⟨file, hfile, hdeserted, hsource⟩ := hstored c hc
    obtain ⟨call, hopen, rfl⟩ := Upload.file_eq.mp hfile
    by_cases hca : c = a
    · subst hca
      obtain ⟨hdeserted', hsame⟩ := hdeserted.preserved
        (fun i req heq => (hl w List.mem_cons_self hc call hopen i req heq).1) hserver
      refine ⟨_, hfile, ?_⟩
      simp only [update_self]
      exact ⟨hdeserted', hsame.trans hsource⟩
    · refine ⟨_, hfile, ?_⟩
      simp only [update_of_ne hca]
      exact ⟨hdeserted, hsource⟩
  · by_cases hca : c = a
    · subst hca
      simp only [update_self]
      exact (hwait c hc call hopen).preserved
        (fun i req heq => (hl w List.mem_cons_self hc call hopen i req heq).imp_right
          fun htoken _ => htoken) hserver
    · simp only [update_of_ne hca]
      exact hwait c hc call hopen

/-- CORRECT (one step of the command): what is stored stays, and what waits is awaited. -/
theorem BatchInv.preserved (h : BatchInv conf uploads b) (hfit : ∀ u ∈ uploads, u.Fits)
    (hapart : uploads.Pairwise (Upload.Apart conf)) {l : BatchLabel}
    (hl : BatchAssumed conf uploads b l) (hstep : batchStep conf b l = some b') :
    BatchInv conf uploads b' := by
  have hmem : ∀ u, u ∈ b.done ∨ b.current = some u ∨ u ∈ b.waiting → u ∈ uploads := by
    intro u hu
    refine h.order.subset ?_
    rcases hu with hu | hu | hu
    · exact List.mem_append_left _ hu
    · exact List.mem_append_right _ (List.mem_append_left _ (by rw [hu]; exact List.mem_singleton_self u))
    · exact List.mem_append_right _ (List.mem_append_right _ hu)
  cases l with
  | begin =>
    rw [batchStep] at hstep
    split at hstep
    · rename_i u us hcur hwait
      cases hstep
      have hall := h.waiting hcur
      have horder := h.order
      rw [hwait] at hall
      rw [hcur, hwait] at horder
      refine ⟨h.reached, horder, h.done, fun w hw => ?_, fun hnone => (by cases hnone)⟩
      cases hw
      exact current_start h.reached hall
    · cases hstep
  | upload l =>
    rw [batchStep] at hstep
    split at hstep
    · rename_i u hcur
      obtain ⟨sys, hsys, rfl⟩ := Option.map_eq_some_iff.mp hstep
      have hu := h.current u hcur
      have hf := hu.delivering.followed
      have hin := hmem u (.inr (.inl hcur))
      have hown : ∀ w, w ∈ b.done ∨ w ∈ b.waiting → ∀ a ∈ w.params.targets, a ∈ u.params.targets →
          ∀ file, w.file conf a = some file → u.file conf a ≠ some file :=
        fun w hw a ha hau file hfile => h.apart hapart hcur hw ha hfile hau
      refine ⟨fun a => ?_, h.order, fun w hw => ?_, fun w hw => ?_, fun hnone => ?_⟩
      · rcases sysStep_netStep hsys with heq | ⟨l', hnet, _⟩
        · simp only [heq]
          exact h.reached a
        · exact hf.reached hnet (h.reached a)
      · refine (h.done w hw).sysStep hf hsys (hown w (.inl hw)) fun a l' heq v hv => ?_
        cases List.mem_singleton.mp hv
        exact hl.2 a l' heq w (hmem w (.inl hw))
      · cases hcur.symm.trans hw
        obtain ⟨hassumed, hunmistaken⟩ := hl.1 u hcur
        exact hu.preserved (hfit u hin) hassumed hunmistaken (fun w hw => hown w (.inr hw))
          (fun a l' heq w hw => hl.2 a l' heq w (hmem w (.inr (.inr hw)))) hsys
      · cases hcur.symm.trans hnone
    · cases hstep
  | finish =>
    rw [batchStep] at hstep
    split at hstep
    · rename_i u error hcur herror
      have horder := h.order
      rw [hcur, Option.toList_some, List.singleton_append] at horder
      split at hstep <;> cases hstep
      · refine ⟨h.reached, ?_, h.done, fun w hw => (by cases hw), fun _ w hw => (by cases hw)⟩
        rw [Option.toList_none, List.append_nil, List.append_nil]
        exact (List.prefix_append ..).trans horder
      · rename_i hzero
        rw [not_not.mp hzero] at herror
        obtain ⟨hstored, hwaiting⟩ := (h.current u hcur).stored herror
        refine ⟨h.reached, ?_, fun w hw => ?_, fun w hw => (by cases hw), fun _ => hwaiting⟩
        · rw [Option.toList_none, List.nil_append, List.append_assoc]
          exact horder
        · rcases List.mem_append.mp hw with hw | hw
          · exact h.done w hw
          · cases List.mem_singleton.mp hw
            exact hstored
    · cases hstep
  | other a l =>
    rw [batchStep] at hstep
    split at hstep
    · rename_i hcur
      obtain ⟨net, hoth, rfl⟩ := Option.map_eq_some_iff.mp hstep
      have hspared : ∀ w ∈ uploads, Spared conf [w] a l := by
        intro w hw v hv
        cases List.mem_singleton.mp hv
        exact hl w hw
      refine ⟨fun c => (followed_restart _).reached (l := .other a l) hoth (h.reached c), h.order,
        fun w hw => ?_, fun w hw => ?_, fun hnone w hw => ?_⟩
      · exact (between_step hoth (hspared w (hmem w (.inl hw)))).1 (h.done w hw)
      · cases hcur.symm.trans hw
      · exact (between_step hoth (hspared w (hmem w (.inr (.inr hw))))).2 (h.waiting hnone w hw)
    · cases hstep

theorem BatchInitial.inv (h : BatchInitial conf uploads b) : BatchInv conf uploads b where
  reached := h.reached
  order := by
    rw [h.done, h.current, h.waiting]
    exact List.prefix_rfl
  waiting _ := by
    rw [h.waiting]
    exact h.unvisited
  done u hu := by
    rw [h.done] at hu
    cases hu
  current u hu := by
    rw [h.current] at hu
    cases hu

/-- CORRECT (runs of the command): what is done has been stored, in the order of the command. -/
theorem BatchInitial.run (h : BatchInitial conf uploads b) (hfit : ∀ u ∈ uploads, u.Fits)
    (hapart : uploads.Pairwise (Upload.Apart conf)) {ls : List BatchLabel} (hrun : BatchRuns conf b ls b')
    (hass : EveryStep (ofStep (batchStep conf)) (BatchAssumed conf uploads) b ls) :
    BatchInv conf uploads b' :=
  hrun.guarded (fun _ _ _ h hl hstep => h.preserved hfit hapart hl hstep) hass h.inv

/-- Two bytes and an empty file, to the same two servers. -/
def sampleBatch : Batch :=
  ⟨sampleSys, none, [⟨sampleUpload, text "hi"⟩, ⟨{ sampleUpload with remoteFileName := text "g" }, []⟩], []⟩

/-- The second upload has nothing to read. It gets the descriptors that the first has closed. -/
def batchLabels : List BatchLabel :=
  let create : List SysLabel := [.call 10, .serve (.opened 3 0), .serve .done, .serve .done, .reply]
  let close : List SysLabel := [.call 12, .serve .done, .serve .done, .serve .done, .reply]
  let second : List SysLabel := [.openFile] ++ create ++ create ++ [.next, .call 11, .reply, .next,
    .work 0 .alloc, .work 0 .check, .work 0 .claim, .work 0 .leave, .next] ++ close ++ close ++ [.next]
  [.begin] ++ sampleLabels.map .upload ++ [.finish, .begin] ++ second.map .upload ++ [.finish]

/-- A check that suffices for the assumptions where nobody else is served. -/
def batchCheck (conf : Addr → Conf) (b : Batch) : BatchLabel → Bool
  | .begin | .finish => true
  | .upload l => b.current.any fun u =>
    sysCheck conf u.params u.source b.sys l && unmistakenCheck u.params u.source b.sys l
  | .other .. => false

/-- What the check relies on. -/
structure BatchFives (b : Batch) : Prop where
  write : FiveWrite b.sys.net
  current : ∀ u, b.current = some u → Fives u.params b.sys

theorem batchFives_step {l : BatchLabel} (h : BatchFives b) (hl : batchCheck conf b l = true)
    (hstep : batchStep conf b l = some b') : BatchFives b' := by
  cases l with
  | begin =>
    rw [batchStep] at hstep
    split at hstep <;> cases hstep
    exact ⟨h.write, fun u hu => ⟨followed_restart _, fun _ _ hs => absurd rfl hs, h.write⟩⟩
  | upload l =>
    obtain ⟨v, hcur, hcheck⟩ := (Option.any_eq_true _ _).mp hl
    simp only [batchStep, hcur] at hstep
    obtain ⟨sys, hsys, rfl⟩ := Option.map_eq_some_iff.mp hstep
    have hfives := fives_step (h.current v hcur) hcheck hsys
    refine ⟨hfives.write, fun u hu => ?_⟩
    cases hu
    exact hfives
  | finish =>
    rw [batchStep] at hstep
    split at hstep
    · split at hstep <;> cases hstep <;> exact ⟨h.write, fun u hu => by cases hu⟩
    · cases hstep
  | other => cases hl

theorem batchAssumed_of_check {l : BatchLabel} (h : BatchFives b) (hl : batchCheck conf b l = true) :
    BatchAssumed conf uploads b l := by
  cases l with
  | upload l =>
    obtain ⟨v, hcur, hcheck⟩ := (Option.any_eq_true _ _).mp hl
    rw [Bool.and_eq_true] at hcheck
    refine ⟨fun u hu => ?_, ?_⟩
    · cases hcur.symm.trans hu
      have hfives := h.current v hcur
      exact ⟨sysAssumed_of_check hfives.only hcheck.1, unmistaken_of_check hfives.write hcheck.2⟩
    · rintro a l' rfl
      cases hcheck.2
  | other => cases hl
  | _ => trivial

theorem sampleBatch_initial : BatchInitial (fun _ => sampleConf) sampleBatch.waiting sampleBatch where
  reached := sampleSys_initial.quiet.reached
  unvisited _ _ := sampleSys_unvisited
  current := rfl
  waiting := rfl
  done := rfl

end Fcopy
