import Fcopy.Server.Sound

/-! Where received files end up.

    The path opened for a request is the partition root joined with the request's own
    `relative_path / file_name`, and nothing compares the two. Followed from the root, the request's
    path drops the last `k` directories of the root, for the `..` nothing before them cancels, and goes
    down the names left over; an absolute one drops them all. It ends strictly below the root exactly
    when these names lead back down the directories dropped, and further (`Reenters`). -/

namespace Fcopy
open Function LexPath

variable {conf : Conf} {s s' : Server} {l : Label}

/-- What a request says about the place of its file: `relative_path / file_name`, as the operating
    system reads it. -/
def requestPath (req : CreateFileReq) : Bytes := cString (joinPath req.relativePath req.fileName)

/-- How many directories of `R` the path `t` leaves before it goes down. -/
def leaves (R : List Bytes) (t : Bytes) : ℕ :=
  if isAbsolute t then R.length else (cancel componentKind (components t)).1

/-- The names of `t` that nothing cancels go back down the directories of the root that `t` left, and
    further. A relative path is cut off by a NUL in the root. -/
def Reenters (root t : Bytes) : Prop :=
  let R := normal (cString root)
  (isAbsolute t = true ∨ 0 ∉ root) ∧
    Below (R.drop (R.length - leaves R t)) (cancel componentKind (components t)).2

instance (root t : Bytes) : Decidable (Reenters root t) := inferInstanceAs (Decidable (_ ∧ _))

/-- The path `handle_create_file` opens, when its root is absolute. -/
def uploadPath (conf : Conf) (req : CreateFileReq) : Bytes :=
  joinPath (joinPath (getPartitionDir conf req.partition) req.relativePath) req.fileName

/-- The checks of `handle_create_file` and `create_file` before `open`. -/
def Refused (conf : Conf) (req : CreateFileReq) : Prop :=
  getPartitionDir conf req.partition = [] ∨ req.chunkSize.toNat = 0 ∨
    req.chunkSize.toNat % pageSize ≠ 0

/-! ### Paths -/

theorem cString_of_not_mem {p : Bytes} (hp : 0 ∉ p) : cString p = p := by
  have := cString_append hp []
  rw [List.append_nil] at this
  rw [this]
  exact List.append_nil p

theorem cString_append_of_mem {p : Bytes} (hp : 0 ∈ p) (q : Bytes) :
    cString (p ++ q) = cString p := by
  induction p with
  | nil => cases hp
  | cons b p ih =>
    by_cases hb : b = 0
    · subst hb
      rfl
    · have hp' : 0 ∈ p := (List.mem_cons.mp hp).resolve_left (Ne.symm hb)
      have := ih hp'
      simp only [cString, List.cons_append, List.takeWhile_cons] at this ⊢
      rw [this]

/-- CORRECT (confinement of a path): the joined path leads strictly below the root exactly when the
    request's part of it re-enters the root. -/
theorem below_root_iff {root rel name : Bytes} (hroot : isAbsolute root = true) :
    Below (normal (cString root)) (fileOf (joinPath (joinPath root rel) name)) ↔
      Reenters root (cString (joinPath rel name)) := by
  rw [joinPath_assoc]
  generalize joinPath rel name = t
  rw [fileOf, Reenters, leaves]
  have habs : isAbsolute (cString t) = isAbsolute t := isAbsolute_cString t
  by_cases ht : isAbsolute t = true
  · rw [joinPath_absolute ht, habs]
    have hnames : normal (cString t) = (cancel componentKind (components (cString t))).2 := by
      rw [normal, walk_eq_cancel, List.take_nil, List.nil_append]
    simp only [ht, if_true, true_or, true_and, Nat.sub_self, List.drop_zero]
    rw [hnames]
  · simp only [habs, ht, if_false, false_or, Bool.false_eq_true]
    by_cases h0 : (0 : UInt8) ∈ root
    · -- what follows the NUL is not looked at
      rw [joinPath_relative ht, List.append_assoc, cString_append_of_mem h0]
      exact iff_of_false (fun h => h.2 rfl) fun h => h.1 h0
    · have hne : root ≠ [] := by
        rintro rfl
        cases hroot
      rw [cString_joinPath h0, normal_joinPath hne (by rw [habs]; exact ht),
        cString_of_not_mem h0, below_walk_iff]
      exact (and_iff_right h0).symm

theorem isAbsolute_uploadPath {req : CreateFileReq}
    (hroot : isAbsolute (getPartitionDir conf req.partition) = true) :
    isAbsolute (uploadPath conf req) = true :=
  isAbsolute_joinPath (isAbsolute_joinPath hroot)

/-! ### Handlers -/

/-- What becomes of a create request. -/
theorem handleCreateFile_open_iff {req : CreateFileReq} {c : CreateCall}
    (hroot : isAbsolute (getPartitionDir conf req.partition) = true) :
    handleCreateFile conf req = .createOpen c ↔ ¬ Refused conf req ∧ c = ⟨uploadPath conf req,
      uploadPath conf req, getToken conf (uploadPath conf req), req.fileSize⟩ := by
  have hdir : getPartitionDir conf req.partition ≠ [] := by
    intro h
    rw [h] at hroot
    cases hroot
  have hne : uploadPath conf req ≠ [] := by
    intro h
    have := isAbsolute_uploadPath hroot
    rw [h] at this
    cases this
  have habs : getAbsPath conf (getPartitionDir conf req.partition) req.relativePath req.fileName =
      .ok (uploadPath conf req) := by
    rw [getAbsPath, absolute, ← uploadPath, if_neg hne, if_pos (isAbsolute_uploadPath hroot)]
  have hfull : getFullPath conf (uploadPath conf req) = uploadPath conf req :=
    joinPath_absolute (isAbsolute_uploadPath hroot)
  have hrefused : Refused conf req ↔
      req.chunkSize.toNat = 0 ∨ req.chunkSize.toNat % pageSize ≠ 0 := or_iff_right hdir
  simp only [handleCreateFile, if_neg hdir, habs, Store.createFile, hfull, hrefused, toNat_size]
  by_cases hchunk : req.chunkSize.toNat = 0 ∨ req.chunkSize.toNat % pageSize ≠ 0
  · simp [hchunk]
  · simp only [if_neg hchunk, Handler.createOpen.injEq]
    exact ⟨fun h => ⟨hchunk, h.symm⟩, fun h => h.2.symm⟩

/-- The file the next piece of handler `i` opens or truncates for its `create_file`. -/
def affected (s : Server) (i : ℕ) (a : Answer) : Option (List Bytes) :=
  match s.handlers i, a with
  | .createOpen c, .opened _ _ => some (fileOf c.path)
  | .createTruncate _ fd _, .done => (s.store.os.fds fd).map Desc.file
  | _, _ => none

/-- In every run, whatever the handler of this request opens or truncates lies strictly below the root
    of the partition it names. -/
def StaysInside (conf : Conf) (req : CreateFileReq) : Prop :=
  ∀ s₀ ls s i s₁ ls' s₂ a s₃ f, Initial s₀ → Runs conf s₀ ls s →
    step conf s (.arrive i (.create req)) = some s₁ → Runs conf s₁ ls' s₂ →
    step conf s₂ (.resume i a) = some s₃ → affected s₂ i a = some f →
    Below (normal (cString (getPartitionDir conf req.partition))) f

/-- After the arrival a handler works on the call its request became. -/
structure Serves (conf : Conf) (req : CreateFileReq) (i : ℕ) (s : Server) : Prop where
  busy : s.handlers i ≠ .idle
  call : ∀ c, (s.handlers i).call = some c → handleCreateFile conf req = .createOpen c

theorem Serves.preserved {req : CreateFileReq} {i : ℕ} (hs : Serves conf req i s)
    (h : step conf s l = some s') : Serves conf req i s' := by
  rcases handler_cases h i with hsame | ⟨_, _, hidle, _⟩ | ⟨_, _, _, heff⟩
  · exact ⟨hsame ▸ hs.busy, hsame ▸ hs.call⟩
  · exact absurd hidle hs.busy
  · exact ⟨heff.not_idle, fun c hc => hs.call c (creatorHolds_effect heff hc).1⟩

theorem serves_arrive {req : CreateFileReq} {i : ℕ}
    (h : step conf s (.arrive i (.create req)) = some s') : Serves conf req i s' := by
  rcases step_cases h with ⟨j, _, hl, _, rfl⟩ | ⟨_, _, _, _, hl, _⟩ <;> cases hl
  refine ⟨?_, fun c hc => ?_⟩
  · simp only [update_self, accept, handleCreateFile]
    split
    · simp
    split
    · simp
    split <;> simp
  · simp only [update_self, accept] at hc
    exact (handleCreateFile_call hc).1

/-- All that a create touches is the file of its path. -/
theorem affected_eq {req : CreateFileReq} {i : ℕ} {a : Answer} {f : List Bytes}
    (hsound : Sound conf s) (hs : Serves conf req i s) (h : step conf s (.resume i a) = some s')
    (hf : affected s i a = some f) :
    ∃ c, handleCreateFile conf req = .createOpen c ∧ Openable c.path ∧ f = fileOf c.path := by
  rcases step_cases h with ⟨_, _, hl, _⟩ | ⟨_, _, _, h', hl, heff, rfl⟩ <;> cases hl
  have hcall := hs.call
  have hfile := hsound.file i
  have hlive := hsound.exclusive.live (.creator i)
  rw [Server.owned] at hlive
  unfold affected at hf
  generalize s.handlers i = hd at heff hcall hfile hlive hf
  cases heff <;> simp only [reduceCtorEq, Option.some.injEq] at hf
  case opened c fd errno os desc hfd hopen =>
    exact ⟨c, hcall c rfl, (Os.openFile_eq hopen).2.1, hf.symm⟩
  case leaked c errno os desc hopen =>
    exact ⟨c, hcall c rfl, (Os.openFile_eq hopen).2.1, hf.symm⟩
  case truncated c fd desc os htr =>
    obtain ⟨d, hd, rfl⟩ := Option.map_eq_some_iff.mp hf
    cases (hlive fd desc rfl).symm.trans hd
    obtain ⟨hpath, hopen⟩ := hfile c fd desc rfl rfl
    exact ⟨c, hcall c rfl, hopen, hpath⟩

/-- CORRECT (partitions): a create request for a partition with an absolute root touches only files
    strictly below that root, in every run, if and only if it is refused by the checks before `open`,
    or its path cannot be opened as a file, or its own part of the path re-enters the root. -/
theorem stays_inside_iff (conf : Conf) (req : CreateFileReq)
    (hroot : isAbsolute (getPartitionDir conf req.partition) = true) :
    StaysInside conf req ↔ Refused conf req ∨ ¬ Openable (uploadPath conf req) ∨
      Reenters (getPartitionDir conf req.partition) (requestPath req) := by
  rw [requestPath, ← below_root_iff hroot, ← uploadPath]
  constructor
  · intro hin
    by_contra hnot
    rw [not_or, not_or, not_not] at hnot
    obtain ⟨hchecked, hopen, hout⟩ := hnot
    -- a server on an empty disk, whose `open` returns descriptor 3
    let c : CreateCall := ⟨uploadPath conf req, uploadPath conf req,
      getToken conf (uploadPath conf req), req.fileSize⟩
    have hc : handleCreateFile conf req = .createOpen c :=
      (handleCreateFile_open_iff hroot).mpr ⟨hchecked, rfl⟩
    have harr : step conf sampleServer (.arrive 0 (.create req)) =
        some ⟨sampleServer.store, update sampleServer.handlers 0 (.createOpen c)⟩ := by
      rw [← hc]
      rfl
    have hopened : ∃ p, sampleServer.store.os.openFile c.path 3 = some p :=
      ⟨_, if_pos ⟨rfl, hopen⟩⟩
    obtain ⟨⟨os, desc⟩, hos⟩ := hopened
    have hstep : ∃ s₃, step conf ⟨sampleServer.store,
        update sampleServer.handlers 0 (.createOpen c)⟩ (.resume 0 (.opened 3 0)) = some s₃ := by
      simp only [step, update_self, advance, hos, Option.map_some]
      exact ⟨_, rfl⟩
    obtain ⟨s₃, hs₃⟩ := hstep
    exact hout (hin sampleServer [] sampleServer 0 _ [] _ _ s₃ _ sampleServer_initial (.nil _) harr
      (.nil _) hs₃ (by simp only [affected, update_self]; rfl))
  · rintro hor s₀ ls s i s₁ ls' s₂ a s₃ f h₀ hr harr hr' hstep hf
    have hsound : Sound conf s₂ := by
      refine hr'.invariant (P := Sound conf) (fun _ _ _ hs h => hs.preserved h) ?_
      exact (sound_run h₀ hr).preserved harr
    have hserves : Serves conf req i s₂ :=
      hr'.invariant (P := Serves conf req i) (fun _ _ _ hs h => hs.preserved h) (serves_arrive harr)
    obtain ⟨c, hc, hopen, rfl⟩ := affected_eq hsound hserves hstep hf
    obtain ⟨hchecked, rfl⟩ := (handleCreateFile_open_iff hroot).mp hc
    rcases hor with href | hno | hin
    · exact absurd href hchecked
    · exact absurd hopen hno
    · exact hin

/-- A file in a directory of its own, reached by a detour. -/
theorem stays_inside_iff_detour :
    let req : CreateFileReq :=
      { chunkSize := 8192, relativePath := text "b/../../p/c", fileName := text "a" }
    StaysInside sampleConf req ↔ Refused sampleConf req ∨ ¬ Openable (uploadPath sampleConf req) ∨
      Reenters (getPartitionDir sampleConf req.partition) (requestPath req) :=
  stays_inside_iff sampleConf _ (by decide +kernel)

/-- With the relative path `..` the file `a` is created next to the root `/p`. -/
theorem dotdot_leaves_partition :
    isAbsolute (getPartitionDir sampleConf []) = true ∧ ¬ StaysInside sampleConf
      { chunkSize := 8192, relativePath := text "..", fileName := text "a" } := by
  let req : CreateFileReq :=
    { chunkSize := 8192, relativePath := text "..", fileName := text "a" }
  have hrun : (step sampleConf sampleServer (.arrive 0 (.create req))).any (fun s =>
      affected s 0 (.opened 3 0) = some [text "a"] ∧
        (step sampleConf s (.resume 0 (.opened 3 0))).isSome) = true := by decide +kernel
  obtain ⟨s, hs, hcheck⟩ := (Option.any_eq_true _ _).mp hrun
  obtain ⟨haff, hstep⟩ := of_decide_eq_true hcheck
  obtain ⟨s', hs'⟩ := Option.isSome_iff_exists.mp hstep
  refine ⟨by decide +kernel, fun hin => ?_⟩
  have := hin sampleServer [] sampleServer 0 s [] s _ s' _ sampleServer_initial (.nil _) hs (.nil _)
    hs' haff
  exact absurd this (by decide +kernel)

end Fcopy
