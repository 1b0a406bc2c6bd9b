import Fcopy.Client.LoadFiles
import Fcopy.Client.SendFile
import Fcopy.Client.Topology

/-! What the client exits with (`main`, `upload_file` in `client/fcopy_cli.cpp`).

    A file is created, sent and closed; `upload_file` returns the first error of these, the closing last:

        create_file ──▶ send_file ──▶ close_file ──▶ error, or else close_error
              └────── error ──────────────▲

    `main` uploads the files one after another up to the first error, and then returns 0 whatever has
    been returned. -/

namespace Fcopy

/-! ### `upload_file` -/

/-- What the workers of a `send_file` do until all have left. -/
structure SendRun (size : BitVec 64) (chunk : BitVec 32) (n : ℕ) where
  steps : List (ℕ × SendLabel)
  coded : ∀ x ∈ steps, x.2.Coded
  ended : ((Run.exec (transferStep size chunk n) {} steps).bind (·.returned n)).isSome = true

/-- What `send_file` returns. -/
def SendRun.error {size : BitVec 64} {chunk : BitVec 32} {n : ℕ} (r : SendRun size chunk n) : ℤ :=
  ((Run.exec (transferStep size chunk n) {} r.steps).bind (·.returned n)).get r.ended

/-- The outside of one `upload_file`: the file, the error of `open_file`, what the requests are answered,
    and what the workers meet. -/
structure UploadAnswers (chunk : BitVec 32) (n : ℕ) where
  source : Bytes
  opened : ℤ
  opens : ℕ → ℤ × Bytes
  links : ℕ → ℤ
  sends : SendRun (fileSize source) chunk n
  closes : ℕ → ℤ

def uploadFile (p : SenderParams) (a : UploadAnswers p.chunkSize p.parallel) : ℤ :=
  let made := createFile p a.source a.opened a.opens a.links
  let error := if made.error ≠ 0 then made.error else a.sends.error
  let closeError := (remoteClose p a.closes made.fileTokens).error
  if error = 0 then closeError else error

/-! ### `main` -/

structure GlobalConfig where
  parallel : ℤ := 1
  dryRun : Bool := false
  waitClose : Bool := true
  checkSelf : Bool := true
  sendMethod : SendMethod := .chain
  targets : List Addr := []
  files : List FileDesc := []

/-- `addrs` is what `get_local_addr` finds, or `none` if it fails. -/
def doCheckSelf (addrs : Option (List Bytes)) (targets : List Addr) : Bool :=
  match addrs with
  | none => false
  | some addrs =>
    targets.all (fun target => target.1 ∉ addrs) ∧
      (targets.map fun target => target.1 ++ text ":" ++ decimal target.2.toNat).Nodup

/-- `main` puts it between 1 and 900. -/
def GlobalConfig.sendParallel (cfg : GlobalConfig) : ℕ :=
  (if cfg.parallel < 1 then 1 else if cfg.parallel > 900 then 900 else cfg.parallel).toNat

def defaultChunkSize : BitVec 32 := 4 * 1024 * 1024

def senderParams (cfg : GlobalConfig) (file : FileDesc) : SenderParams where
  chunkSize := defaultChunkSize
  partition := []
  remoteFileDir := text "."
  remoteFileName := file.path
  waitClose := cfg.waitClose
  parallel := cfg.sendParallel
  sendMethod := cfg.sendMethod
  targets := cfg.targets

section
variable (cfg : GlobalConfig) (answers : ℕ → UploadAnswers defaultChunkSize cfg.sendParallel)

/-- The loop over the files, from file `i` on: what each `upload_file` returns. -/
def uploadLoop : ℕ → List FileDesc → List ℤ
  | _, [] => []
  | i, file :: files =>
    let error := uploadFile (senderParams cfg file) (answers i)
    if error ≠ 0 then [error] else error :: uploadLoop (i + 1) files

/-- What `main` returns, and what each `upload_file` has returned. `ret` is from `parse_args`, which also
    makes `cfg`. -/
def main (ret : ℤ) (addrs : Option (List Bytes)) : ℤ × List ℤ :=
  if ret ≠ 0 then (ret, [])
  else if cfg.targets = [] then (1, [])
  else if cfg.checkSelf ∧ ¬doCheckSelf addrs cfg.targets then (-1, [])
  else if cfg.dryRun then (0, [])
  else (0, uploadLoop cfg answers 0 cfg.files)

end

/-- 0 is returned only if each file had its upload, and that returned 0; and not if one failed. -/
def Truthful (files : List FileDesc) (status : ℤ) (errors : List ℤ) : Prop :=
  (status = 0 → errors = files.map fun _ => 0) ∧ ((∃ e ∈ errors, e ≠ 0) → status ≠ 0)

/-- Nothing fails in an upload: the file is opened, each target answers its requests with 0, and the
    workers meet no error. A target that has given an empty token is not asked to close. -/
structure Succeeds (p : SenderParams) (a : UploadAnswers p.chunkSize p.parallel) : Prop where
  opened : a.opened = 0
  targets : p.targets ≠ []
  opens : ∀ i < p.targets.length, (a.opens i).1 = 0
  links : ∀ i < p.sendMethod.requestCount p.targets.length, a.links i = 0
  sends : ∀ x ∈ a.sends.steps, ¬x.2.Fails
  closes : ∀ i < p.targets.length, (a.opens i).2 ≠ [] → a.closes i = 0

/-! ### One upload -/

variable {p : SenderParams} {size : BitVec 64} {chunk : BitVec 32} {n : ℕ}

theorem SendRun.error_eq_zero (r : SendRun size chunk n) :
    r.error = 0 ↔ ∀ x ∈ r.steps, ¬x.2.Fails := by
  obtain ⟨t, ht, hret⟩ := Option.bind_eq_some_iff.mp (Option.some_get r.ended).symm
  have hr : TransferRuns size chunk n {} r.steps t := Run.steps_iff_exec.mpr ht
  obtain ⟨hleft, herror⟩ := Transfer.returned_eq hret
  have hfailed := Transfer.failed_iff hleft hr.idle
  rw [hr.fails_iff fun w l hx => r.coded (w, l) hx, herror] at hfailed
  rw [SendRun.error, ← not_iff_not, ← ne_eq, ← hfailed]
  simp

/-- The loop of `remote_open` succeeds when each CREATE does, and has all tokens then. -/
theorem openLoop_eq_zero (source : Bytes) (answers : ℕ → ℤ × Bytes) (targets : List Addr) :
    ((openLoop p source answers 0 targets []).error = 0 ↔ ∀ i < targets.length, (answers i).1 = 0) ∧
    ((openLoop p source answers 0 targets []).error = 0 →
      (openLoop p source answers 0 targets []).fileTokens =
        (List.range targets.length).map fun i => (answers i).2) := by
  obtain ⟨k, m, _, hm, hend, hok, herror, htok, _⟩ := openLoop_spec (p := p) source answers targets 0 []
  simp only [Nat.zero_add, List.nil_append, ← List.range_eq_range'] at hok htok
  refine ⟨herror.trans ⟨?_, fun h => hend.resolve_right fun hlt => ?_⟩, fun h => ?_⟩
  · rintro rfl i hi
    exact (hok i (Nat.zero_le i) (by omega)).mpr hi
  · exact absurd ((hok k (Nat.zero_le k) hlt).mp (h k (by omega))) (Nat.lt_irrefl k)
  · rw [htok, herror.mp h]

theorem firstOf_eq_zero {answers : ℕ → ℤ} {targets : List ℕ} :
    firstOf answers targets = 0 ↔ ∀ i ∈ targets, answers i = 0 := by
  rw [show firstOf answers targets = firstError (targets.map answers) 0 from rfl, firstError_eq_zero]
  simp

theorem remoteClose_eq_zero (answers : ℕ → ℤ) (g : ℕ → Bytes) (k : ℕ) :
    (remoteClose p answers ((List.range k).map g)).error = 0 ↔ ∀ i < k, g i ≠ [] → answers i = 0 := by
  have hlists : Lists g ((List.range k).map g) ((List.range k).filter fun i => g i ≠ []) :=
    ⟨k, g, rfl, rfl, fun _ _ => rfl⟩
  rw [(remoteClose_spec answers hlists).2.1, firstOf_eq_zero]
  simp

/-- `create_file` succeeds when everything in it does, and has all tokens then. -/
theorem createFile_eq_zero (source : Bytes) (opened : ℤ) (opens : ℕ → ℤ × Bytes) (links : ℕ → ℤ) :
    ((createFile p source opened opens links).error = 0 ↔
      opened = 0 ∧ p.targets ≠ [] ∧ (∀ i < p.targets.length, (opens i).1 = 0) ∧
        ∀ i < p.sendMethod.requestCount p.targets.length, links i = 0) ∧
    ((createFile p source opened opens links).error = 0 →
      (createFile p source opened opens links).fileTokens =
        (List.range p.targets.length).map fun i => (opens i).2) := by
  obtain ⟨herror, htokens⟩ := openLoop_eq_zero (p := p) source opens p.targets
  rw [createFile]
  by_cases hopened : opened = 0
  swap
  · simp only [if_pos (show opened ≠ 0 from hopened)]
    exact ⟨iff_of_false hopened fun h => hopened h.1, fun h => absurd h hopened⟩
  simp only [if_neg (not_not.mpr hopened)]
  by_cases ht : p.targets = []
  · have hfail : (EINVAL : ℤ) ≠ 0 := by decide
    simp only [remoteOpen, if_pos ht, if_pos hfail]
    exact ⟨iff_of_false hfail fun h => h.2.1 ht, fun h => absurd h hfail⟩
  simp only [remoteOpen, if_neg ht]
  by_cases hopen : (openLoop p source opens 0 p.targets []).error = 0
  · have htok := htokens hopen
    have hlen : (openLoop p source opens 0 p.targets []).fileTokens.length = p.targets.length := by
      rw [htok, List.length_map, List.length_range]
    obtain ⟨_, _, hlinks, _⟩ := linkLoop_spec (p := p) (openLoop p source opens 0 p.targets []).fileTokens
      links p.targets.length 0 (by omega)
    simp only [hlen, Nat.zero_le, forall_const] at hlinks
    simp only [if_neg (not_not.mpr hopen), hlen]
    exact ⟨hlinks.trans ⟨fun h => ⟨hopened, ht, herror.mp hopen, h⟩, fun h => h.2.2.2⟩, fun _ => htok⟩
  · simp only [if_pos (show (openLoop p source opens 0 p.targets []).error ≠ 0 from hopen)]
    exact ⟨iff_of_false hopen fun h => hopen (herror.mpr h.2.2.1), fun h => absurd h hopen⟩

/-- CORRECT (one upload): `upload_file` returns 0 exactly when nothing fails. -/
theorem uploadFile_eq_zero (a : UploadAnswers p.chunkSize p.parallel) :
    uploadFile p a = 0 ↔ Succeeds p a := by
  obtain ⟨hcreate, htokens⟩ := createFile_eq_zero (p := p) a.source a.opened a.opens a.links
  have hiff : Succeeds p a ↔ (createFile p a.source a.opened a.opens a.links).error = 0 ∧
      a.sends.error = 0 ∧ ∀ i < p.targets.length, (a.opens i).2 ≠ [] → a.closes i = 0 := by
    rw [hcreate, SendRun.error_eq_zero]
    exact ⟨fun h => ⟨⟨h.opened, h.targets, h.opens, h.links⟩, h.sends, h.closes⟩,
      fun ⟨⟨h₁, h₂, h₃, h₄⟩, h₅, h₆⟩ => ⟨h₁, h₂, h₃, h₄, h₅, h₆⟩⟩
  rw [hiff, uploadFile]
  by_cases hmade : (createFile p a.source a.opened a.opens a.links).error = 0
  · rw [← remoteClose_eq_zero (p := p), ← htokens hmade]
    by_cases hsent : a.sends.error = 0 <;> simp [hmade, hsent]
  · simp [hmade]

/-! ### All files -/

theorem uploadLoop_eq_zeros {cfg : GlobalConfig}
    (answers : ℕ → UploadAnswers defaultChunkSize cfg.sendParallel) (i : ℕ) (files : List FileDesc) :
    uploadLoop cfg answers i files = files.map (fun _ => 0) ↔
      ∀ j file, files[j]? = some file → Succeeds (senderParams cfg file) (answers (i + j)) := by
  induction files generalizing i with
  | nil => simp [uploadLoop]
  | cons file files ih =>
    rw [uploadLoop]
    have hupload := uploadFile_eq_zero (p := senderParams cfg file) (answers i)
    by_cases he : uploadFile (senderParams cfg file) (answers i) = 0
    · simp only [he, ne_eq, not_true_eq_false, if_false, List.map_cons, List.cons.injEq, true_and, ih]
      constructor
      · intro h j file' hj
        cases j with
        | zero =>
          cases hj
          exact hupload.mp he
        | succ j =>
          have := h j file' hj
          rwa [Nat.add_right_comm] at this
      · intro h j file' hj
        have := h (j + 1) file' hj
        rwa [← Nat.add_assoc, Nat.add_right_comm] at this
    · simp only [if_pos (show uploadFile (senderParams cfg file) (answers i) ≠ 0 from he)]
      refine iff_of_false (fun h => he (List.cons.inj h).1) fun h => he ?_
      exact hupload.mpr (h 0 file rfl)

/-- CORRECT (exact condition): the status is true exactly when `main` ends before it sends anything, or
    nothing fails in the upload of any file. -/
theorem exit_status_iff (cfg : GlobalConfig)
    (answers : ℕ → UploadAnswers defaultChunkSize cfg.sendParallel) (ret : ℤ)
    (addrs : Option (List Bytes)) (hdry : cfg.dryRun = false) :
    Truthful cfg.files (main cfg answers ret addrs).1 (main cfg answers ret addrs).2 ↔
      ret ≠ 0 ∨ cfg.targets = [] ∨ (cfg.checkSelf = true ∧ doCheckSelf addrs cfg.targets = false) ∨
        ∀ i file, cfg.files[i]? = some file → Succeeds (senderParams cfg file) (answers i) := by
  have hearly : ∀ status : ℤ, status ≠ 0 → Truthful cfg.files status [] := fun status hne =>
    ⟨fun h => absurd h hne, fun _ => hne⟩
  rw [main]
  by_cases hret : ret = 0
  swap
  · rw [if_pos hret]
    exact iff_of_true (hearly ret hret) (.inl hret)
  rw [if_neg (not_not.mpr hret)]
  by_cases ht : cfg.targets = []
  · rw [if_pos ht]
    exact iff_of_true (hearly 1 (by decide)) (.inr (.inl ht))
  rw [if_neg ht]
  by_cases hself : cfg.checkSelf = true ∧ doCheckSelf addrs cfg.targets = false
  · rw [if_pos (by simpa using hself)]
    exact iff_of_true (hearly (-1) (by decide)) (.inr (.inr (.inl hself)))
  rw [if_neg (by simpa using hself), hdry, if_neg Bool.false_ne_true]
  -- the loop, and then 0
  have hloop := uploadLoop_eq_zeros answers 0 cfg.files
  simp only [Nat.zero_add] at hloop
  simp only [hret, ne_eq, not_true_eq_false, ht, hself, false_or, ← hloop]
  refine ⟨fun h => h.1 rfl, fun h => ⟨fun _ => h, ?_⟩⟩
  rintro ⟨e, he, hne⟩
  rw [h] at he
  obtain ⟨_, _, rfl⟩ := List.mem_map.mp he
  exact absurd rfl hne

def sampleConfig : GlobalConfig where
  targets := [(text "h", 80)]
  files := [⟨text "f", [], text "f", text "/f", 3⟩]

/-- One chunk is sent to the one target, which has answered the CREATE with error `e`. -/
def sampleAnswers (e : ℤ) : UploadAnswers defaultChunkSize sampleConfig.sendParallel where
  source := [1, 2, 3]
  opened := 0
  opens _ := (e, text "t")
  links _ := 0
  sends :=
    { steps := [(0, .alloc), (0, .check), (0, .claim), (0, .read [1, 2, 3]), (0, .reply 0), (0, .check),
        (0, .claim), (0, .leave)]
      coded := by
        repeat rw [List.forall_mem_cons]
        exact ⟨trivial, trivial, trivial, trivial, trivial, trivial, trivial, trivial,
          List.forall_mem_nil _⟩
      ended := by decide +kernel }
  closes _ := 0

/-- A file that is uploaded. -/
theorem exit_status_iff_uploaded :
    Truthful sampleConfig.files (main sampleConfig (fun _ => sampleAnswers 0) 0 (some [])).1
      (main sampleConfig (fun _ => sampleAnswers 0) 0 (some [])).2 := by
  refine (exit_status_iff sampleConfig (fun _ => sampleAnswers 0) 0 (some []) rfl).mpr
    (.inr (.inr (.inr fun i file _ => ?_)))
  exact
    { opened := rfl
      targets := List.cons_ne_nil _ _
      opens := fun _ _ => rfl
      links := fun _ _ => rfl
      sends := by simp [sampleAnswers, SendLabel.Fails]
      closes := fun _ _ _ => rfl }

/-- The CREATE of the only file is answered with error 5, and `main` returns 0. -/
theorem failed_upload_unnoticed :
    main sampleConfig (fun _ => sampleAnswers 5) 0 (some []) = (0, [5]) ∧
      ¬Truthful sampleConfig.files (main sampleConfig (fun _ => sampleAnswers 5) 0 (some [])).1
        (main sampleConfig (fun _ => sampleAnswers 5) 0 (some [])).2 := by
  have hmain : main sampleConfig (fun _ => sampleAnswers 5) 0 (some []) = (0, [5]) := by
    decide +kernel
  refine ⟨hmain, fun h => ?_⟩
  rw [hmain] at h
  exact h.2 ⟨5, List.mem_cons_self, by decide⟩ rfl

end Fcopy
