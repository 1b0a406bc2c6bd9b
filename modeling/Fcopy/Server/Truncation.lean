import Fcopy.Server.Sound

/-! What a failing `create_file` does to sessions in progress.

    `create_file` truncates the file before it looks for a session with the same token, so a create for
    a path that is being received empties the file and is refused only then. That is the one way it
    does harm (`Tramples`): in the run of a create that fails, its steps leave the table and the files
    of all sessions alone exactly when its `ftruncate` does not meet a session's data. -/

namespace Fcopy
open Function Ownership

variable {conf : Conf} {s s' : Server}

/-- The table and the files of its sessions are as before. -/
def Unharmed (s s' : Server) : Prop :=
  s'.store.fmap = s.store.fmap ∧
    ∀ token info, s.store.fmap token = some info →
      s'.store.os.files info.desc.file = s.store.os.files info.desc.file

/-- The next piece of handler `i` truncates a file that belongs to a session and is not empty. -/
def Tramples (i : ℕ) (s : Server) (l : Label) : Prop :=
  ∃ c fd desc token info, l = .resume i .done ∧ s.handlers i = .createTruncate c fd desc ∧
    s.store.fmap token = some info ∧ info.desc.file = desc.file ∧
    s.store.os.content desc.file ≠ []

/-- If the step `l` is one of `create_file` in handler `i`, it leaves the sessions alone. -/
def SparesSessions (conf : Conf) (i : ℕ) (s : Server) (l : Label) : Prop :=
  ∀ a s', l = .resume i a → (s.handlers i).call ≠ none → step conf s l = some s' → Unharmed s s'

theorem Sound.files_session (hs : Sound conf s) {token : Bytes} {info : FileInfo}
    (ht : s.store.fmap token = some info) :
    s.store.os.files info.desc.file = some (s.store.os.content info.desc.file) := by
  have hmade := hs.made (.session token) info.fd info.desc (by rw [Server.owned, ht]; rfl)
  obtain ⟨b, hb⟩ := Option.ne_none_iff_exists'.mp hmade
  rw [Os.content, hb]
  rfl

/-- Opening a file keeps what sessions have in theirs. -/
theorem Sound.files_openFile (hs : Sound conf s) {path : Bytes} {fd : ℕ} {os : Os} {desc : Desc}
    (ho : s.store.os.openFile path fd = some (os, desc)) {token : Bytes} {info : FileInfo}
    (ht : s.store.fmap token = some info) :
    os.files info.desc.file = s.store.os.files info.desc.file := by
  obtain ⟨_, _, _, rfl⟩ := Os.openFile_eq ho
  by_cases hf : info.desc.file = desc.file
  · simp only [hf, update_self]
    rw [← hf, hs.files_session ht]
  · simp only [update_of_ne hf]

/-- The truncation spares the sessions when those of the same file have no data. -/
theorem Sound.truncate_iff (hs : Sound conf s) {i : ℕ} {c : CreateCall} {fd : ℕ} {desc : Desc}
    {os : Os} (hi : s.handlers i = .createTruncate c fd desc)
    (htr : s.store.os.ftruncate fd 0 = some os) (h : Handler) :
    Unharmed s ⟨{ s.store with os }, update s.handlers i h⟩ ↔ ¬ Tramples i s (.resume i .done) := by
  obtain ⟨d, hd, _, rfl⟩ := Os.ftruncate_eq htr
  have hdesc : desc = d := by
    have := hs.exclusive.live (.creator i) fd desc (by rw [Server.owned, hi]; rfl)
    rw [hd] at this
    exact (Option.some.inj this).symm
  subst hdesc
  have hzero : Content.resize 0 (s.store.os.content desc.file) (0 : BitVec 64).toNat = [] :=
    Content.resize_zero _
  constructor
  · rintro ⟨_, hfiles⟩ ⟨c', fd', desc', token, info, _, hi', ht, hfile, hne⟩
    rw [hi] at hi'
    cases hi'
    have := hfiles token info ht
    rw [hs.files_session ht, hfile] at this
    simp only [update_self, hzero, Option.some.injEq] at this
    exact hne this.symm
  · intro hnot
    refine ⟨rfl, fun token info ht => ?_⟩
    by_cases hfile : info.desc.file = desc.file
    · have hempty : s.store.os.content desc.file = [] := by
        by_contra hne
        exact hnot ⟨c, fd, desc, token, info, rfl, hi, ht, hfile, hne⟩
      rw [hs.files_session ht, hfile]
      simp only [update_self, hzero]
      rw [hempty]
    · simp only [update_of_ne hfile]

/-- A step of a `create_file` that does not insert its session spares the others unless it tramples. -/
theorem Sound.create_step_iff (hs : Sound conf s) {i : ℕ} {a : Answer}
    (h : step conf s (.resume i a) = some s') (hc : (s.handlers i).call ≠ none)
    (hno : ∀ token, s'.handlers i ≠ .finished ⟨0, token⟩) :
    Unharmed s s' ↔ ¬ Tramples i s (.resume i a) := by
  rcases step_cases h with ⟨_, _, hl, _⟩ | ⟨_, _, st', h', hl, heff, rfl⟩ <;> cases hl
  have hother : (∀ c fd desc, s.handlers i ≠ .createTruncate c fd desc) ∨ a ≠ .done →
      ¬ Tramples i s (.resume i a) := by
    rintro hor ⟨c, fd, desc, _, _, hl, hi, _⟩
    cases hl
    rcases hor with hor | hor
    · exact hor c fd desc hi
    · exact hor rfl
  generalize hi : s.handlers i = hd at heff hc hother
  cases heff with
  | noDirectory c => exact iff_of_true ⟨rfl, fun _ _ _ => rfl⟩ (hother (.inr (by simp)))
  | openFailed c e => exact iff_of_true ⟨rfl, fun _ _ _ => rfl⟩ (hother (.inr (by simp)))
  | opened c fd errno os desc hfd ho =>
    exact iff_of_true ⟨rfl, fun _ _ ht => hs.files_openFile ho ht⟩ (hother (.inr (by simp)))
  | leaked c errno os desc ho =>
    exact iff_of_true ⟨rfl, fun _ _ ht => hs.files_openFile ho ht⟩ (hother (.inr (by simp)))
  | truncated c fd desc os htr => exact hs.truncate_iff hi htr _
  | truncateFailed c fd desc e =>
    exact iff_of_true ⟨rfl, fun _ _ _ => rfl⟩ (hother (.inr (by simp)))
  | duplicate c fd desc info hdup =>
    exact iff_of_true ⟨rfl, fun _ _ _ => rfl⟩ (hother (.inl (by simp)))
  | inserted c fd desc hnew => exact absurd (update_self ..) (hno c.token)
  | _ => exact absurd rfl hc

theorem finished_run {t : Server} {ls : List Label} (hr : Runs conf s ls t) {i : ℕ} {r : Reply}
    (hf : s.handlers i = .finished r) : t.handlers i = .finished r :=
  hr.invariant (P := fun s => s.handlers i = .finished r) (fun _ _ _ hf h => finished_step h hf) hf

/-- CORRECT (failing creates): in a run of the server from its start, a `create_file` that returns a
    non-zero error has left the table and the files of all sessions as they were, at each of its steps,
    if and only if its `ftruncate` did not meet the data of a session of the same file. -/
theorem failed_create_spares_iff {t : Server} {ls : List Label} {i : ℕ} {r : Reply}
    (h₀ : Initial s) (hr : Runs conf s ls t) (hf : t.handlers i = .finished r) (he : r.error ≠ 0) :
    Run.EveryStep (Run.ofStep (step conf)) (SparesSessions conf i) s ls ↔
      Run.EveryStep (Run.ofStep (step conf)) (fun u l => ¬ Tramples i u l) s ls := by
  have hno : ∀ ls₁ l ls₂ u u', ls = ls₁ ++ l :: ls₂ → Runs conf s ls₁ u →
      step conf u l = some u' → ∀ token, u'.handlers i ≠ .finished ⟨0, token⟩ := by
    intro ls₁ l ls₂ u u' hls hu hstep token hfin
    rw [hls] at hr
    obtain ⟨v, hv, hrest⟩ := hr.split
    cases hv.unique hu
    cases hrest with
    | cons hl hrest =>
      cases hl.symm.trans hstep
      have := finished_run hrest hfin
      rw [hf] at this
      cases this
      exact he rfl
  constructor
  · intro hspare ls₁ l ls₂ u hls hu htr
    obtain ⟨c, fd, desc, token, info, rfl, hi, hrest⟩ := id htr
    have hr' := hr
    rw [hls] at hr'
    obtain ⟨v, hv, hnext⟩ := hr'.split
    cases hv.unique hu
    cases hnext with
    | @cons _ u' _ _ _ hl _ =>
      have hc : (u.handlers i).call ≠ none := by
        rw [hi]
        exact Option.some_ne_none c
      have hun := hspare ls₁ _ ls₂ u hls hu .done u' rfl hc hl
      exact ((sound_run h₀ hu).create_step_iff hl hc (hno _ _ _ _ _ hls hu hl)).mp hun htr
  · rintro hnot ls₁ _ ls₂ u hls hu a u' rfl hc hl
    exact ((sound_run h₀ hu).create_step_iff hl hc (hno _ _ _ _ _ hls hu hl)).mpr
      (hnot _ _ _ _ hls hu)

/-- The file `a` is created twice. -/
theorem failed_create_spares_iff_twice : ∃ t,
    let ls := sampleCreate ++ [.arrive 1 (.create { chunkSize := 8192, fileName := text "a" }),
      .resume 1 (.opened 5 0), .resume 1 .done, .resume 1 .done]
    Runs sampleConf sampleServer ls t ∧
      (Run.EveryStep (Run.ofStep (step sampleConf)) (SparesSessions sampleConf 1) sampleServer ls ↔
        Run.EveryStep (Run.ofStep (step sampleConf)) (fun u l => ¬ Tramples 1 u l) sampleServer
          ls) := by
  have hrun : (Run.exec (step sampleConf) sampleServer (sampleCreate ++
      [.arrive 1 (.create { chunkSize := 8192, fileName := text "a" }),
        .resume 1 (.opened 5 0), .resume 1 .done, .resume 1 .done])).any
      (fun t => t.handlers 1 = .finished (returnError EEXIST "duplicate_token")) = true := by
    decide +kernel
  obtain ⟨t, hr, hcheck⟩ := Run.steps_of_any hrun
  exact ⟨t, hr, failed_create_spares_iff sampleServer_initial hr (of_decide_eq_true hcheck)
    (by decide)⟩

/-- A create for the file `a`, of which a chunk has arrived, is refused and leaves it empty. -/
theorem duplicate_create_truncates : ∃ ls t r, Initial sampleServer ∧
    Runs sampleConf sampleServer ls t ∧ t.handlers 2 = .finished r ∧ r.error = -EEXIST ∧
    ¬ Run.EveryStep (Run.ofStep (step sampleConf)) (SparesSessions sampleConf 2) sampleServer
      ls := by
  let before : List Label := sampleCreate ++
    [.arrive 1 (.send { fileToken := text "4" } [1, 2, 3]), .resume 1 (.wrote 3), .resume 1 .done,
      .arrive 2 (.create { chunkSize := 8192, fileName := text "a" }), .resume 2 (.opened 5 0)]
  let file := [text "p", text "a"]
  let info : FileInfo := ⟨3, 0, text "/p/a", text "/p/a", text "4", [], ⟨0, file⟩⟩
  have hrun : (Run.exec (step sampleConf) sampleServer before).any (fun u =>
      (u.handlers 2).call ≠ none ∧ u.store.fmap (text "4") = some info ∧
        u.store.os.files file = some [1, 2, 3] ∧
        (step sampleConf u (.resume 2 .done)).any fun u' => u'.store.os.files file = some []) =
      true := by decide +kernel
  have hend : (Run.exec (step sampleConf) sampleServer
      (before ++ [.resume 2 .done, .resume 2 .done])).any (fun t =>
        t.handlers 2 = .finished (returnError EEXIST "duplicate_token")) = true := by
    decide +kernel
  obtain ⟨u, hr, hcheck⟩ := Run.steps_of_any hrun
  obtain ⟨hc, hinfo, hdata, hnext⟩ := of_decide_eq_true hcheck
  obtain ⟨u', hu', hzero⟩ := (Option.any_eq_true _ _).mp hnext
  obtain ⟨t, ht, hfin⟩ := Run.steps_of_any hend
  refine ⟨_, t, _, sampleServer_initial, ht, of_decide_eq_true hfin, rfl, fun hspare => ?_⟩
  have hun := hspare before (.resume 2 .done) [.resume 2 .done] u rfl hr .done u' rfl hc hu'
  have hfile := hun.2 (text "4") info hinfo
  rw [of_decide_eq_true hzero, hdata] at hfile
  cases hfile

end Fcopy
