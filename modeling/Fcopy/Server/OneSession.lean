import Fcopy.Server.Sound

/-! One session for each file.

    The table is keyed by the hash of the path as it is spelled, so it takes two spellings of one file
    for two files. An insertion that meets a session of the same file under another spelling
    (`Respelled`) is the only step that gives a file a second session, and then it always does: the
    runs in which every file has one session at most, and every create that finds one is refused, are
    the runs without such an insertion. -/

namespace Fcopy
open Function

variable {conf : Conf} {s s' : Server} {l : Label}

/-- Two spellings of one path: the same after resolving `.`, `..` and repeated separators, or the same
    file to the operating system. -/
def Alias (p q : Bytes) : Prop := normal p = normal q ∨ fileOf p = fileOf q

instance (p q : Bytes) : Decidable (Alias p q) := inferInstanceAs (Decidable (_ ∨ _))

/-- No two sessions are of the same file. -/
def OneSession (s : Server) : Prop :=
  ∀ token token' info info', s.store.fmap token = some info → s.store.fmap token' = some info' →
    Alias info.filePath info'.filePath → token = token'

/-- If the step checks for a session of the file of a create, and there is one, the create is refused
    with `-EEXIST`. -/
def RefusesSecond (conf : Conf) (s : Server) (l : Label) : Prop :=
  ∀ i c fd desc token info s', l = .resume i .done → s.handlers i = .createInsert c fd desc →
    s.store.fmap token = some info → Alias info.filePath c.path → step conf s l = some s' →
    s'.handlers i = .finished ⟨-EEXIST, (returnError EEXIST "duplicate_token").fileToken⟩ ∧
      s'.store.fmap = s.store.fmap

/-- The step inserts a session for a path that has one under another spelling, and another token. -/
def Respelled (s : Server) (l : Label) : Prop :=
  ∃ i c fd desc token info, l = .resume i .done ∧ s.handlers i = .createInsert c fd desc ∧
    s.store.fmap token = some info ∧ Alias info.filePath c.path ∧ info.filePath ≠ c.path ∧
    s.store.fmap c.token = none

/-- A session for the path as it is spelled has the token of the create. -/
theorem Sound.token_taken (hs : Sound conf s) {i : ℕ} {c : CreateCall} {fd : ℕ} {desc : Desc}
    {token : Bytes} {info : FileInfo} (hi : s.handlers i = .createInsert c fd desc)
    (ht : s.store.fmap token = some info) (hp : info.filePath = c.path) : token = c.token := by
  rw [(hs.session token info ht).1, hs.token i c (by rw [hi]; rfl), hp]

/-- A create that finds a session of its file has its token taken, unless it is respelled. -/
theorem Sound.insert_taken (hs : Sound conf s) {i : ℕ} {c : CreateCall} {fd : ℕ} {desc : Desc}
    {token : Bytes} {info : FileInfo} (hl : ¬ Respelled s (.resume i .done))
    (hi : s.handlers i = .createInsert c fd desc) (ht : s.store.fmap token = some info)
    (ha : Alias info.filePath c.path) : s.store.fmap c.token ≠ none := by
  intro hnone
  by_cases hp : info.filePath = c.path
  · rw [hs.token_taken hi ht hp, hnone] at ht
    cases ht
  · exact hl ⟨i, c, fd, desc, token, info, rfl, hi, ht, ha, hp, hnone⟩

/-- Every step but a respelled insertion leaves each file with one session. -/
theorem OneSession.preserved (hone : OneSession s) (hs : Sound conf s) (hl : ¬ Respelled s l)
    (h : step conf s l = some s') : OneSession s' := by
  rcases step_cases h with ⟨i, req, rfl, _, rfl⟩ | ⟨i, a, st', h', rfl, heff, rfl⟩
  · intro token token' info info' ht ht' ha
    obtain ⟨old, hold, hinfo⟩ := accept_session s.store req token ht
    obtain ⟨old', hold', hinfo'⟩ := accept_session s.store req token' ht'
    rw [hinfo, hinfo'] at ha
    exact hone token token' old old' hold hold' ha
  generalize hi : s.handlers i = hd at heff
  cases heff with
  | inserted c fd desc hnew =>
    have hfree : ∀ token info, s.store.fmap token = some info → ¬ Alias info.filePath c.path :=
      fun token info ht ha => hs.insert_taken hl hi ht ha hnew
    intro token token' info info' ht ht' ha
    by_cases htok : token = c.token <;> by_cases htok' : token' = c.token
    · rw [htok, htok']
    · subst htok
      simp only [update_self, Option.some.injEq] at ht
      simp only [update_of_ne htok'] at ht'
      subst ht
      exact absurd (ha.imp Eq.symm Eq.symm) (hfree token' info' ht')
    · subst htok'
      simp only [update_self, Option.some.injEq] at ht'
      simp only [update_of_ne htok] at ht
      subst ht'
      exact absurd ha (hfree token info ht)
    · simp only [update_of_ne htok] at ht
      simp only [update_of_ne htok'] at ht'
      exact hone token token' info info' ht ht' ha
  | erased tok reply old hold =>
    have hback : ∀ token info, update s.store.fmap tok none token = some info →
        s.store.fmap token = some info := by
      intro token info ht
      by_cases htok : token = tok
      · subst htok
        rw [update_self] at ht
        cases ht
      · rwa [update_of_ne htok] at ht
    exact fun token token' info info' ht ht' =>
      hone token token' info info' (hback _ _ ht) (hback _ _ ht')
  | _ => exact hone

/-- A respelled insertion gives its file a second session. -/
theorem Respelled.not_oneSession (hl : Respelled s l) (h : step conf s l = some s') :
    ¬ OneSession s' := by
  obtain ⟨i, c, fd, desc, token, info, rfl, hi, ht, ha, _, hnone⟩ := hl
  rcases step_cases h with ⟨_, _, hl, _⟩ | ⟨_, _, st', h', hl, heff, rfl⟩ <;> cases hl
  rw [hi] at heff
  cases heff with
  | duplicate _ _ _ old hdup =>
    rw [hnone] at hdup
    cases hdup
  | inserted =>
    intro hone
    have hne : token ≠ c.token := by
      rintro rfl
      rw [hnone] at ht
      cases ht
    exact hne (hone token c.token info _ (by simp only [update_of_ne hne, ht]) (update_self ..) ha)

theorem Sound.refusesSecond (hs : Sound conf s) (hl : ¬ Respelled s l) : RefusesSecond conf s l := by
  rintro i c fd desc token info s' rfl hi ht ha h
  rcases step_cases h with ⟨_, _, hl, _⟩ | ⟨_, _, st', h', hl, heff, rfl⟩ <;> cases hl
  rw [hi] at heff
  cases heff with
  | duplicate => exact ⟨update_self .., rfl⟩
  | inserted _ _ _ hnew => exact absurd hnew (hs.insert_taken hl hi ht ha)

/-- CORRECT (one session for each file): in a run of the server from its start, no state has two
    sessions of one file and every create that finds a session of its file is refused with `-EEXIST`,
    if and only if no session is inserted while one of the same file is in the table under another
    spelling of the path. -/
theorem one_session_iff {t : Server} {ls : List Label} (h₀ : Initial s) (hr : Runs conf s ls t) :
    Run.Everywhere (Run.ofStep (step conf)) OneSession s ls ∧
        Run.EveryStep (Run.ofStep (step conf)) (RefusesSecond conf) s ls ↔
      Run.EveryStep (Run.ofStep (step conf)) (fun u l => ¬ Respelled u l) s ls := by
  have hstart : Sound conf s ∧ OneSession s :=
    ⟨h₀.sound, fun token _ info _ ht => by rw [h₀.fmap] at ht; cases ht⟩
  have hone := Run.everywhere_iff (P := OneSession) (I := fun u => Sound conf u ∧ OneSession u)
    (fun _ _ _ hs hl h => ⟨hs.1.preserved h, hs.2.preserved hs.1 hl h⟩) (fun _ hs => hs.2)
    (fun _ _ _ _ hl h => (not_not.mp hl).not_oneSession h) hr hstart
  rw [hone]
  exact and_iff_left_of_imp fun hl ls₁ l ls₂ u hls hu =>
    (sound_run h₀ hu).refusesSecond (hl ls₁ l ls₂ u hls hu)

/-- The file `a` is created and closed. -/
theorem one_session_iff_close : ∃ t,
    let ls := sampleCreate ++ [.arrive 1 (.close { waitClose := 1, fileToken := text "4" }),
      .resume 1 .done, .resume 1 .done, .resume 1 .done]
    Runs sampleConf sampleServer ls t ∧
      (Run.Everywhere (Run.ofStep (step sampleConf)) OneSession sampleServer ls ∧
          Run.EveryStep (Run.ofStep (step sampleConf)) (RefusesSecond sampleConf) sampleServer ls ↔
        Run.EveryStep (Run.ofStep (step sampleConf)) (fun u l => ¬ Respelled u l) sampleServer
          ls) := by
  obtain ⟨t, ht⟩ := Option.isSome_iff_exists.mp
    (by decide +kernel : (Run.exec (step sampleConf) sampleServer (sampleCreate ++
      [.arrive 1 (.close { waitClose := 1, fileToken := text "4" }),
        .resume 1 .done, .resume 1 .done, .resume 1 .done])).isSome = true)
  have hr := Run.steps_iff_exec.mpr ht
  exact ⟨t, hr, one_session_iff sampleServer_initial hr⟩

/-- The file `a` is created with the relative paths `` and `.`, and has two sessions. -/
theorem dot_has_two_sessions : ∃ ls t, Initial sampleServer ∧ Runs sampleConf sampleServer ls t ∧
    ¬ OneSession t := by
  let ls : List Label := sampleCreate ++ [.arrive 1 (.create
    { chunkSize := 8192, relativePath := text ".", fileName := text "a" }),
      .resume 1 (.opened 5 0), .resume 1 .done, .resume 1 .done]
  have hrun : (Run.exec (step sampleConf) sampleServer ls).any (fun t =>
      t.store.fmap (text "4") = some ⟨3, 0, text "/p/a", text "/p/a", text "4", [],
        ⟨0, [text "p", text "a"]⟩⟩ ∧
      t.store.fmap (text "6") = some ⟨5, 0, text "/p/./a", text "/p/./a", text "6", [],
        ⟨1, [text "p", text "a"]⟩⟩) = true := by decide +kernel
  obtain ⟨t, hr, hcheck⟩ := Run.steps_of_any hrun
  obtain ⟨h₁, h₂⟩ := of_decide_eq_true hcheck
  refine ⟨ls, t, sampleServer_initial, hr, fun hone => ?_⟩
  exact absurd (hone _ _ _ _ h₁ h₂ (by decide +kernel)) (by decide +kernel)

end Fcopy
