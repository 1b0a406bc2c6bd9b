import Mathlib.Logic.Basic
import Mathlib.Data.Nat.Notation

/-! Runs of a labelled transition relation.

    `Steps R s ls t` says that the labels `ls`, taken in order, lead from `s` to `t`. What a step
    preserves a run preserves (`Steps.invariant`). `Everywhere` speaks of all states of a run and
    `EveryStep` of all its steps, each with the state it is taken in. A property of states that one
    kind of step breaks for good, and that an invariant of all other steps implies, holds everywhere
    in exactly the runs without such a step (`everywhere_iff`).

    An `Execution` goes on for ever; a run is an execution that pauses at its end
    (`execution_of_exec`). -/

namespace Run

variable {S L : Type*}

inductive Steps (R : S → L → S → Prop) : S → List L → S → Prop
  | nil (s : S) : Steps R s [] s
  | cons {s t u : S} {l : L} {ls : List L} (hl : R s l t) (hls : Steps R t ls u) :
      Steps R s (l :: ls) u

/-- The steps of a partial function. -/
def ofStep (f : S → L → Option S) : S → L → S → Prop := fun s l t => f s l = some t

/-- A partial step function on a list of labels. -/
def exec (f : S → L → Option S) : S → List L → Option S
  | s, [] => some s
  | s, l :: ls => (f s l).bind fun t => exec f t ls

/-- A run whose steps pass a check. -/
def execIf (f : S → L → Option S) (g : S → L → Bool) : S → List L → Option S
  | s, [] => some s
  | s, l :: ls => if g s l then (f s l).bind fun t => execIf f g t ls else none

variable {R : S → L → S → Prop} {f : S → L → Option S}

/-- The invariant rule. -/
theorem Steps.invariant {P : S → Prop} (hstep : ∀ s l t, P s → R s l t → P t) {s t : S}
    {ls : List L} (h : Steps R s ls t) (hs : P s) : P t := by
  induction h with
  | nil s => exact hs
  | cons hl _ ih => exact ih (hstep _ _ _ hs hl)

theorem Steps.append {s t u : S} {ls ms : List L} (h : Steps R s ls t) (h' : Steps R t ms u) :
    Steps R s (ls ++ ms) u := by
  induction h with
  | nil s => exact h'
  | cons hl _ ih => exact .cons hl (ih h')

theorem Steps.split {s u : S} : ∀ {ls ms : List L}, Steps R s (ls ++ ms) u →
    ∃ t, Steps R s ls t ∧ Steps R t ms u
  | [], _, h => ⟨s, .nil s, h⟩
  | _ :: _, _, .cons hl h => by
    obtain ⟨t, h₁, h₂⟩ := h.split
    exact ⟨t, .cons hl h₁, h₂⟩

theorem steps_iff_exec {s t : S} : ∀ {ls : List L}, Steps (ofStep f) s ls t ↔ exec f s ls = some t
  | [] => ⟨fun h => by cases h; rfl, fun h => by cases h; exact .nil s⟩
  | l :: ls => by
    rw [exec, Option.bind_eq_some_iff]
    constructor
    · rintro (_ | ⟨hl, hls⟩)
      exact ⟨_, hl, steps_iff_exec.mp hls⟩
    · rintro ⟨u, hl, hls⟩
      exact .cons hl (steps_iff_exec.mpr hls)

/-- A run whose end passes a check. -/
theorem steps_of_any {p : S → Bool} {s : S} {ls : List L} (h : (exec f s ls).any p = true) :
    ∃ t, Steps (ofStep f) s ls t ∧ p t = true := by
  obtain ⟨t, ht, hp⟩ := (Option.any_eq_true _ _).mp h
  exact ⟨t, steps_iff_exec.mpr ht, hp⟩

/-- A step function leaves no choice: the labels fix where a run ends. -/
theorem Steps.unique {s t u : S} {ls : List L} (h : Steps (ofStep f) s ls t)
    (h' : Steps (ofStep f) s ls u) : t = u :=
  Option.some.inj ((steps_iff_exec.mp h).symm.trans (steps_iff_exec.mp h'))

/-! ### Properties of whole runs -/

/-- `P` holds in every state of the run from `s` with labels `ls`. -/
def Everywhere (R : S → L → S → Prop) (P : S → Prop) (s : S) (ls : List L) : Prop :=
  ∀ ls₁ ls₂ t, ls = ls₁ ++ ls₂ → Steps R s ls₁ t → P t

/-- `G` holds of every step of the run from `s` with labels `ls`. -/
def EveryStep (R : S → L → S → Prop) (G : S → L → Prop) (s : S) (ls : List L) : Prop :=
  ∀ ls₁ l ls₂ t, ls = ls₁ ++ l :: ls₂ → Steps R s ls₁ t → G t l

theorem EveryStep.tail {G : S → L → Prop} {s t : S} {l : L} {ls : List L}
    (h : EveryStep R G s (l :: ls)) (hl : R s l t) : EveryStep R G t ls :=
  fun ls₁ m ls₂ u heq hu => h (l :: ls₁) m ls₂ u (by rw [heq]; rfl) (.cons hl hu)

theorem EveryStep.take {G : S → L → Prop} {s : S} {ls₁ ls₂ : List L}
    (h : EveryStep R G s (ls₁ ++ ls₂)) : EveryStep R G s ls₁ :=
  fun ms m ms' u heq hu => h ms m (ms' ++ ls₂) u (by rw [heq, List.append_assoc]; rfl) hu

theorem EveryStep.drop {G : S → L → Prop} {s t : S} {ls₁ ls₂ : List L}
    (h : EveryStep R G s (ls₁ ++ ls₂)) (ht : Steps R s ls₁ t) : EveryStep R G t ls₂ :=
  fun ms m ms' u heq hu => h (ls₁ ++ ms) m ms' u (by rw [heq, List.append_assoc]) (ht.append hu)

theorem EveryStep.and {G H : S → L → Prop} {s : S} {ls : List L} (hG : EveryStep R G s ls)
    (hH : EveryStep R H s ls) : EveryStep R (fun s l => G s l ∧ H s l) s ls :=
  fun ls₁ l ls₂ t heq ht => ⟨hG ls₁ l ls₂ t heq ht, hH ls₁ l ls₂ t heq ht⟩

theorem EveryStep.imp {G H : S → L → Prop} {s : S} {ls : List L} (hG : EveryStep R G s ls)
    (h : ∀ s l, G s l → H s l) : EveryStep R H s ls :=
  fun ls₁ l ls₂ t heq ht => h t l (hG ls₁ l ls₂ t heq ht)

/-- A condition on labels holds of every step when it holds of every label. -/
theorem Steps.everyStep_label_iff {g : L → Prop} {s t : S} {ls : List L} (h : Steps R s ls t) :
    EveryStep R (fun _ l => g l) s ls ↔ ∀ l ∈ ls, g l := by
  constructor
  · intro hg l hl
    obtain ⟨ls₁, ls₂, rfl⟩ := List.append_of_mem hl
    obtain ⟨u, hu, _⟩ := h.split
    exact hg ls₁ l ls₂ u rfl hu
  · intro hg ls₁ l ls₂ u heq _
    exact hg l (heq ▸ List.mem_append_right _ List.mem_cons_self)

/-- The invariant rule for runs whose steps all meet a condition. -/
theorem Steps.guarded {G : S → L → Prop} {P : S → Prop}
    (hstep : ∀ s l t, P s → G s l → R s l t → P t) {s t : S} {ls : List L} (h : Steps R s ls t)
    (hg : EveryStep R G s ls) (hs : P s) : P t := by
  induction h with
  | nil s => exact hs
  | cons hl _ ih => exact ih (hg.tail hl) (hstep _ _ _ hs (hg [] _ _ _ rfl (.nil _)) hl)

/-- The invariant rule for what is said of a state and of the labels that led to it. -/
theorem Steps.recorded {G : S → L → Prop} {P : List L → S → Prop}
    (hstep : ∀ ms s l t, P ms s → G s l → R s l t → P (ms ++ [l]) t) {s t : S} {ls : List L}
    (h : Steps R s ls t) (hg : EveryStep R G s ls) {ms : List L} (hs : P ms s) : P (ms ++ ls) t := by
  induction h generalizing ms with
  | nil s =>
    rw [List.append_nil]
    exact hs
  | @cons s _ _ l _ hl _ ih =>
    have h := ih (hg.tail hl) (hstep _ _ _ _ hs (hg [] _ _ _ rfl (.nil _)) hl)
    rwa [List.append_assoc] at h

/-- A run is no longer than the rank it uses up. -/
theorem Steps.length_add_rank_le {G : S → L → Prop} {P : S → Prop} {rank : S → ℕ}
    (hstep : ∀ s l t, P s → G s l → R s l t → P t) (hrank : ∀ s l t, P s → R s l t → rank t < rank s)
    {s t : S} {ls : List L} (h : Steps R s ls t) (hg : EveryStep R G s ls) (hs : P s) :
    ls.length + rank t ≤ rank s := by
  induction h with
  | nil s => simp
  | cons hl _ ih =>
    have hrest := ih (hg.tail hl) (hstep _ _ _ hs (hg [] _ _ _ rfl (.nil _)) hl)
    have hlt := hrank _ _ _ hs hl
    rw [List.length_cons]
    omega

/-- A run has no more steps of a kind than the rank they use up, where no step raises it. -/
theorem Steps.countP_add_rank_le {P : S → Prop} {kind : L → Bool} {rank : S → ℕ}
    (hstep : ∀ s l t, P s → R s l t → P t ∧ rank t + (if kind l then 1 else 0) ≤ rank s) {s t : S}
    {ls : List L} (h : Steps R s ls t) (hs : P s) : P t ∧ ls.countP kind + rank t ≤ rank s := by
  induction h with
  | nil s => exact ⟨hs, by simp⟩
  | cons hl _ ih =>
    obtain ⟨ht, hle⟩ := hstep _ _ _ hs hl
    obtain ⟨hend, hrest⟩ := ih ht
    refine ⟨hend, ?_⟩
    rw [List.countP_cons]
    omega

/-- A goal that can be come nearer to from everywhere can be reached. -/
theorem exists_goal {P Q : S → Prop} {rank : S → ℕ}
    (hnear : ∀ s, P s → Q s ∨ ∃ ls t, Steps R s ls t ∧ P t ∧ rank t < rank s) {s : S} (hs : P s) :
    ∃ ls t, Steps R s ls t ∧ P t ∧ Q t := by
  induction hn : rank s using Nat.strongRecOn generalizing s with
  | ind n ih =>
    rcases hnear s hs with hgoal | ⟨ls, t, hls, ht, hlt⟩
    · exact ⟨[], s, .nil s, hs, hgoal⟩
    · obtain ⟨ms, u, hms, hu, hgoal⟩ := ih (rank t) (hn ▸ hlt) ht rfl
      exact ⟨ls ++ ms, u, hls.append hms, hu, hgoal⟩

/-- A run that cannot go on: a rank that every step lowers is used up at some point. -/
theorem exists_end {P : S → Prop} {rank : S → ℕ} (hstep : ∀ s l t, P s → R s l t → P t)
    (hrank : ∀ s l t, P s → R s l t → rank t < rank s) {s : S} (hs : P s) :
    ∃ ls t, Steps R s ls t ∧ ∀ l u, ¬R t l u := by
  induction hn : rank s using Nat.strongRecOn generalizing s with
  | ind n ih =>
    by_cases hnext : ∃ l t, R s l t
    · obtain ⟨l, t, hl⟩ := hnext
      obtain ⟨ls, u, hls, hend⟩ := ih (rank t) (hn ▸ hrank s l t hs hl) (hstep s l t hs hl) rfl
      exact ⟨l :: ls, u, .cons hl hls, hend⟩
    · exact ⟨[], s, .nil s, fun l u hl => hnext ⟨l, u, hl⟩⟩

theorem EveryStep.cons {G : S → L → Prop} {s : S} {l : L} {ls : List L} (hl : G s l)
    (h : ∀ t, R s l t → EveryStep R G t ls) : EveryStep R G s (l :: ls) := by
  intro ls₁ m ls₂ u heq hu
  cases hu with
  | nil =>
    cases heq
    exact hl
  | cons hm hms =>
    cases heq
    exact h _ hm _ _ _ _ rfl hms

/-- A run whose steps pass a check, where the check suffices as long as an invariant holds. -/
theorem of_execIf {g : S → L → Bool} {G : S → L → Prop} {I : S → Prop}
    (hg : ∀ s l, I s → g s l = true → G s l)
    (hI : ∀ s l t, I s → g s l = true → f s l = some t → I t) {s t : S} (hs : I s) :
    ∀ {ls : List L}, execIf f g s ls = some t →
      Steps (ofStep f) s ls t ∧ EveryStep (ofStep f) G s ls
  | [], h => by
    cases h
    exact ⟨.nil s, fun ls₁ l ls₂ t heq => absurd heq (by simp)⟩
  | l :: ls, h => by
    rw [execIf] at h
    split at h
    · rename_i hl
      obtain ⟨u, hu, hrest⟩ := Option.bind_eq_some_iff.mp h
      obtain ⟨hsteps, hevery⟩ := of_execIf hg hI (hI s l u hs hl hu) hrest
      refine ⟨.cons hu hsteps, .cons (hg s l hs hl) fun v hv => ?_⟩
      cases hu.symm.trans hv
      exact hevery
    · cases h

/-- The simulation rule: a step that is matched by one step of another machine, or by none, is matched
    in every run; where conditions on the steps go over to the matching steps, so they do for the runs. -/
theorem Steps.simulate {S' L' : Type*} {g : S' → L' → Option S'} {I : S → S' → Prop}
    {G : S → L → Prop} {H : S' → L' → Prop}
    (hstep : ∀ s l t u, I s u → R s l t →
      I t u ∨ ∃ m v, g u m = some v ∧ I t v ∧ (G s l → H u m)) {s t : S} {ls : List L}
    (h : Steps R s ls t) {u : S'} (hs : I s u) :
    ∃ ms v, Steps (ofStep g) u ms v ∧ I t v ∧
      (EveryStep R G s ls → EveryStep (ofStep g) H u ms) := by
  induction h generalizing u with
  | nil s => exact ⟨[], u, .nil u, hs, fun _ ls₁ l ls₂ t heq => absurd heq (by simp)⟩
  | cons hl _ ih =>
    rcases hstep _ _ _ u hs hl with ht | ⟨m, v, hm, ht, hgh⟩
    · obtain ⟨ms, w, hms, hw, hevery⟩ := ih ht
      exact ⟨ms, w, hms, hw, fun hg => hevery (hg.tail hl)⟩
    · obtain ⟨ms, w, hms, hw, hevery⟩ := ih ht
      refine ⟨m :: ms, w, .cons hm hms, hw, fun hg => .cons (hgh (hg [] _ _ _ rfl (.nil _))) ?_⟩
      intro v' hv'
      cases hm.symm.trans hv'
      exact hevery (hg.tail hl)

/-- CORRECT (exact condition): where steps that meet `G` keep an invariant that implies `P`, and a step
    that does not meet it ends outside `P`, the runs with `P` everywhere are those of steps in `G`. -/
theorem everywhere_iff {G : S → L → Prop} {I P : S → Prop}
    (hstep : ∀ s l t, I s → G s l → f s l = some t → I t) (hI : ∀ s, I s → P s)
    (hbad : ∀ s l t, I s → ¬ G s l → f s l = some t → ¬ P t) {s u : S} {ls : List L}
    (h : Steps (ofStep f) s ls u) (hs : I s) :
    Everywhere (ofStep f) P s ls ↔ EveryStep (ofStep f) G s ls := by
  constructor
  · intro hP
    induction h with
    | nil s => exact fun ls₁ l ls₂ t heq _ => absurd heq (by simp)
    | @cons s t u l ls hl hls ih =>
      have hG : G s l :=
        Classical.byContradiction fun hG =>
          hbad s l t hs hG hl (hP [l] ls t rfl (.cons hl (.nil t)))
      have hrest := ih (hstep s l t hs hG hl) fun ls₁ ls₂ v heq hv =>
        hP (l :: ls₁) ls₂ v (by rw [heq]; rfl) (.cons hl hv)
      intro ls₁ m ls₂ v heq hv
      cases hv with
      | nil =>
        cases heq
        exact hG
      | cons hm hms =>
        cases heq
        cases hl.symm.trans hm
        exact hrest _ m ls₂ v rfl hms
  · intro hG ls₁ ls₂ t heq ht
    subst heq
    exact hI t (ht.guarded hstep hG.take hs)

/-! ### Executions -/

/-- Each label leads from one state to the next; `none` is a pause. -/
def Execution (f : S → L → Option S) (ss : ℕ → S) (ls : ℕ → Option L) : Prop :=
  ∀ n, match ls n with
    | none => ss (n + 1) = ss n
    | some l => f (ss n) l = some (ss (n + 1))

variable {ss : ℕ → S} {ls : ℕ → Option L}

theorem Execution.step (h : Execution f ss ls) (n : ℕ) :
    ss (n + 1) = ss n ∨ ∃ l, ls n = some l ∧ f (ss n) l = some (ss (n + 1)) := by
  have hn := h n
  split at hn
  · exact .inl hn
  · rename_i l hl
    exact .inr ⟨l, hl, hn⟩

/-- The invariant rule for executions, from any moment on. -/
theorem Execution.onward {P : S → Prop} (h : Execution f ss ls)
    (hstep : ∀ s l t, P s → f s l = some t → P t) {m n : ℕ} (hmn : m ≤ n) (hm : P (ss m)) :
    P (ss n) := by
  induction hmn with
  | refl => exact hm
  | @step n _ ih =>
    rcases h.step n with heq | ⟨l, _, hl⟩
    · rw [Nat.succ_eq_add_one, heq]
      exact ih
    · exact hstep _ l _ ih hl

/-- What does not hold at first and holds later begins with a step. -/
theorem Execution.begins {P : S → Prop} (h : Execution f ss ls) (h₀ : ¬P (ss 0)) {n : ℕ}
    (hn : P (ss n)) : ∃ m l, m < n ∧ ls m = some l ∧ f (ss m) l = some (ss (m + 1)) ∧ ¬P (ss m) ∧
      P (ss (m + 1)) := by
  induction n with
  | zero => exact absurd hn h₀
  | succ n ih =>
    by_cases hlast : P (ss n)
    · obtain ⟨m, l, hm, hrest⟩ := ih hlast
      exact ⟨m, l, by omega, hrest⟩
    · rcases h.step n with heq | ⟨l, hl, hstep⟩
      · rw [heq] at hn
        exact absurd hn hlast
      · exact ⟨n, l, by omega, hl, hstep, hlast, hn⟩

theorem exec_take {s : S} {ls : List L} (h : (exec f s ls).isSome) (n : ℕ) :
    (exec f s (ls.take n)).isSome := by
  obtain ⟨t, ht⟩ := Option.isSome_iff_exists.mp h
  rw [← List.take_append_drop n ls] at ht
  obtain ⟨u, hu, _⟩ := (steps_iff_exec.mpr ht).split
  rw [steps_iff_exec.mp hu]
  rfl

/-- A run, followed by pauses. -/
theorem execution_of_exec {s : S} {ls : List L} (h : (exec f s ls).isSome) :
    Execution f (fun n => (exec f s (ls.take n)).getD s) fun n => ls[n]? := by
  intro n
  obtain ⟨t, ht⟩ := Option.isSome_iff_exists.mp (exec_take h n)
  obtain ⟨u, hu⟩ := Option.isSome_iff_exists.mp (exec_take h (n + 1))
  simp only [ht, hu, Option.getD_some]
  cases hl : ls[n]? with
  | none =>
    have hlen := List.getElem?_eq_none_iff.mp hl
    rw [List.take_of_length_le hlen] at ht
    rw [List.take_of_length_le (by omega)] at hu
    exact Option.some.inj (hu.symm.trans ht)
  | some l =>
    rw [List.take_add_one, hl] at hu
    obtain ⟨t', ht', hlast⟩ := (steps_iff_exec.mpr hu).split
    cases (steps_iff_exec.mpr ht).unique ht'
    cases hlast with
    | cons hstep hnil =>
      cases hnil
      exact hstep

end Run
