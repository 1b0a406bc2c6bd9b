import Mathlib.Logic.Function.Basic

/-! Owners of numbered resources.

    A table `live` gives out numbers; every number in use stands for some object. Owners each hold at
    most one pair of a number and the object it stands for. `Exclusive` says that what is held is live
    and that no number is held twice, and each `Move` keeps it: taking a free number, handing a
    resource on, giving it back, using up a number nobody holds.

    Others may borrow from an owner that lends. They keep a copy of the pair, so their number stays
    right as long as nothing lent is given back (`Move.lent`).

    A list of the numbers taken and not yet given back, kept by comparing `live` before and after each
    move, is the list of the numbers held as long as nobody loses one (`Move.accounts`). So then the table
    is what it was at the start but for what is held (`Move.grown`). -/

namespace Ownership

variable {O K V : Type*}

/-- What is held is live, and no number has two holders. -/
structure Exclusive (own : O → Option (K × V)) (live : K → Option V) : Prop where
  live : ∀ o k v, own o = some (k, v) → live k = some v
  unique : ∀ o o' k v v', own o = some (k, v) → own o' = some (k, v') → o = o'

/-- Every borrowed pair is held by an owner that lends. -/
def Lent {B : Type*} (lends : O → Prop) (own : O → Option (K × V)) (borrow : B → Option (K × V)) :
    Prop :=
  ∀ b x, borrow b = some x → ∃ o, lends o ∧ own o = some x

variable [DecidableEq O] [DecidableEq K]
open Function

/-- The ways ownership changes. The tag is the owner that gives its resource back, if one does. What
    an owner that lends hands on goes to one that lends. -/
inductive Move (lends : O → Prop) (own : O → Option (K × V)) (live : K → Option V) :
    Option O → (O → Option (K × V)) → (K → Option V) → Prop
  | same : Move lends own live none own live
  | acquire (o : O) (k : K) (v : V) (ho : own o = none) (hk : live k = none) :
      Move lends own live none (update own o (some (k, v))) (update live k (some v))
  | leak (k : K) (v : V) (hk : live k = none) :
      Move lends own live none own (update live k (some v))
  | transfer (o o' : O) (x : K × V) (ho : own o = some x) (ho' : own o' = none)
      (hl : lends o → lends o') :
      Move lends own live none (update (update own o none) o' (some x)) live
  | release (o : O) (k : K) (v : V) (ho : own o = some (k, v)) :
      Move lends own live (some o) (update own o none) (update live k none)

variable {lends : O → Prop} {own own' : O → Option (K × V)} {live live' : K → Option V}
  {gone : Option O}

theorem Move.exclusive (hm : Move lends own live gone own' live') (he : Exclusive own live) :
    Exclusive own' live' := by
  obtain ⟨hlive, huniq⟩ := he
  cases hm with
  | same => exact ⟨hlive, huniq⟩
  | leak k v hk =>
    refine ⟨fun o k' v' ho => ?_, huniq⟩
    have := hlive o k' v' ho
    rw [update_of_ne (by rintro rfl; rw [hk] at this; cases this)]
    exact this
  | acquire o k v ho hk =>
    have hfree : ∀ o' v', own o' ≠ some (k, v') := by
      intro o' v' h
      have := hlive o' k v' h
      rw [hk] at this
      cases this
    refine ⟨fun o' k' v' h => ?_, fun o₁ o₂ k' v₁ v₂ h₁ h₂ => ?_⟩
    · by_cases hoo : o' = o
      · subst hoo
        rw [update_self] at h
        cases h
        exact update_self ..
      · rw [update_of_ne hoo] at h
        rw [update_of_ne (by rintro rfl; exact hfree _ _ h)]
        exact hlive o' k' v' h
    · by_cases h₁o : o₁ = o <;> by_cases h₂o : o₂ = o
      · rw [h₁o, h₂o]
      · subst h₁o
        rw [update_self] at h₁
        rw [update_of_ne h₂o] at h₂
        cases h₁
        exact absurd h₂ (hfree _ _)
      · subst h₂o
        rw [update_self] at h₂
        rw [update_of_ne h₁o] at h₁
        cases h₂
        exact absurd h₁ (hfree _ _)
      · rw [update_of_ne h₁o] at h₁
        rw [update_of_ne h₂o] at h₂
        exact huniq _ _ _ _ _ h₁ h₂
  | transfer o o' x ho ho' _ =>
    -- whoever holds a number afterwards stands for the one that held it before
    have hback : ∀ p y, update (update own o none) o' (some x) p = some y →
        ∃ q, own q = some y ∧ (p = o' ∧ q = o ∨ p = q ∧ p ≠ o') := by
      intro p y h
      by_cases hp : p = o'
      · subst hp
        rw [update_self] at h
        exact ⟨o, by rw [ho, h], .inl ⟨rfl, rfl⟩⟩
      · rw [update_of_ne hp] at h
        by_cases hpo : p = o
        · subst hpo
          rw [update_self] at h
          cases h
        · rw [update_of_ne hpo] at h
          exact ⟨p, h, .inr ⟨rfl, hp⟩⟩
    have hne : ∀ p y, update (update own o none) o' (some x) p = some y → p ≠ o' → p ≠ o := by
      rintro p y h hp rfl
      rw [update_of_ne hp, update_self] at h
      cases h
    refine ⟨fun p k v h => ?_, fun p p' k v v' h h' => ?_⟩
    · obtain ⟨q, hq, _⟩ := hback p _ h
      exact hlive q k v hq
    · obtain ⟨q, hq, hp⟩ := hback p _ h
      obtain ⟨q', hq', hp'⟩ := hback p' _ h'
      have hqq := huniq _ _ _ _ _ hq hq'
      rcases hp with ⟨rfl, rfl⟩ | ⟨rfl, hp⟩ <;> rcases hp' with ⟨rfl, rfl⟩ | ⟨rfl, hp'⟩
      · rfl
      · exact absurd hqq.symm (hne _ _ h' hp')
      · exact absurd hqq (hne _ _ h hp)
      · exact hqq
  | release o k v ho =>
    have hne : ∀ p y, update own o none p = some y → p ≠ o ∧ own p = some y := by
      intro p y h
      by_cases hp : p = o
      · subst hp
        rw [update_self] at h
        cases h
      · rw [update_of_ne hp] at h
        exact ⟨hp, h⟩
    refine ⟨fun p k' v' h => ?_, fun p p' k' v₁ v₂ h₁ h₂ => ?_⟩
    · obtain ⟨hp, h⟩ := hne p _ h
      rw [update_of_ne (by rintro rfl; exact hp (huniq _ _ _ _ _ h ho))]
      exact hlive p k' v' h
    · exact huniq _ _ _ _ _ (hne p _ h₁).2 (hne p' _ h₂).2

/-- What is held after a move was held before, or is a number just taken. -/
theorem Move.origin (hm : Move lends own live gone own' live') {o : O} {k : K} {v : V}
    (ho : own' o = some (k, v)) :
    (∃ p, own p = some (k, v)) ∨ live k = none ∧ live' k = some v := by
  cases hm with
  | same => exact .inl ⟨o, ho⟩
  | leak => exact .inl ⟨o, ho⟩
  | acquire p k' v' hp hk =>
    by_cases hop : o = p
    · subst hop
      rw [update_self] at ho
      cases ho
      exact .inr ⟨hk, update_self ..⟩
    · rw [update_of_ne hop] at ho
      exact .inl ⟨o, ho⟩
  | transfer p p' x hp hp' hpl =>
    by_cases hop' : o = p'
    · subst hop'
      rw [update_self] at ho
      exact .inl ⟨p, hp.trans ho⟩
    rw [update_of_ne hop'] at ho
    by_cases hop : o = p
    · subst hop
      rw [update_self] at ho
      cases ho
    · rw [update_of_ne hop] at ho
      exact .inl ⟨o, ho⟩
  | release p k' v' hp =>
    by_cases hop : o = p
    · subst hop
      rw [update_self] at ho
      cases ho
    · rw [update_of_ne hop] at ho
      exact .inl ⟨o, ho⟩

/-- What is borrowed stays held by an owner that lends, unless it is given back while it is lent. -/
theorem Move.lent {B : Type*} {borrow : B → Option (K × V)}
    (hm : Move lends own live gone own' live') (hl : Lent lends own borrow)
    (hback : ∀ o, gone = some o → lends o → ∀ b, borrow b ≠ none → borrow b ≠ own o) :
    Lent lends own' borrow := by
  intro b x hb
  obtain ⟨o, hlo, ho⟩ := hl b x hb
  cases hm with
  | same => exact ⟨o, hlo, ho⟩
  | leak => exact ⟨o, hlo, ho⟩
  | acquire p k v hp hk =>
    exact ⟨o, hlo, by rw [update_of_ne (by rintro rfl; rw [hp] at ho; cases ho)]; exact ho⟩
  | transfer p p' y hp hp' hpl =>
    by_cases hop : o = p
    · subst hop
      have hxy : y = x := Option.some.inj (hp.symm.trans ho)
      subst hxy
      exact ⟨p', hpl hlo, update_self ..⟩
    · refine ⟨o, hlo, ?_⟩
      rw [update_of_ne (by rintro rfl; rw [hp'] at ho; cases ho), update_of_ne hop]
      exact ho
  | release p k v hp =>
    refine ⟨o, hlo, ?_⟩
    rw [update_of_ne]
    · exact ho
    · rintro rfl
      exact hback o rfl hlo b (by rw [hb]; simp) (hb.trans ho.symm)

/-- The number is held. -/
def Held (own : O → Option (K × V)) (k : K) : Prop := ∃ o v, own o = some (k, v)

/-- The number has been taken, now or before, and not been given back. -/
def taken (live live' : K → Option V) (before : K → Bool) (k : K) : Bool :=
  (live' k).isSome && (before k || (live k).isNone)

omit [DecidableEq O] [DecidableEq K] in
theorem Exclusive.live_of_held (he : Exclusive own live) {k : K} (h : Held own k) :
    live k ≠ none := by
  obtain ⟨o, v, ho⟩ := h
  rw [he.live o k v ho]
  exact Option.some_ne_none v

/-- What has been taken and not given back is what is held, if what is new is held. -/
theorem Move.accounts (hm : Move lends own live gone own' live') (he : Exclusive own live)
    (hnew : ∀ k, live k = none → live' k ≠ none → Held own' k) {before : K → Bool}
    (hb : ∀ k, before k = true ↔ Held own k) (k : K) :
    taken live live' before k = true ↔ Held own' k := by
  have hlive' := fun h => (hm.exclusive he).live_of_held (k := k) h
  by_cases h' : live' k = none
  · exact iff_of_false (by simp [taken, h']) fun h => hlive' h h'
  by_cases h : live k = none
  · exact iff_of_true (by simp [taken, h, Option.isSome_iff_ne_none, h']) (hnew k h h')
  have hbefore : taken live live' before k = true ↔ Held own k := by
    simp [taken, Option.isSome_iff_ne_none, h, h', hb]
  refine hbefore.trans ?_
  cases hm with
  | same => exact Iff.rfl
  | leak => exact Iff.rfl
  | acquire o j v ho hj =>
    constructor
    · rintro ⟨p, w, hp⟩
      exact ⟨p, w, by rw [update_of_ne (by rintro rfl; rw [ho] at hp; cases hp), hp]⟩
    · rintro ⟨p, w, hp⟩
      by_cases hpo : p = o
      · subst hpo
        rw [update_self] at hp
        cases hp
        exact absurd hj h
      · exact ⟨p, w, by rwa [update_of_ne hpo] at hp⟩
  | transfer o o' x ho ho' =>
    constructor
    · rintro ⟨p, w, hp⟩
      by_cases hpo : p = o
      · subst hpo
        exact ⟨o', w, by rw [update_self, ← ho, hp]⟩
      · exact ⟨p, w, by rw [update_of_ne (by rintro rfl; rw [ho'] at hp; cases hp),
          update_of_ne hpo, hp]⟩
    · rintro ⟨p, w, hp⟩
      by_cases hpo' : p = o'
      · subst hpo'
        rw [update_self] at hp
        exact ⟨o, w, ho.trans hp⟩
      rw [update_of_ne hpo'] at hp
      by_cases hpo : p = o
      · subst hpo
        rw [update_self] at hp
        cases hp
      · exact ⟨p, w, by rwa [update_of_ne hpo] at hp⟩
  | release o j v ho =>
    constructor
    · rintro ⟨p, w, hp⟩
      refine ⟨p, w, ?_⟩
      rw [update_of_ne, hp]
      rintro rfl
      cases ho.symm.trans hp
      rw [update_self] at h'
      exact h' rfl
    · rintro ⟨p, w, hp⟩
      refine ⟨p, w, ?_⟩
      rwa [update_of_ne] at hp
      rintro rfl
      rw [update_self] at hp
      cases hp

/-- The table is `start`, but for what is held, which was free. -/
def Grown (own : O → Option (K × V)) (start live : K → Option V) : Prop :=
  ∀ k, Held own k ∧ start k = none ∨ ¬Held own k ∧ live k = start k

/-- What nobody holds before or after a move stays as it is, if what is new is held. -/
theorem Move.unheld (hm : Move lends own live gone own' live') {k : K}
    (hnew : live k = none → live' k ≠ none → Held own' k) (h : ¬Held own k) (h' : ¬Held own' k) :
    live' k = live k := by
  cases hm with
  | same => rfl
  | transfer => rfl
  | acquire o j v ho hj =>
    by_cases hkj : k = j
    · subst hkj
      exact absurd ⟨o, v, update_self ..⟩ h'
    · exact update_of_ne hkj ..
  | leak j v hj =>
    by_cases hkj : k = j
    · subst hkj
      exact absurd (hnew hj (by rw [update_self]; simp)) h'
    · exact update_of_ne hkj ..
  | release o j v ho =>
    by_cases hkj : k = j
    · subst hkj
      exact absurd ⟨o, v, ho⟩ h
    · exact update_of_ne hkj ..

theorem Move.grown (hm : Move lends own live gone own' live') (he : Exclusive own live)
    (hnew : ∀ k, live k = none → live' k ≠ none → Held own' k) {start : K → Option V}
    (hg : Grown own start live) : Grown own' start live' := by
  classical
  intro k
  have hacc : taken live live' (fun k => decide (Held own k)) k = true ↔ Held own' k :=
    hm.accounts he hnew (fun k => by simp) k
  simp only [taken, Bool.and_eq_true, Bool.or_eq_true, decide_eq_true_eq, Option.isSome_iff_ne_none,
    Option.isNone_iff_eq_none] at hacc
  by_cases h' : Held own' k
  · refine .inl ⟨h', ?_⟩
    rcases hg k with ⟨_, hstart⟩ | ⟨hno, hsame⟩
    · exact hstart
    · rw [← hsame]
      exact (hacc.mpr h').2.resolve_left hno
  · refine .inr ⟨h', ?_⟩
    rcases hg k with ⟨hheld, hstart⟩ | ⟨hno, hsame⟩
    · rw [hstart]
      by_contra hlive
      exact h' (hacc.mp ⟨hlive, .inl hheld⟩)
    · exact (hm.unheld (hnew k) hno h').trans hsame

end Ownership
