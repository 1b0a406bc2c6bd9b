import Fcopy.Network.Progress

/-! What a zero reply to a `SEND_FILE_REQ` means.

    Every handler that serves a request has made `Progress`, and those that have replied 0 stand on a
    tree of acknowledgements (`Sincere`). An answer carries that tree one hop up, whatever the order
    in which writes and forwards end. A failure takes the other way: what has once been recorded as
    non-zero makes the reply non-zero. -/

namespace Fcopy
open Function Relay Run

/-- What holds of every handler that serves a request. -/
structure Sincere (T : Tables) (M : Node → Prop) (net : Net) : Prop where
  fresh : ∀ a i, (net.servers a).handlers i = .idle → net.served a i = none
  member : ∀ a i s, net.served a i = some s → M (a, s.req.fileToken)
  parent : ∀ b i s a k j, net.served b i = some s → s.origin = .hop a k j →
    ∃ p info t, net.served a k = some p ∧ T a p.req.fileToken = some info ∧
      info.targets[j]? = some t ∧ s = ⟨.hop a k j, chainRequest p.req t, p.data⟩
  kind : ∀ a i s, net.served a i = some s → (∃ x, (net.servers a).handlers i = .sending x) ∨
    ∃ r, (net.servers a).handlers i = .finished r
  sending : ∀ a i s x, net.served a i = some s → (net.servers a).handlers i = .sending x →
    Progress T net a s x
  finished : ∀ a i s r, net.served a i = some s → (net.servers a).handlers i = .finished r →
    wireError r.error = 0 → Acknowledged T net a s.req s.data

/-- Requests are for the sessions `M`, which others leave as they are; error codes are not zero and fit
    the header; a `pwrite` that succeeds writes everything. -/
def Assumed (conf : Addr → Conf) (M : Node → Prop) (net : Net) : NetLabel → Prop
  | .request _ a _ req _ => M (a, req.fileToken)
  | .fail _ _ _ e => e ≠ 0 ∧ Fits e
  | .proceed _ _ (.failed e) => (e : ℤ) ≠ 0 ∧ Fits e
  | .proceed a i (.wrote n) =>
    ∀ x, (net.servers a).handlers i = .sending x → n = writeSize x.data.length
  | .other a l => ∀ server token, step (conf a) (net.servers a) l = some server →
    M (a, token) → server.store.fmap token = (net.servers a).store.fmap token
  | _ => True

variable {T : Tables} {M : Node → Prop} {conf : Addr → Conf} {net net' : Net}

/-! ### Arrivals -/

theorem Static.arrival (hst : Static conf T M net) {a : Addr} {i : ℕ} {s : Served}
    (h : arrival conf net a i s = some net') (hs : ∀ b, Sound (conf b) (net'.servers b)) :
    Static conf T M net' := by
  obtain ⟨_, rfl⟩ := arrival_eq h
  refine ⟨hs, fun n hn => ?_, hst.closed⟩
  rw [← hst.tables n hn]
  by_cases hb : n.1 = a
  · simp only [Net.tables, hb, update_self]
  · simp only [Net.tables, update_of_ne hb]

theorem Sincere.arrival (hst : Static conf T M net) (hsin : Sincere T M net) {a : Addr} {i : ℕ}
    {s : Served} (h : arrival conf net a i s = some net') (hM : M (a, s.req.fileToken))
    (hs : ∀ b k j, s.origin = .hop b k j → ∃ p info t, net.served b k = some p ∧
      T b p.req.fileToken = some info ∧ info.targets[j]? = some t ∧
      s = ⟨.hop b k j, chainRequest p.req t, p.data⟩) : Sincere T M net' := by
  obtain ⟨hidle, hnet⟩ := arrival_eq h
  have hlog : ∀ b, net.log b ⊆ net'.log b := by
    rw [hnet]
    exact fun b => List.Subset.refl _
  subst hnet
  have hnew := handleSendFile_cases net a s (hst.tables (a, s.req.fileToken) hM)
  have hmono : ∀ b k p, net.served b k = some p →
      update net.served a (update (net.served a) i (some s)) b k = some p := by
    intro b k p hp
    rw [served_update, if_neg, hp]
    rintro ⟨rfl, rfl⟩
    rw [hsin.fresh _ _ hidle] at hp
    cases hp
  refine ⟨?_, ?_, ?_, ?_, ?_, ?_⟩ <;> simp only [served_update, handlers_update]
  · intro b j hj
    split at hj
    · rcases hnew with ⟨_, he, _⟩ | ⟨_, hx, _⟩
      · rw [he] at hj
        cases hj
      · rw [hx] at hj
        cases hj
    · rename_i hne
      rw [if_neg hne]
      exact hsin.fresh b j hj
  · intro b j s' hs'
    split at hs'
    · rename_i hbj
      cases hs'
      rw [hbj.1]
      exact hM
    · exact hsin.member b j s' hs'
  · intro b j s' a' k j' hs' ho
    have : ∃ p info t, net.served a' k = some p ∧ T a' p.req.fileToken = some info ∧
        info.targets[j']? = some t ∧ s' = ⟨.hop a' k j', chainRequest p.req t, p.data⟩ := by
      split at hs'
      · cases hs'
        exact hs _ _ _ ho
      · exact hsin.parent b j s' a' k j' hs' ho
    obtain ⟨p, info, t, hp, hrest⟩ := this
    refine ⟨p, info, t, ?_, hrest⟩
    rw [← served_update]
    exact hmono a' k p hp
  · intro b j s' hs'
    split at hs'
    · rename_i hbj
      simp only [if_pos hbj]
      rcases hnew with ⟨_, he, _⟩ | ⟨_, hx, _⟩
      · exact .inr ⟨_, he⟩
      · exact .inl ⟨_, hx⟩
    · rename_i hbj
      simp only [if_neg hbj]
      exact hsin.kind b j s' hs'
  · intro b j s' x hs' hx
    split at hs'
    · rename_i hbj
      rw [if_pos hbj] at hx
      cases hs'
      rcases hnew with ⟨_, he, _⟩ | ⟨_, hx', hprog⟩
      · rw [he] at hx
        cases hx
      · rw [hx'] at hx
        cases hx
        rw [hbj.1]
        exact hprog.mono hlog
    · rename_i hbj
      rw [if_neg hbj] at hx
      exact (hsin.sending b j s' x hs' hx).mono hlog
  · intro b j s' r hs' hr hzero
    split at hs'
    · rename_i hbj
      rw [if_pos hbj] at hr
      rcases hnew with ⟨e, he, hne⟩ | ⟨_, hx, _⟩
      · rw [he] at hr
        cases hr
        exact absurd hzero hne
      · rw [hx] at hr
        cases hr
    · rename_i hbj
      rw [if_neg hbj] at hr
      exact (hsin.finished b j s' r hs' hr hzero).mono hlog

/-! ### Moves -/

theorem Static.move (hst : Static conf T M net) (hsin : Sincere T M net) {a : Addr} {i : ℕ}
    {ans : Answer} (h : move conf net a i ans = some net')
    (hs : ∀ b, Sound (conf b) (net'.servers b)) : Static conf T M net' := by
  obtain ⟨s, st', h', hserved, heff, rfl⟩ := move_eq h
  refine ⟨hs, fun n hn => ?_, hst.closed⟩
  rw [← hst.tables n hn]
  rcases hsin.kind a i s hserved with ⟨x, hx⟩ | ⟨r, hr⟩
  · rw [hx] at heff
    by_cases hb : n.1 = a
    · simp only [Net.tables, hb, update_self, heff.sending_fmap]
    · simp only [Net.tables, update_of_ne hb]
  · rw [hr] at heff
    cases heff

theorem Sincere.move (hst : Static conf T M net) (hsin : Sincere T M net) {a : Addr} {i : ℕ}
    {ans : Answer} (h : move conf net a i ans = some net') (hlog : ∀ b, net.log b ⊆ net'.log b)
    (hok : ∀ x, (net.servers a).handlers i = .sending x → AnswerOk T net x ans) :
    Sincere T M net' := by
  obtain ⟨s, st', h', hserved, heff, hnet⟩ := move_eq h
  obtain ⟨x, hx⟩ : ∃ x, (net.servers a).handlers i = .sending x := by
    rcases hsin.kind a i s hserved with hx | ⟨r, hr⟩
    · exact hx
    · rw [hr] at heff
      cases heff
  rw [hx] at heff
  have hnew : written (net.servers a) i ans ⊆ net'.log a := by
    rw [hnet]
    simp only [update_self]
    exact List.subset_append_right ..
  have hstep := (hsin.sending a i s x hserved hx).preserved hst (hsin.member a i s hserved) hx heff
    (hok x hx) hlog hnew
  subst hnet
  refine ⟨?_, hsin.member, hsin.parent, ?_, ?_, ?_⟩ <;> simp only [handlers_update]
  · intro b j hj
    split at hj
    · rcases hstep with ⟨_, rfl, _⟩ | ⟨_, rfl, _⟩ <;> cases hj
    · exact hsin.fresh b j hj
  · intro b j s' hs'
    by_cases hbj : b = a ∧ j = i
    · simp only [if_pos hbj]
      rcases hstep with ⟨x', hx', _⟩ | ⟨r, hr, _⟩
      · exact .inl ⟨x', hx'⟩
      · exact .inr ⟨r, hr⟩
    · simp only [if_neg hbj]
      exact hsin.kind b j s' hs'
  · intro b j s' y hs' hy
    split at hy
    · rename_i hbj
      obtain ⟨rfl, rfl⟩ := hbj
      cases hserved.symm.trans hs'
      rcases hstep with ⟨x', rfl, hp⟩ | ⟨_, rfl, _⟩ <;> cases hy
      exact hp
    · exact (hsin.sending b j s' y hs' hy).mono hlog
  · intro b j s' r hs' hr hzero
    split at hr
    · rename_i hbj
      obtain ⟨rfl, rfl⟩ := hbj
      cases hserved.symm.trans hs'
      rcases hstep with ⟨_, rfl, _⟩ | ⟨r', rfl, hack⟩ <;> cases hr
      exact hack hzero
    · exact (hsin.finished b j s' r hs' hr hzero).mono hlog

/-! ### Steps of others -/

theorem Static.others (hst : Static conf T M net) {a : Addr} {l : Label}
    (h : others conf net a l = some net') (hl : Assumed conf M net (.other a l))
    (hs : ∀ b, Sound (conf b) (net'.servers b)) : Static conf T M net' := by
  obtain ⟨_, server, hstep, rfl⟩ := others_eq h
  refine ⟨hs, fun n hn => ?_, hst.closed⟩
  rw [← hst.tables n hn]
  by_cases hb : n.1 = a
  · obtain ⟨b, token⟩ := n
    cases hb
    simp only [Net.tables, update_self]
    exact hl server token hstep hn
  · simp only [Net.tables, update_of_ne hb]

theorem Sincere.others (hsin : Sincere T M net) {a : Addr} {l : Label}
    (h : others conf net a l = some net') : Sincere T M net' := by
  have hsame : ∀ b i s, net.served b i = some s →
      (net'.servers b).handlers i = (net.servers b).handlers i :=
    fun b i s hs => others_handlers h (by rw [hs]; exact Option.some_ne_none s)
  obtain ⟨_, _, _, hnet⟩ := others_eq h
  have hserved : net'.served = net.served := by rw [hnet]
  have hlog : ∀ b, net.log b ⊆ net'.log b := fun b => by rw [hnet]; exact List.Subset.refl _
  refine ⟨fun b i hi => ?_, ?_, ?_, ?_, ?_, ?_⟩
  · rw [hserved]
    by_contra hs
    obtain ⟨s, hs⟩ := Option.ne_none_iff_exists'.mp hs
    rw [hsame b i s hs] at hi
    exact Option.some_ne_none s (hs.symm.trans (hsin.fresh b i hi))
  · rw [hserved]
    exact hsin.member
  · rw [hserved]
    exact hsin.parent
  · intro b i s hs
    rw [hserved] at hs
    rw [hsame b i s hs]
    exact hsin.kind b i s hs
  · intro b i s x hs hx
    rw [hserved] at hs
    rw [hsame b i s hs] at hx
    exact (hsin.sending b i s x hs hx).mono hlog
  · intro b i s r hs hr hzero
    rw [hserved] at hs
    rw [hsame b i s hs] at hr
    exact (hsin.finished b i s r hs hr hzero).mono hlog

/-! ### Steps of the network -/

structure Relays (conf : Addr → Conf) (T : Tables) (M : Node → Prop) (net : Net) : Prop where
  static : Static conf T M net
  sincere : Sincere T M net

/-- The reply of a forward is that of a handler that was asked the same, one hop further. -/
theorem Relays.answer_ok (hr : Relays conf T M net) {a : Addr} {k j i : ℕ} {x : Sending}
    {t : ChainTarget} {s : Served} {r : Reply} (hpend : pending net a k j = some (x, t))
    (hs : net.served t.addr i = some s) (hfin : (net.servers t.addr).handlers i = .finished r)
    (ho : s.origin = .hop a k j) : AnswerOk T net x (.answered j (wireError r.error)) := by
  obtain ⟨hx, ht, _⟩ := pending_eq hpend
  refine ⟨wireError_fits _, fun hzero t' ht' => ?_⟩
  cases ht.symm.trans ht'
  obtain ⟨p, info, t', hp, hinfo, ht', hsp⟩ := hr.sincere.parent t.addr i s a k j hs ho
  have hprog := hr.sincere.sending a k p x hp hx
  obtain ⟨info', hinfo', _, htargets⟩ := hprog.session
  cases hinfo.symm.trans hinfo'
  rw [htargets] at ht
  cases ht.symm.trans ht'
  have hack := hr.sincere.finished t.addr i s r hs hfin hzero
  rw [hsp] at hack
  rw [hprog.req, hprog.data]
  exact hack

/-- CORRECT (one step): what holds of the handlers holds after any step of the network. -/
theorem Relays.preserved (hr : Relays conf T M net) {l : NetLabel} (hl : Assumed conf M net l)
    (h : netStep conf net l = some net') : Relays conf T M net' := by
  have hs := sound_netStep h hr.static.sound
  have hlog := netStep_log h
  obtain ⟨hst, hsin⟩ := hr
  rcases netStep_cases h with ⟨id, a, i, req, data, rfl, harr⟩ |
    ⟨a, k, j, i, p, x, t, rfl, hp, hpend, harr⟩ |
    ⟨a, k, j, i, x, t, s, r, rfl, hpend, hserved, hfin, ho, hmove⟩ | ⟨a, k, j, e, rfl, hmove⟩ |
    ⟨a, i, ans, rfl, hans, hmove⟩ | ⟨a, l', rfl, hoth⟩
  · exact ⟨hst.arrival harr hs, hsin.arrival hst harr hl fun b k j ho => by cases ho⟩
  · obtain ⟨hx, ht, _⟩ := pending_eq hpend
    have hprog := hsin.sending a k p x hp hx
    obtain ⟨info, hinfo, _, htargets⟩ := hprog.session
    rw [htargets] at ht
    have hM : M (t.addr, t.fileToken) := hst.closed _ _ (hsin.member a k p hp)
      ⟨info, t, hinfo, List.mem_of_getElem? ht, rfl⟩
    refine ⟨hst.arrival harr hs, hsin.arrival hst harr hM fun b k' j' ho => ?_⟩
    cases ho
    exact ⟨p, info, t, hp, hinfo, ht, by rw [hprog.req, hprog.data]⟩
  · refine ⟨hst.move hsin hmove hs, hsin.move hst hmove hlog fun y hy => ?_⟩
    cases (pending_eq hpend).1.symm.trans hy
    exact Relays.answer_ok ⟨hst, hsin⟩ hpend hserved hfin ho
  · refine ⟨hst.move hsin hmove hs, hsin.move hst hmove hlog fun y hy => ?_⟩
    exact ⟨hl.2, fun h0 => absurd h0 hl.1⟩
  · refine ⟨hst.move hsin hmove hs, hsin.move hst hmove hlog fun y hy => ?_⟩
    cases ans with
    | wrote n => exact hl y hy
    | failed e => exact hl
    | answered j e => exact absurd rfl (hans j e)
    | _ => trivial
  · exact ⟨hst.others hoth hl hs, hsin.others hoth⟩

/-! ### Failures -/

/-- A result that is not zero has been recorded, or the reply is not zero. -/
def Handler.Marred : Handler → Prop
  | .sending x => (∃ e, x.writeError = some e ∧ e ≠ 0) ∨ ∃ e, some e ∈ x.chainErrors ∧ e ≠ 0
  | .finished r => wireError r.error ≠ 0
  | _ => False

/-- The step is a failure handler `i` at `a` learns of: of its write, or of one of its forwards. -/
def FailsAt (a : Addr) (i : ℕ) (net : Net) : NetLabel → Prop
  | .proceed b k (.failed _) | .fail b k _ _ => b = a ∧ k = i
  | .answer b k j m => (b = a ∧ k = i) ∧ ∀ x t r, pending net b k j = some (x, t) →
    (net.servers t.addr).handlers m = .finished r → wireError r.error ≠ 0
  | _ => False

theorem mem_set_of_mem {α : Type*} {l : List (Option α)} {j : ℕ} {v w : α} (hj : l[j]? = some none)
    (hv : some v ∈ l) : some v ∈ l.set j (some w) := by
  obtain ⟨k, hk⟩ := List.getElem?_of_mem hv
  have hjk : j ≠ k := by
    rintro rfl
    rw [hj] at hk
    cases hk
  exact List.mem_of_getElem? ((List.getElem?_set_ne hjk).trans hk)

/-- What has been recorded stays. -/
theorem Effect.marred {st st' : Store} {a : Addr} {s : Served} {h h' : Handler} {ans : Answer}
    (heff : Effect st h ans st' h') (hm : h.Marred)
    (hp : ∀ x, h = .sending x → Progress T net a s x) : h'.Marred := by
  cases heff with
  | wrote x n os hnone hn hw =>
    rcases hm with ⟨e, he, _⟩ | hchain
    · rw [hnone] at he
      cases he
    · exact .inr hchain
  | writeFailed x e hnone =>
    rcases hm with ⟨e, he, _⟩ | hchain
    · rw [hnone] at he
      cases he
    · exact .inr hchain
  | answered x j e hnone =>
    rcases hm with hw | ⟨e', he', hne⟩
    · exact .inl hw
    · exact .inr ⟨e', mem_set_of_mem hnone he', hne⟩
  | joined x e he =>
    intro hzero
    obtain ⟨hw, hall⟩ := (hp x rfl).joined_zero he hzero
    rcases hm with ⟨e', he', hne⟩ | ⟨e', he', hne⟩
    · rw [hw] at he'
      cases he'
      exact hne rfl
    · cases hall _ he'
      exact hne rfl
  | _ => exact hm.elim

theorem marred_step (hr : Relays conf T M net) {a : Addr} {i : ℕ} {l : NetLabel}
    (h : netStep conf net l = some net') (hs : net.served a i ≠ none)
    (hm : ((net.servers a).handlers i).Marred) : ((net'.servers a).handlers i).Marred := by
  rcases netStep_kinds h with ⟨b, k, s, h⟩ | ⟨b, k, ans, h⟩ | ⟨b, l', h⟩
  · obtain ⟨hidle, rfl⟩ := arrival_eq h
    simp only [handlers_update]
    rw [if_neg]
    · exact hm
    · rintro ⟨rfl, rfl⟩
      rw [hidle] at hm
      exact hm
  · obtain ⟨s, st', h', hserved, heff, rfl⟩ := move_eq h
    simp only [handlers_update]
    split
    · rename_i hbk
      obtain ⟨rfl, rfl⟩ := hbk
      exact heff.marred hm fun x hx => hr.sincere.sending a i s x hserved hx
    · exact hm
  · rw [others_handlers h hs]
    exact hm

theorem served_step {a : Addr} {i : ℕ} {l : NetLabel} (h : netStep conf net l = some net')
    (hs : net.served a i ≠ none) : net'.served a i ≠ none := by
  rcases netStep_kinds h with ⟨b, k, s, h⟩ | ⟨b, k, ans, h⟩ | ⟨b, l', h⟩
  · obtain ⟨_, rfl⟩ := arrival_eq h
    simp only [served_update]
    split
    · exact Option.some_ne_none s
    · exact hs
  · obtain ⟨_, _, _, _, _, rfl⟩ := move_eq h
    exact hs
  · obtain ⟨_, _, _, rfl⟩ := others_eq h
    exact hs

/-- A failure is recorded. -/
theorem FailsAt.marred (hr : Relays conf T M net) {a : Addr} {i : ℕ} {l : NetLabel}
    (hf : FailsAt a i net l) (hl : Assumed conf M net l) (h : netStep conf net l = some net') :
    net'.served a i ≠ none ∧ ((net'.servers a).handlers i).Marred := by
  have hmove : ∀ {ans}, move conf net a i ans = some net' →
      (∀ x, (net.servers a).handlers i = .sending x → ∀ st' h',
        Effect (net.servers a).store (.sending x) ans st' h' → h'.Marred) →
      net'.served a i ≠ none ∧ ((net'.servers a).handlers i).Marred := by
    intro ans h hmar
    obtain ⟨s, st', h', hserved, heff, rfl⟩ := move_eq h
    refine ⟨by simp only [hserved, ne_eq, reduceCtorEq, not_false_eq_true], ?_⟩
    simp only [handlers_update, and_self, if_true]
    rcases hr.sincere.kind a i s hserved with ⟨x, hx⟩ | ⟨r, hr'⟩
    · rw [hx] at heff
      exact hmar x hx st' h' heff
    · rw [hr'] at heff
      cases heff
  have hchain : ∀ {j e}, e ≠ 0 → ∀ x, (net.servers a).handlers i = .sending x → ∀ st' h',
      Effect (net.servers a).store (.sending x) (.answered j e) st' h' → h'.Marred := by
    intro j e hne x _ st' h' heff
    cases heff with
    | answered _ _ _ hnone =>
      exact .inr ⟨e, List.mem_set (List.getElem?_eq_some_iff.mp hnone).1 _, hne⟩
  rcases netStep_cases h with ⟨_, _, _, _, _, rfl, _⟩ | ⟨_, _, _, _, _, _, _, rfl, _⟩ |
    ⟨b, k, j, m, x, t, s, r, rfl, hpend, _, hfin, _, h⟩ | ⟨b, k, j, e, rfl, h⟩ |
    ⟨b, k, ans, rfl, _, h⟩ | ⟨_, _, rfl, _⟩
  · exact hf.elim
  · exact hf.elim
  · obtain ⟨⟨rfl, rfl⟩, hne⟩ := hf
    exact hmove h (hchain (hne x t r hpend hfin))
  · obtain ⟨rfl, rfl⟩ := hf
    exact hmove h (hchain hl.1)
  · cases ans with
    | failed e =>
      obtain ⟨rfl, rfl⟩ := hf
      refine hmove h fun x _ st' h' heff => ?_
      cases heff with
      | writeFailed => exact .inl ⟨e, rfl, hl.1⟩
    | _ => exact hf.elim
  · exact hf.elim

/-! ### Runs -/

/-- Each server has run since it was started, and no request has been served yet. -/
structure Quiet (conf : Addr → Conf) (net : Net) : Prop where
  reached : ∀ a, ∃ s ls, Initial s ∧ Runs (conf a) s ls (net.servers a)
  served : ∀ a i, net.served a i = none
  log : ∀ a, net.log a = []

/-- Before any request the sessions are as they are. -/
theorem relays_start (hsound : ∀ a, Sound (conf a) (net.servers a))
    (hserved : ∀ a i, net.served a i = none) (hM : ∀ n m, M n → Hop net.tables n m → M m) :
    Relays conf net.tables M net where
  static := ⟨hsound, fun _ _ => rfl, hM⟩
  sincere := by
    have hno : ∀ {a i s} {P : Prop}, net.served a i = some s → P := by
      intro a i s P hs
      rw [hserved] at hs
      cases hs
    exact ⟨fun a i _ => hserved a i, fun _ _ _ hs => hno hs, fun _ _ _ _ _ _ hs _ => hno hs,
      fun _ _ _ hs => hno hs, fun _ _ _ _ hs _ => hno hs, fun _ _ _ _ hs _ _ => hno hs⟩

theorem Quiet.sound (h : Quiet conf net) (a : Addr) : Sound (conf a) (net.servers a) := by
  obtain ⟨s, ls, h₀, hr⟩ := h.reached a
  exact sound_run h₀ hr

theorem relays_run {ls : List NetLabel} (hr : Relays conf T M net) (hrun : NetRuns conf net ls net')
    (hass : EveryStep (ofStep (netStep conf)) (Assumed conf M) net ls) : Relays conf T M net' :=
  hrun.guarded (P := Relays conf T M) (fun _ _ _ hr hl h => hr.preserved hl h) hass hr

/-- A handler that has learnt of a failure does not reply 0. -/
theorem no_failure {ls : List NetLabel} (hr : Relays conf T M net) (hrun : NetRuns conf net ls net')
    (hass : EveryStep (ofStep (netStep conf)) (Assumed conf M) net ls) {a : Addr} {i : ℕ} {r : Reply}
    (hfin : (net'.servers a).handlers i = .finished r) (hzero : wireError r.error = 0) :
    EveryStep (ofStep (netStep conf)) (fun n l => ¬ FailsAt a i n l) net ls := by
  rintro ls₁ l ls₂ n rfl hn hf
  have hrn := relays_run hr hn hass.take
  obtain ⟨n', hn', hsuffix⟩ := hrun.split
  cases hn.unique hn'
  have hass' := hass.drop hn
  cases hsuffix with
  | @cons _ m _ _ _ hl hrest =>
    have hlass := hass' [] l ls₂ n rfl (.nil n)
    obtain ⟨hserved, hmar⟩ := hf.marred hrn hlass hl
    have hend := hrest.guarded
      (P := fun n => Relays conf T M n ∧ n.served a i ≠ none ∧ ((n.servers a).handlers i).Marred)
      (fun _ _ _ ⟨hr, hs, hm⟩ hg h => ⟨hr.preserved hg h, served_step h hs, marred_step hr h hs hm⟩)
      (hass'.tail hl) ⟨hrn.preserved hlass hl, hserved, hmar⟩
    have := hend.2.2
    rw [hfin] at this
    exact this hzero

/-- CORRECT (acknowledgements): a reply of 0 means that the data has been written at every session the
    targets lead to, that none of them is further away than the hops allow or on a cycle, and that the
    handler has learnt of no failure. Only the sessions `M`, which contain those the targets lead to, have
    to be left alone meanwhile. -/
theorem zero_reply_written (conf : Addr → Conf) (M : Node → Prop) (net net' : Net) (ls : List NetLabel)
    (hready : Quiet conf net) (hM : ∀ n m, M n → Hop net.tables n m → M m)
    (hrun : NetRuns conf net ls net')
    (hass : EveryStep (ofStep (netStep conf)) (Assumed conf M) net ls)
    (a : Addr) (i : ℕ) (s : Served) (r : Reply) (hs : net'.served a i = some s)
    (hr : (net'.servers a).handlers i = .finished r) (hzero : wireError r.error = 0) :
    (∀ m, Relation.ReflTransGen (Hop net.tables) (a, s.req.fileToken) m →
      Wrote net.tables net' s.req.offset s.data m ∧ ¬ Relation.TransGen (Hop net.tables) m m) ∧
    (∀ l m, Path (Hop net.tables) l (a, s.req.fileToken) m → l < max s.req.maxChainLen.toNat 1) ∧
    EveryStep (ofStep (netStep conf)) (fun n l => ¬ FailsAt a i n l) net ls := by
  have hr₀ := relays_start hready.sound hready.served hM
  have hack := (relays_run hr₀ hrun hass).sincere.finished a i s r hs hr hzero
  exact ⟨fun m hm => ⟨hack.reach hm, hack.acyclic hm⟩, fun l m hp => hack.path hp,
    no_failure hr₀ hrun hass hr hzero⟩

/-- Two servers with one session each; that at `a` forwards to that at `b`. -/
def sampleNet : Net where
  servers := fun addr => (exec (step sampleConf) sampleServer
    (if addr.1 = text "a" then sampleCreate ++ [.arrive 1 (.setChain ⟨text "4", [⟨text "b", 1, text "4"⟩]⟩)]
    else sampleCreate)).getD sampleServer
  served := fun _ _ => none
  log := fun _ => []

theorem sampleNet_quiet : Quiet (fun _ => sampleConf) sampleNet where
  reached addr := by
    simp only [sampleNet]
    generalize (if addr.1 = text "a" then _ else _ : List Label) = labels
    cases h : exec (step sampleConf) sampleServer labels with
    | none => exact ⟨sampleServer, [], sampleServer_initial, .nil _⟩
    | some t => exact ⟨sampleServer, labels, sampleServer_initial, steps_iff_exec.mpr h⟩
  served _ _ := rfl
  log _ := rfl

/-- A check that suffices for the assumptions. -/
def assumedCheck (net : Net) : NetLabel → Bool
  | .proceed a i (.wrote n) =>
    match (net.servers a).handlers i with
    | .sending x => n = writeSize x.data.length
    | _ => false
  | .request .. | .forward .. | .answer .. | .proceed _ _ .done => true
  | _ => false

theorem assumed_of_check {net : Net} {l : NetLabel} (h : assumedCheck net l = true) :
    Assumed conf (fun _ => True) net l := by
  cases l with
  | proceed a i ans =>
    cases ans with
    | wrote n =>
      intro x hx
      simpa only [assumedCheck, hx, decide_eq_true_eq] using h
    | failed => cases h
    | _ => trivial
  | fail => cases h
  | other => cases h
  | _ => trivial

/-- Two bytes sent to `a`, which writes them and forwards them to `b`. -/
theorem zero_reply_written_two : ∃ net' r,
    let addr : Addr := (text "a", 1)
    let req : SendFileReq := { maxChainLen := 2, fileToken := text "4" }
    (net'.servers addr).handlers 5 = .finished r ∧ wireError r.error = 0 ∧
      (∀ m, Relation.ReflTransGen (Hop sampleNet.tables) (addr, req.fileToken) m →
        Wrote sampleNet.tables net' req.offset (text "hi") m ∧
          ¬ Relation.TransGen (Hop sampleNet.tables) m m) ∧
      ∀ l m, Path (Hop sampleNet.tables) l (addr, req.fileToken) m →
        l < max req.maxChainLen.toNat 1 := by
  let addr : Addr := (text "a", 1)
  let addr' : Addr := (text "b", 1)
  let req : SendFileReq := { maxChainLen := 2, fileToken := text "4" }
  have hcheck : (execIf (netStep fun _ => sampleConf) assumedCheck sampleNet
      [.request 0 addr 5 req (text "hi"), .forward addr 5 0 5, .proceed addr' 5 (.wrote 8192),
        .proceed addr' 5 .done, .answer addr 5 0 5, .proceed addr 5 (.wrote 8192),
        .proceed addr 5 .done]).any (fun net =>
      net.served addr 5 = some ⟨.client 0, req, text "hi"⟩ ∧
        (net.servers addr).handlers 5 = .finished ⟨0, []⟩) = true := by
    decide +kernel
  obtain ⟨net', hexec, hend⟩ := (Option.any_eq_true _ _).mp hcheck
  obtain ⟨hserved, hfin⟩ := of_decide_eq_true hend
  obtain ⟨hrun, hass⟩ := of_execIf (G := Assumed (fun _ => sampleConf) fun _ => True)
    (I := fun _ => True) (fun _ _ _ h => assumed_of_check h) (fun _ _ _ _ _ _ => trivial) trivial hexec
  obtain ⟨hall, hpath, _⟩ := zero_reply_written (fun _ => sampleConf) (fun _ => True) sampleNet net' _
    sampleNet_quiet (fun _ _ _ _ => trivial) hrun hass addr 5 _ _ hserved hfin (by decide)
  exact ⟨net', ⟨0, []⟩, hfin, by decide, hall, hpath⟩

end Fcopy
