import Fcopy.Network.Forward

/-! What stays of a handler, whatever step is taken.

    A handler that has started is never idle again, keeps its reply, and asks the same of the same targets
    to the end. So the requests that are served are served by the handlers they have started:

        idle ──▶ sending x ──▶ sending x' ──▶ finished r      `x'` forwards what `x` does -/

namespace Fcopy
open Function

/-- What a handler replies, once it has decided. A close that does not wait replies before it closes. -/
def Handler.reply : Handler → Option Reply
  | .finished r => some r
  | .closeErase _ r | .closeTruncate _ r | .closeFd _ r => r
  | _ => none

/-- A handler of a `SEND_FILE_REQ`, as far as one can tell. -/
def Handler.Sender (h : Handler) : Prop := (∃ x, h = .sending x) ∨ ∃ r, h = .finished r

/-- What one handler may become. -/
structure Handler.Onward (h h' : Handler) : Prop where
  started : h' ≠ .idle
  reply : ∀ r, h.reply = some r → h'.reply = some r
  sender : h.Sender → h'.Sender
  waiting : ∀ x' (j : ℕ), h' = .sending x' → x'.chainErrors[j]? = some none →
    ∃ x, h = .sending x ∧ x.req = x'.req ∧ x.data = x'.data ∧ x.targets = x'.targets ∧
      x.chainErrors[j]? = some none

theorem Handler.Onward.refl {h : Handler} (hne : h ≠ .idle) : h.Onward h :=
  ⟨hne, fun _ => id, id, fun x' _ hx hj => ⟨x', hx, rfl, rfl, rfl, hj⟩⟩

theorem Effect.onward {st st' : Store} {h h' : Handler} {ans : Answer} (heff : Effect st h ans st' h') :
    h.Onward h' := by
  have hno : ∀ {h : Handler} {P : Prop}, (∀ x, h ≠ .sending x) → (∀ r, h ≠ .finished r) → h.Sender → P := by
    rintro h P hx hr (⟨x, rfl⟩ | ⟨r, rfl⟩)
    · exact absurd rfl (hx x)
    · exact absurd rfl (hr r)
  cases heff with
  | wrote x n os hx hn hw =>
    refine ⟨by simp, fun r hr => (by cases hr), fun _ => .inl ⟨_, rfl⟩, fun x' j hx' hj => ?_⟩
    cases hx'
    exact ⟨x, rfl, rfl, rfl, rfl, hj⟩
  | writeFailed x e hx =>
    refine ⟨by simp, fun r hr => (by cases hr), fun _ => .inl ⟨_, rfl⟩, fun x' j hx' hj => ?_⟩
    cases hx'
    exact ⟨x, rfl, rfl, rfl, rfl, hj⟩
  | answered x i e hx =>
    refine ⟨by simp, fun r hr => (by cases hr), fun _ => .inl ⟨_, rfl⟩, fun x' j hx' hj => ?_⟩
    cases hx'
    refine ⟨x, rfl, rfl, rfl, rfl, ?_⟩
    by_cases hij : i = j
    · subst hij
      rw [List.getElem?_set_self (List.getElem?_eq_some_iff.mp hx).1] at hj
      cases hj
    · rwa [List.getElem?_set_ne hij] at hj
  | joined x e hx =>
    exact ⟨by simp, fun r hr => (by cases hr), fun _ => .inr ⟨_, rfl⟩, fun _ _ hx' => (by cases hx')⟩
  | notFound token reply hf =>
    refine ⟨by simp, fun r hr => ?_, hno (by simp) (by simp), fun _ _ hx' => (by cases hx')⟩
    simp only [Handler.reply] at hr ⊢
    rw [hr]
    rfl
  | closed info reply =>
    refine ⟨by simp, fun r hr => ?_, hno (by simp) (by simp), fun _ _ hx' => (by cases hx')⟩
    simp only [Handler.reply] at hr ⊢
    rw [hr]
    rfl
  | erased | resized | resizeFailed =>
    exact ⟨by simp, fun r hr => hr, hno (by simp) (by simp), fun _ _ hx' => (by cases hx')⟩
  | _ =>
    exact ⟨by simp, fun r hr => (by cases hr), hno (by simp) (by simp), fun _ _ hx' => (by cases hx')⟩

/-- The second network comes after the first. -/
structure NetLater (net net' : Net) : Prop where
  handlers : ∀ a i, (net.servers a).handlers i ≠ .idle →
    ((net.servers a).handlers i).Onward ((net'.servers a).handlers i)
  served : ∀ a i, (net.servers a).handlers i ≠ .idle → net'.served a i = net.served a i

variable {conf : Addr → Conf} {net net' : Net}

theorem step_onward {c : Conf} {s s' : Server} {l : Label} (h : step c s l = some s') (i : ℕ)
    (hi : s.handlers i ≠ .idle) : (s.handlers i).Onward (s'.handlers i) := by
  rcases step_cases h with ⟨j, req, rfl, hidle, rfl⟩ | ⟨j, ans, st', h', rfl, heff, rfl⟩
  · simp only
    rw [update_of_ne (by rintro rfl; exact hi hidle)]
    exact .refl hi
  · by_cases hij : i = j
    · subst hij
      simp only [update_self]
      exact heff.onward
    · simp only [update_of_ne hij]
      exact .refl hi

theorem netStep_after {l : NetLabel} (h : netStep conf net l = some net') : NetLater net net' := by
  refine ⟨fun a i hi => ?_, fun a i hi => ?_⟩
  · obtain ⟨b, l', server, hstep, hnet⟩ := netStep_server h
    rw [hnet]
    by_cases hab : a = b
    · subst hab
      rw [update_self]
      exact step_onward hstep i hi
    · rw [update_of_ne hab]
      exact .refl hi
  · exact served_kept h hi

/-- Requests that are served are served by handlers that have started with them. -/
structure Followed (net : Net) : Prop where
  fresh : ∀ a i, (net.servers a).handlers i = .idle → net.served a i = none
  sender : ∀ a i s, net.served a i = some s → ((net.servers a).handlers i).Sender

theorem Followed.started (hf : Followed net) {a : Addr} {i : ℕ} {s : Served}
    (hs : net.served a i = some s) : (net.servers a).handlers i ≠ .idle := by
  intro hidle
  rw [hf.fresh a i hidle] at hs
  cases hs

theorem Followed.preserved (hf : Followed net) {l : NetLabel} (h : netStep conf net l = some net') :
    Followed net' := by
  have hl := netStep_after h
  have hsender : ∀ a i s, net.served a i = some s → ((net'.servers a).handlers i).Sender :=
    fun a i s hs => (hl.handlers a i (hf.started hs)).sender (hf.sender a i s hs)
  have hback : ∀ a i, (net'.servers a).handlers i = .idle → (net.servers a).handlers i = .idle := by
    intro a i hidle
    by_contra hne
    exact (hl.handlers a i hne).started hidle
  rcases netStep_kinds h with ⟨b, j, s, h⟩ | ⟨b, j, ans, h⟩ | ⟨b, l', h⟩
  · obtain ⟨_, rfl⟩ := arrival_eq h
    have hnew : (handleSendFile (net.servers b).store s.req s.data).Sender := by
      rcases handleSendFile_kinds (net.servers b).store s.req s.data with ⟨_, e, he, _⟩ | ⟨_, info, _, hx⟩
      · exact .inr ⟨_, he⟩
      · exact .inl ⟨_, hx⟩
    refine ⟨fun a i hidle => ?_, fun a i s' hs => ?_⟩
    · have hidle' := hback a i hidle
      simp only [handlers_update, served_update] at hidle ⊢
      split at hidle
      · rw [hidle] at hnew
        rcases hnew with ⟨_, hx⟩ | ⟨_, hx⟩ <;> cases hx
      · rename_i hne
        rw [if_neg hne]
        exact hf.fresh a i hidle'
    · simp only [served_update] at hs
      split at hs
      · rename_i heq
        simp only [handlers_update, if_pos heq]
        exact hnew
      · exact hsender a i s' hs
  · obtain ⟨_, _, _, _, _, rfl⟩ := move_eq h
    exact ⟨fun a i hidle => hf.fresh a i (hback a i hidle), hsender⟩
  · obtain ⟨_, _, _, rfl⟩ := others_eq h
    exact ⟨fun a i hidle => hf.fresh a i (hback a i hidle), hsender⟩

/-! ### One server in a step of the network -/

/-- The server takes the step for a `SEND_FILE_REQ`. -/
def OnSend (s : Server) (l : Label) : Prop :=
  (∃ i req data, l = .arrive i (.send req data)) ∨ ∃ i ans, l = .resume i ans ∧ (s.handlers i).Sender

theorem OnSend.quiet {c : Conf} {s s' : Server} {l : Label} (hs : OnSend s l)
    (h : step c s l = some s') :
    s'.store.fmap = s.store.fmap ∧ s'.store.os.fds = s.store.os.fds := by
  rcases step_cases h with ⟨i, req, rfl, _, rfl⟩ | ⟨i, ans, st', h', rfl, heff, rfl⟩
  · rcases hs with ⟨_, req, data, hl⟩ | ⟨_, _, hl, _⟩ <;> cases hl
    exact ⟨rfl, rfl⟩
  · rcases hs with ⟨_, _, _, hl⟩ | ⟨_, _, hl, ⟨x, hx⟩ | ⟨r, hr⟩⟩ <;> cases hl
    · rw [hx] at heff
      cases heff with
      | wrote _ n os _ _ hw =>
        obtain ⟨d, _, _, rfl⟩ := Os.pwrite_eq hw
        exact ⟨rfl, rfl⟩
      | _ => exact ⟨rfl, rfl⟩
    · rw [hr] at heff
      cases heff

/-- The steps of others aside, a server serves requests or rests. -/
theorem Followed.server_cases (hf : Followed net) {l : NetLabel} (h : netStep conf net l = some net')
    (a : Addr) : net'.servers a = net.servers a ∨
      ∃ l', step (conf a) (net.servers a) l' = some (net'.servers a) ∧
        (l = .other a l' ∨ OnSend (net.servers a) l' ∧ net'.served a l'.handler ≠ none) := by
  have harr : ∀ {b i s}, arrival conf net b i s = some net' → net'.servers a = net.servers a ∨
      ∃ l', step (conf a) (net.servers a) l' = some (net'.servers a) ∧
        OnSend (net.servers a) l' ∧ net'.served a l'.handler ≠ none := by
    intro b i s h
    obtain ⟨server, hstep, rfl⟩ := Option.map_eq_some_iff.mp h
    by_cases hab : a = b
    · subst hab
      refine .inr ⟨_, by simp only [update_self]; exact hstep, .inl ⟨_, _, _, rfl⟩, ?_⟩
      simp only [Label.handler, update_self]
      exact Option.some_ne_none s
    · exact .inl (update_of_ne hab ..)
  have hmove : ∀ {b i ans}, move conf net b i ans = some net' → net'.servers a = net.servers a ∨
      ∃ l', step (conf a) (net.servers a) l' = some (net'.servers a) ∧
        OnSend (net.servers a) l' ∧ net'.served a l'.handler ≠ none := by
    intro b i ans h
    rw [move] at h
    split at h
    · cases h
    rename_i hs
    obtain ⟨s, hsome⟩ := Option.ne_none_iff_exists'.mp hs
    obtain ⟨server, hstep, rfl⟩ := Option.map_eq_some_iff.mp h
    by_cases hab : a = b
    · subst hab
      exact .inr ⟨_, by simp only [update_self]; exact hstep,
        .inr ⟨i, ans, rfl, hf.sender a i s hsome⟩, hs⟩
    · exact .inl (update_of_ne hab ..)
  have hown : (net'.servers a = net.servers a ∨
      ∃ l', step (conf a) (net.servers a) l' = some (net'.servers a) ∧
        OnSend (net.servers a) l' ∧ net'.served a l'.handler ≠ none) →
      net'.servers a = net.servers a ∨ ∃ l', step (conf a) (net.servers a) l' = some (net'.servers a) ∧
        (l = .other a l' ∨ OnSend (net.servers a) l' ∧ net'.served a l'.handler ≠ none) := by
    rintro (heq | ⟨l', hstep, hs⟩)
    · exact .inl heq
    · exact .inr ⟨l', hstep, .inr hs⟩
  rcases netStep_cases h with ⟨_, _, _, _, _, _, h⟩ | ⟨_, _, _, _, _, _, _, _, _, _, h⟩ |
    ⟨_, _, _, _, _, _, _, _, _, _, _, _, _, h⟩ | ⟨_, _, _, _, _, h⟩ | ⟨_, _, _, _, _, h⟩ |
    ⟨b, l', rfl, h⟩
  · exact hown (harr h)
  · exact hown (harr h)
  · exact hown (hmove h)
  · exact hown (hmove h)
  · exact hown (hmove h)
  · obtain ⟨_, server, hstep, rfl⟩ := others_eq h
    by_cases hab : a = b
    · subst hab
      exact .inr ⟨l', by simp only [update_self]; exact hstep, .inl rfl⟩
    · exact .inl (update_of_ne hab ..)

/-- A step that is not of others leaves session tables and descriptors as they are. -/
theorem Followed.quiet (hf : Followed net) {l : NetLabel} (h : netStep conf net l = some net')
    (hl : ∀ a l', l ≠ .other a l') (a : Addr) :
    (net'.servers a).store.fmap = (net.servers a).store.fmap ∧
      (net'.servers a).store.os.fds = (net.servers a).store.os.fds := by
  rcases hf.server_cases h a with heq | ⟨l', hstep, hoth | ⟨hs, _⟩⟩
  · rw [heq]
    exact ⟨rfl, rfl⟩
  · exact absurd hoth (hl a l')
  · exact hs.quiet hstep

/-- A handler that is at work on something else than a `SEND_FILE_REQ` takes no step of the network. -/
theorem Followed.still (hf : Followed net) {l : NetLabel} (h : netStep conf net l = some net')
    {a : Addr} {j : ℕ} (hidle : (net.servers a).handlers j ≠ .idle)
    (hsend : ∀ x, (net.servers a).handlers j ≠ .sending x)
    (hl : ∀ l', l = .other a l' → l'.handler ≠ j) :
    (net'.servers a).handlers j = (net.servers a).handlers j := by
  rcases hf.server_cases h a with heq | ⟨l', hstep, hoth | ⟨hs, _⟩⟩
  · rw [heq]
  · exact handlers_step hstep fun heq => hl l' hoth heq.symm
  · refine handlers_step hstep fun heq => ?_
    rcases step_cases hstep with ⟨i, req, rfl, hfree, _⟩ | ⟨i, ans, st', h', rfl, heff, _⟩
    · exact hidle (heq ▸ hfree)
    · rcases hs with ⟨_, _, _, hl'⟩ | ⟨_, _, hl', ⟨x, hx⟩ | ⟨r, hr⟩⟩ <;> cases hl'
      · exact hsend x (heq ▸ hx)
      · rw [hr] at heff
        cases heff

/-! ### Steps that can be taken -/

theorem pending_some {a : Addr} {k j : ℕ} {x : Sending} {t : ChainTarget} :
    pending net a k j = some (x, t) ↔ (net.servers a).handlers k = .sending x ∧
      x.targets[j]? = some t ∧ x.chainErrors[j]? = some none := by
  refine ⟨pending_eq, fun ⟨hk, ht, hj⟩ => ?_⟩
  rw [pending, hk]
  simp only [hj, if_true, ht, Option.map_some]

theorem move_some {c : Addr → Conf} {a : Addr} {i : ℕ} {s : Served} {ans : Answer} {server : Server}
    (hs : net.served a i = some s) (hstep : step (c a) (net.servers a) (.resume i ans) = some server) :
    move c net a i ans = some { net with
      servers := update net.servers a server
      log := update net.log a (net.log a ++ written (net.servers a) i ans) } := by
  rw [move, if_neg (by rw [hs]; exact Option.some_ne_none s), hstep]
  rfl

theorem arrival_some {c : Addr → Conf} {a : Addr} {i : ℕ} {s : Served} {server : Server}
    (hstep : step (c a) (net.servers a) (.arrive i (.send s.req s.data)) = some server) :
    arrival c net a i s = some { net with
      servers := update net.servers a server
      served := update net.served a (update (net.served a) i (some s)) } := by
  rw [arrival, hstep]
  rfl

/-- A step of a handler that serves nothing. -/
theorem others_some {c : Addr → Conf} {a : Addr} {l : Label} {server : Server}
    (hfree : net.served a l.handler = none) (hstep : step (c a) (net.servers a) l = some server) :
    others c net a l = some { net with servers := update net.servers a server } := by
  rw [others, if_pos hfree, hstep]
  rfl

end Fcopy
