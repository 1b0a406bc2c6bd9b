import Fcopy.Network.Onward
import Fcopy.Network.Hops

/-! Forwarding does not block.

    A handler waits for its forwards, and targets may form cycles: one that waits at `a` may be waited for
    by another at `a`. But a forward has a hop less than the request that causes it, and a handler that
    has none left waits for its write alone. So from every reachable state each handler can be brought
    to its end by steps of the servers alone, innermost forward first:

        (a, k) ──2──▶ (b, i) ──1──▶ (a, m)        (a, m) writes and ends, then (b, i), then (a, k)

    No transport has to fail for it, and no write but those the system must refuse. -/

namespace Fcopy
open Function Run

/-- A step that the servers take by themselves: nothing arrives from a client, no forward fails, and a
    `pwrite` fails only where it cannot be carried out. -/
def Own (net : Net) : NetLabel → Prop
  | .forward .. | .answer .. | .proceed _ _ .done | .proceed _ _ (.wrote _) => True
  | .proceed a i (.failed _) => ∀ x, (net.servers a).handlers i = .sending x →
    (net.servers a).store.os.pwrite x.fd (writeData x.data) x.req.offset = none
  | _ => False

def OwnStep (conf : Addr → Conf) (net : Net) (l : NetLabel) (net' : Net) : Prop :=
  netStep conf net l = some net' ∧ Own net l

/-- There are handlers left, and a sender has a place for each result. -/
structure Server.Ready (s : Server) : Prop where
  room : ∃ n, ∀ i, n ≤ i → s.handlers i = .idle
  places : ∀ i x, s.handlers i = .sending x → x.chainErrors.length = x.targets.length

structure Able (net : Net) : Prop where
  hops : Hops net
  followed : Followed net
  ready : ∀ a, (net.servers a).Ready

/-- Of the handlers that had started only `(a, i)` has taken steps. -/
def Untouched (a : Addr) (i : ℕ) (net net' : Net) : Prop :=
  ∀ b j, (net.servers b).handlers j ≠ .idle → (b, j) ≠ (a, i) →
    (net'.servers b).handlers j = (net.servers b).handlers j ∧ net'.served b j = net.served b j

variable {conf : Addr → Conf} {net net' : Net} {c : Conf} {s s' : Server}

/-! ### What makes it possible stays -/

theorem accept_places (c : Conf) (st : Store) (req : Request) {x : Sending}
    (h : (accept c st req).2 = .sending x) : x.chainErrors.length = x.targets.length := by
  obtain ⟨_, _, _, _, _, rfl⟩ := accept_sending h
  exact List.length_map _

theorem Effect.places {st st' : Store} {h h' : Handler} {ans : Answer} (heff : Effect st h ans st' h')
    (hh : ∀ x, h = .sending x → x.chainErrors.length = x.targets.length) :
    ∀ x, h' = .sending x → x.chainErrors.length = x.targets.length := by
  intro x hx
  cases heff <;> cases hx
  case wrote x _ _ _ _ _ => exact hh x rfl
  case writeFailed x _ _ => exact hh x rfl
  case answered x j e _ => rw [List.length_set]; exact hh x rfl

theorem Server.Ready.preserved (hs : s.Ready) {l : Label} (h : step c s l = some s') : s'.Ready := by
  obtain ⟨n, hn⟩ := hs.room
  have hroom : ∀ i h', ∃ m, ∀ j, m ≤ j → update s.handlers i h' j = .idle := by
    refine fun i h' => ⟨max n (i + 1), fun j hj => ?_⟩
    rw [update_of_ne (by omega)]
    exact hn j (by omega)
  refine ⟨?_, fun i x hx => ?_⟩
  · rcases step_cases h with ⟨i, req, rfl, _, rfl⟩ | ⟨i, a, st', h', rfl, heff, rfl⟩
    · exact hroom i _
    · exact hroom i _
  · rcases handler_cases h i with hsame | ⟨req, _, _, harrive⟩ | ⟨_, _, _, heff⟩
    · exact hs.places i x (hsame ▸ hx)
    · exact accept_places c s.store req (harrive ▸ hx)
    · exact heff.places (hs.places i) x hx

theorem Able.preserved (hn : Able net) {l : NetLabel} (h : netStep conf net l = some net') : Able net' := by
  refine ⟨hn.hops.preserved h, hn.followed.preserved h, fun a => ?_⟩
  obtain ⟨b, l', server, hstep, hnet⟩ := netStep_server h
  rw [hnet]
  by_cases hab : a = b
  · subst hab
    rw [update_self]
    exact (hn.ready a).preserved hstep
  · rw [update_of_ne hab]
    exact hn.ready a

theorem Able.own_run (hn : Able net) {ls : List NetLabel} (h : Steps (OwnStep conf) net ls net') :
    Able net' :=
  h.invariant (P := Able) (fun _ _ _ hn h => hn.preserved h.1) hn

theorem Initial.ready (h : Initial s) : s.Ready where
  room := ⟨0, fun i _ => by rw [h.handlers]⟩
  places i x hx := by
    rw [h.handlers] at hx
    cases hx

theorem Quiet.able (h : Quiet conf net) : Able net where
  hops := by
    have hno : ∀ {a i s} {P : Prop}, net.served a i = some s → P := by
      intro a i s P hs
      rw [h.served] at hs
      cases hs
    exact ⟨fun a i hne => absurd (h.served a i) hne, fun _ _ _ _ hs => hno hs, fun _ _ _ _ _ _ hs => hno hs⟩
  followed := ⟨fun a i _ => h.served a i, fun a i s hs => by rw [h.served] at hs; cases hs⟩
  ready a := by
    obtain ⟨s, ls, h₀, hr⟩ := h.reached a
    exact hr.invariant (P := Server.Ready) (fun _ _ _ hs h => hs.preserved h) h₀.ready

/-! ### What is left alone -/

theorem Untouched.refl (a : Addr) (i : ℕ) (net : Net) : Untouched a i net net :=
  fun _ _ _ _ => ⟨rfl, rfl⟩

theorem Untouched.trans {a : Addr} {i : ℕ} {net'' : Net} (h : Untouched a i net net')
    (h' : Untouched a i net' net'') : Untouched a i net net'' := by
  intro b j hidle hne
  obtain ⟨hh, hs⟩ := h b j hidle hne
  obtain ⟨hh', hs'⟩ := h' b j (by rw [hh]; exact hidle) hne
  exact ⟨hh'.trans hh, hs'.trans hs⟩

theorem Untouched.arrival {a : Addr} {i : ℕ} {v : Served} (h : arrival conf net a i v = some net') (b : Addr)
    (k : ℕ) : Untouched b k net net' := by
  obtain ⟨hidle, rfl⟩ := arrival_eq h
  intro c j hj _
  have hne : ¬(c = a ∧ j = i) := by
    rintro ⟨rfl, rfl⟩
    exact hj hidle
  simp only [handlers_update, served_update, if_neg hne, and_self]

theorem Untouched.move {a : Addr} {i : ℕ} {ans : Answer} (h : move conf net a i ans = some net') :
    Untouched a i net net' := by
  obtain ⟨_, _, _, _, _, rfl⟩ := move_eq h
  intro c j _ hne
  have hne : ¬(c = a ∧ j = i) := by
    rintro ⟨rfl, rfl⟩
    exact hne rfl
  simp only [handlers_update, if_neg hne, and_self]

/-- Steps of a handler that had not started are no steps of those that had. -/
theorem Untouched.fresh {a b : Addr} {i k : ℕ} {net'' : Net} (h : Untouched a i net net')
    (h' : Untouched b k net' net'') (hidle : (net.servers b).handlers k = .idle) :
    Untouched a i net net'' := by
  intro c j hj hne
  obtain ⟨hh, hs⟩ := h c j hj hne
  obtain ⟨hh', hs'⟩ := h' c j (by rw [hh]; exact hj) (by rintro heq; cases heq; exact hj hidle)
  exact ⟨hh'.trans hh, hs'.trans hs⟩

/-! ### One handler -/

/-- Handler `i` at `a` can be brought to its end. -/
def Ends (conf : Addr → Conf) (net : Net) (a : Addr) (i : ℕ) : Prop :=
  ∃ ls net' r, Steps (OwnStep conf) net ls net' ∧ (net'.servers a).handlers i = .finished r ∧
    net'.served a i = net.served a i ∧ Untouched a i net net'

variable (conf) in
/-- A sender can go on as `advance` says. -/
theorem moves {a : Addr} {k : ℕ} {p : Served} {ans : Answer} {st' : Store} {h' : Handler}
    (hp : net.served a k = some p)
    (hadv : advance (net.servers a).store ((net.servers a).handlers k) ans = some (st', h')) :
    ∃ net', move conf net a k ans = some net' ∧ (net'.servers a).handlers k = h' ∧
      net'.served = net.served := by
  have hstep : step (conf a) (net.servers a) (.resume k ans) =
      some ⟨st', update (net.servers a).handlers k h'⟩ := by
    rw [step, hadv]
    rfl
  exact ⟨_, move_some hp hstep, by simp only [update_self], rfl⟩

variable (conf) in
theorem arrives {a : Addr} {i : ℕ} (hidle : (net.servers a).handlers i = .idle) (v : Served) :
    ∃ net', arrival conf net a i v = some net' ∧ net'.served a i = some v := by
  have hstep : step (conf a) (net.servers a) (.arrive i (.send v.req v.data)) =
      some ⟨(accept (conf a) (net.servers a).store (.send v.req v.data)).1,
        update (net.servers a).handlers i
          (accept (conf a) (net.servers a).store (.send v.req v.data)).2⟩ := by
    rw [step, if_pos hidle]
  exact ⟨_, arrival_some hstep, by simp only [update_self]⟩

variable (conf) in
/-- A forward can be answered: by a handler of its own, once that has ended. -/
theorem forward_ends {a : Addr} {k j : ℕ} {p : Served} {x : Sending} (hn : Able net)
    (hp : net.served a k = some p) (hx : (net.servers a).handlers k = .sending x)
    (hj : x.chainErrors[j]? = some none)
    (ih : ∀ net b i s, Able net → net.served b i = some s →
      s.req.maxChainLen.toNat + 1 = p.req.maxChainLen.toNat → Ends conf net b i) :
    ∃ ls net' e, Steps (OwnStep conf) net ls net' ∧ (net'.servers a).handlers k =
        .sending { x with chainErrors := x.chainErrors.set j (some e) } ∧
      net'.served a k = some p ∧ Untouched a k net net' := by
  have hlt : j < x.targets.length := by
    rw [← (hn.ready a).places k x hx]
    exact (List.getElem?_eq_some_iff.mp hj).1
  obtain ⟨t, ht⟩ : ∃ t, x.targets[j]? = some t := ⟨_, List.getElem?_eq_getElem hlt⟩
  have hpend : pending net a k j = some (x, t) := pending_some.mpr ⟨hx, ht, hj⟩
  -- the forward reaches a handler that is idle
  obtain ⟨i, hroom⟩ := (hn.ready t.addr).room
  have hidle := hroom i (Nat.le_refl i)
  have hne : (a, k) ≠ (t.addr, i) := by
    rintro heq
    cases heq
    rw [hx] at hidle
    cases hidle
  obtain ⟨net₁, harr, hserved₁⟩ :=
    arrives conf hidle ⟨.hop a k j, chainRequest x.req t, x.data⟩
  have hforward : netStep conf net (.forward a k j i) = some net₁ := by
    simp only [netStep, hp, hpend, harr]
  have hn₁ := hn.preserved hforward
  have hfrom : ∀ b m, Untouched b m net net₁ := Untouched.arrival harr
  obtain ⟨hx₁, hp₁⟩ := hfrom t.addr i a k (by rw [hx]; simp) hne
  -- it ends, and its reply is the answer
  obtain ⟨ls, net₂, r, hrun, hfin, hserved₂, hleft⟩ :=
    ih net₁ t.addr i _ hn₁ hserved₁ (hn.hops.pending hp hpend).1
  obtain ⟨hx₂, hp₂⟩ := hleft a k (by rw [hx₁, hx]; simp) hne
  have hx₂ : (net₂.servers a).handlers k = .sending x := hx₂.trans (hx₁.trans hx)
  have hp₂ : net₂.served a k = some p := hp₂.trans (hp₁.trans hp)
  obtain ⟨net₃, hmove, hx₃, hserved₃⟩ := moves conf hp₂ (show advance _ _
    (.answered j (wireError r.error)) = _ by rw [hx₂, advance, if_pos hj])
  have hanswer : netStep conf net₂ (.answer a k j i) = some net₃ := by
    simp only [netStep, pending_some.mpr ⟨hx₂, ht, hj⟩, hserved₂.trans hserved₁, hfin, if_pos, hmove]
  refine ⟨.forward a k j i :: (ls ++ [.answer a k j i]), net₃, wireError r.error,
    .cons ⟨hforward, trivial⟩ (hrun.append (.cons ⟨hanswer, ?_⟩ (.nil _))), hx₃, ?_, ?_⟩
  · trivial
  · rw [hserved₃, hp₂]
  · exact ((hfrom a k).fresh hleft hidle).trans (.move hmove)

theorem all_some {α : Type*} : ∀ {l : List (Option α)}, none ∉ l → ∃ l' : List α, l = l'.map some
  | [], _ => ⟨[], rfl⟩
  | none :: _, h => absurd List.mem_cons_self h
  | some v :: l, h => by
    obtain ⟨l', hl⟩ := all_some fun hmem => h (List.mem_cons_of_mem _ hmem)
    exact ⟨v :: l', by rw [hl, List.map_cons]⟩

theorem mapM_id_map_some {α : Type*} (l : List α) : (l.map some).mapM id = some l := by
  induction l with
  | nil => rfl
  | cons v l ih =>
    rw [List.map_cons, List.mapM_cons, ih]
    rfl

/-- All forwards can be answered, one after the other. -/
theorem forwards_end {a : Addr} {k m : ℕ} {p : Served} {x : Sending} (hn : Able net)
    (hp : net.served a k = some p) (hx : (net.servers a).handlers k = .sending x)
    (hm : x.chainErrors.count none = m)
    (ih : ∀ net b i s, Able net → net.served b i = some s →
      s.req.maxChainLen.toNat + 1 = p.req.maxChainLen.toNat → Ends conf net b i) :
    ∃ ls net', ∃ errors : List ℤ, Steps (OwnStep conf) net ls net' ∧ (net'.servers a).handlers k =
        .sending { x with chainErrors := errors.map some } ∧
      net'.served a k = some p ∧ Untouched a k net net' := by
  induction m generalizing net x with
  | zero =>
    have hall : none ∉ x.chainErrors := List.count_eq_zero.mp hm
    obtain ⟨errors, herrors⟩ := all_some hall
    refine ⟨[], net, errors, .nil net, ?_, hp, .refl a k net⟩
    rw [hx, ← herrors]
  | succ m hrec =>
    have hmem : none ∈ x.chainErrors := List.count_pos_iff.mp (by omega)
    obtain ⟨j, hj⟩ := List.mem_iff_getElem?.mp hmem
    obtain ⟨ls₁, net₁, e, hrun₁, hx₁, hp₁, hleft₁⟩ := forward_ends conf hn hp hx hj ih
    have hcount : (x.chainErrors.set j (some e)).count none = m := by
      rw [List.count_set (List.getElem?_eq_some_iff.mp hj).1, (List.getElem?_eq_some_iff.mp hj).2, hm]
      simp
    obtain ⟨ls₂, net₂, errors, hrun₂, hx₂, hp₂, hleft₂⟩ :=
      hrec (hn.own_run hrun₁) hp₁ hx₁ hcount
    exact ⟨ls₁ ++ ls₂, net₂, errors, hrun₁.append hrun₂, hx₂, hp₂, hleft₁.trans hleft₂⟩

variable (conf) in
/-- The write can end: as it should, or with an error where the system must refuse it. -/
theorem write_ends {a : Addr} {k : ℕ} {p : Served} {x : Sending}
    (hp : net.served a k = some p) (hx : (net.servers a).handlers k = .sending x) :
    ∃ ls net' e, Steps (OwnStep conf) net ls net' ∧ (net'.servers a).handlers k =
        .sending { x with writeError := some e } ∧
      net'.served a k = some p ∧ Untouched a k net net' := by
  cases hw : x.writeError with
  | some e => exact ⟨[], net, e, .nil net, by rw [hx, ← hw], hp, .refl a k net⟩
  | none =>
    have htake : (writeData x.data).take (writeSize x.data.length) = writeData x.data := by
      rw [← length_writeData, List.take_length]
    cases hos : (net.servers a).store.os.pwrite x.fd (writeData x.data) x.req.offset with
    | some os =>
      obtain ⟨net', hmove, hx', hserved⟩ := moves conf hp (show advance _ _
        (.wrote (writeSize x.data.length)) = _ by
          rw [hx, advance, if_pos ⟨hw, Nat.le_refl _⟩, htake, hos, Option.map_some])
      exact ⟨[.proceed a k (.wrote _)], net', 0, .cons ⟨hmove, trivial⟩ (.nil _), hx',
        by rw [hserved, hp], .move hmove⟩
    | none =>
      obtain ⟨net', hmove, hx', hserved⟩ := moves conf hp (show advance _ _
        (.failed 9) = _ by rw [hx, advance, if_pos hw])
      refine ⟨[.proceed a k (.failed 9)], net', 9, .cons ⟨hmove, fun y hy => ?_⟩ (.nil _), hx',
        by rw [hserved, hp], .move hmove⟩
      cases hx.symm.trans hy
      exact hos

/-- CORRECT (one handler): where the handlers of its forwards can be brought to their end, so can it. -/
theorem handler_ends {a : Addr} {k : ℕ} {p : Served} (hn : Able net) (hp : net.served a k = some p)
    (ih : ∀ net b i s, Able net → net.served b i = some s →
      s.req.maxChainLen.toNat + 1 = p.req.maxChainLen.toNat → Ends conf net b i) :
    Ends conf net a k := by
  rcases hn.followed.sender a k p hp with ⟨x, hx⟩ | ⟨r, hr⟩
  · obtain ⟨ls₁, net₁, errors, hrun₁, hx₁, hp₁, hleft₁⟩ := forwards_end hn hp hx rfl ih
    obtain ⟨ls₂, net₂, e, hrun₂, hx₂, hp₂, hleft₂⟩ := write_ends conf hp₁ hx₁
    have hjoin : advance (net₂.servers a).store ((net₂.servers a).handlers k) .done =
        some ((net₂.servers a).store, .finished ⟨firstError errors e, []⟩) := by
      rw [hx₂, advance, Sending.error]
      simp only [mapM_id_map_some, Option.map_some]
    obtain ⟨net₃, hmove, hfin, hserved₃⟩ := moves conf hp₂ hjoin
    have hproceed : netStep conf net₂ (.proceed a k .done) = some net₃ := hmove
    refine ⟨ls₁ ++ (ls₂ ++ [.proceed a k .done]), net₃, _,
      hrun₁.append (hrun₂.append (.cons ⟨hproceed, ?_⟩ (.nil _))), hfin, ?_,
      hleft₁.trans (hleft₂.trans (.move hmove))⟩
    · trivial
    · rw [hserved₃, hp₂, hp]
  · exact ⟨[], net, r, .nil net, hr, rfl, .refl a k net⟩

/-- The induction is on the hops of the request. -/
theorem Able.ends (n : ℕ) : ∀ {net : Net} {a : Addr} {k : ℕ} {p : Served}, Able net →
    net.served a k = some p → p.req.maxChainLen.toNat = n → Ends conf net a k := by
  induction n with
  | zero => exact fun hn hp hzero => handler_ends hn hp fun _ _ _ _ _ _ hlen => by omega
  | succ n hrec =>
    exact fun hn hp hlen => handler_ends hn hp fun _ _ _ _ hn' hs hlen' => hrec hn' hs (by omega)

/-! ### Every reachable state -/

/-- CORRECT (no deadlock): whatever the targets and whatever has happened so far, each request that is
    being served can be answered by steps of the servers alone, which leave all other handlers that
    have started as they are. -/
theorem forwarding_completes (conf : Addr → Conf) (net₀ net : Net) (ls : List NetLabel)
    (hready : Quiet conf net₀) (hrun : NetRuns conf net₀ ls net) (a : Addr) (i : ℕ)
    (hs : net.served a i ≠ none) : Ends conf net a i := by
  obtain ⟨s, hs⟩ := Option.ne_none_iff_exists'.mp hs
  have hn := hrun.invariant (P := Able) (fun _ _ _ hn h => hn.preserved h) hready.able
  exact hn.ends _ hs rfl

/-- A server whose session forwards to itself. -/
def loopNet : Net where
  servers := fun _ => (exec (step sampleConf) sampleServer
    (sampleCreate ++ [.arrive 1 (.setChain ⟨text "4", [⟨text "a", 1, text "4"⟩]⟩)])).getD sampleServer
  served := fun _ _ => none
  log := fun _ => []

theorem loopNet_quiet : Quiet (fun _ => sampleConf) loopNet where
  reached _ := by
    simp only [loopNet]
    generalize (sampleCreate ++ _ : List Label) = labels
    cases h : exec (step sampleConf) sampleServer labels with
    | none => exact ⟨sampleServer, [], sampleServer_initial, .nil _⟩
    | some t => exact ⟨sampleServer, labels, sampleServer_initial, steps_iff_exec.mpr h⟩
  served _ _ := rfl
  log _ := rfl

/-- Handler 5 waits for handler 6 of the same session, which waits for a third. -/
theorem forwarding_completes_loop : ∃ net : Net, pending net (text "a", 1) 5 0 ≠ none ∧
    pending net (text "a", 1) 6 0 ≠ none ∧ Ends (fun _ => sampleConf) net (text "a", 1) 5 := by
  let addr : Addr := (text "a", 1)
  let ls : List NetLabel :=
    [.request 0 addr 5 { maxChainLen := 3, fileToken := text "4" } (text "hi"), .forward addr 5 0 6]
  have hcheck : (exec (netStep fun _ => sampleConf) loopNet ls).any (fun net =>
      pending net addr 5 0 ≠ none ∧ pending net addr 6 0 ≠ none ∧ net.served addr 5 ≠ none) = true := by
    decide +kernel
  obtain ⟨net, hexec, hend⟩ := (Option.any_eq_true _ _).mp hcheck
  obtain ⟨hfive, hsix, hserved⟩ := of_decide_eq_true hend
  exact ⟨net, hfive, hsix, forwarding_completes (fun _ => sampleConf) loopNet net ls loopNet_quiet
    (steps_iff_exec.mpr hexec) addr 5 hserved⟩

end Fcopy
