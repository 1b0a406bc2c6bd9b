import Fcopy.Network.Acknowledge

/-! Where the error in the reply to a `SEND_FILE_REQ` comes from.

    A handler replies with the first error of its forwards, or with that of its own write, and the error
    of a forward is what the handler at the other end has replied. So an error is raised once, at one
    session, and handed up hop by hop as it is:

        (a, k) ◀─ -ENOENT ─ (b, i) ◀─ -ENOENT ─ (c, m)      no session with that token at c

    What raises it is a session that is missing, a hop too many, a write that the system has refused, or
    a forward that has come to nothing (`Cause`). -/

namespace Fcopy
open Function Relay Run

/-- The error `e` is raised at the session `n`, for a request with `b` hops, in a run with labels `ls`
    that ends in `net`. -/
def Cause (T : Tables) (ls : List NetLabel) (net : Net) (b : ℕ) (n : Node) (e : ℤ) : Prop :=
  (T n.1 n.2 = none ∧ e = -ENOENT) ∨
  (∃ info, T n.1 n.2 = some info ∧ info.targets ≠ [] ∧ b ≤ 1 ∧ e = -ECANCELED) ∨
  ∃ i s, net.served n.1 i = some s ∧ s.req.fileToken = n.2 ∧ s.req.maxChainLen.toNat = b ∧
    ((∃ errno : ℕ, .proceed n.1 i (.failed errno) ∈ ls ∧ e = errno) ∨ ∃ j, .fail n.1 i j e ∈ ls)

/-- The error has a cause at the session of the request, or behind it. -/
def Raised (T : Tables) (ls : List NetLabel) (net : Net) (a : Addr) (s : Served) (e : ℤ) : Prop :=
  Blamed (Hop T) (Cause T ls net) s.req.maxChainLen.toNat (a, s.req.fileToken) e

/-- The errors that a handler at `a` that serves `s` has recorded, or replied, have causes. -/
def Handler.Explained (T : Tables) (ls : List NetLabel) (net : Net) (a : Addr) (s : Served) : Handler → Prop
  | .sending x => (∀ e, x.writeError = some e → e ≠ 0 → Raised T ls net a s e) ∧
      ∀ e, some e ∈ x.chainErrors → e ≠ 0 → Raised T ls net a s e
  | .finished r => wireError r.error ≠ 0 → Raised T ls net a s (wireError r.error)
  | _ => True

def Explained (T : Tables) (ls : List NetLabel) (net : Net) : Prop :=
  ∀ a i s, net.served a i = some s → ((net.servers a).handlers i).Explained T ls net a s

variable {T : Tables} {M : Node → Prop} {conf : Addr → Conf} {net net' : Net} {ls : List NetLabel}

/-! ### What is known stays -/

theorem served_mono {l : NetLabel} (hsin : Sincere T M net) (h : netStep conf net l = some net')
    {a : Addr} {i : ℕ} {s : Served} (hs : net.served a i = some s) : net'.served a i = some s := by
  rw [served_kept h, hs]
  intro hidle
  rw [hsin.fresh a i hidle] at hs
  cases hs

theorem Raised.mono {l : NetLabel} (hserved : ∀ a i s, net.served a i = some s → net'.served a i = some s)
    {a : Addr} {s : Served} {e : ℤ} (h : Raised T ls net a s e) : Raised T (ls ++ [l]) net' a s e := by
  refine Blamed.mono (fun b n e hc => ?_) h
  rcases hc with hc | hc | ⟨i, s', hs', htoken, hb, herr⟩
  · exact .inl hc
  · exact .inr (.inl hc)
  · refine .inr (.inr ⟨i, s', hserved _ _ _ hs', htoken, hb, ?_⟩)
    rcases herr with ⟨errno, hmem, he⟩ | ⟨j, hmem⟩
    · exact .inl ⟨errno, List.mem_append_left _ hmem, he⟩
    · exact .inr ⟨j, List.mem_append_left _ hmem⟩

theorem Handler.Explained.mono {l : NetLabel}
    (hserved : ∀ a i s, net.served a i = some s → net'.served a i = some s) {a : Addr} {s : Served}
    {h : Handler} (he : h.Explained T ls net a s) : h.Explained T (ls ++ [l]) net' a s := by
  cases h with
  | sending x =>
    exact ⟨fun e hw hne => (he.1 e hw hne).mono hserved,
      fun e hc hne => (he.2 e hc hne).mono hserved⟩
  | finished r => exact fun hne => (he hne).mono hserved
  | _ => trivial

/-! ### One step -/

/-- A request that is refused has its cause where it arrives. -/
theorem handleSendFile_explained {a : Addr} {s : Served} {st : Store}
    (hst : st.fmap s.req.fileToken = T a s.req.fileToken) :
    (handleSendFile st s.req s.data).Explained T ls net a s := by
  simp only [handleSendFile, sendStart, Store.getFd, hst]
  cases hinfo : T a s.req.fileToken with
  | none => exact fun _ => .here (.inl ⟨hinfo, by decide⟩)
  | some info =>
    by_cases hop : s.req.maxChainLen.toNat ≤ 1 ∧ info.targets ≠ []
    · simp only [if_pos hop]
      exact fun _ => .here (.inr (.inl ⟨info, hinfo, hop.2, hop.1, by decide⟩))
    · simp only [if_neg hop]
      refine ⟨fun e he => (by cases he), fun e he => ?_⟩
      obtain ⟨t, -, ht⟩ := List.mem_map.mp he
      cases ht

/-- CORRECT (one piece of a sender): an error that is told is kept, and replied as it is. -/
theorem Effect.explained {a : Addr} {s : Served} {x : Sending} {ans : Answer} {st st' : Store} {h' : Handler}
    (heff : Effect st (.sending x) ans st' h') (hp : Progress T net a s x)
    (hx : (Handler.sending x).Explained T ls net a s)
    (hfailed : ∀ e, ans = .failed e → Raised T ls net a s e)
    (hanswered : ∀ j e, ans = .answered j e → e ≠ 0 → Raised T ls net a s e) :
    h'.Explained T ls net a s := by
  cases heff with
  | wrote _ n os hnone hn hw =>
    refine ⟨fun e he hne => ?_, hx.2⟩
    cases he
    exact absurd rfl hne
  | writeFailed _ e hnone =>
    refine ⟨fun e' he hne => ?_, hx.2⟩
    cases he
    exact hfailed e rfl
  | answered _ j e hnone =>
    refine ⟨hx.1, fun e' he hne => ?_⟩
    rcases List.mem_or_eq_of_mem_set he with he | he
    · exact hx.2 e' he hne
    · cases he
      exact hanswered j e rfl hne
  | joined _ e he =>
    intro hne
    obtain ⟨w, errors, hw, herrors, rfl⟩ := Sending.error_eq he
    rcases firstError_mem errors w with hmem | heq
    · have hmem : some (firstError errors w) ∈ x.chainErrors := by
        rw [herrors]
        exact List.mem_map_of_mem hmem
      rw [wireError_eq (hp.fits.2 _ hmem)] at hne ⊢
      exact hx.2 _ hmem hne
    · rw [heq, wireError_eq (hp.fits.1 w hw)] at hne ⊢
      exact hx.1 w hw hne

/-! ### A step of the network -/

/-- An error that a forward has been answered with has been raised one hop further. -/
theorem Relays.answer_raised (hr : Relays conf T M net) (hex : Explained T ls net) {a : Addr} {k j i : ℕ}
    {x : Sending} {t : ChainTarget} {p s : Served} {r : Reply} (hp : net.served a k = some p)
    (hpend : pending net a k j = some (x, t)) (hs : net.served t.addr i = some s)
    (hfin : (net.servers t.addr).handlers i = .finished r) (ho : s.origin = .hop a k j)
    (hne : wireError r.error ≠ 0) : Raised T ls net a p (wireError r.error) := by
  obtain ⟨hx, ht, -⟩ := pending_eq hpend
  obtain ⟨p', info, t', hp', hinfo, ht', hsp⟩ := hr.sincere.parent t.addr i s a k j hs ho
  cases hp.symm.trans hp'
  have hprog := hr.sincere.sending a k p x hp hx
  obtain ⟨info', hinfo', -, htargets⟩ := hprog.session
  cases hinfo.symm.trans hinfo'
  rw [htargets] at ht
  cases ht.symm.trans ht'
  have hbudget : 1 < p.req.maxChainLen.toNat :=
    hprog.hops (by rw [htargets]; exact List.ne_nil_of_mem (List.mem_of_getElem? ht))
  have hchild := hex t.addr i s hs
  rw [hfin] at hchild
  have hraised := hchild hne
  rw [hsp, Raised, chainRequest_maxChainLen t hbudget] at hraised
  exact .hop hbudget ⟨info, t, hinfo, List.mem_of_getElem? ht, rfl⟩ hraised

/-- CORRECT (one step): whatever has been recorded or replied by then has a cause. -/
theorem Explained.preserved (hr : Relays conf T M net) (hex : Explained T ls net) {l : NetLabel}
    (hl : Assumed conf M net l) (h : netStep conf net l = some net') : Explained T (ls ++ [l]) net' := by
  have hmono : ∀ a i s, net.served a i = some s → net'.served a i = some s :=
    fun a i s hs => served_mono hr.sincere h hs
  -- a handler that has arrived
  have harrival : ∀ {b : Addr} {k : ℕ} {v : Served}, arrival conf net b k v = some net' →
      M (b, v.req.fileToken) → Explained T (ls ++ [l]) net' := by
    intro b k v harr hM
    obtain ⟨-, hnet⟩ := arrival_eq harr
    intro a i s hs
    rw [hnet] at hs ⊢
    simp only [served_update] at hs
    simp only [handlers_update]
    split at hs
    · rename_i hbk
      cases hs
      rw [if_pos hbk, hbk.1]
      exact handleSendFile_explained (hr.static.tables (b, v.req.fileToken) hM)
    · rename_i hbk
      rw [if_neg hbk, ← hnet]
      exact (hex a i s hs).mono hmono
  -- a handler that has moved on
  have hmove : ∀ {b : Addr} {k : ℕ} {ans : Answer}, move conf net b k ans = some net' →
      (∀ p, net.served b k = some p → ∀ e, ans = .failed e → Raised T (ls ++ [l]) net' b p e) →
      (∀ p, net.served b k = some p → ∀ j e, ans = .answered j e → e ≠ 0 →
        Raised T (ls ++ [l]) net' b p e) → Explained T (ls ++ [l]) net' := by
    intro b k ans hmv hfailed hanswered
    obtain ⟨p, st', h', hserved, heff, hnet⟩ := move_eq hmv
    intro a i s hs
    rw [hnet] at hs ⊢
    simp only [handlers_update]
    split
    · rename_i hbk
      obtain ⟨rfl, rfl⟩ := hbk
      cases hserved.symm.trans hs
      rcases hr.sincere.kind a i p hserved with ⟨x, hx⟩ | ⟨r, hfin⟩
      · have hbefore := (hex a i p hserved).mono (l := l) hmono
        rw [hx] at heff hbefore
        rw [← hnet]
        exact heff.explained ((hr.sincere.sending a i p x hserved hx).mono (netStep_log h)) hbefore
          (hfailed p hserved) (hanswered p hserved)
      · rw [hfin] at heff
        cases heff
    · rw [← hnet]
      exact (hex a i s hs).mono hmono
  -- an error raised at the handler itself
  have hraise : ∀ {b : Addr} {k : ℕ} {p : Served} {e : ℤ}, net.served b k = some p →
      ((∃ errno : ℕ, .proceed b k (.failed errno) ∈ ls ++ [l] ∧ e = errno) ∨
        ∃ j, .fail b k j e ∈ ls ++ [l]) → Raised T (ls ++ [l]) net' b p e :=
    fun hp herr => .here (.inr (.inr ⟨_, _, hmono _ _ _ hp, rfl, rfl, herr⟩))
  rcases netStep_cases h with ⟨id, a, i, req, data, rfl, harr⟩ |
    ⟨a, k, j, i, p, x, t, rfl, hp, hpend, harr⟩ |
    ⟨a, k, j, i, x, t, s, r, rfl, hpend, hs, hfin, ho, hmv⟩ | ⟨a, k, j, e, rfl, hmv⟩ |
    ⟨a, i, ans, rfl, hans, hmv⟩ | ⟨a, l', rfl, hoth⟩
  · exact harrival harr hl
  · obtain ⟨hx, ht, -⟩ := pending_eq hpend
    obtain ⟨info, hinfo, -, htargets⟩ := (hr.sincere.sending a k p x hp hx).session
    rw [htargets] at ht
    exact harrival harr (hr.static.closed _ _ (hr.sincere.member a k p hp)
      ⟨info, t, hinfo, List.mem_of_getElem? ht, rfl⟩)
  · refine hmove hmv (fun p hp e he => by cases he) fun p hp j' e he hne => ?_
    cases he
    exact (hr.answer_raised hex hp hpend hs hfin ho hne).mono hmono
  · refine hmove hmv (fun p hp e he => by cases he) fun p hp j' e' he hne => ?_
    cases he
    exact hraise hp (.inr ⟨j, List.mem_append_right _ (List.mem_singleton_self _)⟩)
  · refine hmove hmv (fun p hp e he => ?_) fun p hp j e he => absurd he (hans j e)
    subst he
    exact hraise hp (.inl ⟨e, List.mem_append_right _ (List.mem_singleton_self _), rfl⟩)
  · intro b i s hs
    have hsame : net.served b i = some s := by
      obtain ⟨_, _, _, rfl⟩ := others_eq hoth
      exact hs
    rw [others_handlers hoth (by rw [hsame]; exact Option.some_ne_none s)]
    exact (hex b i s hsame).mono hmono

/-- CORRECT (errors): an error in a reply has been raised at a session that the forwarding targets lead
    to within the hops, and has come up from there unchanged. Only the sessions `M`, which contain those
    the targets lead to, have to be left alone meanwhile. -/
theorem error_reply_caused (conf : Addr → Conf) (M : Node → Prop) (net net' : Net) (ls : List NetLabel)
    (hready : Quiet conf net) (hM : ∀ n m, M n → Hop net.tables n m → M m)
    (hrun : NetRuns conf net ls net')
    (hass : EveryStep (ofStep (netStep conf)) (Assumed conf M) net ls)
    (a : Addr) (i : ℕ) (s : Served) (r : Reply) (hs : net'.served a i = some s)
    (hr : (net'.servers a).handlers i = .finished r) (hne : wireError r.error ≠ 0) :
    ∃ l m, Path (Hop net.tables) l (a, s.req.fileToken) m ∧ l < max s.req.maxChainLen.toNat 1 ∧
      Cause net.tables ls net' (s.req.maxChainLen.toNat - l) m (wireError r.error) := by
  have hstart : Relays conf net.tables M net ∧ Explained net.tables [] net :=
    ⟨relays_start hready.sound hready.served hM,
      fun a i s hs => by rw [hready.served] at hs; cases hs⟩
  have hend := hrun.recorded (P := fun ms n => Relays conf net.tables M n ∧
      Explained net.tables ms n)
    (fun ms n l n' ⟨hr, hex⟩ hl h => ⟨hr.preserved hl h, hex.preserved hr hl h⟩) hass hstart
  have hfinal := hend.2 a i s hs
  rw [hr] at hfinal
  exact (hfinal hne).path

/-- The write at `b` fails with error 5, and so the request at `a` does. -/
theorem error_reply_caused_two : ∃ net' r,
    let addr : Addr := (text "a", 1)
    let req : SendFileReq := { maxChainLen := 2, fileToken := text "4" }
    let ls : List NetLabel := [.request 0 addr 5 req (text "hi"), .forward addr 5 0 5,
      .proceed (text "b", 1) 5 (.failed 5), .proceed (text "b", 1) 5 .done, .answer addr 5 0 5,
      .proceed addr 5 (.wrote 8192), .proceed addr 5 .done]
    (net'.servers addr).handlers 5 = .finished r ∧ wireError r.error = 5 ∧
      ∃ l m, Path (Hop sampleNet.tables) l (addr, req.fileToken) m ∧ l < max req.maxChainLen.toNat 1 ∧
        Cause sampleNet.tables ls net' (req.maxChainLen.toNat - l) m (wireError r.error) := by
  let addr : Addr := (text "a", 1)
  let req : SendFileReq := { maxChainLen := 2, fileToken := text "4" }
  have hcheck : (execIf (netStep fun _ => sampleConf)
      (fun net l => l = .proceed (text "b", 1) 5 (.failed 5) || assumedCheck net l) sampleNet
      [.request 0 addr 5 req (text "hi"), .forward addr 5 0 5,
        .proceed (text "b", 1) 5 (.failed 5), .proceed (text "b", 1) 5 .done, .answer addr 5 0 5,
        .proceed addr 5 (.wrote 8192), .proceed addr 5 .done]).any (fun net =>
      net.served addr 5 = some ⟨.client 0, req, text "hi"⟩ ∧
        (net.servers addr).handlers 5 = .finished ⟨5, []⟩) = true := by
    decide +kernel
  obtain ⟨net', hexec, hend⟩ := (Option.any_eq_true _ _).mp hcheck
  obtain ⟨hserved, hfin⟩ := of_decide_eq_true hend
  obtain ⟨hrun, hass⟩ := of_execIf (G := Assumed (fun _ => sampleConf) fun _ => True)
    (I := fun _ => True) (fun n l _ h => by
      rcases (Bool.or_eq_true _ _).mp h with h | h
      · rw [of_decide_eq_true h]
        exact ⟨by decide, by decide, by decide⟩
      · exact assumed_of_check h) (fun _ _ _ _ _ _ => trivial) trivial hexec
  exact ⟨net', ⟨5, []⟩, hfin, by decide, error_reply_caused (fun _ => sampleConf) (fun _ => True) sampleNet
    net' _ sampleNet_quiet (fun _ _ _ _ => trivial) hrun hass addr 5 _ _ hserved hfin (by decide)⟩

end Fcopy
