import Fcopy.Network.Forward
import Fcopy.Schemes.Relay

/-! What a handler that forwards a chunk knows.

    The sessions `M` that requests are for, with the forwarding targets `T` in them, stay as they are
    while chunks are sent. `Hop T` leads from a session to the sessions its targets name. A handler
    keeps what it knows so far: its own write, once that has succeeded, and the tree of
    acknowledgements below each target that has answered 0 (`Progress`). Joined, they are the tree
    below the session itself (`Covered`):

        wrote ────────────────┐
        target 0 ── Covered ──┤
        target 1 ── Covered ──┴─▶ Covered ──▶ reply 0 -/

namespace Fcopy
open Function Relay

/-- A session in the network: where, and its token. -/
abbrev Node := Addr × Bytes

abbrev Tables := Addr → Bytes → Option FileInfo

/-- The session tables of the network. -/
def Net.tables (net : Net) : Tables := fun a => (net.servers a).store.fmap

/-- The session at `n` forwards to the session `m`. -/
def Hop (T : Tables) (n m : Node) : Prop :=
  ∃ info t, T n.1 n.2 = some info ∧ t ∈ info.targets ∧ m = (t.addr, t.fileToken)

/-- The data has been written, padded, to the file of the session at `n`. -/
def Wrote (T : Tables) (net : Net) (offset : BitVec 64) (data : Bytes) (n : Node) : Prop :=
  ∃ info, T n.1 n.2 = some info ∧ ⟨info.desc.file, offset, writeData data⟩ ∈ net.log n.1

/-- Everything the request reaches from `a` has been written, within its hops. -/
def Acknowledged (T : Tables) (net : Net) (a : Addr) (req : SendFileReq) (data : Bytes) : Prop :=
  Covered (Hop T) (Wrote T net req.offset data) req.maxChainLen.toNat (a, req.fileToken)

/-- The sessions `M` are those of `T`, and forward to each other. -/
structure Static (conf : Addr → Conf) (T : Tables) (M : Node → Prop) (net : Net) : Prop where
  sound : ∀ a, Sound (conf a) (net.servers a)
  tables : ∀ n, M n → net.tables n.1 n.2 = T n.1 n.2
  closed : ∀ n m, M n → Hop T n m → M m

/-- What a handler at `a` that serves `s` has got so far. -/
structure Progress (T : Tables) (net : Net) (a : Addr) (s : Served) (x : Sending) : Prop where
  req : x.req = s.req
  data : x.data = s.data
  session : ∃ info, T a s.req.fileToken = some info ∧ x.fd = info.fd ∧ x.targets = info.targets
  hops : x.targets ≠ [] → 1 < s.req.maxChainLen.toNat
  length : x.chainErrors.length = x.targets.length
  wrote : x.writeError = some 0 → Wrote T net s.req.offset s.data (a, s.req.fileToken)
  answered : ∀ (j : ℕ) t, x.targets[j]? = some t → x.chainErrors[j]? = some (some 0) →
    Acknowledged T net t.addr (chainRequest s.req t) s.data
  fits : (∀ e, x.writeError = some e → Fits e) ∧ ∀ e, some e ∈ x.chainErrors → Fits e

variable {T : Tables} {M : Node → Prop} {conf : Addr → Conf} {net net' : Net}

/-! ### Facts that stay -/

theorem Wrote.mono (hlog : ∀ a, net.log a ⊆ net'.log a) {offset : BitVec 64} {data : Bytes} {n : Node}
    (h : Wrote T net offset data n) : Wrote T net' offset data n := by
  obtain ⟨info, ht, hw⟩ := h
  exact ⟨info, ht, hlog _ hw⟩

theorem Acknowledged.mono (hlog : ∀ a, net.log a ⊆ net'.log a) {a : Addr} {req : SendFileReq}
    {data : Bytes} (h : Acknowledged T net a req data) : Acknowledged T net' a req data :=
  Covered.mono (fun _ hn => hn.mono hlog) h

theorem Progress.mono (hlog : ∀ a, net.log a ⊆ net'.log a) {a : Addr} {s : Served} {x : Sending}
    (h : Progress T net a s x) : Progress T net' a s x :=
  { h with
    wrote := fun hw => (h.wrote hw).mono hlog
    answered := fun j t ht hj => (h.answered j t ht hj).mono hlog }

theorem netStep_log {l : NetLabel} (h : netStep conf net l = some net') (a : Addr) :
    net.log a ⊆ net'.log a := by
  rcases netStep_kinds h with ⟨b, i, s, h⟩ | ⟨b, i, ans, h⟩ | ⟨b, l', h⟩
  · obtain ⟨_, rfl⟩ := arrival_eq h
    exact List.Subset.refl _
  · obtain ⟨_, _, _, _, _, rfl⟩ := move_eq h
    by_cases hab : a = b
    · subst hab
      simp only [update_self]
      exact List.subset_append_left ..
    · simp only [update_of_ne hab]
      exact List.Subset.refl _
  · obtain ⟨_, _, _, rfl⟩ := others_eq h
    exact List.Subset.refl _

theorem sound_netStep {l : NetLabel} (h : netStep conf net l = some net')
    (hs : ∀ a, Sound (conf a) (net.servers a)) (a : Addr) : Sound (conf a) (net'.servers a) := by
  obtain ⟨b, l', server, hstep, hnet⟩ := netStep_server h
  rw [hnet]
  by_cases hab : a = b
  · subst hab
    rw [update_self]
    exact (hs a).preserved hstep
  · rw [update_of_ne hab]
    exact hs a

/-- A full write, as it is logged. -/
theorem written_full {s : Server} {i n : ℕ} {x : Sending} {d : Desc} (hx : s.handlers i = .sending x)
    (hd : s.store.os.fds x.fd = some d) (hn : n = writeSize x.data.length) :
    (writeData x.data).take n = writeData x.data ∧
      written s i (.wrote n) = [⟨d.file, x.req.offset, writeData x.data⟩] := by
  have htake : (writeData x.data).take n = writeData x.data := by
    rw [hn, ← length_writeData, List.take_length]
  refine ⟨htake, ?_⟩
  simp only [written, hx, hd, Option.map_some, Option.toList_some, htake]

/-- One hop less, as the `uint16_t` subtraction has it. -/
theorem chainRequest_maxChainLen {req : SendFileReq} (t : ChainTarget)
    (h : 1 < req.maxChainLen.toNat) :
    (chainRequest req t).maxChainLen.toNat = req.maxChainLen.toNat - 1 := by
  have hone : (1 : BitVec 16).toNat = 1 := rfl
  have := req.maxChainLen.isLt
  simp only [chainRequest, BitVec.toNat_sub, hone]
  omega

/-! ### Arrivals -/

/-- A handler just arrived knows nothing yet, or has refused. -/
theorem handleSendFile_cases (net : Net) (a : Addr) (s : Served) {st : Store}
    (hst : st.fmap s.req.fileToken = T a s.req.fileToken) :
    (∃ e, handleSendFile st s.req s.data = .finished ⟨e, []⟩ ∧ wireError e ≠ 0) ∨
    ∃ x, handleSendFile st s.req s.data = .sending x ∧ Progress T net a s x := by
  rcases handleSendFile_kinds st s.req s.data with ⟨_, e, he, hne⟩ | ⟨href, info, hinfo, hx⟩
  · exact .inl ⟨e, he, hne⟩
  · refine .inr ⟨_, hx, rfl, rfl, ⟨info, hst ▸ hinfo, rfl, rfl⟩, ?_, ?_, ?_, ?_, ?_, ?_⟩
    · intro ht
      exact Nat.lt_of_not_le fun hle => href (.inr ⟨info, hinfo, hle, ht⟩)
    · exact List.length_map ..
    · exact fun h => by cases h
    · intro j t ht hj
      simp only [List.getElem?_map, ht, Option.map_some, Option.some.injEq, reduceCtorEq] at hj
    · exact fun e h => by cases h
    · intro e he
      obtain ⟨_, _, he⟩ := List.mem_map.mp he
      cases he

/-! ### Moves -/

/-- A zero reply: all results are zero, even those that crossed the header. -/
theorem Progress.joined_zero {a : Addr} {s : Served} {x : Sending} {e : ℤ}
    (hp : Progress T net a s x) (hx : x.error = some e) (hzero : wireError e = 0) :
    x.writeError = some 0 ∧ ∀ e ∈ x.chainErrors, e = some 0 :=
  (Sending.wire_zero_iff hx hp.fits.1 hp.fits.2).mp hzero

/-- The tree below a session, put together from its own write and the trees below its targets. -/
theorem Progress.acknowledged {a : Addr} {s : Served} {x : Sending} (hp : Progress T net a s x)
    (hw : x.writeError = some 0) (he : ∀ e ∈ x.chainErrors, e = some 0) :
    Acknowledged T net a s.req s.data := by
  obtain ⟨info, hinfo, _, htargets⟩ := hp.session
  -- a session one hop away is that of a target
  have htarget : ∀ m, Hop T (a, s.req.fileToken) m →
      ∃ (j : ℕ) (t : ChainTarget), x.targets[j]? = some t ∧ m = (t.addr, t.fileToken) := by
    rintro m ⟨info', t, hinfo', ht, rfl⟩
    simp only [hinfo, Option.some.injEq] at hinfo'
    subst hinfo'
    rw [← htargets] at ht
    obtain ⟨j, hj⟩ := List.getElem?_of_mem ht
    exact ⟨j, t, hj, rfl⟩
  have hbudget : ∀ (j : ℕ) t, x.targets[j]? = some t → 1 < s.req.maxChainLen.toNat :=
    fun j t ht => hp.hops (List.ne_nil_of_mem (List.mem_of_getElem? ht))
  refine .node (hp.wrote hw) (fun m hm => ?_) (fun m hm => ?_)
  · obtain ⟨j, t, ht, rfl⟩ := htarget m hm
    exact hbudget j t ht
  · obtain ⟨j, t, ht, rfl⟩ := htarget m hm
    have hlt : j < x.chainErrors.length := by
      rw [hp.length]
      exact (List.getElem?_eq_some_iff.mp ht).1
    have hj : x.chainErrors[j]? = some (some 0) := by
      rw [List.getElem?_eq_getElem hlt, he _ (List.getElem_mem hlt)]
    have hchild := hp.answered j t ht hj
    rw [Acknowledged, chainRequest_maxChainLen t (hbudget j t ht)] at hchild
    exact hchild

/-- The write of a sender goes to the file of its session. -/
theorem Progress.written_eq {a : Addr} {i n : ℕ} {s : Served} {x : Sending}
    (hst : Static conf T M net) (hp : Progress T net a s x) (hM : M (a, s.req.fileToken))
    (hx : (net.servers a).handlers i = .sending x) (hn : n = writeSize x.data.length) :
    ∃ info, T a s.req.fileToken = some info ∧
      written (net.servers a) i (.wrote n) = [⟨info.desc.file, s.req.offset, writeData s.data⟩] := by
  obtain ⟨info, hinfo, hfd, _⟩ := hp.session
  have hlive := (hst.sound a).live ((hst.tables (a, s.req.fileToken) hM).trans hinfo)
  rw [← hfd] at hlive
  refine ⟨info, hinfo, ?_⟩
  rw [(written_full hx hlive hn).2, hp.req, hp.data]

/-- What an answer to a sender must mean. -/
def AnswerOk (T : Tables) (net : Net) (x : Sending) : Answer → Prop
  | .wrote n => n = writeSize x.data.length
  | .failed e => (e : ℤ) ≠ 0 ∧ Fits e
  | .answered j e => Fits e ∧ (e = 0 → ∀ t, x.targets[j]? = some t →
    Acknowledged T net t.addr (chainRequest x.req t) x.data)
  | _ => True

/-- CORRECT (one piece of a sender): its progress stays, and a zero reply is the whole tree. -/
theorem Progress.preserved {a : Addr} {i : ℕ} {s : Served} {x : Sending} {ans : Answer}
    {st' : Store} {h' : Handler} (hst : Static conf T M net) (hp : Progress T net a s x)
    (hM : M (a, s.req.fileToken)) (hx : (net.servers a).handlers i = .sending x)
    (heff : Effect (net.servers a).store (.sending x) ans st' h') (hok : AnswerOk T net x ans)
    (hlog : ∀ b, net.log b ⊆ net'.log b)
    (hnew : written (net.servers a) i ans ⊆ net'.log a) :
    (∃ x', h' = .sending x' ∧ Progress T net' a s x') ∨
      ∃ r, h' = .finished r ∧ (wireError r.error = 0 → Acknowledged T net' a s.req s.data) := by
  cases heff with
  | wrote _ n os hnone hn hw =>
    obtain ⟨info, hinfo, hwritten⟩ := hp.written_eq hst hM hx hok
    rw [hwritten] at hnew
    refine .inl ⟨_, rfl, { hp.mono hlog with wrote := fun _ => ?_, fits := ⟨?_, hp.fits.2⟩ }⟩
    · exact ⟨info, hinfo, hnew (List.mem_singleton_self _)⟩
    · intro e he
      cases he
      exact ⟨by decide, by decide⟩
  | writeFailed _ e hnone =>
    refine .inl ⟨_, rfl, { hp.mono hlog with wrote := fun h => ?_, fits := ⟨?_, hp.fits.2⟩ }⟩
    · simp only [Option.some.injEq] at h
      exact absurd h hok.1
    · intro e' he
      cases he
      exact hok.2
  | answered _ j e hnone =>
    refine .inl ⟨_, rfl, { hp.mono hlog with
      length := ?_, answered := fun k t ht hk => ?_, fits := ⟨hp.fits.1, ?_⟩ }⟩
    · rw [List.length_set]
      exact hp.length
    · by_cases hjk : j = k
      · subst hjk
        have hlt : j < x.chainErrors.length := (List.getElem?_eq_some_iff.mp hnone).1
        rw [List.getElem?_set_self hlt, Option.some.injEq, Option.some.injEq] at hk
        rw [← hp.req, ← hp.data]
        exact (hok.2 hk t ht).mono hlog
      · rw [List.getElem?_set_ne hjk] at hk
        exact (hp.answered k t ht hk).mono hlog
    · intro e' he
      rcases List.mem_or_eq_of_mem_set he with he | he
      · exact hp.fits.2 e' he
      · cases he
        exact hok.1
  | joined _ e he =>
    refine .inr ⟨_, rfl, fun hzero => ?_⟩
    obtain ⟨hw, hall⟩ := hp.joined_zero he hzero
    exact (hp.acknowledged hw hall).mono hlog

end Fcopy
