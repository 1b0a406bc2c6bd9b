import Fcopy.Client.Session
import Fcopy.Client.Workers

/-! `send_file` over the network.

    The sessions of the targets forward along a chain or a tree, from the first target to all others.
    While the workers send, the acknowledgements they collect are those of that topology (`Uploading`),
    so when they have left without an error every target holds every chunk.

        chain  0 ─▶ 1 ─▶ 2 ─▶ 3        tree  0 ─┬▶ 1 ─▶ 3
                                                └▶ 2 -/

namespace Fcopy
open Function Content Relation

/-! ### Chains and trees -/

theorem linksOf_lt {m : SendMethod} {n i j : ℕ} (h : j ∈ linksOf m n i) : j < n := by
  cases m with
  | chain =>
    simp only [linksOf] at h
    split at h
    · rw [List.mem_singleton] at h
      omega
    · cases h
  | tree =>
    simp only [linksOf] at h
    split at h
    · split at h <;> simp only [List.mem_cons, List.not_mem_nil, or_false] at h <;> omega
    · cases h

/-- Every target but the first has one before it that forwards to it. -/
theorem linksOf_parent (m : SendMethod) {n k : ℕ} (hpos : 0 < k) (hk : k < n) :
    ∃ j < k, k ∈ linksOf m n j := by
  cases m with
  | chain =>
    refine ⟨k - 1, by omega, ?_⟩
    simp only [linksOf, show k - 1 + 1 = k by omega, if_pos hk, List.mem_singleton]
  | tree =>
    refine ⟨(k - 1) / 2, by omega, ?_⟩
    simp only [linksOf]
    rw [if_pos (by omega)]
    split <;> simp only [List.mem_cons, List.not_mem_nil, or_false] <;> omega

/-- Where the loop ends there is nothing left to link. -/
theorem linksOf_end {m : SendMethod} {n i k : ℕ} (h : linksOf m n i = []) (hik : i ≤ k) :
    linksOf m n k = [] := by
  cases m with
  | chain =>
    simp only [linksOf, ite_eq_right_iff, List.cons_ne_nil, imp_false] at h ⊢
    omega
  | tree =>
    simp only [linksOf] at h ⊢
    split at h
    · split at h <;> cases h
    · rw [if_neg (by omega)]

/-! ### The sessions of an upload -/

/-- The sessions of the targets. -/
def Members (p : SenderParams) (tokens : List Bytes) (n : Node) : Prop :=
  ∃ k < p.targets.length, n = (addrOf p k, tokenOf tokens k)

/-- The chunk at this offset has been acknowledged. -/
def Acked (p : SenderParams) (source : Bytes) (T : Tables) (net : Net) (tokens : List Bytes)
    (offset : BitVec 64) : Prop :=
  Acknowledged T net (addrOf p 0)
    (sendRequest p tokens offset (chunk source p.chunkSize.toNat offset.toNat))
    (chunk source p.chunkSize.toNat offset.toNat)

/-- The state of things while the workers send. -/
structure Uploading (conf : Addr → Conf) (p : SenderParams) (source : Bytes) (T : Tables) (net : Net)
    (f : FileSender) : Prop where
  relays : Relays conf T (Members p f.fileTokens) net
  tokens : f.fileTokens.length = p.targets.length
  opened : ∀ k < p.targets.length, Opened (conf (addrOf p k)) (openRequest p source)
    (linkTargets p f.fileTokens k) (tokenOf f.fileTokens k) (net.servers (addrOf p k))
  carries : Carries source p.chunkSize.toNat net
  holding : ∀ k < p.targets.length, ∀ call,
    handleCreateFile (conf (addrOf p k)) (openRequest p source) = .createOpen call →
      Holding source p.chunkSize.toNat net (addrOf p k) (fileOf call.path)
  client : ∀ a i s id, net.served a i = some s → s.origin = .client id → ∃ offset : BitVec 64,
    id = offset.toNat ∧ s.req = sendRequest p f.fileTokens offset s.data ∧
      s.data = chunk source p.chunkSize.toNat offset.toNat
  working : Working p source (Acked p source T net f.fileTokens) f

variable {conf : Addr → Conf} {p : SenderParams} {source : Bytes} {T : Tables} {net net' : Net}
  {f f' : FileSender}

theorem Opened.congr {c : Conf} {req : CreateFileReq} {s s' : Server} {targets : List ChainTarget}
    {token : Bytes} (h : Opened c req targets token s)
    (hsame : s'.store.fmap token = s.store.fmap token) : Opened c req targets token s' := by
  obtain ⟨call, hopen, hbad | ⟨info, hf, hrest⟩⟩ := h
  · exact ⟨call, hopen, .inl hbad⟩
  · exact ⟨call, hopen, .inr ⟨info, hsame.trans hf, hrest⟩⟩

theorem Opened.fmap_spared {c : Conf} {req : CreateFileReq} {s s' : Server}
    {targets : List ChainTarget} {token : Bytes} (h : Opened c req targets token s)
    (hs : Sound c s) (hs' : Sound c s') (hsp : SparesUpload c req s s') :
    s'.store.fmap token = s.store.fmap token := by
  obtain ⟨call, hopen, hbad | ⟨info, hf, hfile, _⟩⟩ := h
  · rw [hbad.no_session hs, hbad.no_session hs']
  · rw [hf, (hsp call hopen).sessions token info hf hfile]

/-- The server of a create that went on has checked the size of a chunk. -/
theorem Opened.chunkSize {c : Conf} {s : Server} {targets : List ChainTarget} {token : Bytes}
    (h : Opened c (openRequest p source) targets token s) :
    0 < p.chunkSize.toNat ∧ p.chunkSize.toNat % chunkBase = 0 := by
  obtain ⟨call, hopen, _⟩ := h
  obtain ⟨_, _, _, hc⟩ := handleCreateFile_call
    (show (handleCreateFile c (openRequest p source)).call = some call by rw [hopen]; rfl)
  obtain ⟨hpos, halign, _⟩ := createFile_ok hc
  exact ⟨Nat.pos_of_ne_zero hpos, halign⟩

/-- The sessions forward to each other only. -/
theorem members_closed {tokens : List Bytes} (hlen : tokens.length = p.targets.length)
    (hopened : ∀ k < p.targets.length, Opened (conf (addrOf p k)) (openRequest p source)
      (linkTargets p tokens k) (tokenOf tokens k) (net.servers (addrOf p k)))
    (hs : ∀ a, Sound (conf a) (net.servers a)) (n m : Node) (hn : Members p tokens n)
    (hm : Hop net.tables n m) : Members p tokens m := by
  obtain ⟨k, hk, rfl⟩ := hn
  obtain ⟨info, t, hinfo, ht, rfl⟩ := hm
  obtain ⟨_, _, hbad | ⟨info', hf, _, _, htargets⟩⟩ := hopened k hk
  · have hnone : net.tables (addrOf p k) (tokenOf tokens k) = none := hbad.no_session (hs _)
    rw [hnone] at hinfo
    cases hinfo
  · cases hf.symm.trans hinfo
    rw [htargets, linkTargets] at ht
    obtain ⟨j, hj, rfl⟩ := List.mem_map.mp ht
    exact ⟨j, by rw [← hlen]; exact linksOf_lt hj, rfl⟩

/-! ### Steps of the network -/

/-- CORRECT (one step of the network): what the workers rely on stays. -/
theorem Uploading.preserved (h : Uploading conf p source T net f) {l : NetLabel}
    (hl : Assumed conf (Members p f.fileTokens) net l) (hstep : netStep conf net l = some net')
    (hreq : ∀ id a i req data, l = .request id a i req data → ∃ offset : BitVec 64,
      id = offset.toNat ∧ IsChunk source p.chunkSize.toNat offset data ∧
        req = sendRequest p f.fileTokens offset data)
    (hoth : ∀ a l', l = .other a l' → ∀ k < p.targets.length,
      SparesUpload (conf (addrOf p k)) (openRequest p source) (net.servers (addrOf p k))
        (net'.servers (addrOf p k))) : Uploading conf p source T net' f := by
  have hrelays := h.relays.preserved hl hstep
  refine ⟨hrelays, h.tokens, fun k hk => ?_, ?_, fun k hk call hopen => ?_, ?_, ?_⟩
  · refine (h.opened k hk).congr ?_
    have hmem : Members p f.fileTokens (addrOf p k, tokenOf f.fileTokens k) := ⟨k, hk, rfl⟩
    exact (hrelays.static.tables _ hmem).trans (h.relays.static.tables _ hmem).symm
  · refine h.carries.preserved h.relays hstep fun id a i req data hl => ?_
    obtain ⟨offset, _, hchunk, rfl⟩ := hreq id a i req data hl
    exact hchunk
  · have hch := (h.opened k hk).chunkSize.2
    have hh := h.holding k hk call hopen
    rcases netStep_cases hstep with ⟨_, _, _, _, _, _, hs⟩ | ⟨_, _, _, _, _, _, _, _, _, _, hs⟩ |
      ⟨_, _, _, _, _, _, _, _, _, _, _, _, _, hs⟩ | ⟨_, _, _, _, _, hs⟩ |
      ⟨a, i, ans, rfl, _, hs⟩ | ⟨a, l', rfl, hs⟩
    · exact hh.arrival hs
    · exact hh.arrival hs
    · exact hh.move h.carries h.relays hch hs fun _ _ heq => by cases heq
    · exact hh.move h.carries h.relays hch hs fun _ _ heq => by cases heq
    · refine hh.move h.carries h.relays hch hs fun n x heq hx => ?_
      subst heq
      exact hl x hx
    · exact hh.others hs (hoth a l' rfl k hk call hopen).files
  · intro a i s id hs ho
    rcases netStep_served hstep hs with hs | ⟨id', req, data, hl, rfl⟩ |
      ⟨_, _, _, _, _, _, _, _, _, _, rfl⟩
    · exact h.client a i s id hs ho
    · obtain ⟨offset, rfl, hchunk, rfl⟩ := hreq id' a i req data hl
      cases ho
      exact ⟨offset, rfl, rfl, hchunk.data⟩
    · cases ho
  · exact h.working.mono fun _ hack => hack.mono (netStep_log hstep)

/-- A worker changes the network only when it delivers its request, and of the sender only what the
    workers share. -/
theorem workerStep_cases {w : ℕ} {l : WorkerLabel}
    (h : workerStep p source conf net f w l = some (net', f')) :
    (net' = net ∧ ∃ workers error curOffset, f' = { f with workers, error, curOffset }) ∨
    ∃ i offset data, l = .request i ∧ f.workers w = .requesting offset data ∧ f' = f ∧
      netStep conf net (.request offset.toNat (addrOf p 0) i
        (sendRequest p f.fileTokens offset data) data) = some net' := by
  cases l <;> rw [workerStep] at h
  case request i =>
    split at h
    · rename_i offset data hx
      obtain ⟨_, hnet, heq⟩ := Option.map_eq_some_iff.mp h
      cases heq
      exact .inr ⟨i, offset, data, rfl, hx, rfl, hnet⟩
    · cases h
  case claim =>
    split at h
    · split at h <;> cases h <;> exact .inl ⟨rfl, _, _, _, rfl⟩
    · cases h
  case read =>
    split at h
    · split at h <;> cases h
      exact .inl ⟨rfl, _, _, _, rfl⟩
    · cases h
  case reply =>
    split at h
    · split at h <;> cases h
      exact .inl ⟨rfl, _, _, _, rfl⟩
    · cases h
  all_goals
    split at h <;> cases h
    exact .inl ⟨rfl, _, _, _, rfl⟩

/-- CORRECT (one step of a worker). -/
theorem Uploading.work (h : Uploading conf p source T net f) (hsource : source.length < 2 ^ 63)
    (hpos : 0 < p.targets.length) {w : ℕ} (hw : w < p.parallel) {l : WorkerLabel}
    (hl : WorkerAssumed p source f w l)
    (hstep : workerStep p source conf net f w l = some (net', f')) :
    Uploading conf p source T net' f' := by
  have hworking := h.working.preserved hsource hw hl (fun offset i s r hs hr ho hzero => by
    obtain ⟨offset', hid, hreq, hdata⟩ := h.client _ i s _ hs ho
    cases BitVec.eq_of_toNat_eq hid
    have hack := h.relays.sincere.finished _ i s r hs hr hzero
    rw [hreq, hdata] at hack
    exact hack) hstep
  rcases workerStep_cases hstep with ⟨rfl, workers, error, curOffset, rfl⟩ |
    ⟨i, offset, data, _, hx, rfl, hnet⟩
  · exact ⟨h.relays, h.tokens, h.opened, h.carries, h.holding, h.client, hworking⟩
  · have hchunk := h.working.sane w
    rw [hx] at hchunk
    have hmember : Assumed conf (Members p f'.fileTokens) net (.request offset.toNat (addrOf p 0) i
        (sendRequest p f'.fileTokens offset data) data) := ⟨0, hpos, rfl⟩
    refine h.preserved hmember hnet (fun _ _ _ _ _ heq => ?_) fun _ _ heq => by cases heq
    cases heq
    exact ⟨offset, rfl, hchunk, rfl⟩

/-! ### The end -/

/-- Where nothing reached is missing, every target is reached from the first. -/
theorem Uploading.reached (h : Uploading conf p source T net f)
    (hT : ∀ m, ReflTransGen (Hop T) (addrOf p 0, tokenOf f.fileTokens 0) m → T m.1 m.2 ≠ none)
    {k : ℕ} (hk : k < p.targets.length) :
    ReflTransGen (Hop T) (addrOf p 0, tokenOf f.fileTokens 0) (addrOf p k, tokenOf f.fileTokens k) := by
  induction k using Nat.strong_induction_on with
  | _ k ih =>
    rcases Nat.eq_zero_or_pos k with rfl | hpos
    · exact .refl
    · obtain ⟨j, hj, hlink⟩ := linksOf_parent p.sendMethod hpos (h.tokens ▸ hk)
      have hj' : j < p.targets.length := by omega
      have hreach := ih j hj hj'
      have htab := h.relays.static.tables (addrOf p j, tokenOf f.fileTokens j) ⟨j, hj', rfl⟩
      obtain ⟨_, _, hbad | ⟨info, hf, _, _, htargets⟩⟩ := h.opened j hj'
      · have hnone : net.tables (addrOf p j) (tokenOf f.fileTokens j) = none :=
          hbad.no_session (h.relays.static.sound _)
        exact absurd (htab.symm.trans hnone) (hT _ hreach)
      · refine hreach.tail ⟨info, chainTarget p f.fileTokens k, htab.symm.trans hf, ?_, rfl⟩
        rw [htargets]
        exact List.mem_map_of_mem hlink

/-- CORRECT (`send_file` returns 0): every target holds every chunk. -/
theorem Uploading.complete (h : Uploading conf p source T net f) (hsource : source.length < 2 ^ 63)
    (hpar : 1 ≤ p.parallel) (hleft : ∀ w < p.parallel, f.workers w = .left) (herr : f.error = 0)
    {k : ℕ} (hk : k < p.targets.length) :
    Complete (conf (addrOf p k)) (openRequest p source) source p.chunkSize.toNat
      (net.servers (addrOf p k)) := by
  intro call hopen off i ⟨hdvd, hin⟩ hi hlt hF
  have hoff : (BitVec.ofNat 64 off).toNat = off := by
    rw [BitVec.toNat_ofNat, Nat.mod_eq_of_lt (by omega)]
  have hack := h.working.all_acked hpar hleft herr (BitVec.ofNat 64 off) (by rw [hoff]; exact hdvd)
    (by rw [hoff]; exact hin)
  have hwrote : ∀ m, ReflTransGen (Hop T) (addrOf p 0, tokenOf f.fileTokens 0) m → Wrote T net
      (BitVec.ofNat 64 off) (chunk source p.chunkSize.toNat (BitVec.ofNat 64 off).toNat) m :=
    fun m hm => Relay.Covered.reach hack hm
  have hreach := h.reached (fun m hm => by
    obtain ⟨info, hinfo, _⟩ := hwrote m hm
    rw [hinfo]
    exact Option.some_ne_none info) hk
  obtain ⟨info, hinfo, hw⟩ := hwrote _ hreach
  have htab := h.relays.static.tables (addrOf p k, tokenOf f.fileTokens k) ⟨k, hk, rfl⟩
  have hfile : info.desc.file = fileOf call.path := by
    obtain ⟨call', hopen', hbad | ⟨info', hf, hfile, _⟩⟩ := h.opened k hk
    · have hnone : net.tables (addrOf p k) (tokenOf f.fileTokens k) = none :=
        hbad.no_session (h.relays.static.sound _)
      rw [hnone, hinfo] at htab
      cases htab
    · cases hopen.symm.trans hopen'
      cases (hf.symm.trans htab).trans hinfo
      exact hfile
  exact h.holding k hk call hopen off i ⟨_, hw, hfile, hoff⟩ hi hlt hF

end Fcopy
