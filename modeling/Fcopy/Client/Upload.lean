import Mathlib.Data.List.Nodup
import Fcopy.Client.Sending

/-! End to end: what an upload that returns 0 has delivered.

    The phases of the sender, each with what it has set up on the servers of its targets (`Good`). An
    error makes the sender skip or fail the rest, and the value it returns keeps it, so each phase may
    assume that there has been none:

        opening ──▶ linking ──▶ sending ──▶ closing ──▶ closed
        Opened      Opened      Uploading   Complete    Sealed

    Everyone else who uses the servers takes steps in every phase, but spares the files of the upload. -/

namespace Fcopy
open Function Content Run

/-- No request of the upload has been served. -/
structure Unasked (net : Net) : Prop where
  served : ∀ a i, net.served a i = none
  log : ∀ a, net.log a = []

/-- Every request that has been served is over. -/
def Settled (net : Net) : Prop :=
  ∀ a i s, net.served a i = some s → ∃ r, (net.servers a).handlers i = .finished r

section
variable (conf : Addr → Conf) (p : SenderParams) (source : Bytes)

/-- The session of target `k` is there and forwards to `targets`. -/
def OpenedAt (f : FileSender) (targets : List ChainTarget) (k : ℕ) (net : Net) : Prop :=
  Opened (conf (addrOf p k)) (openRequest p source) targets (tokenOf f.fileTokens k)
    (net.servers (addrOf p k))

def CompleteAt (k : ℕ) (net : Net) : Prop :=
  Complete (conf (addrOf p k)) (openRequest p source) source p.chunkSize.toNat
    (net.servers (addrOf p k))

def SealedAt (k : ℕ) (net : Net) : Prop :=
  Sealed (conf (addrOf p k)) (openRequest p source) source (net.servers (addrOf p k))

structure Opening (sys : Sys) : Prop where
  unasked : Unasked sys.net
  tokens : sys.sender.fileTokens.length ≤ p.targets.length
  opened : ∀ k < sys.sender.fileTokens.length, OpenedAt conf p source sys.sender [] k sys.net
  current : ∀ j, sys.call = some j → sys.sender.fileTokens.length < p.targets.length ∧
    Creating (conf (addrOf p sys.sender.fileTokens.length)) (openRequest p source)
      (sys.net.servers (addrOf p sys.sender.fileTokens.length))
      ((sys.net.servers (addrOf p sys.sender.fileTokens.length)).handlers j)

structure Linking (i : ℕ) (sys : Sys) : Prop where
  unasked : Unasked sys.net
  pos : 0 < p.targets.length
  tokens : sys.sender.fileTokens.length = p.targets.length
  linked : ∀ k < i, k < p.targets.length →
    OpenedAt conf p source sys.sender (linkTargets p sys.sender.fileTokens k) k sys.net
  opened : ∀ k, i < k ∨ k = i ∧ sys.call = none → k < p.targets.length →
    OpenedAt conf p source sys.sender [] k sys.net
  current : ∀ j, sys.call = some j → i < p.targets.length ∧
    linkTargets p sys.sender.fileTokens i ≠ [] ∧ ∃ r, (sys.net.servers (addrOf p i)).handlers j = .finished r ∧ (wireError r.error = 0 →
      OpenedAt conf p source sys.sender (linkTargets p sys.sender.fileTokens i) i sys.net)

structure ClosingAt (i : ℕ) (sys : Sys) : Prop where
  settled : Settled sys.net
  chunkSize : 0 < p.chunkSize.toNat
  tokens : sys.sender.fileTokens.length = p.targets.length
  done : ∀ k < i, k < p.targets.length → SealedAt conf p source k sys.net
  waiting : ∀ k, i < k ∨ k = i ∧ sys.call = none → k < p.targets.length →
    (∃ targets, OpenedAt conf p source sys.sender targets k sys.net) ∧
      CompleteAt conf p source k sys.net
  current : ∀ j, sys.call = some j → i < p.targets.length ∧
    tokenOf sys.sender.fileTokens i ≠ [] ∧ Closing (conf (addrOf p i)) (openRequest p source) source p.chunkSize.toNat
      (tokenOf sys.sender.fileTokens i) (sys.net.servers (addrOf p i))
      ((sys.net.servers (addrOf p i)).handlers j)

/-- What has been set up, by phase. -/
def Good (sys : Sys) : Prop :=
  match sys.sender.phase with
  | .start => Unasked sys.net ∧ sys.sender.fileTokens = [] ∧ sys.call = none
  | .opening => Opening conf p source sys
  | .linking i => Linking conf p source i sys
  | .sending => sys.call = none ∧ 0 < p.targets.length ∧
    ∃ T, Uploading conf p source T sys.net sys.sender
  | .closing i firstError =>
    sys.sender.createResult = some 0 → sys.sender.sendResult = some 0 → firstError = 0 →
      ClosingAt conf p source i sys
  | .closed => sys.sender.createResult = some 0 → sys.sender.sendResult = some 0 →
    sys.sender.closeResult = some 0 →
      Settled sys.net ∧ ∀ k < p.targets.length, SealedAt conf p source k sys.net

structure Inv (sys : Sys) : Prop where
  sound : ∀ a, Sound (conf a) (sys.net.servers a)
  good : Good conf p source sys

/-- System calls report errors that are not zero and fit the header, `pread` and `pwrite` transfer
    everything and `ftruncate` succeeds; the requests have all been executed when `send_file` returns
    0, and the others are delivered once; nobody else reaches the files of the upload. -/
def SysCalm (sys : Sys) : SysLabel → Prop
  | .openFailed e | .lost e => e ≠ 0
  | .retry _ => False
  | .serve ans => ∀ a i info reply e, sys.current p source = some (a, i) →
    (sys.net.servers a).handlers i = .closeTruncate info reply → ans ≠ .failed e
  | .next => sys.sender.phase = .sending → sys.sender.error = 0 → Settled sys.net
  | .work w l => WorkerAssumed p source sys.sender w l
  | .net (.other a l) => a ∈ p.targets → ∀ server, step (conf a) (sys.net.servers a) l = some server →
    SparesUpload (conf a) (openRequest p source) (sys.net.servers a) server
  | .net l => Assumed conf (fun _ => True) sys.net l
  | _ => True

end

variable {conf : Addr → Conf} {p : SenderParams} {source : Bytes} {net net' : Net} {sys sys' : Sys}

/-! ### Steps of one server -/

theorem addrOf_mem {k : ℕ} (hk : k < p.targets.length) : addrOf p k ∈ p.targets := by
  rw [addrOf, List.getElem?_eq_getElem hk]
  exact List.getElem_mem hk

theorem addrOf_inj (hd : p.targets.Nodup) {j k : ℕ} (hj : j < p.targets.length)
    (hk : k < p.targets.length) (h : addrOf p j = addrOf p k) : j = k := by
  rw [addrOf, addrOf, List.getElem?_eq_getElem hj, List.getElem?_eq_getElem hk] at h
  exact (List.Nodup.getElem_inj_iff hd).mp h

theorem SparesUpload.refl {c : Conf} {req : CreateFileReq} (s : Server) : SparesUpload c req s s :=
  fun _ _ => ⟨rfl, fun _ _ hf _ => hf⟩

/-- A step at one target leaves the servers of the others alone. -/
theorem others_spares (source : Bytes) (hd : p.targets.Nodup) {k₀ : ℕ} (hk₀ : k₀ < p.targets.length) {l : Label}
    (h : others conf net (addrOf p k₀) l = some net') {k : ℕ} (hk : k < p.targets.length)
    (hne : k ≠ k₀) : SparesUpload (conf (addrOf p k)) (openRequest p source)
      (net.servers (addrOf p k)) (net'.servers (addrOf p k)) := by
  obtain ⟨_, server, _, rfl⟩ := others_eq h
  simp only [update_of_ne fun heq => hne (addrOf_inj hd hk hk₀ heq)]
  exact .refl _

/-- The steps of others spare all targets. -/
theorem assumed_spares {a : Addr} {l : Label} (hl : SysCalm conf p source sys (.net (.other a l)))
    (h : others conf sys.net a l = some net') {k : ℕ} (hk : k < p.targets.length) :
    SparesUpload (conf (addrOf p k)) (openRequest p source) (sys.net.servers (addrOf p k))
      (net'.servers (addrOf p k)) := by
  obtain ⟨_, server, hstep, rfl⟩ := others_eq h
  by_cases hka : addrOf p k = a
  · subst hka
    simp only [update_self]
    exact hl (addrOf_mem hk) server hstep
  · simp only [update_of_ne hka]
    exact .refl _

theorem Unasked.others (hu : Unasked net) {a : Addr} {l : Label}
    (h : others conf net a l = some net') : Unasked net' := by
  obtain ⟨_, _, _, rfl⟩ := others_eq h
  exact ⟨hu.served, hu.log⟩

theorem Unasked.settled (hu : Unasked net) : Settled net := by
  intro a i s hs
  rw [hu.served] at hs
  cases hs

theorem Settled.others (hs : Settled net) {a : Addr} {l : Label}
    (h : others conf net a l = some net') : Settled net' := by
  intro b i s hserved
  have hsame : net'.served = net.served := by
    obtain ⟨_, _, _, rfl⟩ := others_eq h
    rfl
  rw [hsame] at hserved
  rw [others_handlers h (by rw [hserved]; exact Option.some_ne_none s)]
  exact hs b i s hserved

/-- Where every request is over, only others take steps. -/
theorem Settled.netStep (hs : Settled net) {l : NetLabel} (h : netStep conf net l = some net')
    (hl : ∀ id a i req data, l ≠ .request id a i req data) : ∃ a l', l = .other a l' := by
  have hmove : ∀ {a i ans}, move conf net a i ans ≠ some net' := by
    intro a i ans h
    obtain ⟨s, _, _, hserved, heff, _⟩ := move_eq h
    obtain ⟨r, hr⟩ := hs a i s hserved
    rw [hr] at heff
    cases heff
  rcases netStep_cases h with ⟨id, a, i, req, data, rfl, _⟩ | ⟨a, k, j, i, s, x, t, rfl, hserved, hpend, _⟩ |
    ⟨_, _, _, _, _, _, _, _, _, _, _, _, _, h⟩ | ⟨_, _, _, _, _, h⟩ | ⟨_, _, _, _, _, h⟩ |
    ⟨a, l', rfl, _⟩
  · exact absurd rfl (hl id a i req data)
  · obtain ⟨r, hr⟩ := hs a k s hserved
    cases hr.symm.trans (pending_eq hpend).1
  · exact absurd h hmove
  · exact absurd h hmove
  · exact absurd h hmove
  · exact ⟨a, l', rfl⟩

theorem others_step {a : Addr} {l : Label} (h : others conf net a l = some net') :
    step (conf a) (net.servers a) l = some (net'.servers a) := by
  obtain ⟨_, server, hstep, rfl⟩ := others_eq h
  simp only [update_self]
  exact hstep

/-! ### Steps of others -/

theorem Opening.spared (h : Opening conf p source sys) (hu : Unasked net')
    (hsp : ∀ k < p.targets.length, SparesUpload (conf (addrOf p k)) (openRequest p source)
      (sys.net.servers (addrOf p k)) (net'.servers (addrOf p k)))
    (hcur : ∀ k j, sys.current p source = some (addrOf p k, j) →
      (net'.servers (addrOf p k)).handlers j = (sys.net.servers (addrOf p k)).handlers j)
    (hphase : sys.sender.phase = .opening) : Opening conf p source { sys with net := net' } := by
  refine ⟨hu, h.tokens, fun k hk => (h.opened k hk).spared (hsp k (Nat.lt_of_lt_of_le hk h.tokens)),
    fun j hj => ?_⟩
  obtain ⟨hlt, hc⟩ := h.current j hj
  refine ⟨hlt, ?_⟩
  rw [hcur _ j (by rw [Sys.current, hj]; simp only [FileSender.request, hphase, if_pos hlt])]
  exact hc.spared (hsp _ hlt)

theorem Linking.spared {i : ℕ} (h : Linking conf p source i sys) (hu : Unasked net')
    (hsp : ∀ k < p.targets.length, SparesUpload (conf (addrOf p k)) (openRequest p source)
      (sys.net.servers (addrOf p k)) (net'.servers (addrOf p k)))
    (hcur : ∀ k j, sys.current p source = some (addrOf p k, j) →
      (net'.servers (addrOf p k)).handlers j = (sys.net.servers (addrOf p k)).handlers j)
    (hphase : sys.sender.phase = .linking i) :
    Linking conf p source i { sys with net := net' } := by
  refine ⟨hu, h.pos, h.tokens, fun k hk hkn => (h.linked k hk hkn).spared (hsp k hkn),
    fun k hk hkn => (h.opened k hk hkn).spared (hsp k hkn), fun j hj => ?_⟩
  obtain ⟨hlt, hne, r, hr, ho⟩ := h.current j hj
  refine ⟨hlt, hne, r, ?_, fun hzero => (ho hzero).spared (hsp i hlt)⟩
  rw [hcur i j (by rw [Sys.current, hj]; simp only [FileSender.request, hphase, if_pos hne]), hr]

theorem ClosingAt.spared {i : ℕ} {firstError : ℤ} (h : ClosingAt conf p source i sys)
    (hs : Settled net')
    (hsp : ∀ k < p.targets.length, SparesUpload (conf (addrOf p k)) (openRequest p source)
      (sys.net.servers (addrOf p k)) (net'.servers (addrOf p k)))
    (hcur : ∀ k j, sys.current p source = some (addrOf p k, j) →
      (net'.servers (addrOf p k)).handlers j = (sys.net.servers (addrOf p k)).handlers j)
    (hphase : sys.sender.phase = .closing i firstError) :
    ClosingAt conf p source i { sys with net := net' } := by
  refine ⟨hs, h.chunkSize, h.tokens, fun k hk hkn => (h.done k hk hkn).spared (hsp k hkn),
    fun k hk hkn => ?_, fun j hj => ?_⟩
  · obtain ⟨⟨targets, ho⟩, hc⟩ := h.waiting k hk hkn
    exact ⟨⟨targets, ho.spared (hsp k hkn)⟩, hc.spared (hsp k hkn)⟩
  · obtain ⟨hlt, hne, hc⟩ := h.current j hj
    have hlt' : i < sys.sender.fileTokens.length := by rw [h.tokens]; exact hlt
    refine ⟨hlt, hne, ?_⟩
    rw [hcur i j (by
      rw [Sys.current, hj]
      simp only [FileSender.request, hphase, if_pos (And.intro hlt' hne)])]
    exact hc.spared (hsp i hlt)

end Fcopy
