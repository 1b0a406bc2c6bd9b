import Fcopy.Schemes.Assembly
import Fcopy.Network.Acknowledge

/-! The chunks of a source in the network.

    Every request in the network carries a chunk of the source, wherever it has been forwarded to
    (`Carries`). So every write is a piece of the source, and what the log of a server lists for a file
    is in that file, in whatever order the writes land (`Holding`). -/

namespace Fcopy
open Function Content

section
variable (source : Bytes) (ch : ℕ)

/-- The chunk of the source at this offset. -/
structure IsChunk (offset : BitVec 64) (data : Bytes) : Prop where
  aligned : ch ∣ offset.toNat
  inside : offset.toNat < source.length
  data : data = chunk source ch offset.toNat

/-- Every request carries a chunk. -/
def Carries (net : Net) : Prop :=
  ∀ a i s, net.served a i = some s → IsChunk source ch s.req.offset s.data

/-- The file holds what the log lists for it. -/
def Holding (net : Net) (a : Addr) (file : List Bytes) : Prop :=
  Holds source ch (fun off => ∃ w ∈ net.log a, w.file = file ∧ w.offset.toNat = off)
    ((net.servers a).store.os.content file)

end

variable {conf : Addr → Conf} {T : Tables} {M : Node → Prop} {net net' : Net} {source : Bytes} {ch : ℕ}

/-! ### Requests -/

/-- What a client's requests carry, the forwards carry. -/
theorem Carries.preserved (hc : Carries source ch net) (hr : Relays conf T M net) {l : NetLabel}
    (h : netStep conf net l = some net')
    (hl : ∀ id a i req data, l = .request id a i req data → IsChunk source ch req.offset data) :
    Carries source ch net' := by
  intro b j s hs
  rcases netStep_served h hs with hs | ⟨id, req, data, rfl, rfl⟩ | 
    ⟨a, k, _, p, x, t, _, hp, hpend, _, rfl⟩
  · exact hc b j s hs
  · exact hl id b j req data rfl
  · have hprog := hr.sincere.sending a k p x hp (pending_eq hpend).1
    simp only [chainRequest, hprog.req, hprog.data]
    exact hc a k p hp

/-! ### Writes -/

theorem writeSize_le {size ch : ℕ} (hsize : size ≤ ch) (hch : ch % chunkBase = 0) :
    writeSize size ≤ ch := by
  rw [writeSize]
  split
  · simp only [chunkBase] at *
    omega
  · exact hsize

/-- A chunk as it is written: padded, but not beyond the end of the chunk. -/
theorem IsChunk.piece {offset : BitVec 64} {data : Bytes} (h : IsChunk source ch offset data)
    (hch : ch % chunkBase = 0) : Piece 0 source ch offset.toNat (writeData data) where
  inside := h.inside
  padded := ⟨writeSize data.length - data.length, by rw [writeData, h.data]⟩
  length := by
    rw [length_writeData]
    refine writeSize_le ?_ hch
    rw [h.data, length_chunk]
    omega

/-- CORRECT (writes): a move of a handler leaves every file holding what the log lists for it. -/
theorem Holding.move {a b : Addr} {i : ℕ} {ans : Answer} {file : List Bytes}
    (hh : Holding source ch net b file) (hc : Carries source ch net) (hr : Relays conf T M net)
    (hch : ch % chunkBase = 0) (h : move conf net a i ans = some net')
    (hfull : ∀ n x, ans = .wrote n → (net.servers a).handlers i = .sending x →
      n = writeSize x.data.length) : Holding source ch net' b file := by
  obtain ⟨s, st', h', hserved, heff, rfl⟩ := move_eq h
  by_cases hb : b = a
  · subst hb
    obtain ⟨x, hx⟩ : ∃ x, (net.servers b).handlers i = .sending x := by
      rcases hr.sincere.kind b i s hserved with hx | ⟨r, hr⟩
      · exact hx
      · rw [hr] at heff
        cases heff
    have hprog := hr.sincere.sending b i s x hserved hx
    simp only [Holding, update_self] at hh ⊢
    generalize hhd : (net.servers b).handlers i = hd at heff
    rw [hx] at hhd
    subst hhd
    cases heff with
    | wrote _ n os hnone hn hw =>
      obtain ⟨d, hd, _, rfl⟩ := Os.pwrite_eq hw
      obtain ⟨htake, hwritten⟩ := written_full hx hd (hfull n x rfl hx)
      rw [hwritten, htake, Os.content_update rfl]
      have hpiece := (hc b i s hserved).piece hch
      rw [← hprog.req, ← hprog.data] at hpiece
      split
      · -- the file written to
        rename_i hfile
        rw [hfile] at hh
        intro off k hoff hk hlt hF
        refine hh.writeAt hpiece off k ?_ hk hlt hF
        obtain ⟨w, hw, hwfile, hwoff⟩ := hoff
        rcases List.mem_append.mp hw with hw | hw
        · exact .inl ⟨w, hw, hwfile.trans hfile, hwoff⟩
        · rw [List.mem_singleton.mp hw] at hwoff
          exact .inr hwoff.symm
      · rename_i hfile
        intro off k hoff hk hlt hF
        refine hh off k ?_ hk hlt hF
        obtain ⟨w, hw, hwfile, hwoff⟩ := hoff
        rcases List.mem_append.mp hw with hw | hw
        · exact ⟨w, hw, hwfile, hwoff⟩
        · rw [List.mem_singleton.mp hw] at hwfile
          exact absurd hwfile.symm hfile
    | _ =>
      simp only [written, hx, List.append_nil]
      exact hh
  · simp only [Holding, update_of_ne hb] at hh ⊢
    exact hh

theorem Holding.arrival {a b : Addr} {i : ℕ} {s : Served} {file : List Bytes}
    (hh : Holding source ch net b file) (h : arrival conf net a i s = some net') :
    Holding source ch net' b file := by
  obtain ⟨_, rfl⟩ := arrival_eq h
  by_cases hb : b = a
  · subst hb
    simp only [Holding, update_self] at hh ⊢
    exact hh
  · simp only [Holding, update_of_ne hb] at hh ⊢
    exact hh

/-- Others leave the file alone. -/
theorem Holding.others {a b : Addr} {l : Label} {file : List Bytes}
    (hh : Holding source ch net b file) (h : others conf net a l = some net')
    (hsame : (net'.servers b).store.os.files file = (net.servers b).store.os.files file) :
    Holding source ch net' b file := by
  obtain ⟨_, _, _, hnet⟩ := others_eq h
  have hlog : net'.log = net.log := by rw [hnet]
  rw [Holding, hlog, Os.content, hsame]
  exact hh

end Fcopy
