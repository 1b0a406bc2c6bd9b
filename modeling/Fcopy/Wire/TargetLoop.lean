import Fcopy.Wire.Grammar
import Fcopy.Schemes.Run

/-! How long the target list takes to decode (`common/message.cpp`, `SetChainReq::decode_body`).

    The loop bound is a count the sender chose, any 32-bit number, and each round appends to `targets`:

        token   size   target   target   …          i < size: one more round
        ├──────┼──────┼────────┼────────┼─────┤      a target that does not fit: `return -1`
                      pos ▶                          otherwise: the loop is over

    A target takes two length prefixes and a port, ten bytes at the least, and `pos` never leaves the
    body. So the rounds are limited by what is left of the body and not by the count
    (`decodeBody_bounded`). -/

namespace Fcopy
open Endian Run

namespace SetChainReq

/-- The variables of the loop between two rounds; `failed` is behind the `return -1`. -/
structure TargetLoop where
  i : BitVec 32 := 0
  pos : ℕ
  targets : List ChainTarget
  failed : Bool := false
  deriving DecidableEq

section
variable (h : Host) (body : Bytes)

/-- What precedes the loop: the token, the announced size and the loop's first state. -/
def enterLoop (r : SetChainReq) : Option (Bytes × BitVec 32 × TargetLoop) := do
  let (fileToken, pos) ← decodeString h body 0
  let (size, pos) ← decodeInt h 4 body pos
  some (fileToken, size, { pos, targets := r.targets })

/-- One round, the condition of the `for` first; `none` when there is no round to make. -/
def loopStep (size : BitVec 32) (s : TargetLoop) (_ : Unit) : Option TargetLoop :=
  if s.failed then none
  else if s.i < size then
    match ChainTarget.decode h body s.pos with
    | none => some { s with failed := true }
    | some (t, pos) => some { s with i := s.i + 1, pos, targets := s.targets ++ [t] }
  else none

/-- What follows the loop. -/
def leaveLoop (fileToken : Bytes) (s : TargetLoop) : Option SetChainReq :=
  if s.failed = false ∧ s.pos = body.length then some ⟨fileToken, s.targets⟩ else none

end

variable {h : Host} {b token : Bytes} {size : BitVec 32} {r : SetChainReq} {s s' : TargetLoop}

/-! ### A round -/

theorem loopStep_cases {u : Unit} (hs : loopStep h b size s u = some s') :
    s.failed = false ∧ s.i < size ∧
      (ChainTarget.decode h b s.pos = none ∧ s' = { s with failed := true } ∨
        ∃ t pos, ChainTarget.decode h b s.pos = some (t, pos) ∧
          s' = { s with i := s.i + 1, pos := pos, targets := s.targets ++ [t] }) := by
  rw [loopStep] at hs
  split at hs
  · cases hs
  rename_i hrun
  split at hs
  · rename_i hi
    refine ⟨by simpa using hrun, hi, ?_⟩
    cases hd : ChainTarget.decode h b s.pos with
    | none =>
      rw [hd] at hs
      exact .inl ⟨rfl, (Option.some.inj hs).symm⟩
    | some x =>
      rw [hd] at hs
      exact .inr ⟨x.1, x.2, rfl, (Option.some.inj hs).symm⟩
  · cases hs

theorem loopStep_eq_none (hs : loopStep h b size s () = none) : s.failed = true ∨ ¬s.i < size := by
  rw [loopStep] at hs
  split at hs
  · rename_i hf
    exact .inl hf
  · split at hs
    · split at hs <;> cases hs
    · rename_i hi
      exact .inr hi

/-- A target takes at least ten bytes, all of them in the body. -/
theorem decode_advances {t : ChainTarget} {pos pos' : ℕ} (hpos : pos ≤ b.length)
    (hd : ChainTarget.decode h b pos = some (t, pos')) : pos + 10 ≤ pos' ∧ pos' ≤ b.length := by
  have hat : At b pos (b.drop pos) := ⟨hpos, rfl⟩
  obtain ⟨_, rest, hrest, hat'⟩ := ChainTarget.bytes_of_decode hat hd
  rw [hrest] at hat
  have hlen := hat.length
  have hlen' := hat'.length
  have hten := t.ten_le_bytes
  rw [List.length_append] at hlen
  exact ⟨by omega, hat'.le⟩

/-! ### The bound -/

/-- The position is inside the body, ten bytes further for each target added. -/
structure InBody (b : Bytes) (r : SetChainReq) (s : TargetLoop) : Prop where
  le : s.pos ≤ b.length
  added : ∃ ts, s.targets = r.targets ++ ts ∧ 10 * ts.length ≤ s.pos

/-- Rounds that the rest of the body has room for, and one that fails. -/
def rank (b : Bytes) (s : TargetLoop) : ℕ :=
  if s.failed then 0 else (b.length - s.pos) / 10 + 1

theorem inBody_step (s : TargetLoop) (u : Unit) (s' : TargetLoop) (hin : InBody b r s)
    (hs : ofStep (loopStep h b size) s u s') : InBody b r s' := by
  obtain ⟨-, -, ⟨-, rfl⟩ | ⟨t, pos, hd, rfl⟩⟩ := loopStep_cases hs
  · exact ⟨hin.le, hin.added⟩
  · obtain ⟨hadv, hle⟩ := decode_advances hin.le hd
    obtain ⟨ts, hts, hlen⟩ := hin.added
    refine ⟨hle, ts ++ [t], ?_, ?_⟩
    · rw [hts, List.append_assoc]
    · rw [List.length_append, List.length_singleton]
      exact le_trans (by omega) hadv

theorem rank_step (s : TargetLoop) (u : Unit) (s' : TargetLoop) (hin : InBody b r s)
    (hs : ofStep (loopStep h b size) s u s') : rank b s' < rank b s := by
  obtain ⟨hrun, -, ⟨-, rfl⟩ | ⟨t, pos, hd, rfl⟩⟩ := loopStep_cases hs
  · simp [rank, hrun]
  · obtain ⟨hadv, hle⟩ := decode_advances hin.le hd
    simp only [rank, hrun, Bool.false_eq_true, if_false]
    omega

theorem inBody_enterLoop (hs : enterLoop h b r = some (token, size, s)) :
    InBody b r s ∧ rank b s ≤ b.length / 10 + 1 := by
  rw [enterLoop] at hs
  obtain ⟨_, _, _, _, hat, hs⟩ := bind_decodeString (at_zero b) hs
  obtain ⟨_, _, _, hat, hs⟩ := bind_decodeInt hat hs
  cases hs
  refine ⟨⟨hat.le, [], (List.append_nil _).symm, Nat.zero_le _⟩, ?_⟩
  exact Nat.succ_le_succ (Nat.div_le_div_right (Nat.sub_le _ _))

/-! ### The result -/

/-- What the rounds still to come make of the targets. -/
def remaining (h : Host) (b : Bytes) (size : BitVec 32) (s : TargetLoop) :
    List ChainTarget × Option ℕ :=
  if s.failed then (s.targets, none)
  else decodeTargets h b (size.toNat - s.i.toNat) s.pos s.targets

/-- A round does its part of `decodeTargets`. -/
theorem remaining_round {u : Unit} (hs : loopStep h b size s u = some s') :
    remaining h b size s' = remaining h b size s := by
  obtain ⟨hrun, hi, hcases⟩ := loopStep_cases hs
  have hlt : s.i.toNat < size.toNat := BitVec.lt_def.mp hi
  have hsize := size.isLt
  obtain ⟨n, hn⟩ : ∃ n, size.toNat - s.i.toNat = n + 1 := ⟨size.toNat - s.i.toNat - 1, by omega⟩
  rcases hcases with ⟨hd, rfl⟩ | ⟨t, pos, hd, rfl⟩
  · simp [remaining, hrun, hn, decodeTargets, hd]
  · have hnext : (s.i + 1).toNat = s.i.toNat + 1 := by
      rw [BitVec.toNat_add]
      exact Nat.mod_eq_of_lt (by simp; omega)
    have hn' : size.toNat - (s.i + 1).toNat = n := by omega
    simp only [remaining, hrun, hn, hn', decodeTargets, hd, Bool.false_eq_true, if_false]

/-- `decode_body` in two parts: up to the loop, and the loop from its first state. -/
theorem decodeBody_eq (h : Host) (b : Bytes) (r : SetChainReq) :
    r.decodeBody h b = (enterLoop h b r).bind fun (fileToken, size, s) =>
      if (remaining h b size s).2 = some b.length then
        some ⟨fileToken, (remaining h b size s).1⟩
      else none := by
  simp [decodeBody, enterLoop, remaining, Option.bind_assoc]

/-- Where no round is left, the loop has the result of `decode_body`. -/
theorem decodeBody_of_end (henter : enterLoop h b r = some (token, size, s)) {ls : List Unit}
    (hsteps : Steps (ofStep (loopStep h b size)) s ls s') (hend : loopStep h b size s' () = none) :
    r.decodeBody h b = leaveLoop b token s' := by
  have hsame : remaining h b size s' = remaining h b size s :=
    hsteps.invariant (P := fun t => remaining h b size t = remaining h b size s)
      (fun t u t' ht hu => (remaining_round hu).trans ht) rfl
  rw [decodeBody_eq, henter, Option.bind_some]
  simp only
  rw [← hsame, remaining, leaveLoop]
  rcases loopStep_eq_none hend with hf | hi
  · simp [hf]
  · have hzero : size.toNat - s'.i.toNat = 0 := by
      have := BitVec.lt_def.not.mp hi
      omega
    cases hf : s'.failed <;> simp [hzero, decodeTargets]

/-- CORRECT (resources): whatever the count claims, the loop makes at most `|body| / 10 + 1` rounds and
    never has more than `|body| / 10` targets added; it ends, and what it leaves is the result of
    `decode_body`. -/
theorem decodeBody_bounded (h : Host) (r : SetChainReq) (b token : Bytes) (size : BitVec 32)
    (s : TargetLoop) (henter : enterLoop h b r = some (token, size, s)) :
    (∀ ls s', Steps (ofStep (loopStep h b size)) s ls s' →
      ls.length ≤ b.length / 10 + 1 ∧
        ∃ ts, s'.targets = r.targets ++ ts ∧ ts.length ≤ b.length / 10) ∧
    ∃ ls s', Steps (ofStep (loopStep h b size)) s ls s' ∧ loopStep h b size s' () = none ∧
      r.decodeBody h b = leaveLoop b token s' := by
  obtain ⟨hin, hrank⟩ := inBody_enterLoop henter
  refine ⟨fun ls s' hsteps => ⟨?_, ?_⟩, ?_⟩
  · have hlen := hsteps.length_add_rank_le (G := fun _ _ => True)
      (fun s u s' hin _ => inBody_step s u s' hin) rank_step (fun _ _ _ _ _ _ => trivial) hin
    omega
  · have hin' := hsteps.invariant inBody_step hin
    obtain ⟨ts, hts, hlen⟩ := hin'.added
    have hle := hin'.le
    exact ⟨ts, hts, by omega⟩
  · obtain ⟨ls, s', hsteps, hend⟩ :=
      exists_end (R := ofStep (loopStep h b size)) inBody_step rank_step hin
    have hnone : loopStep h b size s' () = none := Option.eq_none_iff_forall_ne_some.mpr (hend ())
    exact ⟨ls, s', hsteps, hnone, decodeBody_of_end henter hsteps hnone⟩

/-- A body for the token `4` that announces `2 ^ 32 - 1` targets and has two. -/
def sampleBody : Bytes :=
  [0, 0, 0, 1, 52, 255, 255, 255, 255] ++ [0, 0, 0, 1, 97, 0, 1, 0, 0, 0, 1, 52] ++
    [0, 0, 0, 1, 98, 0, 1, 0, 0, 0, 1, 53]

/-- The two are read, and the loop fails at the third. -/
theorem decodeBody_bounded_two :
    (∀ ls s', Steps (ofStep (loopStep .little sampleBody 0xFFFFFFFF)) ⟨0, 9, [], false⟩ ls s' →
      ls.length ≤ 4 ∧ s'.targets.length ≤ 3) ∧
    (∃ s', Steps (ofStep (loopStep .little sampleBody 0xFFFFFFFF)) ⟨0, 9, [], false⟩ [(), (), ()] s' ∧
      s'.targets = [⟨[97], 1, [52]⟩, ⟨[98], 1, [53]⟩] ∧ s'.failed = true) ∧
    ∃ ls s', Steps (ofStep (loopStep .little sampleBody 0xFFFFFFFF)) ⟨0, 9, [], false⟩ ls s' ∧
      decodeBody .little {} sampleBody = leaveLoop sampleBody [52] s' := by
  have henter : enterLoop .little sampleBody {} = some ([52], 0xFFFFFFFF, ⟨0, 9, [], false⟩) := by
    decide +kernel
  obtain ⟨hbound, ls, s', hsteps, _, hdecode⟩ := decodeBody_bounded _ _ _ _ _ _ henter
  refine ⟨fun ls s' h => ?_, ?_, ls, s', hsteps, hdecode⟩
  · obtain ⟨hlen, ts, hts, htargets⟩ := hbound ls s' h
    rw [hts]
    exact ⟨hlen, htargets⟩
  · have hrun : (exec (loopStep .little sampleBody 0xFFFFFFFF) ⟨0, 9, [], false⟩ [(), (), ()]).any
        (fun s => s.targets = [⟨[97], 1, [52]⟩, ⟨[98], 1, [53]⟩] ∧ s.failed = true) = true := by
      decide +kernel
    obtain ⟨s', hs', hend⟩ := steps_of_any hrun
    exact ⟨s', hs', of_decide_eq_true hend⟩

end SetChainReq

end Fcopy
