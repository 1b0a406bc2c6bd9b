import Fcopy.Wire.Canonical

/-! A message that arrives piece by piece.

    The bytes of a message lie in front of its receiver, which is called with some of them at a time.
    `Arriving` says what there is to know of it in between: the object has the state of the bytes it was
    given, and the rest is still to come. A call leaves such an object, or the verdict on all of the bytes:

        s  =  given ++ rest          task = stateAt given
                        │ append (rest.take n)
              given ++ rest.take n ++ rest.drop n

    This also holds where `aligned_alloc` fails in some of the calls: such a call refuses the message. -/

namespace Fcopy
open Endian

namespace FcopyMessage
variable {h : Host} {limit : ℕ} {alloc : ℕ → Bool}

/-- The object has got the first bytes of `s`, and `rest` is still to come. -/
def Arriving (h : Host) (limit : ℕ) (s rest : Bytes) (task : FcopyMessage) : Prop :=
  ∃ given, s = given ++ rest ∧ given.length < frameEnd h limit given ∧ task = stateAt h limit given

theorem arriving_fresh (h : Host) (limit : ℕ) (s : Bytes) : Arriving h limit s s (fresh limit) :=
  ⟨[], rfl, lt_of_lt_of_le (by decide) (headerSize_le_frameEnd h limit []), stateAt_nil.symm⟩

/-- A call that is not refused has been granted the memory it asked for, whatever came before it. -/
theorem append_granted_any (self : FcopyMessage) (buf : Bytes)
    (hne : (append h alloc self buf).1 ≠ .rejected .EBADMSG) :
    append h (fun _ => true) self buf = append h alloc self buf := by
  by_cases hself : self.head.length < headerSize
  · by_cases hshort : (self.head ++ buf.take (min (headerSize - self.head.length) buf.length)).length <
        headerSize
    · simp only [append, if_pos hself, if_pos hshort]
    · have hlen : (self.head ++ buf.take (min (headerSize - self.head.length) buf.length)).length =
          headerSize := by
        rw [List.length_append, List.length_take] at hshort ⊢
        omega
      rw [append_openHead hself rfl hlen rfl] at hne ⊢
      rw [append_openHead hself rfl hlen rfl]
      split
      · rfl
      · rfl
      · rename_i m hm
        rw [hm] at hne
        exact deliver_granted _ _ _ hne
  · simp only [append, if_neg hself] at hne ⊢
    cases hm : self.message with
    | none => rfl
    | some m =>
      rw [hm] at hne
      exact deliver_granted _ _ _ hne

/-- CORRECT (one call): the object goes on arriving, or is accepted as the whole of `s` is. -/
theorem Arriving.append {s rest : Bytes} {task task' : FcopyMessage} {ret : Ret}
    (ha : Arriving h limit s rest task) (n : ℕ)
    (hcall : append h alloc task (rest.take n) = (ret, task')) :
    (ret = .again → Arriving h limit s (rest.drop n) task') ∧
      (ret = .accepted → finalAt h limit s = (.accepted, task')) := by
  obtain ⟨given, rfl, hopen, rfl⟩ := ha
  by_cases hbad : ret = .rejected .EBADMSG
  · subst hbad
    exact ⟨fun h => (by cases h), fun h => (by cases h)⟩
  have hgranted := append_granted_any (h := h) (stateAt h limit given) (rest.take n) (by rwa [hcall])
  rw [hcall, append_stateAt h limit (fun _ => rfl) given _ hopen] at hgranted
  have hsplit : given ++ rest = given ++ rest.take n ++ rest.drop n := by
    rw [List.append_assoc, List.take_append_drop]
  split at hgranted
  · rename_i hlt
    cases hgranted
    exact ⟨fun _ => ⟨_, hsplit, hlt, rfl⟩, fun h => (by cases h)⟩
  · rename_i hge
    refine ⟨?_, ?_⟩
    · rintro rfl
      exact absurd (congrArg Prod.fst hgranted) (finalAt_ne_again _)
    · rintro rfl
      rw [hsplit, finalAt_append _ (Nat.le_of_not_lt hge), hgranted]

/-- A stream that reaches its end gets the verdict, however it is cut. -/
theorem feed_finalAt (hal : ∀ n, alloc n = true) {frags : List Bytes} {s : Bytes}
    (hs : frags.flatten = s) (hend : frameEnd h limit s ≤ s.length) :
    feed h alloc (fresh limit) frags = finalAt h limit s := by
  subst hs
  have h₀ : 0 < (resumable h limit hal).endAt [] :=
    lt_of_lt_of_le (by decide) (headerSize_le_frameEnd h limit [])
  have hfeed := (resumable h limit hal).feed_end (r := []) h₀ (by rwa [List.append_nil])
  rw [List.append_nil] at hfeed
  rw [feed, ← stateAt_nil (h := h)]
  exact hfeed

/-- What is accepted in one piece has reached its end. -/
theorem finalAt_of_append (hal : ∀ n, alloc n = true) {s : Bytes} {out : FcopyMessage}
    (hacc : append h alloc (fresh limit) s = (.accepted, out)) :
    frameEnd h limit s ≤ s.length ∧ finalAt h limit s = (.accepted, out) := by
  have hstart : ([] : Bytes).length < frameEnd h limit [] :=
    lt_of_lt_of_le (by decide) (headerSize_le_frameEnd h limit [])
  have happ := append_stateAt h limit hal [] s hstart
  rw [stateAt_nil, List.nil_append, hacc] at happ
  split at happ
  · cases happ
  · rename_i hge
    exact ⟨Nat.le_of_not_lt hge, happ.symm⟩

/-! ### What an accepted frame holds -/

/-- A message that is accepted has the command and the error of its header, and the fields that its body
    decodes to. -/
theorem finalAt_head {m : Message} {q : Bytes} {out : FcopyMessage} (hm : m.magic = magicNumber)
    (hv : m.version = versionNumber)
    (hacc : finalAt h limit (m.headBytes ++ q) = (.accepted, out)) :
    ∃ p p' m', createMessage m.command = some p ∧
      p.decodeBody h (q.take m.bodyLen.toNat) = some p' ∧ out.message = some m' ∧
      m'.command = m.command ∧ m'.error = m.error ∧ m'.payload = p' ∧
      m'.dataView = (q.drop m.bodyLen.toNat).take m.dataLen.toNat := by
  have htake : (m.headBytes ++ q).take headerSize = m.headBytes := List.take_left' m.length_headBytes
  have hdrop : (m.headBytes ++ q).drop headerSize = q := List.drop_left' m.length_headBytes
  have hhead := m.decodeHead_headBytes h hm hv
  rw [finalAt, htake, hdrop, openHead, hhead] at hacc
  simp only at hacc
  cases hcreate : createMessage m.command with
  | none =>
    simp only [hcreate] at hacc
    cases hacc
  | some p =>
    simp only [hcreate] at hacc
    by_cases hlimit : (m.bodyLen + m.dataLen).toNat + headerSize > limit
    · simp only [if_pos hlimit] at hacc
      cases hacc
    · simp only [if_neg hlimit, Message.finish, Message.full, Message.fill] at hacc
      cases hdecode : p.decodeBody h (q.take m.bodyLen.toNat) with
      | none =>
        simp only [hdecode] at hacc
        cases hacc
      | some p' =>
        simp only [hdecode, Prod.mk.injEq, true_and] at hacc
        subst hacc
        exact ⟨p, p', _, rfl, hdecode, rfl, rfl, rfl, rfl, rfl⟩

/-- The lengths of what is accepted have 32 bits. -/
theorem finalAt_accepted {s : Bytes} {out : FcopyMessage} (hacc : finalAt h limit s = (.accepted, out)) :
    ∃ m, out.message = some m ∧ m.payload.Fits ∧ m.dataView.length < 2 ^ 32 := by
  rw [finalAt] at hacc
  split at hacc
  · cases hacc
  rename_i m hopen
  simp only [Message.finish, Message.full, Message.fill] at hacc
  have hcreate : createMessage m.command = some m.payload := by
    rw [openHead] at hopen
    split at hopen
    · cases hopen
    split at hopen
    · cases hopen
    rename_i p hp
    split at hopen <;> cases hopen
    exact hp
  split at hacc
  · rename_i p' hdecode
    simp only [Prod.mk.injEq, true_and] at hacc
    subst hacc
    refine ⟨_, rfl, (Payload.bytes_of_decodeBody hcreate hdecode).2.1, ?_⟩
    rw [List.length_take]
    exact lt_of_le_of_lt (Nat.min_le_left ..) m.dataLen.isLt
  · cases hacc

/-- The frame of a message. -/
def frameOf (m : Message) : Bytes :=
  (encoded m.payload m).headBytes ++ (m.payload.bytes ++ m.dataView)

/-- The vectors of `encode` make up the frame. -/
theorem encode_frameOf {p : Payload} {error : ℤ} {d : Bytes} {m : Message} (h : Host)
    (hm : Ready p error d m) (self : FcopyMessage) (hself : self.message = some m) :
    ∃ vectors, (encode h self).1 = some vectors ∧ vectors.flatten = frameOf m := by
  refine ⟨_, congrArg Prod.fst (encode_eq h hm self hself), ?_⟩
  rw [List.flatten_cons, (encodeBody_eq h p d hm.noData).2, frameOf, hm.payload, hm.dataView]

/-- Whatever its lengths, a frame that is accepted has the command and the error of the message. -/
theorem finalAt_frameOf {p : Payload} {error : ℤ} {d : Bytes} {m : Message} {out : FcopyMessage}
    (hm : Ready p error d m) (hacc : finalAt h limit (frameOf m) = (.accepted, out)) :
    p ≠ .base ∧ ∃ m', out.message = some m' ∧ m'.command = p.thisCmd.code ∧ m'.error = m.error := by
  obtain ⟨p₀, p', m', hcreate, _, hout, hcmd, herr, _⟩ :=
    finalAt_head (m := encoded m.payload m) hm.magic hm.version hacc
  have hcommand : (encoded m.payload m).command = p.thisCmd.code := hm.command
  refine ⟨?_, m', hout, hcmd.trans hcommand, herr⟩
  rintro rfl
  rw [hcommand] at hcreate
  cases hcreate

/-- The fields come back where the lengths fit the header. -/
theorem finalAt_fields {p : Payload} {error : ℤ} {d : Bytes} {m : Message} {out : FcopyMessage}
    (hm : Ready p error d m) (hbody : p.bytes.length < 2 ^ 32) (hdata : d.length < 2 ^ 32)
    (hacc : finalAt h limit (frameOf m) = (.accepted, out)) :
    ∃ m', out.message = some m' ∧ m'.command = p.thisCmd.code ∧ m'.payload = p ∧
      m'.error = m.error ∧ m'.dataView = d := by
  have hp := (finalAt_frameOf hm hacc).1
  obtain ⟨p₀, hcreate₀, hdecode₀⟩ := p.decodeBody_bytes h hp (Payload.fits_of_length hbody)
  obtain ⟨p₁, p', m', hcreate, hdecode, hout, hcmd, herr, hpay, hview⟩ :=
    finalAt_head (m := encoded m.payload m) hm.magic hm.version hacc
  have hcommand : (encoded m.payload m).command = p.thisCmd.code := hm.command
  have hb : (encoded m.payload m).bodyLen.toNat = m.payload.bytes.length := by
    rw [hm.payload]
    exact Nat.mod_eq_of_lt hbody
  have hd : (encoded m.payload m).dataLen.toNat = d.length := by
    simp only [encoded, hm.dataLen]
    exact Nat.mod_eq_of_lt hdata
  rw [hcommand, hcreate₀] at hcreate
  cases hcreate
  rw [hb, List.take_left, hm.payload, hdecode₀] at hdecode
  cases hdecode
  rw [hb, hd, List.drop_left, hm.dataView, List.take_length] at hview
  exact ⟨m', hout, hcmd.trans hcommand, hpay, herr, hview⟩

/-- A `SEND_FILE_REQ` comes back whenever it is accepted, as long as its token and its data have lengths
    of 32 bits: a body that overflows `body_len` is announced too short to be read. -/
theorem finalAt_send {r : SendFileReq} {error : ℤ} {d : Bytes} {m : Message} {out : FcopyMessage}
    (hm : Ready (.sendFileReq r) error d m) (htoken : r.fileToken.length < 2 ^ 32)
    (hdata : d.length < 2 ^ 32) (hacc : finalAt h limit (frameOf m) = (.accepted, out)) :
    ∃ m', out.message = some m' ∧ m'.command = Command.sendFileReq.code ∧ m'.payload = .sendFileReq r ∧
      m'.error = m.error ∧ m'.dataView = d := by
  have hlen : (Payload.sendFileReq r).bytes.length = 24 + r.fileToken.length := by
    simp only [Payload.bytes, List.length_append, length_str, length_int]
    omega
  by_cases hbody : (Payload.sendFileReq r).bytes.length < 2 ^ 32
  · exact finalAt_fields hm hbody hdata hacc
  · -- `body_len` has lost 2 ^ 32
    exfalso
    obtain ⟨p₀, p', m', hcreate, hdecode, _⟩ :=
      finalAt_head (m := encoded m.payload m) hm.magic hm.version hacc
    have hcommand : (encoded m.payload m).command = Command.sendFileReq.code := hm.command
    rw [hcommand] at hcreate
    obtain ⟨hcmd, _, hbytes⟩ := Payload.bytes_of_decodeBody hcreate hdecode
    cases hcreate
    obtain ⟨r', rfl⟩ : ∃ r', p' = .sendFileReq r' := by
      cases p' <;> first | exact ⟨_, rfl⟩ | cases hcmd
    have hlen' : 24 ≤ (Payload.sendFileReq r').bytes.length := by
      simp only [Payload.bytes, List.length_append, length_str, length_int]
      omega
    have hb : (encoded m.payload m).bodyLen.toNat = (24 + r.fileToken.length) % 2 ^ 32 := by
      rw [hm.payload, ← hlen]
      exact BitVec.toNat_ofNat ..
    rw [hbytes, List.length_take, hb] at hlen'
    omega

end FcopyMessage

end Fcopy
