import Fcopy.Server.Descriptors

/-! Where the writes go.

    `handle_send_file` copies a descriptor number out of the table and uses it later. Nothing keeps the
    session open meanwhile, so the number can be closed and given to another file before `pwrite`. This
    happens exactly through a `close` of a descriptor some sender has yet to write to (`Strands`): in
    a run without such a step each pending write has the file its session was created with
    (`writes_own_file`), and after such a step some pending write has none (`strands_loses`). -/

namespace Fcopy
open Function Ownership

variable {conf : Conf} {s s' : Server} {l : Label}

/-- `close` is called on a descriptor that a sender has looked up and not written to yet. -/
def Strands (s : Server) (l : Label) : Prop :=
  ∃ i a info reply j, l = .resume i a ∧ s.handlers i = .closeFd info reply ∧
    s.borrowed j = some (info.fd, info.desc)

/-- Each pending write still has the open file description its session was created with. -/
def OwnFiles (s : Server) : Prop :=
  ∀ j x, s.handlers j = .sending x → x.writeError = none → s.store.os.fds x.fd = some x.desc

/-- Held descriptors are held once, and each pending write borrows one of them. -/
structure Secure (s : Server) : Prop where
  exclusive : Exclusive s.owned s.store.os.fds
  lent : Lent Owner.lends s.owned s.borrowed

/-- A pending write was borrowed before the step, or from a session at its arrival. -/
theorem borrowed_step (h : step conf s l = some s') (j : ℕ) (x : ℕ × Desc)
    (hx : s'.borrowed j = some x) :
    s.borrowed j = some x ∨ ∃ token, s'.owned (.session token) = some x := by
  rw [Server.borrowed] at hx ⊢
  rcases handler_cases h j with hsame | ⟨req, rfl, hidle, harrive⟩ | ⟨a, st', _, heff⟩
  · rw [hsame] at hx
    exact .inl hx
  · rw [harrive] at hx
    obtain ⟨token, info, hf, rfl⟩ := (accept_holds conf s.store req).2.2 x hx
    rcases step_cases h with ⟨_, _, hl, _, rfl⟩ | ⟨_, _, _, _, hl, _⟩ <;> cases hl
    refine .inr ⟨token, ?_⟩
    rw [Server.owned, (accept_store conf s.store req).2 token, hf]
    rfl
  · generalize s.handlers j = hd at heff ⊢
    generalize s'.handlers j = hd' at heff hx
    cases heff <;> first | exact .inl hx | cases hx

theorem Initial.secure (h : Initial s) : Secure s :=
  ⟨h.exclusive, fun j x hx => by
    simp only [Server.borrowed, h.handlers, Handler.borrows] at hx
    cases hx⟩

theorem Secure.preserved (hs : Secure s) (hl : ¬ Strands s l) (h : step conf s l = some s') :
    Secure s' := by
  obtain ⟨gone, hm, hgone⟩ := step_move h
  have hback : ∀ o, gone = some o → o.lends →
      ∀ j, s.borrowed j ≠ none → s.borrowed j ≠ s.owned o := by
    intro o ho hlend j _ hj
    obtain ⟨i, a, rfl, hret⟩ := hgone o ho
    cases o with
    | session token => exact hret
    | creator k => exact hlend
    | closer k =>
      obtain ⟨rfl, info, reply, hi⟩ := hret
      exact hl ⟨k, a, info, reply, j, rfl, hi, by rw [hj, Server.owned, hi]; rfl⟩
  have hlent := hm.lent hs.lent hback
  refine ⟨hm.exclusive hs.exclusive, fun j x hx => ?_⟩
  rcases borrowed_step h j x hx with hx | ⟨token, ho⟩
  · exact hlent j x hx
  · exact ⟨.session token, trivial, ho⟩

theorem Secure.ownFiles (hs : Secure s) : OwnFiles s := by
  intro j x hj hx
  obtain ⟨o, _, ho⟩ := hs.lent j (x.fd, x.desc) (by
    rw [Server.borrowed, hj, Handler.borrows, if_pos hx])
  exact hs.exclusive.live o x.fd x.desc ho

/-- A stranding step leaves a pending write on a number that is closed. -/
theorem Strands.not_ownFiles (hl : Strands s l) (h : step conf s l = some s') : ¬ OwnFiles s' := by
  obtain ⟨i, a, info, reply, j, rfl, hi, hj⟩ := hl
  rcases step_cases h with ⟨_, _, hl, _⟩ | ⟨i', a', st', h', hl, heff, rfl⟩ <;> cases hl
  intro hown
  rw [Server.borrowed] at hj
  cases hx : s.handlers j with
  | sending x =>
    rw [hx, Handler.borrows] at hj
    split at hj
    · rename_i hw
      obtain ⟨hfx, _⟩ := Prod.mk.inj (Option.some.inj hj)
      have hne : j ≠ i := by
        rintro rfl
        rw [hx] at hi
        cases hi
      have hfd := hown j x (by simp only [update_of_ne hne, hx]) hw
      rw [hi] at heff
      cases heff
      simp [hfx, Os.close] at hfd
    · cases hj
  | _ => rw [hx] at hj; cases hj

/-- CORRECT (writes): in a run of the server from its start, every pending write is at every moment
    about to go to the open file description its session was created with, if and only if no step of
    the run closes a descriptor that a sender has looked up and not written to yet. -/
theorem writes_own_file_iff {ls : List Label} {t : Server} (h₀ : Initial s)
    (hr : Runs conf s ls t) :
    Run.Everywhere (Run.ofStep (step conf)) OwnFiles s ls ↔
      Run.EveryStep (Run.ofStep (step conf)) (fun s l => ¬ Strands s l) s ls :=
  Run.everywhere_iff (I := Secure) (fun _ _ _ hs hl h => hs.preserved hl h) (fun _ hs => hs.ownFiles)
    (fun _ _ _ _ hl h => (not_not.mp hl).not_ownFiles h) hr h₀.secure

/-- A chunk of the file `a` is looked up and written. -/
theorem writes_own_file_iff_send : ∃ t,
    let ls := sampleCreate ++ [.arrive 1 (.send { fileToken := text "4" } [1, 2, 3]),
      .resume 1 (.wrote 3)]
    Runs sampleConf sampleServer ls t ∧
      (Run.Everywhere (Run.ofStep (step sampleConf)) OwnFiles sampleServer ls ↔
        Run.EveryStep (Run.ofStep (step sampleConf)) (fun s l => ¬ Strands s l) sampleServer ls) := by
  obtain ⟨t, ht⟩ := Option.isSome_iff_exists.mp
    (by decide +kernel : (Run.exec (step sampleConf) sampleServer (sampleCreate ++
      [.arrive 1 (.send { fileToken := text "4" } [1, 2, 3]), .resume 1 (.wrote 3)])).isSome = true)
  have hr := Run.steps_iff_exec.mpr ht
  exact ⟨t, hr, writes_own_file_iff sampleServer_initial hr⟩

/-- File `a` is created, a chunk for it looked up, `a` closed, and file `bb` created on the same
    descriptor number; then the chunk of `a` is written to `bb`. -/
theorem reused_descriptor : ∃ ls t, Initial sampleServer ∧
    Runs sampleConf sampleServer ls t ∧ ¬ OwnFiles t ∧
    ∃ t', step sampleConf t (.resume 1 (.wrote 3)) = some t' ∧
      t'.store.os.content [text "p", text "bb"] = [1, 2, 3] := by
  let ls : List Label := sampleCreate ++ [.arrive 1 (.send { maxChainLen := 1, fileToken := text "4" } [1, 2, 3]),
    .arrive 2 (.close { waitClose := 1, fileToken := text "4" }),
    .resume 2 .done, .resume 2 .done, .resume 2 .done,
    .arrive 3 (.create { chunkSize := 8192, fileName := text "bb" }),
    .resume 3 (.opened 3 0), .resume 3 .done, .resume 3 .done]
  let x : Sending := ⟨{ maxChainLen := 1, fileToken := text "4" }, [1, 2, 3], 3,
    ⟨0, [text "p", text "a"]⟩, [], none, []⟩
  have hrun : (Run.exec (step sampleConf) sampleServer ls).any (fun t =>
      t.handlers 1 = .sending x ∧ t.store.os.fds 3 = some ⟨1, [text "p", text "bb"]⟩ ∧
        (step sampleConf t (.resume 1 (.wrote 3))).any fun t' =>
          t'.store.os.content [text "p", text "bb"] = [1, 2, 3]) = true := by decide +kernel
  obtain ⟨t, hr, hcheck⟩ := Run.steps_of_any hrun
  obtain ⟨hx, hfd, hwrite⟩ := of_decide_eq_true hcheck
  obtain ⟨t', ht', hcontent⟩ := (Option.any_eq_true _ _).mp hwrite
  refine ⟨ls, t, sampleServer_initial, hr, fun hown => ?_, t', ht',
    of_decide_eq_true hcontent⟩
  have := hown 1 x hx rfl
  rw [hfd] at this
  exact absurd this (by decide)

end Fcopy
