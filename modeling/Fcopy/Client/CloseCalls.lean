import Mathlib.Data.List.ReduceOption
import Fcopy.Client.FileSender

/-! Which sessions a sender closes (`FileSender::create_file`, `close_file`).

    The two calls as functions of the answers to their requests: error and token for each CREATE, an
    error for each SET_CHAIN and CLOSE. `file_tokens` has the token of target `i` at index `i`;
    `remote_close` blanks it in place once its CLOSE has been answered 0, and goes over the list again in
    the next call:

        opened    t0  t1  t2          CLOSE t0, t1, t2
        1st call  --  t1  --          CLOSE of t1 failed
        2nd call  --  t1  --          CLOSE t1
                                      answered 0: the list is cleared

    The closing phase of the sender in the system is this loop (`closing_solo`). -/

namespace Fcopy

/-- What a call has returned, the tokens it has left, and the requests it has sent. -/
structure Done where
  error : ℤ
  fileTokens : List Bytes
  requests : List (Addr × Request)
  deriving DecidableEq

section
variable (p : SenderParams) (source : Bytes)

/-! ### `create_file` -/

/-- The loop of `remote_open`, from target `i` on. -/
def openLoop (answers : ℕ → ℤ × Bytes) : ℕ → List Addr → List Bytes → Done
  | _, [], tokens => ⟨0, tokens, []⟩
  | i, a :: targets, tokens =>
    let request := (a, Request.create (openRequest p source))
    let (localError, token) := answers i
    if localError ≠ 0 then ⟨localError, tokens, [request]⟩
    else
      let d := openLoop answers (i + 1) targets (tokens ++ [token])
      { d with requests := request :: d.requests }

def remoteOpen (answers : ℕ → ℤ × Bytes) : Done :=
  if p.targets = [] then ⟨EINVAL, [], []⟩ else openLoop p source answers 0 p.targets []

/-- The loop of `set_send_chain` or `set_send_tree`, from target `i` on. It ends where there is nobody
    to forward to. -/
def linkLoop (tokens : List Bytes) (answers : ℕ → ℤ) : ℕ → ℕ → ℤ × List (Addr × Request)
  | 0, _ => (0, [])
  | fuel + 1, i =>
    if linkTargets p tokens i = [] then (0, [])
    else
      let request := (addrOf p i, Request.setChain ⟨tokenOf tokens i, linkTargets p tokens i⟩)
      let localError := answers i
      if localError ≠ 0 then (localError, [request])
      else
        let (e, requests) := linkLoop tokens answers fuel (i + 1)
        (e, request :: requests)

/-- `opened` is the error of `open_file`. -/
def createFile (opened : ℤ) (opens : ℕ → ℤ × Bytes) (links : ℕ → ℤ) : Done :=
  if opened ≠ 0 then ⟨opened, [], []⟩
  else
    let d := remoteOpen p source opens
    if d.error ≠ 0 then d
    else
      let (e, requests) := linkLoop p d.fileTokens links d.fileTokens.length 0
      ⟨e, d.fileTokens, d.requests ++ requests⟩

/-! ### `close_file` -/

def closeRequest (token : Bytes) : Request := .close ⟨if p.waitClose then 1 else 0, token⟩

/-- The loop of `remote_close`, from index `i` on. -/
def closeLoop (answers : ℕ → ℤ) : ℕ → List Bytes → ℤ → Done
  | _, [], firstError => ⟨firstError, [], []⟩
  | i, token :: tokens, firstError =>
    if token = [] then
      let d := closeLoop answers (i + 1) tokens firstError
      { d with fileTokens := token :: d.fileTokens }
    else
      let localError := answers i
      let d := closeLoop answers (i + 1) tokens
        (if localError ≠ 0 ∧ firstError = 0 then localError else firstError)
      { d with
        fileTokens := (if localError = 0 then [] else token) :: d.fileTokens
        requests := (addrOf p i, closeRequest p token) :: d.requests }

def remoteClose (answers : ℕ → ℤ) (tokens : List Bytes) : Done :=
  let d := closeLoop p answers 0 tokens 0
  if d.error = 0 then { d with fileTokens := [] } else d

/-- Call number `c` of `close_file`, on the tokens that the calls before have left. -/
def closeFile (closes : ℕ → ℕ → ℤ) (tokens : List Bytes) : ℕ → Done
  | 0 => remoteClose p (closes 0) tokens
  | c + 1 => remoteClose p (closes (c + 1)) (closeFile closes tokens c).fileTokens

end

/-- The targets whose session is still open before call number `c`, of `k` that have one. -/
def stillOpen (closes : ℕ → ℕ → ℤ) (k : ℕ) : ℕ → List ℕ
  | 0 => List.range k
  | c + 1 => (stillOpen closes k c).filter fun i => closes c i ≠ 0

/-- The first error of the answers, in the order of the targets. -/
def firstOf (answers : ℕ → ℤ) (targets : List ℕ) : ℤ :=
  ((targets.map answers).find? (· ≠ 0)).getD 0

variable {p : SenderParams} {source : Bytes}

/-! ### What is opened -/

/-- The loop of `remote_open` gets `k` tokens with `m` requests: all were answered 0, or the last
    failed. -/
theorem openLoop_spec (source : Bytes) (answers : ℕ → ℤ × Bytes) : ∀ (targets : List Addr) (i : ℕ)
    (tokens : List Bytes), ∃ k m, k ≤ m ∧ m ≤ targets.length ∧ (k = targets.length ∨ k < m) ∧
      (∀ j, i ≤ j → j < i + m → ((answers j).1 = 0 ↔ j < i + k)) ∧
      ((openLoop p source answers i targets tokens).error = 0 ↔ k = targets.length) ∧
      (openLoop p source answers i targets tokens).fileTokens =
        tokens ++ (List.range' i k).map (fun j => (answers j).2) ∧
      (openLoop p source answers i targets tokens).requests =
        (targets.take m).map fun a => (a, .create (openRequest p source))
  | [], i, tokens => ⟨0, 0, le_rfl, le_rfl, .inl rfl, by omega, iff_of_true rfl rfl, by simp [openLoop],
      by simp [openLoop]⟩
  | a :: targets, i, tokens => by
    by_cases he : (answers i).1 = 0
    · obtain ⟨k, m, hkm, hm, hend, hok, herror, htok, hreq⟩ :=
        openLoop_spec source answers targets (i + 1) (tokens ++ [(answers i).2])
      refine ⟨k + 1, m + 1, Nat.succ_le_succ hkm, Nat.succ_le_succ hm,
        hend.imp (congrArg (· + 1)) Nat.succ_lt_succ, fun j hij hj => ?_, ?_, ?_, ?_⟩
      · rcases hij.eq_or_lt with rfl | hlt
        · exact iff_of_true he (by omega)
        · rw [hok j hlt (by omega)]
          omega
      · simp only [openLoop, he, ne_eq, not_true_eq_false, if_false, herror, List.length_cons,
          Nat.add_right_cancel_iff]
      · simp only [openLoop, he, ne_eq, not_true_eq_false, if_false, htok, List.range'_succ,
          List.map_cons, List.append_assoc, List.singleton_append]
      · simp only [openLoop, he, ne_eq, not_true_eq_false, if_false, hreq, List.take_succ_cons,
          List.map_cons]
    · refine ⟨0, 1, Nat.zero_le 1, Nat.succ_le_succ (Nat.zero_le _), .inr Nat.zero_lt_one,
        fun j hij hj => ?_, ?_, ?_, ?_⟩
      · obtain rfl : j = i := by omega
        exact iff_of_false he (by omega)
      · simp [openLoop, he]
      · simp [openLoop, he]
      · simp [openLoop, he]

/-- The targets at the first `m` indices. -/
theorem take_targets {m : ℕ} (hm : m ≤ p.targets.length) :
    p.targets.take m = (List.range m).map (addrOf p) := by
  refine List.ext_getElem? fun i => ?_
  rcases Nat.lt_or_ge i m with hi | hi
  · rw [List.getElem?_take_of_lt hi, List.getElem?_map, List.getElem?_range hi, Option.map_some,
      addrOf, List.getElem?_eq_getElem (hi.trans_le hm), Option.getD_some]
  · rw [List.getElem?_eq_none (by rw [List.length_take]; omega),
      List.getElem?_eq_none (by rw [List.length_map, List.length_range]; exact hi)]

theorem linkLoop_setChain (tokens : List Bytes) (answers : ℕ → ℤ) : ∀ (fuel i : ℕ),
    ∀ x ∈ (linkLoop p tokens answers fuel i).2, ∃ r, x.2 = .setChain r
  | 0, _, x, hx => by cases hx
  | fuel + 1, i, x, hx => by
    simp only [linkLoop] at hx
    split at hx
    · cases hx
    split at hx
    · cases List.mem_singleton.mp hx
      exact ⟨_, rfl⟩
    · rcases List.mem_cons.mp hx with rfl | hx
      · exact ⟨_, rfl⟩
      · exact linkLoop_setChain tokens answers fuel (i + 1) x hx

/-- What `create_file` has opened: targets 0 to `k - 1`, whose tokens it has. -/
theorem createFile_spec (source : Bytes) (opened : ℤ) (opens : ℕ → ℤ × Bytes) (links : ℕ → ℤ) : ∃ k m sets,
    k ≤ m ∧ m ≤ p.targets.length ∧ (∀ i < m, (opens i).1 = 0 ↔ i < k) ∧
    (createFile p source opened opens links).fileTokens = (List.range k).map (fun i => (opens i).2) ∧
    (createFile p source opened opens links).requests =
      (List.range m).map (fun i => (addrOf p i, .create (openRequest p source))) ++ sets ∧
    ∀ x ∈ sets, ∃ r, x.2 = .setChain r := by
  have hempty : ∀ e, ∃ k m sets, k ≤ m ∧ m ≤ p.targets.length ∧
      (∀ i < m, (opens i).1 = 0 ↔ i < k) ∧
      (⟨e, [], []⟩ : Done).fileTokens = (List.range k).map (fun i => (opens i).2) ∧
      (⟨e, [], []⟩ : Done).requests =
        (List.range m).map (fun i => (addrOf p i, .create (openRequest p source))) ++ sets ∧
      ∀ x ∈ sets, ∃ r, x.2 = .setChain r :=
    fun e => ⟨0, 0, [], le_rfl, Nat.zero_le _, by omega, rfl, rfl, by simp⟩
  rw [createFile]
  split
  · exact hempty _
  rw [remoteOpen]
  by_cases ht : p.targets = []
  · simp only [if_pos ht, if_pos (show (EINVAL : ℤ) ≠ 0 by decide)]
    exact hempty EINVAL
  obtain ⟨k, m, hkm, hm, _, hok, _, htok, hreq⟩ := openLoop_spec (p := p) source opens p.targets 0 []
  simp only [Nat.zero_add, List.nil_append, ← List.range_eq_range'] at hok htok
  rw [take_targets hm, List.map_map] at hreq
  simp only [if_neg ht]
  split
  · exact ⟨k, m, [], hkm, hm, fun i hi => hok i (Nat.zero_le i) hi, htok,
      by rw [hreq, List.append_nil]; rfl, by simp⟩
  · exact ⟨k, m, _, hkm, hm, fun i hi => hok i (Nat.zero_le i) hi, htok, by rw [hreq]; rfl,
      linkLoop_setChain _ links _ 0⟩

/-! ### What is closed -/

theorem firstOf_cons (answers : ℕ → ℤ) (i : ℕ) (is : List ℕ) :
    firstOf answers (i :: is) = if answers i ≠ 0 then answers i else firstOf answers is := by
  by_cases h : answers i = 0 <;> simp [firstOf, h]

/-- The loop of `remote_close`: one CLOSE for each token that is not blank. -/
theorem closeLoop_spec (answers : ℕ → ℤ) (g : ℕ → Bytes) : ∀ (n i : ℕ) (firstError : ℤ),
    closeLoop p answers i ((List.range' i n).map g) firstError =
      { error := if firstError ≠ 0 then firstError
          else firstOf answers ((List.range' i n).filter fun j => g j ≠ [])
        fileTokens := (List.range' i n).map fun j => if answers j = 0 then [] else g j
        requests := ((List.range' i n).filter fun j => g j ≠ []).map fun j =>
          (addrOf p j, closeRequest p (g j)) }
  | 0, i, firstError => by
    by_cases h : firstError = 0 <;> simp [closeLoop, firstOf, h]
  | n + 1, i, firstError => by
    rw [List.range'_succ, List.map_cons, closeLoop]
    by_cases hg : g i = []
    · rw [if_pos hg, closeLoop_spec answers g n (i + 1) firstError]
      simp [hg]
    · simp only [if_neg hg, closeLoop_spec answers g n (i + 1)]
      by_cases he : answers i = 0 <;> by_cases hf : firstError = 0 <;>
        simp [hg, he, hf, firstOf_cons]

/-- The list has the tokens of these targets, each at its index, and is blank elsewhere. -/
def Lists (token : ℕ → Bytes) (tokens : List Bytes) (targets : List ℕ) : Prop :=
  ∃ n g, tokens = (List.range n).map g ∧ (List.range n).filter (fun i => g i ≠ []) = targets ∧
    ∀ i ∈ targets, g i = token i

/-- CORRECT (one call): `remote_close` sends one CLOSE for each token listed, returns the first error,
    and lists the tokens whose CLOSE failed. -/
theorem remoteClose_spec {token : ℕ → Bytes} {tokens : List Bytes} {targets : List ℕ}
    (answers : ℕ → ℤ) (h : Lists token tokens targets) :
    (remoteClose p answers tokens).requests =
        targets.map (fun i => (addrOf p i, closeRequest p (token i))) ∧
      (remoteClose p answers tokens).error = firstOf answers targets ∧
      Lists token (remoteClose p answers tokens).fileTokens
        (targets.filter fun i => answers i ≠ 0) := by
  obtain ⟨n, g, rfl, rfl, htok⟩ := h
  have hloop := closeLoop_spec (p := p) answers g n 0 0
  rw [← List.range_eq_range', if_neg (not_not.mpr rfl)] at hloop
  rw [remoteClose, hloop]
  have hreq : ((List.range n).filter fun i => g i ≠ []).map
      (fun i => (addrOf p i, closeRequest p (g i))) =
        ((List.range n).filter fun i => g i ≠ []).map
          (fun i => (addrOf p i, closeRequest p (token i))) :=
    List.map_congr_left fun i hi => by rw [htok i hi]
  have hleft : ∀ i ∈ ((List.range n).filter fun i => g i ≠ []).filter fun i => answers i ≠ 0,
      answers i ≠ 0 ∧ g i = token i := by
    intro i hi
    obtain ⟨hmem, hne⟩ := List.mem_filter.mp hi
    exact ⟨of_decide_eq_true hne, htok i hmem⟩
  simp only
  split
  · rename_i hzero
    refine ⟨hreq, rfl, 0, g, rfl, ?_, fun i hi => (hleft i hi).2⟩
    -- no error: all answers were 0, and the list is cleared
    have hall := (firstError_eq_zero.mp hzero).1
    refine (List.filter_eq_nil_iff.mpr fun i hi => ?_).symm
    rw [hall (answers i) (List.mem_map_of_mem hi)]
    decide
  · refine ⟨hreq, rfl, n, _, rfl, ?_, fun i hi => ?_⟩
    · rw [List.filter_filter]
      refine List.filter_congr fun i _ => ?_
      by_cases he : answers i = 0 <;> simp [he]
    · rw [if_neg (hleft i hi).1, (hleft i hi).2]

/-- CORRECT (all calls): before each call the targets that are still open are listed. -/
theorem closeFile_lists {token : ℕ → Bytes} {tokens : List Bytes} {k : ℕ} (closes : ℕ → ℕ → ℤ)
    (h : Lists token tokens (List.range k)) : ∀ c,
      (closeFile p closes tokens c).requests =
          (stillOpen closes k c).map (fun i => (addrOf p i, closeRequest p (token i))) ∧
        (closeFile p closes tokens c).error = firstOf (closes c) (stillOpen closes k c) ∧
        Lists token (closeFile p closes tokens c).fileTokens (stillOpen closes k (c + 1))
  | 0 => remoteClose_spec (closes 0) h
  | c + 1 => remoteClose_spec (closes (c + 1)) (closeFile_lists closes h c).2.2

/-- What has been answered 0 is not open any more. -/
theorem stillOpen_gone {closes : ℕ → ℕ → ℤ} {k c i : ℕ} (hi : closes c i = 0) :
    ∀ d, i ∉ stillOpen closes k (c + 1 + d)
  | 0 => fun h => of_decide_eq_true (List.mem_filter.mp h).2 hi
  | d + 1 => fun h => stillOpen_gone hi d (List.mem_filter.mp h).1

theorem stillOpen_lt {closes : ℕ → ℕ → ℤ} {k i : ℕ} : ∀ c, i ∈ stillOpen closes k c → i < k
  | 0 => List.mem_range.mp
  | c + 1 => fun h => stillOpen_lt c (List.mem_filter.mp h).1

/-- CORRECT (sessions of a sender): `create_file` sends CREATE to targets 0 to `m - 1` and gets the
    tokens of targets 0 to `k - 1`, which are those that answer 0. Call `c` of `close_file` sends one
    CLOSE for each of them that is still open, with the token its target returned and to that target, in
    order, and returns the first error; all are open before call 0, those whose CLOSE fails are before
    the next, and what has been answered 0 is not open again. -/
theorem close_file_closes (p : SenderParams) (source : Bytes) (opened : ℤ) (opens : ℕ → ℤ × Bytes)
    (links : ℕ → ℤ) (closes : ℕ → ℕ → ℤ) (htoken : ∀ i, (opens i).1 = 0 → (opens i).2 ≠ []) :
    ∃ k m sets,
      (createFile p source opened opens links).requests =
        (List.range m).map (fun i => (addrOf p i, .create (openRequest p source))) ++ sets ∧
      (∀ x ∈ sets, ∃ r, x.2 = .setChain r) ∧
      k ≤ m ∧ m ≤ p.targets.length ∧ (∀ i < m, (opens i).1 = 0 ↔ i < k) ∧
      ∀ c, let call := closeFile p closes (createFile p source opened opens links).fileTokens c
        call.requests =
            (stillOpen closes k c).map (fun i => (addrOf p i, closeRequest p (opens i).2)) ∧
          call.error = firstOf (closes c) (stillOpen closes k c) ∧
          (∀ i ∈ stillOpen closes k c, i < k) ∧
          ∀ i c', closes c i = 0 → c < c' → i ∉ stillOpen closes k c' := by
  obtain ⟨k, m, sets, hkm, hm, hok, htok, hreq, hsets⟩ := createFile_spec (p := p) source
    opened opens links
  have hlists : Lists (fun i => (opens i).2) (createFile p source opened opens links).fileTokens
      (List.range k) := by
    refine ⟨k, _, htok, List.filter_eq_self.mpr fun i hi => ?_, fun _ _ => rfl⟩
    have hik := List.mem_range.mp hi
    exact decide_eq_true (htoken i ((hok i (hik.trans_le hkm)).mpr hik))
  refine ⟨k, m, sets, hreq, hsets, hkm, hm, hok, fun c => ?_⟩
  obtain ⟨hreq', herr, _⟩ := closeFile_lists (p := p) closes hlists c
  refine ⟨hreq', herr, fun i => stillOpen_lt c, fun i c' hi hc => ?_⟩
  obtain ⟨d, rfl⟩ := Nat.exists_eq_add_of_lt hc
  exact Nat.add_right_comm c d 1 ▸ stillOpen_gone hi d

/-- Two targets; the first CLOSE to target 0 fails. -/
theorem close_file_closes_retry :
    let p : SenderParams :=
      { chunkSize := 8192, remoteFileName := [97], parallel := 1, targets := [([1], 1), ([2], 2)] }
    let opens : ℕ → ℤ × Bytes := fun i => (0, [UInt8.ofNat (i + 1)])
    let closes : ℕ → ℕ → ℤ := fun c i => if c = 0 ∧ i = 0 then 5 else 0
    let made := createFile p [] 0 opens fun _ => 0
    (closeFile p closes made.fileTokens 1).requests = [(([1], 1), closeRequest p [1])] ∧
    ∃ k m sets,
      made.requests =
        (List.range m).map (fun i => (addrOf p i, .create (openRequest p []))) ++ sets ∧
      (∀ x ∈ sets, ∃ r, x.2 = .setChain r) ∧
      k ≤ m ∧ m ≤ p.targets.length ∧ (∀ i < m, (opens i).1 = 0 ↔ i < k) ∧
      ∀ c, let call := closeFile p closes made.fileTokens c
        call.requests =
            (stillOpen closes k c).map (fun i => (addrOf p i, closeRequest p (opens i).2)) ∧
          call.error = firstOf (closes c) (stillOpen closes k c) ∧
          (∀ i ∈ stillOpen closes k c, i < k) ∧
          ∀ i c', closes c i = 0 → c < c' → i ∉ stillOpen closes k c' :=
  ⟨by decide +kernel, close_file_closes _ _ _ _ _ _ fun _ _ => List.cons_ne_nil _ _⟩

/-! ### The sender of the system -/

/-- One request of the sender with its answer, or what it does without one. -/
def FileSender.solo (p : SenderParams) (source : Bytes) (f : FileSender) :
    Option ((Addr × Request) × ℤ × Bytes) → Option FileSender
  | some (req, e, token) => if f.request p source = some req then some (f.receive e token) else none
  | none => if f.request p source = none then f.next p else none

/-- The requests of a run of the sender. -/
def requestsOf (ls : List (Option ((Addr × Request) × ℤ × Bytes))) : List (Addr × Request) :=
  ls.reduceOption.map Prod.fst

theorem requestsOf_append (ls ms : List (Option ((Addr × Request) × ℤ × Bytes))) :
    requestsOf (ls ++ ms) = requestsOf ls ++ requestsOf ms := by
  rw [requestsOf, List.reduceOption_append, List.map_append]
  rfl

theorem requestsOf_some (x : (Addr × Request) × ℤ × Bytes)
    (ls : List (Option ((Addr × Request) × ℤ × Bytes))) :
    requestsOf (some x :: ls) = x.1 :: requestsOf ls := by
  rw [requestsOf, List.reduceOption_cons_of_some, List.map_cons]
  rfl

/-- What `create_file` has returned. -/
def FileSender.Returned (f : FileSender) (e : ℤ) (tokens : List Bytes) : Prop :=
  f.createResult = some e ∧ f.fileTokens = tokens

theorem returnCreate_returned (f : FileSender) (e : ℤ) :
    (f.returnCreate e).Returned e f.fileTokens := by
  rw [FileSender.returnCreate]
  split <;> exact ⟨rfl, rfl⟩

/-- The opening phase is the loop of `remote_open`. -/
theorem opening_solo (source : Bytes) (answers : ℕ → ℤ × Bytes) : ∀ (targets : List Addr)
    (tokens : List Bytes) (f : FileSender), f.phase = .opening → f.fileTokens = tokens → p.targets ≠ [] →
    targets = p.targets.drop tokens.length → tokens.length ≤ p.targets.length →
    ∃ ls f', Run.Steps (Run.ofStep (FileSender.solo p source)) f ls f' ∧
      requestsOf ls = (openLoop p source answers tokens.length targets tokens).requests ∧
      ((openLoop p source answers tokens.length targets tokens).error ≠ 0 ∧
          f'.Returned (openLoop p source answers tokens.length targets tokens).error
            (openLoop p source answers tokens.length targets tokens).fileTokens ∨
        (openLoop p source answers tokens.length targets tokens).error = 0 ∧
          f'.phase = .linking 0 ∧
          f'.fileTokens = (openLoop p source answers tokens.length targets tokens).fileTokens)
  | [], tokens, f, hphase, htok, hne, hdrop, hle => by
    have hlen : p.targets.length ≤ tokens.length := List.drop_eq_nil_iff.mp hdrop.symm
    have hreq : f.request p source = none := by
      simp only [FileSender.request, hphase, htok, if_neg (Nat.not_lt.mpr hlen)]
    have hnext : f.solo p source none = some { f with phase := .linking 0 } := by
      simp [FileSender.solo, hreq, FileSender.next, hphase, hne]
    exact ⟨[none], _, .cons hnext (.nil _), rfl, .inr ⟨rfl, rfl, htok⟩⟩
  | a :: targets, tokens, f, hphase, htok, hne, hdrop, hle => by
    have hlt : tokens.length < p.targets.length := by
      have := congrArg List.length hdrop
      rw [List.length_drop, List.length_cons] at this
      omega
    have hat : addrOf p tokens.length = a := by
      have := List.drop_eq_getElem_cons hlt
      rw [← hdrop, List.cons.injEq] at this
      rw [addrOf, List.getElem?_eq_getElem hlt, Option.getD_some, this.1]
    have hrest : targets = p.targets.drop (tokens.length + 1) := by
      rw [← List.drop_drop, ← hdrop]
      rfl
    have hreq : f.request p source = some (a, .create (openRequest p source)) := by
      simp only [FileSender.request, hphase, htok, if_pos hlt, hat]
    have hstep : f.solo p source (some ((a, .create (openRequest p source)),
        answers tokens.length)) = some (f.receive (answers tokens.length).1
          (answers tokens.length).2) := if_pos hreq
    by_cases he : (answers tokens.length).1 = 0
    · have hf : f.receive (answers tokens.length).1 (answers tokens.length).2 =
          { f with fileTokens := tokens ++ [(answers tokens.length).2] } := by
        simp [FileSender.receive, hphase, he, htok]
      have hlen : (tokens ++ [(answers tokens.length).2]).length = tokens.length + 1 :=
        List.length_append
      rw [hf] at hstep
      obtain ⟨ls, f', hrun, hls, hend⟩ := opening_solo source answers targets
        (tokens ++ [(answers tokens.length).2])
        { f with fileTokens := tokens ++ [(answers tokens.length).2] } hphase rfl hne
        (by rw [hlen, hrest]) (by rw [hlen]; exact hlt)
      rw [hlen] at hls hend
      refine ⟨some _ :: ls, f', .cons hstep hrun, ?_, ?_⟩ <;>
        simp only [openLoop, he, ne_eq, not_true_eq_false, if_false]
      · rw [requestsOf_some, hls]
      · exact hend
    · have hf : f.receive (answers tokens.length).1 (answers tokens.length).2 =
          f.returnCreate (answers tokens.length).1 := by
        simp [FileSender.receive, hphase, he]
      rw [hf] at hstep
      refine ⟨[some _], _, .cons hstep (.nil _), ?_, .inl ?_⟩ <;>
        simp only [openLoop, he, ne_eq, not_false_eq_true, if_true]
      · rfl
      · exact ⟨trivial, htok ▸ returnCreate_returned f _⟩

theorem linkTargets_end {tokens : List Bytes} {i : ℕ} (h : tokens.length ≤ i) :
    linkTargets p tokens i = [] := by
  rw [linkTargets, List.map_eq_nil_iff]
  cases p.sendMethod with
  | chain => exact if_neg (by omega)
  | tree => exact if_neg (by omega)

/-- The linking phase is the loop of `set_send_chain` or `set_send_tree`. -/
theorem linking_solo (source : Bytes) (answers : ℕ → ℤ) : ∀ (fuel i : ℕ) (f : FileSender),
    f.phase = .linking i → f.fileTokens.length ≤ i + fuel →
    ∃ ls f', Run.Steps (Run.ofStep (FileSender.solo p source)) f ls f' ∧
      requestsOf ls = (linkLoop p f.fileTokens answers fuel i).2 ∧
      f'.Returned (linkLoop p f.fileTokens answers fuel i).1 f.fileTokens := by
  -- the loop has ended
  have hdone : ∀ (i : ℕ) (f : FileSender), f.phase = .linking i → linkTargets p f.fileTokens i = [] →
      ∃ ls f', Run.Steps (Run.ofStep (FileSender.solo p source)) f ls f' ∧ requestsOf ls = [] ∧
        f'.Returned 0 f.fileTokens := by
    intro i f hphase hend
    have hreq : f.request p source = none := by simp [FileSender.request, hphase, hend]
    have hnext : f.solo p source none = some (f.returnCreate 0) := by
      simp [FileSender.solo, hreq, FileSender.next, hphase]
    exact ⟨[none], _, .cons hnext (.nil _), rfl, returnCreate_returned f 0⟩
  intro fuel
  induction fuel with
  | zero => exact fun i f hphase hle => hdone i f hphase (linkTargets_end hle)
  | succ fuel ih =>
    intro i f hphase hle
    by_cases hend : linkTargets p f.fileTokens i = []
    · simp only [linkLoop, if_pos hend]
      exact hdone i f hphase hend
    have hreq : f.request p source = some (addrOf p i,
        .setChain ⟨tokenOf f.fileTokens i, linkTargets p f.fileTokens i⟩) := by
      simp [FileSender.request, hphase, hend]
    have hstep : f.solo p source (some ((addrOf p i,
        .setChain ⟨tokenOf f.fileTokens i, linkTargets p f.fileTokens i⟩), answers i, [])) =
          some (f.receive (answers i) []) := if_pos hreq
    by_cases he : answers i = 0
    · have hf : f.receive (answers i) [] = { f with phase := .linking (i + 1) } := by
        simp [FileSender.receive, hphase, he]
      rw [hf] at hstep
      obtain ⟨ls, f', hrun, hls, hret⟩ := ih (i + 1) { f with phase := .linking (i + 1) } rfl
        (by simp only; omega)
      refine ⟨some _ :: ls, f', .cons hstep hrun, ?_, ?_⟩ <;>
        simp only [linkLoop, if_neg hend, he, ne_eq, not_true_eq_false, if_false]
      · rw [requestsOf_some, hls]
      · exact hret
    · have hf : f.receive (answers i) [] = f.returnCreate (answers i) := by
        simp [FileSender.receive, hphase, he]
      rw [hf] at hstep
      refine ⟨[some _], _, .cons hstep (.nil _), ?_, ?_⟩ <;>
        simp only [linkLoop, if_neg hend, he, ne_eq, not_false_eq_true, if_true]
      · rfl
      · exact returnCreate_returned f _

/-- CORRECT (create): from its opening phase the sender of the system does what `create_file` does. -/
theorem create_solo (opens : ℕ → ℤ × Bytes) (links : ℕ → ℤ) (f : FileSender)
    (hphase : f.phase = .opening) (htok : f.fileTokens = []) :
    ∃ ls f', Run.Steps (Run.ofStep (FileSender.solo p source)) f ls f' ∧
      requestsOf ls = (createFile p source 0 opens links).requests ∧
      f'.Returned (createFile p source 0 opens links).error
        (createFile p source 0 opens links).fileTokens := by
  by_cases hne : p.targets = []
  · have hreq : f.request p source = none := by simp [FileSender.request, hphase, hne]
    have hnext : f.solo p source none = some (f.returnCreate EINVAL) := by
      simp [FileSender.solo, hreq, FileSender.next, hphase, hne]
    refine ⟨[none], _, .cons hnext (.nil _), ?_, ?_⟩ <;>
      simp only [createFile, remoteOpen, if_pos hne, ne_eq, not_true_eq_false, if_false,
        if_pos (show ¬(EINVAL : ℤ) = 0 by decide)]
    · rfl
    · exact htok ▸ returnCreate_returned f _
  obtain ⟨ls, f', hrun, hls, hopen⟩ := opening_solo source opens p.targets [] f hphase htok hne
    rfl (Nat.zero_le _)
  simp only [createFile, remoteOpen, if_neg hne, ne_eq, not_true_eq_false, if_false]
  rw [List.length_nil] at hls hopen
  generalize openLoop p source opens 0 p.targets [] = d at hls hopen ⊢
  rcases hopen with ⟨he, hret⟩ | ⟨he, hphase', htok'⟩
  · rw [if_pos he]
    exact ⟨ls, f', hrun, hls, hret⟩
  · obtain ⟨ms, f'', hrun', hms, hret⟩ := linking_solo source links f'.fileTokens.length 0
      f' hphase' (by omega)
    rw [htok'] at hms hret
    rw [if_neg (not_not.mpr he)]
    exact ⟨ls ++ ms, f'', hrun.append hrun', by rw [requestsOf_append, hls, hms], hret⟩

/-- The closing phase is the loop of `remote_close`. -/
theorem closing_solo (answers : ℕ → ℤ) : ∀ (tokens before : List Bytes) (firstError : ℤ)
    (f : FileSender), f.phase = .closing before.length firstError → f.fileTokens = before ++ tokens →
    ∃ ls f', Run.Steps (Run.ofStep (FileSender.solo p source)) f ls f' ∧
      requestsOf ls = (closeLoop p answers before.length tokens firstError).requests ∧
      f'.phase = .closed ∧
      f'.closeResult = some (closeLoop p answers before.length tokens firstError).error ∧
      f'.fileTokens = before ++ (closeLoop p answers before.length tokens firstError).fileTokens
  | [], before, firstError, f, hphase, htok => by
    have hreq : f.request p source = none := by simp [FileSender.request, hphase, htok]
    have hnext : f.solo p source none =
        some { f with closeResult := some firstError, error := firstError, phase := .closed } := by
      simp [FileSender.solo, hreq, FileSender.next, hphase, htok]
    exact ⟨[none], _, .cons hnext (.nil _), rfl, rfl, rfl, htok⟩
  | token :: tokens, before, firstError, f, hphase, htok => by
    have hlt : before.length < f.fileTokens.length := by
      rw [htok, List.length_append, List.length_cons]
      omega
    have hat : tokenOf f.fileTokens before.length = token := by
      simp [tokenOf, htok]
    have hlen : ∀ t : Bytes, (before ++ [t]).length = before.length + 1 := fun t =>
      List.length_append
    by_cases hblank : token = []
    · have hreq : f.request p source = none := by
        simp [FileSender.request, hphase, hat, hblank]
      have hnext : f.solo p source none =
          some { f with phase := .closing (before.length + 1) firstError } := by
        simp [FileSender.solo, hreq, FileSender.next, hphase, hlt]
      obtain ⟨ls, f', hrun, hls, hend, hres, htok'⟩ := closing_solo answers tokens
        (before ++ [token]) firstError { f with phase := .closing (before.length + 1) firstError }
        (by rw [hlen]) (by rw [htok, List.append_assoc]; rfl)
      rw [hlen] at hls hres htok'
      refine ⟨none :: ls, f', .cons hnext hrun, ?_, hend, ?_, ?_⟩ <;>
        simp only [closeLoop, if_pos hblank]
      · exact hls
      · exact hres
      · rw [htok', List.append_assoc]
        rfl
    · have hreq : f.request p source =
          some (addrOf p before.length, closeRequest p token) := by
        simp [FileSender.request, hphase, hat, hblank, hlt, closeRequest]
      let e := answers before.length
      have hstep : f.solo p source
          (some ((addrOf p before.length, closeRequest p token), e, [])) = some (f.receive e []) :=
        if_pos hreq
      have hset : (f.receive e []).fileTokens =
          (before ++ [if e = 0 then [] else token]) ++ tokens := by
        by_cases he : e = 0 <;> simp [FileSender.receive, hphase, htok, he]
      obtain ⟨ls, f', hrun, hls, hend, hres, htok'⟩ := closing_solo answers tokens
        (before ++ [if e = 0 then [] else token]) (if e ≠ 0 ∧ firstError = 0 then e else firstError)
        (f.receive e []) (by simp [FileSender.receive, hphase]) hset
      rw [hlen] at hls hres htok'
      refine ⟨some _ :: ls, f', .cons hstep hrun, ?_, hend, ?_, ?_⟩ <;>
        simp only [closeLoop, if_neg hblank]
      · rw [requestsOf_some, hls]
      · exact hres
      · rw [htok', List.append_assoc]
        rfl

end Fcopy
