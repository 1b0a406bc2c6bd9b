import Fcopy.Schemes.Rooted
import Fcopy.Client.CloseCalls

/-! The topology that `set_send_chain` and `set_send_tree` set up.

    Target `i` gets the next one, or the next two of a heap:

        chain:  0 ──▶ 1 ──▶ 2 ──▶ 3          tree:  0 ──▶ 1 ──▶ 3
                                                      └────▶ 2

    Either way target `j` is given to `(j - 1) / arity` and to nobody else (`mem_linksOf`), so the
    targets are a tree with root 0 (`targets_tree`). -/

namespace Fcopy
open Rooted

/-- The targets a request of the method can carry. -/
def SendMethod.arity : SendMethod → ℕ
  | .chain => 1
  | .tree => 2

/-- The requests the method sends for `n` targets. -/
def SendMethod.requestCount : SendMethod → ℕ → ℕ
  | .chain, n => n - 1
  | .tree, n => n / 2

/-- Target `i` of `n` forwards to target `j`. -/
def Forwards (m : SendMethod) (n i j : ℕ) : Prop := j ∈ linksOf m n i

/-- The request of the loop for target `i`. -/
def linkRequest (p : SenderParams) (tokens : List Bytes) (i : ℕ) : Addr × Request :=
  (addrOf p i, .setChain ⟨tokenOf tokens i, linkTargets p tokens i⟩)

variable {m : SendMethod} {n i j : ℕ} {p : SenderParams} {tokens : List Bytes}

/-! ### Links -/

/-- The places of a request, cut off at the last target. -/
theorem linksOf_eq (m : SendMethod) (n i : ℕ) :
    linksOf m n i = (List.range' (m.arity * i + 1) m.arity).filter (· < n) := by
  cases m with
  | chain => simp [linksOf, SendMethod.arity, List.filter_cons]
  | tree =>
    simp only [linksOf, SendMethod.arity, Nat.mul_comm i 2, List.range'_succ, List.range'_zero,
      List.filter_cons, List.filter_nil, decide_eq_true_eq]
    split
    · split <;> rfl
    · rw [if_neg (by omega)]

theorem mem_linksOf : j ∈ linksOf m n i ↔ 1 ≤ j ∧ j < n ∧ i = (j - 1) / m.arity := by
  rw [linksOf_eq, List.mem_filter, List.mem_range'_1, decide_eq_true_eq]
  cases m <;> simp only [SendMethod.arity] <;> omega

theorem linksOf_eq_nil : linksOf m n i = [] ↔ m.requestCount n ≤ i := by
  cases m with
  | chain =>
    simp only [linksOf, SendMethod.requestCount]
    split <;> simp <;> omega
  | tree =>
    simp only [linksOf, SendMethod.requestCount]
    split
    · split <;> simp <;> omega
    · simp
      omega

theorem requestCount_le (m : SendMethod) (n : ℕ) : m.requestCount n ≤ n := by
  cases m <;> simp only [SendMethod.requestCount] <;> omega

theorem linkTargets_eq_nil : linkTargets p tokens i = [] ↔ p.sendMethod.requestCount tokens.length ≤ i := by
  rw [linkTargets, List.map_eq_nil_iff, linksOf_eq_nil]

/-- The first requests fill the places from target 1 on. -/
theorem flatMap_places (a : ℕ) : ∀ k : ℕ,
    (List.range k).flatMap (fun i => List.range' (a * i + 1) a) = List.range' 1 (a * k)
  | 0 => rfl
  | k + 1 => by
    rw [List.range_succ, List.flatMap_append, flatMap_places a k, List.flatMap_singleton, Nat.mul_succ,
      Nat.add_comm (a * k) 1, List.range'_append_1]

theorem filter_lt_range' {n start len : ℕ} (hstart : start ≤ n) (hlen : n ≤ start + len) :
    (List.range' start len).filter (· < n) = List.range' start (n - start) := by
  have hsplit : List.range' start len =
      List.range' start (n - start) ++ List.range' n (start + len - n) := by
    have happ := List.range'_append_1 (s := start) (m := n - start) (n := start + len - n)
    rw [show start + (n - start) = n by omega, show n - start + (start + len - n) = len by omega] at happ
    exact happ.symm
  rw [hsplit, List.filter_append, List.filter_eq_self.mpr, List.filter_eq_nil_iff.mpr, List.append_nil]
  · intro j hj
    have := (List.mem_range'_1.mp hj).1
    simpa using this
  · intro j hj
    have := (List.mem_range'_1.mp hj).2
    simp only [decide_eq_true_eq]
    omega

/-- All requests together: each target but the first, once and in order. -/
theorem flatMap_linksOf (m : SendMethod) {n : ℕ} (hn : 1 ≤ n) :
    (List.range (m.requestCount n)).flatMap (linksOf m n) = List.range' 1 (n - 1) := by
  have henough : n ≤ 1 + m.arity * m.requestCount n := by
    cases m <;> simp only [SendMethod.arity, SendMethod.requestCount] <;> omega
  rw [← filter_lt_range' hn henough, ← flatMap_places, List.filter_flatMap]
  exact List.flatMap_congr fun i _ => linksOf_eq m n i

/-! ### The tree -/

theorem targets_tree (m : SendMethod) {n : ℕ} (hn : 1 ≤ n) :
    IsTree (Forwards m n) 0 {j | j < n} id where
  root_mem := hn
  mem := by
    intro i j h
    obtain ⟨_, hj, hi⟩ := mem_linksOf.mp h
    have := Nat.div_le_self (j - 1) m.arity
    exact ⟨show i < n by omega, hj⟩
  rank_lt := by
    intro i j h
    obtain ⟨hpos, _, hi⟩ := mem_linksOf.mp h
    have := Nat.div_le_self (j - 1) m.arity
    exact show i < j by omega
  orphan := fun i h => absurd (mem_linksOf.mp h).1 (Nat.lt_irrefl 0)
  parent := by
    intro j hj hne
    exact ⟨(j - 1) / m.arity, mem_linksOf.mpr ⟨Nat.pos_of_ne_zero hne, hj, rfl⟩,
      fun i h => (mem_linksOf.mp h).2.2⟩

/-! ### Requests -/

/-- The loop asks the targets from `i` on, up to an error; without one it asks all that forward. -/
theorem linkLoop_spec (tokens : List Bytes) (answers : ℕ → ℤ) : ∀ fuel i, tokens.length ≤ i + fuel →
    ∃ k, (linkLoop p tokens answers fuel i).2 = (List.range' i k).map (linkRequest p tokens) ∧
      ((linkLoop p tokens answers fuel i).1 = 0 ↔
        ∀ j, i ≤ j → j < p.sendMethod.requestCount tokens.length → answers j = 0) ∧
      ((linkLoop p tokens answers fuel i).1 = 0 → k = p.sendMethod.requestCount tokens.length - i) := by
  have hdone : ∀ i, linkTargets p tokens i = [] → ∃ k, [] = (List.range' i k).map (linkRequest p tokens) ∧
      ((0 : ℤ) = 0 ↔ ∀ j, i ≤ j → j < p.sendMethod.requestCount tokens.length → answers j = 0) ∧
      ((0 : ℤ) = 0 → k = p.sendMethod.requestCount tokens.length - i) := by
    intro i hnil
    have hle := linkTargets_eq_nil.mp hnil
    exact ⟨0, rfl, iff_of_true rfl fun j hij hj => by omega, fun _ => by omega⟩
  intro fuel
  induction fuel with
  | zero => exact fun i hle => hdone i (linkTargets_end hle)
  | succ fuel ih =>
    intro i hle
    rw [linkLoop]
    split
    · exact hdone i ‹_›
    rename_i hne
    have hlt := Nat.lt_of_not_le (mt linkTargets_eq_nil.mpr hne)
    by_cases he : answers i = 0
    · obtain ⟨k, hreq, herror, hk⟩ := ih (i + 1) (by omega)
      simp only [if_neg (not_not.mpr he)]
      refine ⟨k + 1, ?_, herror.trans ⟨fun h j hij hj => ?_, fun h j hij hj => h j (by omega) hj⟩,
        fun h => ?_⟩
      · rw [hreq, List.range'_succ, List.map_cons]
        rfl
      · rcases hij.eq_or_lt with rfl | hij
        · exact he
        · exact h j hij hj
      · have := hk h
        omega
    · simp only [if_pos (show answers i ≠ 0 from he)]
      exact ⟨1, rfl, iff_of_false he fun h => he (h i le_rfl hlt), fun h => absurd h he⟩

/-- CORRECT (tree): where all requests succeed, the targets asked are `senders`, each with its own token.
    Together the requests carry each target but the first once, with its address and its token, and ask
    a smaller one; and exactly one walk leads from target 0 to each target. -/
theorem set_send_spans (p : SenderParams) (tokens : List Bytes) (answers : ℕ → ℤ)
    (hlen : tokens.length = p.targets.length) (hn : 1 ≤ p.targets.length)
    (hok : ∀ i < p.targets.length, answers i = 0) :
    ∃ senders : List ℕ, ∃ links : ℕ → List ℕ,
      linkLoop p tokens answers tokens.length 0 =
        (0, senders.map fun i =>
          (addrOf p i, .setChain ⟨tokenOf tokens i, (links i).map (chainTarget p tokens)⟩)) ∧
      senders.Pairwise (· < ·) ∧
      senders.flatMap links = List.range' 1 (p.targets.length - 1) ∧
      (∀ i ∈ senders, ∀ j ∈ links i, i < j) ∧
      ∀ j < p.targets.length, ∃! ns, Walk (fun i j => i ∈ senders ∧ j ∈ links i) 0 (j :: ns) := by
  rw [← hlen] at hn hok ⊢
  have hmem : ∀ i j, i ∈ List.range (p.sendMethod.requestCount tokens.length) ∧
      j ∈ linksOf p.sendMethod tokens.length i ↔ Forwards p.sendMethod tokens.length i j := by
    intro i j
    refine and_iff_right_of_imp fun hj => List.mem_range.mpr (Nat.lt_of_not_le fun hle => ?_)
    rw [linksOf_eq_nil.mpr hle] at hj
    exact List.not_mem_nil hj
  refine ⟨List.range (p.sendMethod.requestCount tokens.length),
    linksOf p.sendMethod tokens.length, ?_, List.pairwise_lt_range, flatMap_linksOf _ hn,
    fun i _ j hj => (targets_tree _ hn).rank_lt hj, fun j hj => ?_⟩
  · obtain ⟨k, hreq, herror, hk⟩ := linkLoop_spec (p := p) tokens answers tokens.length 0 (by omega)
    have hzero := herror.mpr fun j _ hj => hok j (hj.trans_le (requestCount_le _ _))
    rw [hk hzero, Nat.sub_zero, ← List.range_eq_range'] at hreq
    exact Prod.ext hzero hreq
  · simp only [hmem]
    exact (targets_tree _ hn).existsUnique_walk hj

/-- Four targets, as a tree. -/
theorem set_send_spans_four :
    let p : SenderParams :=
      { chunkSize := 8192, remoteFileName := [97], parallel := 1, sendMethod := .tree,
        targets := [([1], 1), ([2], 2), ([3], 3), ([4], 4)] }
    let tokens : List Bytes := [[48], [49], [50], [51]]
    linkLoop p tokens (fun _ => 0) 4 0 =
      (0, [(([1], 1), .setChain ⟨[48], [⟨[2], 2, [49]⟩, ⟨[3], 3, [50]⟩]⟩),
        (([2], 2), .setChain ⟨[49], [⟨[4], 4, [51]⟩]⟩)]) ∧
    ∃ senders : List ℕ, ∃ links : ℕ → List ℕ,
      linkLoop p tokens (fun _ => 0) 4 0 =
        (0, senders.map fun i =>
          (addrOf p i, .setChain ⟨tokenOf tokens i, (links i).map (chainTarget p tokens)⟩)) ∧
      senders.Pairwise (· < ·) ∧
      senders.flatMap links = List.range' 1 3 ∧
      (∀ i ∈ senders, ∀ j ∈ links i, i < j) ∧
      ∀ j < 4, ∃! ns, Walk (fun i j => i ∈ senders ∧ j ∈ links i) 0 (j :: ns) :=
  ⟨by decide, set_send_spans _ _ _ rfl (by decide) fun _ _ => rfl⟩

end Fcopy
