import Mathlib.Data.Finset.Insert
import Fcopy.Schemes.Relay

/-! Depth-first scans with a limit.

    A node is a leaf, which holds a value or an error, or a branch with its children and possibly an
    error behind the last of them. `items` lists what a scan meets, in order; a branch inside too many
    others is an error. Where the list has none, all that is reached from the root is in it, and no path
    from the root is longer than the limit (`reach_ok`), although the graph may have cycles.

    `collect` goes through such a list, takes values with distinct keys, and stops at the first error or
    at a key it has seen:

        ok a   ok b   ok c   error e   ok d
        └───── taken ─────┘  stops here -/

namespace Scan
open Relay

variable {N ε α κ : Type*}

inductive Node (N ε α : Type*) where
  | branch (children : List N) (error : Option ε)
  | leaf (a : Except ε α)

/-! ### The scan -/

section
variable (look : N → Node N ε α) (deep : N → ε)

/-- What a scan from a node meets, with that many branches at most inside each other. -/
def items : ℕ → N → List (Except ε α)
  | 0, n =>
    match look n with
    | .leaf a => [a]
    | .branch _ _ => [.error (deep n)]
  | left + 1, n =>
    match look n with
    | .leaf a => [a]
    | .branch ns e => ns.flatMap (items left) ++ (e.map .error).toList

def Child (n m : N) : Prop := ∃ ns e, look n = .branch ns e ∧ m ∈ ns

end

variable {look : N → Node N ε α} {deep : N → ε} {left k : ℕ} {n m : N}

theorem items_leaf {a : Except ε α} (h : look n = .leaf a) (left : ℕ) : items look deep left n = [a] := by
  cases left <;> simp only [items, h]

theorem items_branch {ns : List N} {e : Option ε} (h : look n = .branch ns e) (left : ℕ) :
    items look deep (left + 1) n = ns.flatMap (items look deep left) ++ (e.map .error).toList := by
  simp only [items, h]

/-- A scan without errors enters every branch, within the limit, and takes every leaf. -/
theorem reach_ok (hp : Path (Child look) k n m) :
    ∀ {left : ℕ}, (∀ e, .error e ∉ items look deep left n) → k ≤ left ∧
      ((∃ a, look m = .leaf (.ok a) ∧ .ok a ∈ items look deep left n) ∨
        ∃ ns, look m = .branch ns none ∧ k < left) := by
  induction hp with
  | nil n =>
    intro left hok
    refine ⟨Nat.zero_le left, ?_⟩
    cases hlook : look n with
    | leaf a =>
      rw [items_leaf hlook] at hok ⊢
      cases a with
      | error e => exact absurd List.mem_cons_self (hok e)
      | ok a => exact .inl ⟨a, rfl, List.mem_cons_self⟩
    | branch ns e =>
      cases left with
      | zero => exact absurd (by simp [items, hlook]) (hok (deep n))
      | succ left =>
        rw [items_branch hlook] at hok
        cases e with
        | none => exact .inr ⟨ns, rfl, left.succ_pos⟩
        | some e => exact absurd (List.mem_append_right _ List.mem_cons_self) (hok e)
  | @cons k n m p hnm _ ih =>
    intro left hok
    obtain ⟨ns, e, hlook, hm⟩ := hnm
    cases left with
    | zero => exact absurd (by simp [items, hlook]) (hok (deep n))
    | succ left =>
      rw [items_branch hlook] at hok ⊢
      have hsub : ∀ x ∈ items look deep left m,
          x ∈ ns.flatMap (items look deep left) ++ (e.map Except.error).toList := fun x hx =>
        List.mem_append_left _ (List.mem_flatMap.mpr ⟨m, hm, hx⟩)
      obtain ⟨hle, hend⟩ := ih fun e he => hok e (hsub _ he)
      refine ⟨Nat.succ_le_succ hle, ?_⟩
      rcases hend with ⟨a, ha, hmem⟩ | ⟨ms, hms, hlt⟩
      · exact .inl ⟨a, ha, hsub _ hmem⟩
      · exact .inr ⟨ms, hms, Nat.succ_lt_succ hlt⟩

/-- What a scan takes is reached within the limit. -/
theorem mem_items_ok {a : α} : ∀ {left : ℕ} {n : N}, .ok a ∈ items look deep left n →
    ∃ k m, k ≤ left ∧ Path (Child look) k n m ∧ look m = .leaf (.ok a) := by
  intro left
  induction left with
  | zero =>
    intro n h
    cases hlook : look n with
    | leaf b =>
      rw [items_leaf hlook] at h
      exact ⟨0, n, Nat.le_refl 0, .nil n, by rw [hlook, List.mem_singleton.mp h]⟩
    | branch ns e => simp [items, hlook] at h
  | succ left ih =>
    intro n h
    cases hlook : look n with
    | leaf b =>
      rw [items_leaf hlook] at h
      exact ⟨0, n, Nat.zero_le _, .nil n, by rw [hlook, List.mem_singleton.mp h]⟩
    | branch ns e =>
      rw [items_branch hlook] at h
      rcases List.mem_append.mp h with h | h
      · obtain ⟨m, hm, h⟩ := List.mem_flatMap.mp h
        obtain ⟨k, p, hk, hpath, hp⟩ := ih h
        exact ⟨k + 1, p, Nat.succ_le_succ hk, .cons ⟨ns, e, hlook, hm⟩ hpath, hp⟩
      · cases e <;> simp at h

/-! ### The collection -/

section
variable [DecidableEq κ] (key : α → κ) (dup : α → ε)

/-- The error that stopped it, and the keys and values up to there. -/
def collect : List (Except ε α) → Finset κ → List α → Option ε × Finset κ × List α
  | [], keys, as => (none, keys, as)
  | .error e :: _, keys, as => (some e, keys, as)
  | .ok a :: rest, keys, as =>
    if key a ∈ keys then (some (dup a), keys, as) else collect rest (insert (key a) keys) (as ++ [a])

variable {key dup}

theorem collect_append (ys : List (Except ε α)) : ∀ (xs : List (Except ε α)) (keys : Finset κ)
    (as : List α), collect key dup (xs ++ ys) keys as =
      match collect key dup xs keys as with
      | (none, keys, as) => collect key dup ys keys as
      | stopped => stopped
  | [], _, _ => rfl
  | .error _ :: _, _, _ => rfl
  | .ok a :: xs, keys, as => by
    simp only [List.cons_append, collect]
    split
    · rfl
    · exact collect_append ys xs _ _

/-- What is collected is a run of values with distinct new keys at the start of the list; and nothing is
    thrown only if that is the whole list. -/
theorem collect_spec (key : α → κ) (dup : α → ε) : ∀ (xs : List (Except ε α)) (keys : Finset κ)
    (as : List α), ∃ bs rest,
      xs = bs.map .ok ++ rest ∧ (bs.map key).Nodup ∧ (∀ b ∈ bs, key b ∉ keys) ∧
      (collect key dup xs keys as).2.2 = as ++ bs ∧
      ((collect key dup xs keys as).1 = none → rest = [])
  | [], keys, as => ⟨[], [], rfl, .nil, by simp, (List.append_nil as).symm, fun _ => rfl⟩
  | .error e :: xs, keys, as =>
    ⟨[], .error e :: xs, rfl, .nil, by simp, (List.append_nil as).symm, fun h => by cases h⟩
  | .ok a :: xs, keys, as => by
    simp only [collect]
    split
    · exact ⟨[], .ok a :: xs, rfl, .nil, by simp, (List.append_nil as).symm, fun h => by cases h⟩
    · rename_i hnew
      obtain ⟨bs, rest, rfl, hnodup, hkeys, hvalues, hend⟩ :=
        collect_spec key dup xs (insert (key a) keys) (as ++ [a])
      refine ⟨a :: bs, rest, rfl, List.nodup_cons.mpr ⟨fun hmem => ?_, hnodup⟩, fun b hb => ?_, ?_, hend⟩
      · obtain ⟨b, hb, heq⟩ := List.mem_map.mp hmem
        exact hkeys b hb (heq ▸ Finset.mem_insert_self _ _)
      · rcases List.mem_cons.mp hb with rfl | hb
        · exact hnew
        · exact fun hmem => hkeys b hb (Finset.mem_insert_of_mem hmem)
      · rw [hvalues, List.append_assoc]
        rfl

/-- A list of values with distinct new keys is collected as it is. -/
theorem collect_ok : ∀ {bs : List α} {keys : Finset κ} {as : List α}, (bs.map key).Nodup →
    (∀ b ∈ bs, key b ∉ keys) → (collect key dup (bs.map .ok) keys as).1 = none ∧
      (collect key dup (bs.map .ok) keys as).2.2 = as ++ bs
  | [], _, as, _, _ => ⟨rfl, (List.append_nil as).symm⟩
  | b :: bs, keys, as, hnodup, hkeys => by
    rw [List.map_cons, List.nodup_cons] at hnodup
    have hrest : ∀ c ∈ bs, key c ∉ insert (key b) keys := by
      intro c hc hmem
      rcases Finset.mem_insert.mp hmem with heq | hmem
      · exact hnodup.1 (heq ▸ List.mem_map_of_mem hc)
      · exact hkeys c (List.mem_cons_of_mem _ hc) hmem
    simp only [List.map_cons, collect, if_neg (hkeys b List.mem_cons_self)]
    rw [List.append_cons as b bs]
    exact collect_ok hnodup.2 hrest

end

end Scan
