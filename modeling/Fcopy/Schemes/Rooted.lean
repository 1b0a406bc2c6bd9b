import Mathlib.Data.Set.Basic
import Mathlib.Logic.ExistsUnique

/-! Trees, as graphs with a root.

    A walk starts at the root; its last node comes first in the list. A graph is a tree on `nodes` when
    nothing leads to the root, exactly one edge leads to any other node, and edges go up in rank:

        root ──▶ a ──▶ c         the walk to c:  [c, a, root]
          └────▶ b

    Each node has exactly one walk then (`IsTree.existsUnique_walk`), and no more edges on it than its
    rank (`IsTree.length_le`). -/

namespace Rooted

variable {N : Type*}

inductive Walk (next : N → N → Prop) (root : N) : List N → Prop
  | root : Walk next root [root]
  | step {n m : N} {ns : List N} (h : Walk next root (n :: ns)) (hnm : next n m) :
      Walk next root (m :: n :: ns)

structure IsTree (next : N → N → Prop) (root : N) (nodes : Set N) (rank : N → ℕ) : Prop where
  root_mem : root ∈ nodes
  mem : ∀ {n m}, next n m → n ∈ nodes ∧ m ∈ nodes
  rank_lt : ∀ {n m}, next n m → rank n < rank m
  orphan : ∀ n, ¬next n root
  parent : ∀ {m}, m ∈ nodes → m ≠ root → ∃! n, next n m

variable {next next' : N → N → Prop} {root m : N} {nodes : Set N} {rank : N → ℕ} {ns ms : List N}

theorem Walk.mono (hsub : ∀ n m, next n m → next' n m) (h : Walk next root ns) :
    Walk next' root ns := by
  induction h with
  | root => exact .root
  | step _ hnm ih => exact ih.step (hsub _ _ hnm)

namespace IsTree

theorem walk_mem (ht : IsTree next root nodes rank) (h : Walk next root (m :: ns)) : m ∈ nodes := by
  cases h with
  | root => exact ht.root_mem
  | step _ hnm => exact (ht.mem hnm).2

theorem walk_exists (ht : IsTree next root nodes rank) (hm : m ∈ nodes) :
    ∃ ns, Walk next root (m :: ns) := by
  -- by rank: the walk to the one node before, and the edge from there
  induction hr : rank m using Nat.strong_induction_on generalizing m with
  | _ r ih =>
    rcases eq_or_ne m root with rfl | hne
    · exact ⟨[], .root⟩
    · obtain ⟨n, hnm, _⟩ := ht.parent hm hne
      obtain ⟨ns, hns⟩ := ih (rank n) (hr ▸ ht.rank_lt hnm) (ht.mem hnm).1 rfl
      exact ⟨n :: ns, hns.step hnm⟩

theorem walk_unique (ht : IsTree next root nodes rank) :
    ∀ {ns ms : List N} {m : N}, Walk next root (m :: ns) → Walk next root (m :: ms) → ns = ms
  | _, _, _, .root, .root => rfl
  | _, _, _, .root, .step _ hnm => absurd hnm (ht.orphan _)
  | _, _, _, .step _ hnm, .root => absurd hnm (ht.orphan _)
  | _, _, m, .step h hnm, .step h' hnm' => by
    have hne : m ≠ root := by
      rintro rfl
      exact ht.orphan _ hnm
    obtain rfl := (ht.parent (ht.mem hnm).2 hne).unique hnm hnm'
    rw [ht.walk_unique h h']

/-- CORRECT (tree): exactly one walk leads to each node. -/
theorem existsUnique_walk (ht : IsTree next root nodes rank) (hm : m ∈ nodes) :
    ∃! ns, Walk next root (m :: ns) := by
  obtain ⟨ns, hns⟩ := ht.walk_exists hm
  exact ⟨ns, hns, fun _ h => ht.walk_unique h hns⟩

theorem length_le (ht : IsTree next root nodes rank) :
    ∀ {ns : List N} {m : N}, Walk next root (m :: ns) → ns.length ≤ rank m
  | _, _, .root => Nat.zero_le _
  | _, _, .step h hnm => by
    have hlen := ht.length_le h
    have hlt := ht.rank_lt hnm
    simp only [List.length_cons]
    omega

end IsTree

end Rooted
