import Mathlib.Data.Nat.Basic
import Mathlib.Logic.Relation
import Mathlib.Data.Set.Finite.Lattice

/-! Acknowledgements collected along a graph.

    A node that is asked to do something passes the request on to the nodes behind it with one hop
    less, and acknowledges when it is done and all of them have acknowledged. `Covered b n` is the tree
    of acknowledgements below a node `n` asked with `b` hops. It is finite, so everything reachable
    from `n` is done (`Covered.reach`), no path is longer than the hops allow (`Covered.path`), and
    nothing reachable lies on a cycle (`Covered.acyclic`).

    The other way round, a node that refuses does so for a cause of its own or because a node behind it
    has refused (`Blamed`), so there is a path to the cause, within the hops (`Blamed.path`).

    Where each hop uses up one of a node's hops and reaches a node that has at least one left, a path is
    shorter than the hops of its start (`Path.length_le`); and where a node has finitely many nodes
    behind it, it reaches finitely many (`finite_reach`), whatever the graph. -/

namespace Relay
open Relation

variable {N : Type*} {next : N → N → Prop} {done : N → Prop}

inductive Covered (next : N → N → Prop) (done : N → Prop) : ℕ → N → Prop
  | node {b : ℕ} {n : N} (hn : done n) (hb : ∀ m, next n m → 1 < b)
      (hm : ∀ m, next n m → Covered next done (b - 1) m) : Covered next done b n

/-- The error `e` of a node asked with `b` hops has its cause there, or behind it. -/
inductive Blamed {E : Type*} (next : N → N → Prop) (cause : ℕ → N → E → Prop) : ℕ → N → E → Prop
  | here {b : ℕ} {n : N} {e : E} (h : cause b n e) : Blamed next cause b n e
  | hop {b : ℕ} {n m : N} {e : E} (hb : 1 < b) (hnm : next n m) (h : Blamed next cause (b - 1) m e) :
      Blamed next cause b n e

/-- A path of `l` hops. -/
inductive Path (next : N → N → Prop) : ℕ → N → N → Prop
  | nil (n : N) : Path next 0 n n
  | cons {l : ℕ} {n m p : N} (hnm : next n m) (hmp : Path next l m p) : Path next (l + 1) n p

theorem Covered.mono {done' : N → Prop} (hd : ∀ n, done n → done' n) {b : ℕ} {n : N}
    (h : Covered next done b n) : Covered next done' b n := by
  induction h with
  | node hn hb _ ih => exact .node (hd _ hn) hb ih

theorem Covered.reach {b : ℕ} {n m : N} (h : Covered next done b n) (hr : ReflTransGen next n m) :
    done m := by
  induction h with
  | node hn _ _ ih =>
    rcases hr.cases_head with rfl | ⟨p, hnp, hpm⟩
    · exact hn
    · exact ih p hnp hpm

theorem Covered.path {b l : ℕ} {n m : N} (h : Covered next done b n) (hp : Path next l n m) :
    l < max b 1 := by
  induction h generalizing l with
  | node _ hb _ ih =>
    cases hp with
    | nil => omega
    | cons hnp hpm =>
      have h₁ := hb _ hnp
      have h₂ := ih _ hnp hpm
      omega

theorem Covered.acc {b : ℕ} {n : N} (h : Covered next done b n) : Acc (flip next) n := by
  induction h with
  | node _ _ _ ih => exact ⟨_, fun m hm => ih m hm⟩

theorem Covered.acyclic {b : ℕ} {n m : N} (h : Covered next done b n)
    (hr : ReflTransGen next n m) : ¬ TransGen next m m := by
  have hacc : Acc (flip next) m := by
    induction hr with
    | refl => exact h.acc
    | tail _ hmp ih => exact ih.inv hmp
  induction hacc with
  | intro m _ ih =>
    intro hc
    obtain ⟨p, hmp, hpm⟩ := TransGen.head'_iff.mp hc
    -- one hop further on the same cycle
    exact ih p hmp (hr.tail hmp) (TransGen.tail' hpm hmp)

theorem Blamed.mono {E : Type*} {cause cause' : ℕ → N → E → Prop}
    (hc : ∀ b n e, cause b n e → cause' b n e) {b : ℕ} {n : N} {e : E} (h : Blamed next cause b n e) :
    Blamed next cause' b n e := by
  induction h with
  | here h => exact .here (hc _ _ _ h)
  | hop hb hnm _ ih => exact .hop hb hnm ih

theorem Blamed.path {E : Type*} {cause : ℕ → N → E → Prop} {b : ℕ} {n : N} {e : E}
    (h : Blamed next cause b n e) : ∃ l m, Path next l n m ∧ l < max b 1 ∧ cause (b - l) m e := by
  induction h with
  | here h => exact ⟨0, _, .nil _, by omega, h⟩
  | @hop b n m e hb hnm _ ih =>
    obtain ⟨l, p, hp, hl, hc⟩ := ih
    refine ⟨l + 1, p, .cons hnm hp, by omega, ?_⟩
    rwa [Nat.sub_sub, Nat.add_comm] at hc

/-- A node that is reached by a path has one hop less for each step of the path. -/
theorem Path.hops {hops : N → ℕ} (hnext : ∀ n m, next n m → hops m + 1 = hops n) {l : ℕ} {n m : N}
    (hp : Path next l n m) : hops m + l = hops n := by
  induction hp with
  | nil => rfl
  | cons hnm _ ih =>
    have := hnext _ _ hnm
    omega

theorem Path.length_le {hops : N → ℕ} (hnext : ∀ n m, next n m → hops m + 1 = hops n)
    (hpos : ∀ n m, next n m → 1 ≤ hops m) {l : ℕ} {n m : N} (hp : Path next l n m) :
    l ≤ hops n - 1 := by
  have hlast : l = 0 ∨ 1 ≤ hops m := by
    induction hp with
    | nil => exact .inl rfl
    | cons hnm hmp ih =>
      rcases ih with rfl | h
      · cases hmp
        exact .inr (hpos _ _ hnm)
      · exact .inr h
  have := hp.hops hnext
  omega

/-- From a node where every path ends, only finitely many nodes are reached. -/
theorem finite_reach (hfin : ∀ n, {m | next n m}.Finite) {n : N} (hacc : Acc (flip next) n) :
    {m | ReflTransGen next n m}.Finite := by
  induction hacc with
  | intro n _ ih =>
    have hall : {m | ReflTransGen next n m} ⊆ {n} ∪ ⋃ m ∈ {m | next n m}, {p | ReflTransGen next m p} := by
      intro p hp
      rcases hp.cases_head with rfl | ⟨m, hnm, hmp⟩
      · exact .inl rfl
      · exact .inr (Set.mem_biUnion hnm hmp)
    exact ((Set.finite_singleton n).union ((hfin n).biUnion fun m hm => ih m hm)).subset hall

end Relay
