import Mathlib.Data.Nat.Notation
import Mathlib.Data.List.Basic

/-! Resumable consumers.

    A consumer is called once for each fragment of a stream and answers `more` until it has seen
    enough. It is *resumable* when its state after any input it has not finished is a function of the
    bytes so far alone (`stateAt`), the point where it finishes is fixed by the stream (`endAt`), and
    so is what it answers there (`finalAt`). One lemma about a single call (`call`) is then enough: the
    answers do not depend on where the stream was cut (`feed_open`, `feed_end`). -/

namespace Resume
variable {α S V : Type*}

section
variable [DecidableEq V]

/-- Call `step` on each fragment until it answers something else than `more`. -/
def feed (step : S → List α → V × S) (more : V) (s : S) : List (List α) → V × S
  | [] => (more, s)
  | f :: fs => if (step s f).1 = more then feed step more (step s f).2 fs else step s f

end

/-- Copying as much of `buf` as still fits into a buffer of `k` items. -/
theorem append_take_min {l buf : List α} {k : ℕ} (hl : l.length ≤ k) :
    l ++ buf.take (min buf.length (k - l.length)) = (l ++ buf).take k := by
  rw [List.take_append, List.take_of_length_le hl, ← List.take_take,
    List.take_of_length_le (l := List.take _ buf) (List.length_take_le' ..)]

/-- The specification of a resumable consumer. -/
structure Resumable (step : S → List α → V × S) (more : V) where
  stateAt : List α → S
  endAt : List α → ℕ
  finalAt : List α → V × S
  call : ∀ p f, p.length < endAt p → step (stateAt p) f =
    if (p ++ f).length < endAt (p ++ f) then (more, stateAt (p ++ f)) else finalAt (p ++ f)
  final : ∀ p, endAt p ≤ p.length → (finalAt p).1 ≠ more
  open_append : ∀ p r, p.length < endAt p → p.length < endAt (p ++ r)
  endAt_append : ∀ p r, endAt p ≤ p.length → endAt (p ++ r) = endAt p
  finalAt_append : ∀ p r, endAt p ≤ p.length → finalAt (p ++ r) = finalAt p

namespace Resumable
variable {step : S → List α → V × S} {more : V} (R : Resumable step more)

/-- A proper part of a stream that ends before the finishing point is unfinished. -/
theorem open_of_lt {p r : List α} (hp : p.length < R.endAt (p ++ r)) : p.length < R.endAt p := by
  by_contra hle
  rw [R.endAt_append p r (by omega)] at hp
  exact hle hp

variable [DecidableEq V]

/-- However the input is cut, the answer is that of the whole input. -/
theorem feed_eq {q : List α} (frags : List (List α)) (hq : q.length < R.endAt q) :
    feed step more (R.stateAt q) frags =
      if (q ++ frags.flatten).length < R.endAt (q ++ frags.flatten) then
        (more, R.stateAt (q ++ frags.flatten))
      else R.finalAt (q ++ frags.flatten) := by
  induction frags generalizing q with
  | nil => simp [feed, hq]
  | cons f fs ih =>
    rw [List.flatten_cons, ← List.append_assoc, feed, R.call q f hq]
    by_cases hf : (q ++ f).length < R.endAt (q ++ f)
    · simp only [hf, if_true]
      exact ih hf
    · have hend : R.endAt (q ++ f) ≤ (q ++ f).length := Nat.le_of_not_lt hf
      have hall : R.endAt (q ++ f ++ fs.flatten) ≤ (q ++ f ++ fs.flatten).length := by
        rw [R.endAt_append _ _ hend, List.length_append]
        omega
      rw [if_neg hf, if_neg (R.final _ hend), if_neg (Nat.not_lt.mpr hall), R.finalAt_append _ _ hend]

/-- Input that ends before the finishing point of the stream is answered `more`. -/
theorem feed_open {frags : List (List α)} {r : List α} (h₀ : 0 < R.endAt [])
    (hlt : frags.flatten.length < R.endAt (frags.flatten ++ r)) :
    feed step more (R.stateAt []) frags = (more, R.stateAt frags.flatten) := by
  rw [R.feed_eq (q := []) frags h₀, List.nil_append, if_pos (R.open_of_lt hlt)]

/-- Input that reaches the finishing point of the stream gets the answer fixed by the stream. -/
theorem feed_end {frags : List (List α)} {r : List α} (h₀ : 0 < R.endAt [])
    (hle : R.endAt (frags.flatten ++ r) ≤ frags.flatten.length) :
    feed step more (R.stateAt []) frags = R.finalAt (frags.flatten ++ r) := by
  have hend : R.endAt frags.flatten ≤ frags.flatten.length := by
    by_contra hlt
    have := R.open_append frags.flatten r (by omega)
    omega
  rw [R.feed_eq (q := []) frags h₀, List.nil_append, if_neg (Nat.not_lt.mpr hend),
    R.finalAt_append _ _ hend]

end Resumable

end Resume
