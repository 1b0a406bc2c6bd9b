import Fcopy.Schemes.Run

/-! Machines whose operations on an object each take effect in one step.

    `point` says which operation a step performs, if any. The operations of a run in their order are its
    `history`; `replay` performs them one at a time on the object by itself. Where every step does to the
    object what its operation does, the history leaves the object as the run does (`replay_run`):

        run:     s ──l₁──▶ · ──l₂──▶ · ──l₃──▶ t
        history:      op₁            op₃            abs s ──op₁──▶ · ──op₃──▶ abs t -/

namespace Linear
open Run

variable {S L E A O : Type*}

def history (f : S → L → Option S) (point : S → L → Option E) : S → List L → List E
  | _, [] => []
  | s, l :: ls => (point s l).toList ++
      match f s l with
      | some t => history f point t ls
      | none => []

/-- The operations one at a time, each with its outcome. -/
def replay (g : A → E → A × O) : A → List E → A × List (E × O)
  | a, [] => (a, [])
  | a, e :: es => ((replay g (g a e).1 es).1, (e, (g a e).2) :: (replay g (g a e).1 es).2)

variable {f : S → L → Option S} {point : S → L → Option E} {g : A → E → A × O}

theorem history_append {s t : S} {ls ms : List L} (h : Steps (ofStep f) s ls t) :
    history f point s (ls ++ ms) = history f point s ls ++ history f point t ms := by
  induction h with
  | nil s => rfl
  | @cons s u t l ls hl hls ih =>
    have hl : f s l = some u := hl
    simp only [List.cons_append, history, hl, ih, List.append_assoc]

theorem history_concat {s t u : S} {ls : List L} {l : L} (h : Steps (ofStep f) s ls t)
    (hl : f t l = some u) : history f point s (ls ++ [l]) = history f point s ls ++ (point t l).toList := by
  rw [history_append h]
  simp only [history, hl, List.append_nil]

theorem replay_append (a : A) (es fs : List E) : replay g a (es ++ fs) =
    ((replay g (replay g a es).1 fs).1, (replay g a es).2 ++ (replay g (replay g a es).1 fs).2) := by
  induction es generalizing a with
  | nil => rfl
  | cons e es ih => simp only [List.cons_append, replay, ih]

theorem replay_map_fst (a : A) (es : List E) : (replay g a es).2.map Prod.fst = es := by
  induction es generalizing a with
  | nil => rfl
  | cons e es ih => simp only [replay, List.map_cons, ih]

/-- The run leaves the object as its operations do one at a time. -/
theorem replay_run {abs : S → A}
    (habs : ∀ s l t, f s l = some t → abs t = (replay g (abs s) (point s l).toList).1) {s t : S}
    {ls : List L} (h : Steps (ofStep f) s ls t) :
    (replay g (abs s) (history f point s ls)).1 = abs t := by
  induction h with
  | nil s => rfl
  | @cons s u t l ls hl hls ih =>
    have hl : f s l = some u := hl
    simp only [history, hl, replay_append]
    rw [← habs s l u hl]
    exact ih

/-- What an invariant says of the operation of every step holds of all operations. -/
theorem history_all {P : S → Prop} {Q : E → Prop}
    (hstep : ∀ s l t, P s → f s l = some t → P t)
    (hpoint : ∀ s l t e, P s → f s l = some t → point s l = some e → Q e) {s t : S} {ls : List L}
    (h : Steps (ofStep f) s ls t) (hs : P s) : ∀ e ∈ history f point s ls, Q e := by
  induction h with
  | nil s =>
    intro e he
    cases he
  | @cons s u t l ls hl hls ih =>
    have hl : f s l = some u := hl
    intro e he
    simp only [history, hl, List.mem_append, Option.mem_toList] at he
    rcases he with he | he
    · exact hpoint s l u e hs hl he
    · exact ih (hstep s l u hs hl) e he

end Linear
