import Mathlib.Data.List.Basic

/-! Lexical paths.

    A path is a list of components of any type; `kind` says which of them are skipped, which go up and
    which are names. `walk dir cs` is the directory reached from `dir` by following `cs`, where going
    up from the top stays there. Followed from `R`, a path first cancels to `k` steps up and a list of
    names (`cancel`), so it ends strictly below `R` exactly when the names lead back through the `k`
    directories it left and further down (`below_walk_iff`). -/

namespace LexPath

inductive Kind where | skip | up | name
  deriving DecidableEq

variable {C : Type*} (kind : C → Kind)

def step (dir : List C) (c : C) : List C :=
  match kind c with
  | .skip => dir
  | .up => dir.dropLast
  | .name => dir ++ [c]

/-- The directory reached from `dir`. -/
def walk (dir cs : List C) : List C := cs.foldl (step kind) dir

/-- One more component behind `k` steps up and the names `ns`. -/
def cancelStep (s : ℕ × List C) (c : C) : ℕ × List C :=
  match kind c with
  | .skip => s
  | .up => if s.2.isEmpty then (s.1 + 1, []) else (s.1, s.2.dropLast)
  | .name => (s.1, s.2 ++ [c])

/-- The steps up that nothing before them cancels, and the names that nothing behind them cancels. -/
def cancel (cs : List C) : ℕ × List C := cs.foldl (cancelStep kind) (0, [])

/-- `p` is strictly below `R`. -/
def Below (R p : List C) : Prop := R <+: p ∧ R ≠ p

instance [DecidableEq C] (R p : List C) : Decidable (Below R p) :=
  inferInstanceAs (Decidable (_ ∧ _))

/-- The path ends in a name, and no shorter part of it has led to the same place already. Only such a
    path can be that of a file: what a path passes through is a directory. -/
def Settles [DecidableEq C] (cs : List C) : Prop :=
  (∃ c ∈ cs.getLast?, kind c = .name) ∧
    ∀ n < cs.length, walk kind [] (cs.take n) ≠ walk kind [] cs

instance [DecidableEq C] (cs : List C) : Decidable (Settles kind cs) :=
  inferInstanceAs (Decidable (_ ∧ _))

variable {kind}

theorem walk_append (dir as bs : List C) :
    walk kind dir (as ++ bs) = walk kind (walk kind dir as) bs :=
  List.foldl_append

/-- One step of `cancel` follows one step of `walk`. -/
theorem step_cancelStep (R : List C) (s : ℕ × List C) (c : C) :
    step kind (R.take (R.length - s.1) ++ s.2) c =
      R.take (R.length - (cancelStep kind s c).1) ++ (cancelStep kind s c).2 := by
  obtain ⟨k, ns⟩ := s
  rw [step, cancelStep]
  cases kind c with
  | skip => rfl
  | name => simp only [List.append_assoc]
  | up =>
    cases hns : ns with
    | nil =>
      simp only [List.isEmpty_nil, if_true, List.append_nil]
      rw [List.dropLast_eq_take, List.length_take, List.take_take]
      congr 1
      omega
    | cons n ns =>
      simp only [List.isEmpty_cons, Bool.false_eq_true, if_false]
      exact List.dropLast_append_of_ne_nil (List.cons_ne_nil _ _)

/-- A path followed from `R` drops the last `k` directories of `R` and goes down its names. -/
theorem walk_eq_cancel (R cs : List C) :
    walk kind R cs = R.take (R.length - (cancel kind cs).1) ++ (cancel kind cs).2 := by
  suffices H : ∀ (cs : List C) (s : ℕ × List C),
      cs.foldl (step kind) (R.take (R.length - s.1) ++ s.2) =
        R.take (R.length - (cs.foldl (cancelStep kind) s).1) ++
          (cs.foldl (cancelStep kind) s).2 by
    have := H cs (0, [])
    rwa [Nat.sub_zero, List.take_length, List.append_nil] at this
  intro cs
  induction cs with
  | nil => exact fun s => rfl
  | cons c cs ih =>
    intro s
    rw [List.foldl_cons, List.foldl_cons, step_cancelStep, ih]

theorem below_append_iff (as bs cs : List C) : Below (as ++ bs) (as ++ cs) ↔ Below bs cs := by
  rw [Below, Below, List.prefix_append_right_inj]
  exact and_congr_right fun _ => not_congr (List.append_right_inj as)

/-- CORRECT (confinement): a path followed from `R` ends strictly below `R` exactly when its names
    start with the directories of `R` that its steps up left, and go on. -/
theorem below_walk_iff (R cs : List C) :
    Below R (walk kind R cs) ↔
      Below (R.drop (R.length - (cancel kind cs).1)) (cancel kind cs).2 := by
  have h := below_append_iff (R.take (R.length - (cancel kind cs).1))
    (R.drop (R.length - (cancel kind cs).1)) (cancel kind cs).2
  rw [List.take_append_drop] at h
  rw [walk_eq_cancel, h]

end LexPath
