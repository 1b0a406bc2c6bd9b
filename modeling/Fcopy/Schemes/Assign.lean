import Mathlib.Data.List.Basic
import Mathlib.Data.List.TakeWhile

/-! States that a list of items is read into.

    Each item changes the state, or is refused, and the first that is refused ends the reading:

        a₀ ─▶ a₁ ─▶ a₂ ─▶ ✗ a₃ │ a₄ …        taken: a₀ a₁ a₂, left: a₃ a₄ …

    What an item does to one part of the state depends on that part and the item alone, so a part can be
    followed by itself (`Reader.get_run`): the last item that sets it decides (`get_last`), or the first
    does (`get_first`), or all add to it (`get_append`). -/

namespace Assign

variable {S A V : Type*}

/-- What is left from the first refused item on, and the state before it. -/
def run (f : S → A → Option S) : S → List A → List A × S
  | s, [] => ([], s)
  | s, a :: as =>
    match f s a with
    | none => (a :: as, s)
    | some s => run f s as

/-- Whether an item is refused does not depend on the state. -/
structure Reader (f : S → A → Option S) (accepts : A → Bool) : Prop where
  isSome : ∀ s a, (f s a).isSome = accepts a

/-- The items that are taken. -/
def taken (accepts : A → Bool) (as : List A) : List A := as.takeWhile accepts

variable {f : S → A → Option S} {accepts : A → Bool}

theorem taken_eq_self {as : List A} : taken accepts as = as ↔ ∀ a ∈ as, accepts a = true :=
  List.takeWhile_eq_self_iff

namespace Reader
variable (hf : Reader f accepts)
include hf

theorem run_fst (s : S) (as : List A) : (run f s as).1 = as.dropWhile accepts := by
  induction as generalizing s with
  | nil => rfl
  | cons a as ih =>
    have hsome := hf.isSome s a
    cases hfa : f s a with
    | none =>
      rw [hfa] at hsome
      simp only [run, hfa, List.dropWhile_cons, ← hsome, Option.isSome_none, Bool.false_eq_true, if_false]
    | some t =>
      rw [hfa] at hsome
      simp only [run, hfa, List.dropWhile_cons, ← hsome, Option.isSome_some, if_true, ih]

/-- Everything is taken. -/
theorem run_all (s : S) (as : List A) : (run f s as).1 = [] ↔ ∀ a ∈ as, accepts a = true := by
  rw [hf.run_fst, List.dropWhile_eq_nil_iff]

/-- One part of the state, followed through the items that are taken. -/
theorem get_run (get : S → V) (upd : A → V → V)
    (hget : ∀ s a t, f s a = some t → get t = upd a (get s)) (s : S) (as : List A) :
    get (run f s as).2 = (taken accepts as).foldl (fun v a => upd a v) (get s) := by
  induction as generalizing s with
  | nil => rfl
  | cons a as ih =>
    have hsome := hf.isSome s a
    cases hfa : f s a with
    | none =>
      rw [hfa] at hsome
      simp only [run, hfa, taken, List.takeWhile_cons, ← hsome, Option.isSome_none, Bool.false_eq_true,
        if_false, List.foldl_nil]
    | some t =>
      rw [hfa] at hsome
      rw [taken] at ih
      simp only [run, hfa, taken, List.takeWhile_cons, ← hsome, Option.isSome_some, if_true,
        List.foldl_cons, ih, hget s a t hfa]

/-- The last item that sets the part decides. -/
theorem get_last (get : S → V) (sets : A → Option V)
    (hget : ∀ s a t, f s a = some t → get t = (sets a).getD (get s)) (s : S) (as : List A) :
    get (run f s as).2 = (((taken accepts as).filterMap sets).getLast?).getD (get s) := by
  rw [hf.get_run get (fun a v => (sets a).getD v) hget]
  generalize get s = v
  induction taken accepts as generalizing v with
  | nil => rfl
  | cons a as ih =>
    rw [List.foldl_cons, ih]
    cases ha : sets a with
    | none => rw [List.filterMap_cons_none ha, Option.getD_none]
    | some u => rw [List.filterMap_cons_some ha, List.getLast?_cons, Option.getD_some, Option.getD_some]

/-- The first item that sets the part decides, unless it has been set before. -/
theorem get_first (get : S → Option V) (sets : A → Option V)
    (hget : ∀ s a t, f s a = some t → get t = (get s).or (sets a)) (s : S) (as : List A) :
    get (run f s as).2 = (get s).or ((taken accepts as).filterMap sets).head? := by
  rw [hf.get_run get (fun a v => v.or (sets a)) hget]
  generalize get s = v
  induction taken accepts as generalizing v with
  | nil => rw [List.foldl_nil, List.filterMap_nil, List.head?_nil, Option.or_none]
  | cons a as ih =>
    rw [List.foldl_cons, ih, Option.or_assoc]
    cases ha : sets a with
    | none => rw [List.filterMap_cons_none ha, Option.none_or]
    | some u => rw [List.filterMap_cons_some ha, List.head?_cons, Option.some_or]

/-- The items add to the part in order. -/
theorem get_append (get : S → List V) (adds : A → List V)
    (hget : ∀ s a t, f s a = some t → get t = get s ++ adds a) (s : S) (as : List A) :
    get (run f s as).2 = get s ++ (taken accepts as).flatMap adds := by
  rw [hf.get_run get (fun a v => v ++ adds a) hget]
  generalize get s = v
  induction taken accepts as generalizing v with
  | nil => rw [List.foldl_nil, List.flatMap_nil, List.append_nil]
  | cons a as ih => rw [List.foldl_cons, ih, List.flatMap_cons, List.append_assoc]

end Reader

end Assign
