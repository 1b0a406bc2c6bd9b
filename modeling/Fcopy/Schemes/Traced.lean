import Mathlib.Logic.Basic

/-! Partial computations that record what they read.

    `Traced R α` is a computation that may fail, together with the reads it has made up to its end. The
    record plays no part in the result (`result_bind`), and a bound on the reads of the parts is a bound
    on the reads of the whole (`Within.bind`). -/

structure Traced (R α : Type*) where
  reads : List R
  result : Option α

namespace Traced

universe u

variable {R : Type*} {α β : Type u}

/-- Failure, having read nothing. -/
def fail : Traced R α := ⟨[], none⟩

/-- A single read. -/
def read (r : R) (a : α) : Traced R α := ⟨[r], some a⟩

instance : Monad (Traced R) where
  pure a := ⟨[], some a⟩
  bind t f :=
    match t.result with
    | none => ⟨t.reads, none⟩
    | some a => ⟨t.reads ++ (f a).reads, (f a).result⟩

/-- All reads are of a certain kind. -/
structure Within (P : R → Prop) (t : Traced R α) : Prop where
  all : ∀ r ∈ t.reads, P r

@[simp] theorem result_fail : (fail : Traced R α).result = none := rfl

@[simp] theorem result_read (r : R) (a : α) : (read r a).result = some a := rfl

@[simp] theorem result_pure (a : α) : (pure a : Traced R α).result = some a := rfl

@[simp] theorem result_bind (t : Traced R α) (f : α → Traced R β) :
    (t >>= f).result = t.result.bind fun a => (f a).result := by
  obtain ⟨reads, _ | a⟩ := t <;> rfl

variable {P : R → Prop}

theorem Within.fail : Within P (fail : Traced R α) := ⟨fun _ h => absurd h List.not_mem_nil⟩

theorem Within.pure (a : α) : Within P (pure a : Traced R α) := ⟨fun _ h => absurd h List.not_mem_nil⟩

theorem Within.read {r : R} (hr : P r) (a : α) : Within P (Traced.read r a) := by
  refine ⟨fun r' h => ?_⟩
  rw [List.mem_singleton.mp h]
  exact hr

theorem Within.bind {t : Traced R α} {f : α → Traced R β} (ht : Within P t)
    (hf : ∀ a, Within P (f a)) : Within P (t >>= f) := by
  obtain ⟨reads, _ | a⟩ := t
  · exact ⟨ht.all⟩
  · refine ⟨fun r hr => ?_⟩
    rcases List.mem_append.mp hr with hr | hr
    · exact ht.all r hr
    · exact (hf a).all r hr

end Traced
