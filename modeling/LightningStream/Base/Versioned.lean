import Mathlib.Tactic

/-!
# Versioned stores

A store with one writer at a time, whose committed versions are numbered
consecutively. A reader sees the version that was last when it began. A
writer works on a copy of the last version under the next number, and gives
the number back when it changed nothing.
-/

namespace LightningStream

/-- The number of the last committed version, and the content of each. -/
structure Versioned (σ : Type) where
  last : ℕ
  version : ℕ → σ

namespace Versioned

variable {σ : Type} {e : Versioned σ} {d : σ} {n : ℕ}

def current (e : Versioned σ) : σ := e.version e.last

def commit (e : Versioned σ) (d : σ) : Versioned σ :=
  ⟨e.last + 1, Function.update e.version (e.last + 1) d⟩

/-- End a write transaction that leaves `d` and may have changed nothing. -/
def finish (e : Versioned σ) (d : σ) (dirty : Bool) : Versioned σ :=
  if dirty then e.commit d else e

@[simp] theorem commit_last : (e.commit d).last = e.last + 1 := rfl

@[simp] theorem commit_current : (e.commit d).current = d :=
  Function.update_self _ _ _

theorem commit_version (h : n ≤ e.last) : (e.commit d).version n = e.version n :=
  Function.update_of_ne (by omega) _ _

@[simp] theorem finish_true : e.finish d true = e.commit d := rfl

@[simp] theorem finish_false : e.finish d false = e := rfl

/-- Committed versions stay. -/
theorem finish_version (b : Bool) (h : n ≤ e.last) :
    (e.finish d b).version n = e.version n := by
  cases b with
  | false => rfl
  | true => exact commit_version h

theorem last_le_finish (b : Bool) : e.last ≤ (e.finish d b).last := by
  cases b with
  | false => exact le_rfl
  | true => exact Nat.le_succ _

/-- What the writer left is current, whether or not it was recorded. -/
theorem finish_current {b : Bool} (h : b = false → d = e.current) :
    (e.finish d b).current = d := by
  cases b with
  | false => exact (h rfl).symm
  | true => exact commit_current

end Versioned

end LightningStream
