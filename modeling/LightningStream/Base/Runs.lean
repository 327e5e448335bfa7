import Mathlib.Logic.Relation

/-!
# Runs of a machine

A machine is a relation between states, labelled with what happens. Many of its
properties hold only as long as its surroundings behave, so a run comes with a
condition that each of its steps has met.
-/

namespace LightningStream

variable {σ ε : Type}

/-- The runs all of whose steps meet a condition. -/
def RunsUnder (step : σ → ε → σ → Prop) (P : σ → ε → Prop) : σ → σ → Prop :=
  Relation.ReflTransGen fun s s' => ∃ e, step s e s' ∧ P s e

namespace RunsUnder

variable {step : σ → ε → σ → Prop} {P : σ → ε → Prop} {s s' s'' : σ}

theorem refl (s : σ) : RunsUnder step P s s := Relation.ReflTransGen.refl

theorem snoc {e : ε} (h : RunsUnder step P s s') (hstep : step s' e s'') (hP : P s' e) :
    RunsUnder step P s s'' :=
  Relation.ReflTransGen.tail h ⟨e, hstep, hP⟩

theorem trans (h : RunsUnder step P s s') (h' : RunsUnder step P s' s'') :
    RunsUnder step P s s'' :=
  Relation.ReflTransGen.trans h h'

theorem mono {Q : σ → ε → Prop} (h : RunsUnder step P s s') (hPQ : ∀ s e, P s e → Q s e) :
    RunsUnder step Q s s' := by
  induction h with
  | refl => exact refl _
  | tail _ hstep ih =>
      obtain ⟨e, he, hP⟩ := hstep
      exact ih.snoc he (hPQ _ _ hP)

/-- What holds at the start and survives every step holds along the run. -/
theorem invariant {I : σ → Prop} (hstep : ∀ {s e s'}, step s e s' → P s e → I s → I s')
    (hr : RunsUnder step P s s') (hs : I s) : I s' := by
  induction hr with
  | refl => exact hs
  | tail _ h ih =>
      obtain ⟨e, he, hP⟩ := h
      exact hstep he hP ih

end RunsUnder

end LightningStream
