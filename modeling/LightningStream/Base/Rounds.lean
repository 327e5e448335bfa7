import Mathlib.Tactic

/-!
# Loops by rounds

A loop repeats a round until the round gives a result or fails. A round may
fail with an error, which the program reports, or with a panic, which ends the
program. A loop that is not known to end runs on fuel and gets stuck without.

`Steady` says of a loop what one wants of a reader of untrusted data: it does
not panic, and every round takes it further. Whether it holds depends on the
states the loop visits (`steady_iff`), and it bounds the number of rounds
(`Steady.run`).
-/

namespace LightningStream

variable {σ β ε : Type}

/-- How a computation can fail. -/
inductive Fault (ε : Type)
  | error (e : ε)
  | panic
  | stuck
deriving DecidableEq

/-- Run a loop for a number of rounds at most. -/
def runRounds (round : σ → Except (Fault ε) (σ ⊕ β)) : ℕ → σ → Except (Fault ε) β
  | 0, _ => .error .stuck
  | fuel + 1, s =>
      match round s with
      | .error e => .error e
      | .ok (.inl s') => runRounds round fuel s'
      | .ok (.inr b) => .ok b

variable {round : σ → Except (Fault ε) (σ ⊕ β)} {s s' : σ} {fuel : ℕ}

theorem runRounds_next (h : round s = .ok (.inl s')) :
    runRounds round (fuel + 1) s = runRounds round fuel s' := by
  rw [runRounds, h]

theorem runRounds_done {b : β} (h : round s = .ok (.inr b)) :
    runRounds round (fuel + 1) s = .ok b := by
  rw [runRounds, h]

theorem runRounds_error {e : Fault ε} (h : round s = .error e) :
    runRounds round (fuel + 1) s = .error e := by
  rw [runRounds, h]

/-- A loop that gives a result does so in its first round or after it. -/
theorem runRounds_succ_eq_ok {b : β} (h : runRounds round (fuel + 1) s = .ok b) :
    round s = .ok (.inr b) ∨
      ∃ s', round s = .ok (.inl s') ∧ runRounds round fuel s' = .ok b := by
  cases hr : round s with
  | error e => rw [runRounds_error hr] at h; cases h
  | ok r =>
      cases r with
      | inl s' => exact Or.inr ⟨s', rfl, by rwa [runRounds_next hr] at h⟩
      | inr b' =>
          rw [runRounds_done hr] at h
          rw [Except.ok.inj h]
          exact Or.inl rfl

/-- The invariant rule: what every round keeps holds where the loop ends. -/
theorem runRounds_ok {I : σ → Prop} {P : β → Prop} {b : β}
    (hnext : ∀ s s', I s → round s = .ok (.inl s') → I s')
    (hdone : ∀ s b, I s → round s = .ok (.inr b) → P b)
    (h0 : I s) (h : runRounds round fuel s = .ok b) : P b := by
  induction fuel generalizing s with
  | zero => cases h
  | succ fuel ih =>
      rcases runRounds_succ_eq_ok h with hr | ⟨s', hr, h⟩
      · exact hdone s b h0 hr
      · exact ih (hnext s s' h0 hr) h

/-- The rule for total correctness: rounds that keep an invariant and lower a
measure lead to an outcome, if the fuel is more than the measure. -/
theorem runRounds_total {I : σ → Prop} {P : Except (Fault ε) β → Prop} (m : σ → ℕ)
    (hnext : ∀ s, I s → (∃ s', round s = .ok (.inl s') ∧ I s' ∧ m s' < m s) ∨
      (∃ b, round s = .ok (.inr b) ∧ P (.ok b)) ∨ ∃ e, round s = .error e ∧ P (.error e))
    (h0 : I s) (hfuel : m s < fuel) : P (runRounds round fuel s) := by
  induction fuel generalizing s with
  | zero => omega
  | succ fuel ih =>
      rcases hnext s h0 with ⟨s', hr, h, hlt⟩ | ⟨b, hr, hP⟩ | ⟨e, hr, hP⟩
      · rw [runRounds_next hr]
        exact ih h (by omega)
      · rwa [runRounds_done hr]
      · rwa [runRounds_error hr]

/-- A loop that fails is out of fuel, or one of its rounds fails. -/
theorem runRounds_eq_error {e : Fault ε} (h : runRounds round fuel s = .error e) :
    e = .stuck ∨ ∃ s', round s' = .error e := by
  induction fuel generalizing s with
  | zero => exact Or.inl (Except.error.inj h).symm
  | succ fuel ih =>
      cases hr : round s with
      | error e' =>
          rw [runRounds_error hr] at h
          exact Or.inr ⟨s, by rw [hr, Except.error.inj h]⟩
      | ok r =>
          cases r with
          | inl s' => exact ih (by rwa [runRounds_next hr] at h)
          | inr b => rw [runRounds_done hr] at h; cases h

/-- The states the loop goes through. -/
def Visits (round : σ → Except (Fault ε) (σ ⊕ β)) : σ → σ → Prop :=
  Relation.ReflTransGen fun s s' => round s = .ok (.inl s')

/-- The loop ends, without a panic, and every round raises the measure. -/
inductive Steady (round : σ → Except (Fault ε) (σ ⊕ β)) (μ : σ → ℤ) : σ → Prop
  | done {t : σ} {b : β} : round t = .ok (.inr b) → Steady round μ t
  | error {t : σ} {e : ε} : round t = .error (.error e) → Steady round μ t
  | next {t t' : σ} : round t = .ok (.inl t') → μ t < μ t' → Steady round μ t' →
      Steady round μ t

/-- A round that panics, gets stuck, or does not raise the measure. -/
def Falters (round : σ → Except (Fault ε) (σ ⊕ β)) (μ : σ → ℤ) (s : σ) : Prop :=
  match round s with
  | .error (.error _) => False
  | .error _ => True
  | .ok (.inl s') => μ s' ≤ μ s
  | .ok (.inr _) => False

variable {μ : σ → ℤ}

theorem Steady.of_step (h : Steady round μ s) (hstep : round s = .ok (.inl s')) :
    μ s < μ s' ∧ Steady round μ s' := by
  cases h with
  | done hd => rw [hstep] at hd; cases hd
  | error he => rw [hstep] at he; cases he
  | next hn hlt hs =>
      rw [hstep] at hn
      obtain rfl := Sum.inl.inj (Except.ok.inj hn)
      exact ⟨hlt, hs⟩

theorem Steady.not_falters (h : Steady round μ s) (hv : Visits round s s') :
    ¬ Falters round μ s' := by
  have hsteady : Steady round μ s' := by
    induction hv with
    | refl => exact h
    | tail _ hstep ih => exact (ih.of_step hstep).2
  unfold Falters
  cases hsteady with
  | done hd => simp [hd]
  | error he => simp [he]
  | next hn hlt _ =>
      rw [hn]
      exact not_le.mpr hlt

theorem cases_of_not_falters (h : ¬ Falters round μ s) :
    (∃ b, round s = .ok (.inr b)) ∨ (∃ e, round s = .error (.error e)) ∨
      ∃ s', round s = .ok (.inl s') ∧ μ s < μ s' := by
  unfold Falters at h
  cases hr : round s with
  | error e =>
      cases e with
      | error e => exact Or.inr (Or.inl ⟨e, rfl⟩)
      | panic => simp [hr] at h
      | stuck => simp [hr] at h
  | ok r =>
      cases r with
      | inl s' =>
          rw [hr] at h
          exact Or.inr (Or.inr ⟨s', rfl, not_le.mp h⟩)
      | inr b => exact Or.inl ⟨b, rfl⟩

/-- **A loop is steady iff no round it comes to falters**, if the measure is
bounded on the states it goes on from. -/
theorem steady_iff {bound : ℤ} (hb : ∀ s s', round s = .ok (.inl s') → μ s ≤ bound) :
    Steady round μ s ↔ ∀ s', Visits round s s' → ¬ Falters round μ s' := by
  constructor
  · exact fun h s' hv => h.not_falters hv
  · intro h
    -- by induction on what is left up to the bound
    obtain ⟨n, hn⟩ : ∃ n : ℕ, bound - μ s < n := ⟨(bound - μ s).toNat + 1, by omega⟩
    induction n generalizing s with
    | zero =>
        rcases cases_of_not_falters (h s Relation.ReflTransGen.refl) with
          ⟨b, hr⟩ | ⟨e, hr⟩ | ⟨s', hr, -⟩
        · exact Steady.done hr
        · exact Steady.error hr
        · exact absurd (hb s s' hr) (by omega)
    | succ n ih =>
        rcases cases_of_not_falters (h s Relation.ReflTransGen.refl) with
          ⟨b, hr⟩ | ⟨e, hr⟩ | ⟨s', hr, hlt⟩
        · exact Steady.done hr
        · exact Steady.error hr
        · refine Steady.next hr hlt (ih (fun s'' hv => h s'' ?_) (by omega))
          exact Relation.ReflTransGen.head hr hv

/-- The rounds that falter may be described by any `Bad` that is right about them
under an invariant that the other rounds keep. -/
theorem steady_iff_not_bad {bound : ℤ} {Bad : σ → Prop} (Inv : σ → Prop)
    (hb : ∀ s s', round s = .ok (.inl s') → μ s ≤ bound)
    (hinv : ∀ s s', Inv s → round s = .ok (.inl s') → μ s < μ s' → Inv s')
    (hbad : ∀ s, Inv s → (Falters round μ s ↔ Bad s)) (h0 : Inv s) :
    Steady round μ s ↔ ∀ s', Visits round s s' → ¬ Bad s' := by
  have rises : ∀ {s s'}, round s = .ok (.inl s') → ¬ Falters round μ s → μ s < μ s' := by
    intro s s' hr hs
    simpa [Falters, hr] using hs
  rw [steady_iff hb]
  constructor
  · intro h s' hv
    have hkept : Inv s' := by
      induction hv with
      | refl => exact h0
      | tail hv' hstep ih => exact hinv _ _ ih hstep (rises hstep (h _ hv'))
    exact fun hB => h s' hv ((hbad s' hkept).mpr hB)
  · intro h s' hv
    have hkept : Inv s' := by
      induction hv with
      | refl => exact h0
      | tail hv' hstep ih =>
          exact hinv _ _ ih hstep (rises hstep fun hF => h _ hv' ((hbad _ ih).mp hF))
    exact fun hF => h s' hv ((hbad s' hkept).mp hF)

/-- The outcome of a steady loop, with fuel for every step up to the bound. -/
theorem Steady.run {bound : ℤ} (h : Steady round μ s) (fuel : ℕ)
    (hb : ∀ s s', round s = .ok (.inl s') → μ s ≤ bound) (hf : bound - μ s < fuel) :
    (∃ b, runRounds round (fuel + 1) s = .ok b) ∨
      ∃ e, runRounds round (fuel + 1) s = .error (.error e) := by
  induction h generalizing fuel with
  | done hd => exact Or.inl ⟨_, runRounds_done hd⟩
  | error he => exact Or.inr ⟨_, runRounds_error he⟩
  | @next s s' hn hlt _ ih =>
      rw [runRounds_next hn]
      cases fuel with
      | zero => exact absurd (hb s s' hn) (by simp at hf; omega)
      | succ fuel => exact ih fuel (by push_cast at hf; omega)

end LightningStream
