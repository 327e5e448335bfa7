import Mathlib.Algebra.BigOperators.Group.Multiset.Basic
import Mathlib.Tactic

/-!
# Concurrency limits

A `ConcurrencyLimit` is a channel filled with as many tokens as may be held at a
time. `Acquire` takes one out and waits if there is none, `Release` puts it
back. A token remembers that it has been released, so that further calls of
`Release` do nothing.

`Accounts` relates a limit to a multiset of tokens that someone keeps track of:
they are exactly the ones that are out. It has a rule for each way to change
either side, and conservation is a consequence (`Accounts.conserved`).
-/

namespace LightningStream

structure Token where
  released : Bool
  /-- How often it has been put back into the channel. -/
  returned : ℕ
deriving DecidableEq

/-- The logger and the metrics are left out. -/
structure ConcurrencyLimit where
  /-- The number of tokens in the channel. -/
  free : ℕ
  /-- All tokens handed out so far; a pointer to one is its index. -/
  tokens : List Token
deriving DecidableEq

namespace ConcurrencyLimit

/-- The limit, which is raised to 1 if it is smaller. -/
def limitOf (limit : ℤ) : ℕ := (if limit < 1 then 1 else limit).toNat

theorem one_le_limitOf (limit : ℤ) : 1 ≤ limitOf limit := by
  unfold limitOf
  split <;> omega

def new (limit : ℤ) : ConcurrencyLimit := ⟨limitOf limit, []⟩

variable (cl : ConcurrencyLimit)

/-- `Acquire`; there is no result while it blocks. -/
def acquire : Option (ConcurrencyLimit × ℕ) :=
  if cl.free = 0 then none
  else some (⟨cl.free - 1, cl.tokens ++ [⟨false, 0⟩]⟩, cl.tokens.length)

def release (t : ℕ) : ConcurrencyLimit :=
  match cl.tokens[t]? with
  | none => cl
  | some token =>
      if token.released then cl
      else ⟨cl.free + 1, cl.tokens.set t ⟨true, token.returned + 1⟩⟩

/-! ## Tokens that are out -/

/-- The token has been acquired and not been released. -/
def IsOut (t : ℕ) : Prop := ∃ token, cl.tokens[t]? = some token ∧ token.released = false

/-- The token has been released. -/
def IsSpent (t : ℕ) : Prop := ∃ token, cl.tokens[t]? = some token ∧ token.released = true

variable {cl} {cl' : ConcurrencyLimit} {t u : ℕ}

theorem not_isOut_length : ¬ cl.IsOut cl.tokens.length := by
  rintro ⟨token, h, -⟩
  simp at h

theorem acquire_eq_some (h : cl.acquire = some (cl', t)) :
    cl.free = cl'.free + 1 ∧ t = cl.tokens.length ∧ cl'.tokens = cl.tokens ++ [⟨false, 0⟩] := by
  unfold acquire at h
  split at h
  · cases h
  · rename_i hfree
    obtain ⟨rfl, rfl⟩ := Prod.mk.inj (Option.some.inj h)
    exact ⟨(Nat.succ_pred_eq_of_ne_zero hfree).symm, rfl, rfl⟩

/-- The tokens that are out after `Acquire`. -/
theorem isOut_acquire (h : cl.acquire = some (cl', t)) : cl'.IsOut u ↔ u = t ∨ cl.IsOut u := by
  obtain ⟨-, rfl, htokens⟩ := acquire_eq_some h
  unfold IsOut
  rw [htokens]
  rcases lt_trichotomy u cl.tokens.length with hu | rfl | hu
  · rw [List.getElem?_append_left hu, or_iff_right hu.ne]
  · simp
  · rw [List.getElem?_eq_none (by simpa using hu), List.getElem?_eq_none (by omega)]
    simp [hu.ne']

theorem isSpent_acquire (h : cl.acquire = some (cl', t)) (hu : cl.IsSpent u) : cl'.IsSpent u := by
  obtain ⟨-, -, htokens⟩ := acquire_eq_some h
  obtain ⟨token, hget, hreleased⟩ := hu
  refine ⟨token, ?_, hreleased⟩
  rw [htokens, List.getElem?_append_left (List.getElem?_eq_some_iff.mp hget).1, hget]

theorem release_of_isOut (h : cl.IsOut t) : ∃ token, cl.tokens[t]? = some token ∧
    token.released = false ∧
      cl.release t = ⟨cl.free + 1, cl.tokens.set t ⟨true, token.returned + 1⟩⟩ := by
  obtain ⟨token, hget, hreleased⟩ := h
  refine ⟨token, hget, hreleased, ?_⟩
  rw [release, hget]
  simp [hreleased]

theorem release_of_not_isOut (h : ¬ cl.IsOut t) : cl.release t = cl := by
  unfold release
  cases hget : cl.tokens[t]? with
  | none => rfl
  | some token =>
      cases hreleased : token.released with
      | true => simp [hreleased]
      | false => exact absurd ⟨token, hget, hreleased⟩ h

theorem IsSpent.not_isOut (h : cl.IsSpent t) : ¬ cl.IsOut t := by
  obtain ⟨token, hget, hreleased⟩ := h
  rintro ⟨token', hget', hreleased'⟩
  obtain rfl := Option.some.inj (hget.symm.trans hget')
  cases hreleased.symm.trans hreleased'

/-- The tokens that are out after `Release`. -/
theorem isOut_release : (cl.release t).IsOut u ↔ u ≠ t ∧ cl.IsOut u := by
  by_cases h : cl.IsOut t
  · obtain ⟨token, hget, -, hrelease⟩ := release_of_isOut h
    have hlt := (List.getElem?_eq_some_iff.mp hget).1
    unfold IsOut
    rw [hrelease]
    by_cases hu : u = t
    · subst hu
      simp [List.getElem?_set_self hlt]
    · rw [List.getElem?_set_ne (Ne.symm hu)]
      simp [hu]
  · rw [release_of_not_isOut h]
    constructor
    · exact fun hu => ⟨fun heq => h (heq ▸ hu), hu⟩
    · exact fun hu => hu.2

theorem isSpent_release (hu : cl.IsSpent u) : (cl.release t).IsSpent u := by
  by_cases h : cl.IsOut t
  · obtain ⟨token, -, -, hrelease⟩ := release_of_isOut h
    have hne : t ≠ u := fun heq => hu.not_isOut (heq ▸ h)
    obtain ⟨token', hget', hreleased'⟩ := hu
    exact ⟨token', by rw [hrelease, List.getElem?_set_ne hne, hget'], hreleased'⟩
  · rw [release_of_not_isOut h]
    exact hu

/-- A token that was out is spent after `Release`. -/
theorem IsOut.isSpent_release (h : cl.IsOut t) : (cl.release t).IsSpent t := by
  obtain ⟨token, hget, -, hrelease⟩ := release_of_isOut h
  refine ⟨⟨true, token.returned + 1⟩, ?_, rfl⟩
  rw [hrelease, List.getElem?_set_self (List.getElem?_eq_some_iff.mp hget).1]

/-! ## Accounts -/

/-- The multiset holds the tokens that are out, each of them once. Together with
the free ones they are as many as the limit, and every token has been put back
once if it has been released and never if not. -/
structure Accounts (limit : ℕ) (cl : ConcurrencyLimit) (owned : Multiset ℕ) : Prop where
  nodup : owned.Nodup
  mem_iff : ∀ t, t ∈ owned ↔ cl.IsOut t
  conserved : cl.free + Multiset.card owned = limit
  once : ∀ token ∈ cl.tokens, token.returned = if token.released then 1 else 0

variable {limit : ℕ} {owned : Multiset ℕ}

theorem accounts_new (limit : ℤ) : Accounts (limitOf limit) (new limit) 0 where
  nodup := Multiset.nodup_zero
  mem_iff := by simp [IsOut, new]
  conserved := rfl
  once := by simp [new]

namespace Accounts

theorem acquire (h : Accounts limit cl owned) (hacq : cl.acquire = some (cl', t)) :
    Accounts limit cl' (t ::ₘ owned) := by
  obtain ⟨hfree, rfl, htokens⟩ := acquire_eq_some hacq
  have hnew : cl.tokens.length ∉ owned := fun hmem => not_isOut_length ((h.mem_iff _).mp hmem)
  refine ⟨Multiset.nodup_cons.mpr ⟨hnew, h.nodup⟩, ?_, ?_, ?_⟩
  · intro u
    rw [Multiset.mem_cons, isOut_acquire hacq, h.mem_iff]
  · have hconserved := h.conserved
    rw [Multiset.card_cons]
    omega
  · intro token hmem
    rw [htokens] at hmem
    rcases List.mem_append.mp hmem with hmem | hmem
    · exact h.once token hmem
    · rw [List.mem_singleton.mp hmem]
      rfl

theorem release (h : Accounts limit cl (t ::ₘ owned)) : Accounts limit (cl.release t) owned := by
  obtain ⟨hnot, hnodup⟩ := Multiset.nodup_cons.mp h.nodup
  have hout : cl.IsOut t := (h.mem_iff t).mp (Multiset.mem_cons_self t owned)
  obtain ⟨token, hget, hreleased, hrelease⟩ := release_of_isOut hout
  refine ⟨hnodup, ?_, ?_, ?_⟩
  · intro u
    rw [isOut_release, ← h.mem_iff, Multiset.mem_cons]
    constructor
    · exact fun hu => ⟨fun heq => hnot (heq ▸ hu), Or.inr hu⟩
    · rintro ⟨hne, rfl | hu⟩
      · exact absurd rfl hne
      · exact hu
  · have hconserved := h.conserved
    rw [Multiset.card_cons] at hconserved
    rw [hrelease]
    show cl.free + 1 + Multiset.card owned = limit
    omega
  · intro token' hmem
    rw [hrelease] at hmem
    rcases List.mem_or_eq_of_mem_set hmem with hmem | rfl
    · exact h.once token' hmem
    · have honce := h.once token (List.mem_of_getElem? hget)
      rw [hreleased] at honce
      simp [honce]

/-- A token is owned by someone and has not been put back, or it is owned by
nobody and has been put back once. -/
theorem returned_once (h : Accounts limit cl owned) {token : Token}
    (hget : cl.tokens[t]? = some token) :
    (owned.count t = 1 ∧ token.returned = 0) ∨ (owned.count t = 0 ∧ token.returned = 1) := by
  have honce := h.once token (List.mem_of_getElem? hget)
  cases hreleased : token.released with
  | false =>
      have hmem : t ∈ owned := (h.mem_iff t).mpr ⟨token, hget, hreleased⟩
      rw [hreleased] at honce
      exact Or.inl ⟨Multiset.count_eq_one_of_mem h.nodup hmem, honce⟩
  | true =>
      have hnot : t ∉ owned := fun hmem =>
        IsSpent.not_isOut ⟨token, hget, hreleased⟩ ((h.mem_iff t).mp hmem)
      rw [hreleased] at honce
      exact Or.inr ⟨Multiset.count_eq_zero_of_notMem hnot, honce⟩

end Accounts

end ConcurrencyLimit

end LightningStream
