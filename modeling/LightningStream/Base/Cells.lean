import LightningStream.Base.Outcome

/-!
# Loops over cells

A loop each round of which works on a cell of its own: it may read any part of the
state that no round writes, and it leaves the cells of the other rounds alone. What
the rounds do to their cells then holds of all cells at the end.

There is a rule for rounds that succeed (`foldlM_cells`) and one for a loop that is
known to have succeeded (`foldlM_cells_ok`).
-/

namespace LightningStream

universe u v

variable {ε : Type u} {σ β : Type v} {κ ν : Type*} {f : σ → β → Except ε σ}

/-- Rounds that do nothing can be left out. -/
theorem foldlM_skip {p : β → Bool} (hskip : ∀ b, p b = true → ∀ s, f s b = .ok s) :
    ∀ (l : List β) (s : σ), l.foldlM f s = (l.filter fun b => !p b).foldlM f s
  | [], s => rfl
  | b :: l, s => by
      cases hb : p b with
      | true =>
          rw [List.foldlM_cons, hskip b hb s, List.filter_cons_of_neg (by simp [hb])]
          exact foldlM_skip hskip l s
      | false =>
          rw [List.foldlM_cons, List.filter_cons_of_pos (by simp [hb]), List.foldlM_cons]
          cases f s b with
          | error e => rfl
          | ok s' => exact foldlM_skip hskip l s'

variable (get : σ → κ → ν) (cell : β → κ)

/-- A round that makes `Q` true of its cell and leaves the others alone. -/
structure Works (Q : β → ν → Prop) (s s' : σ) (b : β) : Prop where
  own : Q b (get s' (cell b))
  others : ∀ k, k ≠ cell b → get s' k = get s k

/-- Before a round, its cell and all that belongs to no round are as they were. -/
structure Untouched (l : List β) (s₀ s : σ) (b : β) : Prop where
  own : get s (cell b) = get s₀ (cell b)
  outside : ∀ k, k ∉ l.map cell → get s k = get s₀ k

/-- What lies outside the loop, and the cells of the rounds that are left, are as they were. -/
def Intact (l m : List β) (s₀ s : σ) : Prop :=
  ∀ k, k ∉ l.map cell ∨ k ∈ m.map cell → get s k = get s₀ k

/-- The cells of these rounds are done, and all others are as they were. -/
def Done (Q : β → ν → Prop) (m : List β) (s s' : σ) : Prop :=
  (∀ b ∈ m, Q b (get s' (cell b))) ∧ ∀ k, k ∉ m.map cell → get s' k = get s k

variable {get cell} {Q : β → ν → Prop} {l m : List β} {s₀ s s₁ s' : σ} {b : β}

theorem Intact.untouched (h : Intact get cell l (b :: m) s₀ s) :
    Untouched get cell l s₀ s b :=
  ⟨h _ (Or.inr List.mem_cons_self), fun k hk => h k (Or.inl hk)⟩

theorem Works.intact (hw : Works get cell Q s s₁ b) (hb : b ∈ l) (hnot : cell b ∉ m.map cell)
    (h : Intact get cell l (b :: m) s₀ s) : Intact get cell l m s₀ s₁ := by
  intro k hk
  have hne : k ≠ cell b := by
    rintro rfl
    rcases hk with hk | hk
    · exact hk (List.mem_map.mpr ⟨b, hb, rfl⟩)
    · exact hnot hk
  rw [hw.others k hne]
  exact h k (hk.imp_right (List.mem_cons_of_mem _))

theorem Works.done (hw : Works get cell Q s s₁ b) (hnot : cell b ∉ m.map cell)
    (h : Done get cell Q m s₁ s') : Done get cell Q (b :: m) s s' := by
  refine ⟨fun x hx => ?_, fun k hk => ?_⟩
  · rcases List.mem_cons.mp hx with rfl | hx
    · rw [h.2 _ hnot]
      exact hw.own
    · exact h.1 x hx
  · rw [List.map_cons, List.mem_cons, not_or] at hk
    rw [h.2 k hk.2, hw.others k hk.1]

theorem foldlM_cells_from
    (hstep : ∀ b ∈ l, ∀ s, Untouched get cell l s₀ s b →
      ∃ s', f s b = .ok s' ∧ Works get cell Q s s' b) :
    ∀ {m : List β} {s : σ}, (∀ b ∈ m, b ∈ l) → (m.map cell).Nodup →
      Intact get cell l m s₀ s → ∃ s', m.foldlM f s = .ok s' ∧ Done get cell Q m s s'
  | [], s, _, _, _ => ⟨s, rfl, by simp, fun _ _ => rfl⟩
  | b :: m, s, hm, hnd, hs => by
      obtain ⟨hnot, hnd⟩ := List.nodup_cons.mp hnd
      have hb := hm b List.mem_cons_self
      obtain ⟨s₁, hone, hw⟩ := hstep b hb s hs.untouched
      obtain ⟨s', hrest, hdone⟩ := foldlM_cells_from hstep
        (fun x hx => hm x (List.mem_cons_of_mem _ hx)) hnd (hw.intact hb hnot hs)
      refine ⟨s', ?_, hw.done hnot hdone⟩
      rw [List.foldlM_cons, hone]
      exact hrest

/-- **Rounds that succeed on cells of their own.** -/
theorem foldlM_cells (get : σ → κ → ν) (cell : β → κ) (Q : β → ν → Prop)
    (hnd : (l.map cell).Nodup)
    (hstep : ∀ b ∈ l, ∀ s, Untouched get cell l s₀ s b →
      ∃ s', f s b = .ok s' ∧ Works get cell Q s s' b) :
    ∃ s', l.foldlM f s₀ = .ok s' ∧ Done get cell Q l s₀ s' :=
  foldlM_cells_from hstep (fun _ hb => hb) hnd fun _ _ => rfl

theorem foldlM_cells_ok_from
    (hstep : ∀ b ∈ l, ∀ s s', Untouched get cell l s₀ s b → f s b = .ok s' →
      Works get cell Q s s' b) :
    ∀ {m : List β} {s : σ}, (∀ b ∈ m, b ∈ l) → (m.map cell).Nodup →
      Intact get cell l m s₀ s → m.foldlM f s = .ok s' → Done get cell Q m s s'
  | [], s, _, _, _, h => by
      obtain rfl := Except.ok.inj h
      exact ⟨by simp, fun _ _ => rfl⟩
  | b :: m, s, hm, hnd, hs, h => by
      obtain ⟨hnot, hnd⟩ := List.nodup_cons.mp hnd
      have hb := hm b List.mem_cons_self
      rw [List.foldlM_cons] at h
      obtain ⟨s₁, hone, h⟩ := bind_eq_ok.mp h
      have hw := hstep b hb s s₁ hs.untouched hone
      exact hw.done hnot (foldlM_cells_ok_from hstep
        (fun x hx => hm x (List.mem_cons_of_mem _ hx)) hnd (hw.intact hb hnot hs) h)

/-- **A loop that succeeded on cells of its own.** -/
theorem foldlM_cells_ok (get : σ → κ → ν) (cell : β → κ) (Q : β → ν → Prop)
    (h : l.foldlM f s₀ = .ok s') (hnd : (l.map cell).Nodup)
    (hstep : ∀ b ∈ l, ∀ s s', Untouched get cell l s₀ s b → f s b = .ok s' →
      Works get cell Q s s' b) : Done get cell Q l s₀ s' :=
  foldlM_cells_ok_from hstep (fun _ hb => hb) hnd (fun _ _ => rfl) h

end LightningStream
