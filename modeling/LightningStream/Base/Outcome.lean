import Mathlib.Tactic

/-!
# Computations that may fail

Inversion rules for `Except`: from a run that returned a value, recover the
runs of its parts.
-/

namespace LightningStream

universe u v w

variable {ε : Type u} {α β : Type v}

theorem bind_eq_ok {x : Except ε α} {f : α → Except ε β} {b : β} :
    (x >>= f) = .ok b ↔ ∃ a, x = .ok a ∧ f a = .ok b := by
  cases x with
  | error e => simp [bind, Except.bind]
  | ok a => simp [bind, Except.bind]

theorem mapError_eq_ok {ε' : Type w} {x : Except ε α} {g : ε → ε'} {a : α} :
    x.mapError g = .ok a ↔ x = .ok a := by
  cases x <;> simp [Except.mapError]

/-- A relation that every step of a monadic fold respects, reflexive and
transitive, relates its ends. -/
theorem foldlM_rel {f : α → β → Except ε α} {R : α → α → Prop}
    (hrefl : ∀ a, R a a) (htrans : ∀ {a b c}, R a b → R b c → R a c)
    (hstep : ∀ {a b a'}, f a b = .ok a' → R a a') :
    ∀ {bs : List β} {a a' : α}, bs.foldlM f a = .ok a' → R a a'
  | [], a, a', h => by
      rw [List.foldlM_nil] at h
      rw [← Except.ok.inj h]
      exact hrefl a
  | b :: bs, a, a', h => by
      rw [List.foldlM_cons] at h
      obtain ⟨a₁, h₁, h₂⟩ := bind_eq_ok.mp h
      exact htrans (hstep h₁) (foldlM_rel hrefl htrans hstep h₂)

/-- What every step of a monadic fold keeps, the fold keeps. -/
theorem foldlM_invariant {f : α → β → Except ε α} {I : α → Prop} :
    ∀ {bs : List β} {a a' : α}, (∀ b ∈ bs, ∀ a a', I a → f a b = .ok a' → I a') →
      bs.foldlM f a = .ok a' → I a → I a'
  | [], a, a', _, h, ha => by
      rw [List.foldlM_nil] at h
      rw [← Except.ok.inj h]
      exact ha
  | b :: bs, a, a', hstep, h, ha => by
      rw [List.foldlM_cons] at h
      obtain ⟨a₁, h₁, h₂⟩ := bind_eq_ok.mp h
      exact foldlM_invariant (fun x hx => hstep x (List.mem_cons_of_mem _ hx)) h₂
        (hstep b List.mem_cons_self a a₁ ha h₁)

/-- A step that fails in every state. -/
theorem foldlM_error {f : α → β → Except ε α} {b : β} (hb : ∀ a, ∃ e, f a b = .error e) :
    ∀ {bs : List β}, b ∈ bs → ∀ a, ∃ e, bs.foldlM f a = .error e
  | c :: bs, hmem, a => by
      rw [List.foldlM_cons]
      cases hc : f a c with
      | error e => exact ⟨e, rfl⟩
      | ok a' =>
          rcases List.mem_cons.mp hmem with rfl | hmem
          · obtain ⟨e, he⟩ := hb a
            rw [he] at hc
            cases hc
          · exact foldlM_error hb hmem a'

/-- A counter in the state. -/
theorem foldlM_count {f : α → β → Except ε α} {p : β → Prop} [DecidablePred p] {n : α → ℕ}
    (hstep : ∀ a b a', f a b = .ok a' → n a' = n a + if p b then 1 else 0) :
    ∀ {bs : List β} {a a' : α}, bs.foldlM f a = .ok a' →
      n a' = n a + bs.countP fun b => decide (p b)
  | [], a, a', h => by
      obtain rfl := Except.ok.inj h
      rfl
  | b :: bs, a, a', h => by
      rw [List.foldlM_cons] at h
      obtain ⟨a₁, hone, h⟩ := bind_eq_ok.mp h
      rw [foldlM_count hstep h, hstep a b a₁ hone, List.countP_cons]
      simp only [decide_eq_true_eq]
      omega

/-- Two folds whose steps correspond. -/
theorem foldlM_sim {f : α → β → Except ε α} {R : α → α → Prop}
    (hstep : ∀ {a a' b r}, R a a' → f a b = .ok r → ∃ r', f a' b = .ok r' ∧ R r r') :
    ∀ {bs : List β} {a a' r : α}, R a a' → bs.foldlM f a = .ok r →
      ∃ r', bs.foldlM f a' = .ok r' ∧ R r r'
  | [], a, a', r, hR, h => by
      rw [List.foldlM_nil] at h
      obtain rfl := Except.ok.inj h
      exact ⟨a', rfl, hR⟩
  | b :: bs, a, a', r, hR, h => by
      rw [List.foldlM_cons] at h
      obtain ⟨a₁, hone, h⟩ := bind_eq_ok.mp h
      obtain ⟨a₁', hone', hR₁⟩ := hstep hR hone
      obtain ⟨r', hrest, hR'⟩ := foldlM_sim hstep hR₁ h
      refine ⟨r', ?_, hR'⟩
      rw [List.foldlM_cons, hone']
      exact hrest

theorem mapM_eq_ok_map {f : α → Except ε β} {g : α → β} : ∀ {l : List α},
    (∀ a ∈ l, f a = .ok (g a)) → l.mapM f = .ok (l.map g)
  | [], _ => rfl
  | a :: l, h => by
      rw [List.mapM_cons, h a List.mem_cons_self,
        mapM_eq_ok_map fun b hb => h b (List.mem_cons_of_mem _ hb)]
      rfl

theorem mapM_ok_of_mem {f : α → Except ε β} {a : α} : ∀ {l : List α} {bs : List β},
    l.mapM f = .ok bs → a ∈ l → ∃ b ∈ bs, f a = .ok b
  | c :: l, bs, h, ha => by
      rw [List.mapM_cons] at h
      obtain ⟨b, hb, h⟩ := bind_eq_ok.mp h
      obtain ⟨bs', hbs, h⟩ := bind_eq_ok.mp h
      rw [← Except.ok.inj h]
      rcases List.mem_cons.mp ha with rfl | ha
      · exact ⟨b, List.mem_cons_self, hb⟩
      · obtain ⟨b', hb', hf⟩ := mapM_ok_of_mem hbs ha
        exact ⟨b', List.mem_cons_of_mem _ hb', hf⟩

/-- A list of results that stand for the elements of a list. -/
theorem exists_mapM_ok {γ : Type*} {f : α → Except ε β} {g : γ → β} {R : α → γ → Prop} :
    ∀ {l : List α}, (∀ a ∈ l, ∃ c, f a = .ok (g c) ∧ R a c) →
      ∃ cs, l.mapM f = .ok (cs.map g) ∧ List.Forall₂ R l cs
  | [], _ => ⟨[], rfl, .nil⟩
  | a :: l, h => by
      obtain ⟨c, hc, hR⟩ := h a List.mem_cons_self
      obtain ⟨cs, hcs, hRs⟩ := exists_mapM_ok fun b hb => h b (List.mem_cons_of_mem _ hb)
      refine ⟨c :: cs, ?_, .cons hR hRs⟩
      rw [List.mapM_cons, hc, hcs]
      rfl

/-- What leads back from each element leads back from the list. -/
theorem mapM_of_forall₂ {γ : Type*} {f : β → Except ε α} {R : α → γ → Prop} {S : γ → β → Prop}
    (hf : ∀ a c b, R a c → S c b → f b = .ok a) {l : List α} {cs : List γ} {bs : List β}
    (hR : List.Forall₂ R l cs) (hS : List.Forall₂ S cs bs) : bs.mapM f = .ok l := by
  induction hR generalizing bs with
  | nil =>
      cases hS
      rfl
  | cons hac _ ih =>
      cases hS with
      | cons hcb hrest =>
          rw [List.mapM_cons, hf _ _ _ hac hcb, ih hrest]
          rfl

end LightningStream
