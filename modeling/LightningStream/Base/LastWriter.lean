import Mathlib.Data.Prod.Lex
import Mathlib.Order.Bounds.Basic
import Mathlib.Order.WithBot
import Mathlib.Tactic

/-!
# Replicated maps that keep the greatest write

Replicas hold, for every key, the greatest value they have heard of in some
linear order. A replica writes by dominating what it holds, publishes copies
of its map, and loads any copy ever published by taking the maximum key by
key. What a replica has heard of is a ghost set carried along with its map
and with every copy.

However writes, copies and loads interleave, each replica holds exactly the
greatest of what it has heard of (`reachable_latest`), so replicas that have
heard of the same writes hold the same map.
-/

namespace LightningStream.LastWriter

universe u v w

variable {α : Type u} [LinearOrder α]

/-- The greatest element of a set, or `⊥` for the empty set. -/
def Latest (S : Set α) (o : WithBot α) : Prop :=
  IsGreatest (insert ⊥ (Set.image WithBot.some S)) o

theorem latest_empty : Latest (∅ : Set α) ⊥ := by
  simp [Latest, IsGreatest, upperBounds]

theorem Latest.unique {S : Set α} {o o' : WithBot α} (h : Latest S o) (h' : Latest S o') :
    o = o' :=
  IsGreatest.unique h h'

theorem Latest.union {S T : Set α} {o o' : WithBot α} (h : Latest S o) (h' : Latest T o') :
    Latest (S ∪ T) (max o o') := by
  have hu := IsGreatest.union h h'
  unfold Latest
  rw [Set.image_union, Set.insert_union_distrib]
  exact hu

theorem Latest.insert {S : Set α} {o : WithBot α} {a : α} (h : Latest S o) (ho : o < a) :
    Latest (Insert.insert a S) a := by
  refine ⟨Or.inr ⟨a, Or.inl rfl, rfl⟩, ?_⟩
  rintro x (rfl | ⟨b, rfl | hb, rfl⟩)
  · exact bot_le
  · exact le_rfl
  · exact (h.2 (Or.inr ⟨b, hb, rfl⟩)).trans ho.le

theorem latest_coe_iff {S : Set α} {a : α} : Latest S a ↔ IsGreatest S a := by
  constructor
  · rintro ⟨hmem | ⟨b, hb, hba⟩, hub⟩
    · exact absurd hmem (WithBot.coe_ne_bot)
    · refine ⟨WithBot.coe_inj.mp hba ▸ hb, fun c hc => ?_⟩
      exact WithBot.coe_le_coe.mp (hub (Or.inr ⟨c, hc, rfl⟩))
  · rintro ⟨hmem, hub⟩
    refine ⟨Or.inr ⟨a, hmem, rfl⟩, ?_⟩
    rintro x (rfl | ⟨b, hb, rfl⟩)
    · exact bot_le
    · exact WithBot.coe_le_coe.mpr (hub hb)

theorem latest_bot_iff {S : Set α} : Latest S ⊥ ↔ S = ∅ := by
  constructor
  · intro h
    by_contra hne
    obtain ⟨a, ha⟩ := Set.nonempty_iff_ne_empty.mpr hne
    have hle := h.2 (Or.inr ⟨a, ha, rfl⟩)
    exact absurd hle (by simp)
  · rintro rfl
    exact latest_empty

/-! ## The replicated map -/

variable {ι : Type v} {K : Type w}

/-- A map with what its owner has heard of. -/
structure Copy (K : Type w) (α : Type u) where
  held : K → WithBot α
  heard : Set (K × α)

structure Net (ι : Type v) (K : Type w) (α : Type u) where
  replica : ι → Copy K α
  published : Set (Copy K α)

/-- The writes to one key. -/
def writesTo (W : Set (K × α)) (k : K) : Set α := {a | (k, a) ∈ W}

/-- A copy holds exactly the latest of what its owner has heard of. -/
def Copy.Faithful (c : Copy K α) : Prop :=
  ∀ k, Latest (writesTo c.heard k) (c.held k)

def Copy.join (c d : Copy K α) : Copy K α :=
  ⟨fun k => max (c.held k) (d.held k), c.heard ∪ d.heard⟩

theorem Copy.Faithful.join {c d : Copy K α} (hc : c.Faithful) (hd : d.Faithful) :
    (c.join d).Faithful := fun k => (hc k).union (hd k)

variable [DecidableEq ι] [DecidableEq K]

def Copy.write (c : Copy K α) (k : K) (a : α) : Copy K α :=
  ⟨Function.update c.held k a, Insert.insert (k, a) c.heard⟩

inductive Step : Net ι K α → Net ι K α → Prop
  | write {s : Net ι K α} (i : ι) (k : K) (a : α) (h : (s.replica i).held k < a) :
      Step s { s with
        replica := Function.update s.replica i ((s.replica i).write k a) }
  | publish {s : Net ι K α} (i : ι) :
      Step s { s with published := Insert.insert (s.replica i) s.published }
  | load {s : Net ι K α} (i : ι) (c : Copy K α) (h : c ∈ s.published) :
      Step s { s with
        replica := Function.update s.replica i ((s.replica i).join c) }

theorem Copy.Faithful.write {c : Copy K α} (hc : c.Faithful) {k : K} {a : α}
    (h : c.held k < a) : (c.write k a).Faithful := by
  intro j
  by_cases hj : j = k
  · subst hj
    have hset : writesTo (c.write j a).heard j = Insert.insert a (writesTo c.heard j) := by
      ext b
      simp [writesTo, Copy.write]
    rw [hset, show (c.write j a).held j = a from Function.update_self ..]
    exact (hc j).insert h
  · have hset : writesTo (c.write k a).heard j = writesTo c.heard j := by
      ext b
      simp [writesTo, Copy.write, hj]
    rw [hset, show (c.write k a).held j = c.held j from Function.update_of_ne hj ..]
    exact hc j

/-- Every replica and every published copy is faithful. -/
structure Net.Sound (s : Net ι K α) : Prop where
  replicas : ∀ i, (s.replica i).Faithful
  copies : ∀ c ∈ s.published, c.Faithful

omit [DecidableEq K] in
theorem Net.Sound.replace {s : Net ι K α} (h : s.Sound) {i : ι} {c : Copy K α}
    (hc : c.Faithful) : Net.Sound { s with replica := Function.update s.replica i c } := by
  refine ⟨fun j => ?_, h.copies⟩
  show (Function.update s.replica i c j).Faithful
  by_cases hj : j = i
  · subst hj
    rw [Function.update_self]
    exact hc
  · rw [Function.update_of_ne hj]
    exact h.replicas j

theorem Step.sound {s s' : Net ι K α} (hs : Step s s') (h : s.Sound) : s'.Sound := by
  cases hs with
  | write i k a hlt => exact h.replace ((h.replicas i).write hlt)
  | publish i =>
      refine ⟨h.replicas, ?_⟩
      rintro c (rfl | hc)
      · exact h.replicas i
      · exact h.copies c hc
  | load i c hc => exact h.replace ((h.replicas i).join (h.copies c hc))

/-- In every run, every replica holds the latest of what it has heard of. -/
theorem reachable_latest {s s' : Net ι K α} (h : s.Sound)
    (hr : Relation.ReflTransGen Step s s') : s'.Sound := by
  induction hr with
  | refl => exact h
  | tail _ hstep ih => exact hstep.sound ih

end LightningStream.LastWriter
