import Mathlib.Order.Lattice.Nat
import Mathlib.Tactic

/-!
# Archives

An archive to which several producers add items, and from which items are removed again.
What an item holds is an element of some preorder. The items are numbered in the order in
which they are added.

A producer adds an item only if it holds all that the items of the same producer hold that
are still there. An item may be removed when its producer has added a later one, and also
when some later item, of whichever producer, holds all that an item of its producer holds
that was not added before it. Whoever decides on a removal may do so on the ground of
items that are gone by then.

Nothing is lost that way: for every item ever added there is one in the archive that holds
as much (`Archive.Step.sound`), and it can be the last one there of its producer
(`Archive.Sound.newest`).
-/

namespace LightningStream

universe u v

structure Item (π : Type u) (κ : Type v) where
  producer : π
  number : ℕ
  content : κ

/-- All items ever added, and those that are still there. -/
structure Archive (π : Type u) (κ : Type v) where
  added : Set (Item π κ)
  present : Set (Item π κ)

namespace Archive

variable {π : Type u} {κ : Type v} [Preorder κ]

inductive Step (a : Archive π κ) : Archive π κ → Prop
  | add (x : Item π κ) (hlast : ∀ y ∈ a.added, y.number < x.number)
      (hown : ∀ y ∈ a.present, y.producer = x.producer → y.content ≤ x.content) :
      Step a ⟨insert x a.added, insert x a.present⟩
  /-- The producer has added a later item. -/
  | supersede {x y : Item π κ} (hy : y ∈ a.added) (hp : y.producer = x.producer)
      (hlt : x.number < y.number) : Step a ⟨a.added, a.present \ {x}⟩
  /-- A later item holds what an item of the same producer holds. -/
  | absorb {x y z : Item π κ} (hy : y ∈ a.added) (hp : y.producer = x.producer)
      (hle : x.number ≤ y.number) (hz : z ∈ a.added) (hlt : y.number < z.number)
      (hheld : y.content ≤ z.content) : Step a ⟨a.added, a.present \ {x}⟩

/-- Nothing that was added is lost. -/
structure Sound (a : Archive π κ) : Prop where
  subset : a.present ⊆ a.added
  number : ∀ x ∈ a.added, ∀ y ∈ a.added, x.number = y.number → x = y
  /-- What is still there was held by all later items of the producer. -/
  ordered : ∀ x ∈ a.present, ∀ y ∈ a.added, y.producer = x.producer → x.number ≤ y.number →
    x.content ≤ y.content
  covered : ∀ x ∈ a.added, ∃ y ∈ a.present, x.number ≤ y.number ∧ x.content ≤ y.content

variable {a b : Archive π κ}

theorem sound_empty : Sound (⟨∅, ∅⟩ : Archive π κ) :=
  ⟨fun _ h => h, fun _ h => h.elim, fun _ h => h.elim, fun _ h => h.elim⟩

theorem Sound.add (h : Sound a) {x : Item π κ} (hlast : ∀ y ∈ a.added, y.number < x.number)
    (hown : ∀ y ∈ a.present, y.producer = x.producer → y.content ≤ x.content) :
    Sound (⟨insert x a.added, insert x a.present⟩ : Archive π κ) := by
  constructor
  · exact Set.insert_subset_insert h.subset
  · rintro y (rfl | hy) z (rfl | hz) heq
    · rfl
    · exact absurd heq (hlast z hz).ne'
    · exact absurd heq (hlast y hy).ne
    · exact h.number y hy z hz heq
  · rintro y (rfl | hy) z (rfl | hz) hp hle
    · exact le_rfl
    · exact absurd (hlast z hz) (not_lt.mpr hle)
    · exact hown y hy hp.symm
    · exact h.ordered y hy z hz hp hle
  · rintro y (rfl | hy)
    · exact ⟨y, Or.inl rfl, le_rfl, le_rfl⟩
    · obtain ⟨z, hz, hcover⟩ := h.covered y hy
      exact ⟨z, Or.inr hz, hcover⟩

/-- What a removed item covered is covered by whatever covers the later item. -/
theorem Sound.remove (h : Sound a) {x z : Item π κ} (hz : z ∈ a.added)
    (hlt : x.number < z.number) (hheld : x ∈ a.present → x.content ≤ z.content) :
    Sound (⟨a.added, a.present \ {x}⟩ : Archive π κ) := by
  refine ⟨fun y hy => h.subset hy.1, h.number, fun y hy => h.ordered y hy.1, fun y hy => ?_⟩
  obtain ⟨w, hw, hnum, hcontent⟩ := h.covered y hy
  by_cases hx : w = x
  · subst hx
    obtain ⟨w', hw', hnum', hcontent'⟩ := h.covered z hz
    refine ⟨w', ⟨hw', ?_⟩, by omega, hcontent.trans ((hheld hw).trans hcontent')⟩
    rintro rfl
    omega
  · exact ⟨w, ⟨hw, hx⟩, hnum, hcontent⟩

/-- **One step loses nothing.** -/
theorem Step.sound (hstep : Step a b) (h : Sound a) : Sound b := by
  cases hstep with
  | add x hlast hown => exact h.add hlast hown
  | supersede hy hp hlt =>
      exact h.remove hy hlt fun hx => h.ordered _ hx _ hy hp hlt.le
  | absorb hy hp hle hz hlt hheld =>
      exact h.remove hz (hle.trans_lt hlt) fun hx => (h.ordered _ hx _ hy hp hle).trans hheld

/-- What was ever added is held by the last item of some producer. -/
theorem Sound.newest (h : Sound a) {n : ℕ} (hbound : ∀ x ∈ a.added, x.number ≤ n)
    {x : Item π κ} (hx : x ∈ a.added) :
    ∃ y ∈ a.present, x.content ≤ y.content ∧
      ∀ z ∈ a.present, z.producer = y.producer → z.number ≤ y.number := by
  obtain ⟨y, hy, -, hle⟩ := h.covered x hx
  -- the greatest number among the items of that producer
  let N : Set ℕ := {k | ∃ z ∈ a.present, z.producer = y.producer ∧ z.number = k}
  have hne : N.Nonempty := ⟨y.number, y, hy, rfl, rfl⟩
  have hbdd : BddAbove N := by
    refine ⟨n, ?_⟩
    rintro k ⟨z, hz, -, rfl⟩
    exact hbound z (h.subset hz)
  obtain ⟨z, hz, hp, hnum⟩ := Nat.sSup_mem hne hbdd
  have hmax : ∀ w ∈ a.present, w.producer = y.producer → w.number ≤ z.number := by
    intro w hw hwp
    rw [hnum]
    exact le_csSup hbdd ⟨w, hw, hwp, rfl⟩
  refine ⟨z, hz, hle.trans (h.ordered y hy z (h.subset hz) hp (hmax y hy rfl)), ?_⟩
  intro w hw hwp
  exact hmax w hw (hwp.trans hp)

end Archive

end LightningStream
