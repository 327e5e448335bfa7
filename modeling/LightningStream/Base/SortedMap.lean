import Mathlib.Data.List.Lex
import Mathlib.Tactic

/-!
# Sorted finite maps

A finite map as its list of entries in strictly ascending key order, with the
order carried by the structure. Lookup determines the map (`ext_get`), which
is what lets a pointwise description of an operation stand for the map it
produces. `next` and `seek` are the two moves an ordered cursor makes: the
first entry above a key, and the first entry at or above it.
-/

namespace LightningStream

universe u v

variable {K : Type u} {V : Type v} [LinearOrder K]

/-! ## Entry lists -/

/-- Sorted insertion; an entry with the same key is replaced. -/
def insertEntry (k : K) (v : V) : List (K × V) → List (K × V)
  | [] => [(k, v)]
  | e :: es =>
      if k < e.1 then (k, v) :: e :: es
      else if e.1 < k then e :: insertEntry k v es
      else (k, v) :: es

def eraseEntry (k : K) (es : List (K × V)) : List (K × V) :=
  es.filter (fun e => decide (e.1 ≠ k))

/-- Strictly ascending by key. -/
def Ascending (es : List (K × V)) : Prop :=
  es.Pairwise (fun a b => a.1 < b.1)

instance (es : List (K × V)) : Decidable (Ascending es) :=
  inferInstanceAs (Decidable (es.Pairwise (fun a b => a.1 < b.1)))

theorem lookup_cons_ite (j : K) (e : K × V) (es : List (K × V)) :
    (e :: es).lookup j = if j = e.1 then some e.2 else es.lookup j := by
  rw [List.lookup_cons]
  by_cases h : j = e.1
  · simp [h]
  · simp [beq_eq_false_iff_ne.mpr h, h]

theorem mem_insertEntry {k : K} {v : V} {x : K × V} : ∀ {es : List (K × V)},
    x ∈ insertEntry k v es → x = (k, v) ∨ x ∈ es
  | [], h => by
      simp only [insertEntry, List.mem_singleton] at h
      exact Or.inl h
  | e :: es, h => by
      unfold insertEntry at h
      split at h
      · rcases List.mem_cons.mp h with h | h
        · exact Or.inl h
        · exact Or.inr h
      · split at h
        · rcases List.mem_cons.mp h with h | h
          · exact Or.inr (h ▸ List.mem_cons_self)
          · rcases mem_insertEntry h with h | h
            · exact Or.inl h
            · exact Or.inr (List.mem_cons_of_mem _ h)
        · rcases List.mem_cons.mp h with h | h
          · exact Or.inl h
          · exact Or.inr (List.mem_cons_of_mem _ h)

theorem insertEntry_ascending {k : K} {v : V} : ∀ {es : List (K × V)},
    Ascending es → Ascending (insertEntry k v es)
  | [], _ => List.pairwise_singleton _ _
  | e :: es, hs => by
      obtain ⟨he, hes⟩ := List.pairwise_cons.mp hs
      unfold insertEntry
      split
      · rename_i hlt
        refine List.pairwise_cons.mpr ⟨?_, hs⟩
        intro x hx
        rcases List.mem_cons.mp hx with rfl | hx
        · exact hlt
        · exact hlt.trans (he x hx)
      · rename_i hnlt
        split
        · rename_i hgt
          refine List.pairwise_cons.mpr ⟨?_, insertEntry_ascending hes⟩
          intro x hx
          rcases mem_insertEntry hx with rfl | hx
          · exact hgt
          · exact he x hx
        · rename_i hngt
          have heq : k = e.1 := le_antisymm (not_lt.mp hngt) (not_lt.mp hnlt)
          refine List.pairwise_cons.mpr ⟨?_, hes⟩
          intro x hx
          rw [heq]
          exact he x hx

theorem lookup_insertEntry (k j : K) (v : V) : ∀ es : List (K × V),
    (insertEntry k v es).lookup j = if j = k then some v else es.lookup j
  | [] => by rw [insertEntry, lookup_cons_ite]
  | e :: es => by
      unfold insertEntry
      split
      · rw [lookup_cons_ite]
      · rename_i hnlt
        split
        · rename_i hgt
          rw [lookup_cons_ite, lookup_cons_ite, lookup_insertEntry k j v es]
          by_cases h : j = e.1
          · simp [h, hgt.ne]
          · simp [h]
        · rename_i hngt
          have heq : k = e.1 := le_antisymm (not_lt.mp hngt) (not_lt.mp hnlt)
          rw [lookup_cons_ite, lookup_cons_ite, ← heq]
          by_cases h : j = k <;> simp [h]

/-- In an ascending list, membership and lookup say the same. -/
theorem lookup_eq_some_of_mem {k : K} {v : V} : ∀ {es : List (K × V)},
    Ascending es → (k, v) ∈ es → es.lookup k = some v
  | e :: es, hs, h => by
      obtain ⟨he, hes⟩ := List.pairwise_cons.mp hs
      rw [lookup_cons_ite]
      rcases List.mem_cons.mp h with rfl | h
      · simp
      · rw [if_neg (he _ h).ne']
        exact lookup_eq_some_of_mem hes h

theorem mem_of_lookup_eq_some {k : K} {v : V} : ∀ {es : List (K × V)},
    es.lookup k = some v → (k, v) ∈ es
  | [], h => by simp at h
  | e :: es, h => by
      rw [lookup_cons_ite] at h
      split at h
      · rename_i hk
        rw [hk, ← Option.some.inj h]
        exact List.mem_cons_self
      · exact List.mem_cons_of_mem _ (mem_of_lookup_eq_some h)

theorem lookup_eraseEntry (k j : K) : ∀ es : List (K × V),
    (eraseEntry k es).lookup j = if j = k then none else es.lookup j
  | [] => by simp [eraseEntry]
  | e :: es => by
      have ih := lookup_eraseEntry k j es
      unfold eraseEntry at ih ⊢
      by_cases he : e.1 = k
      · rw [List.filter_cons_of_neg (by simp [he]), ih, lookup_cons_ite]
        by_cases hj : j = k <;> simp [hj, he]
      · rw [List.filter_cons_of_pos (by simp [he]), lookup_cons_ite,
          lookup_cons_ite, ih]
        by_cases hj : j = e.1
        · simp [hj, he]
        · simp [hj]

/-- Strictly ascending lists with the same members are equal. -/
theorem ascending_ext : ∀ {es fs : List (K × V)}, Ascending es → Ascending fs →
    (∀ x, x ∈ es ↔ x ∈ fs) → es = fs
  | [], [], _, _, _ => rfl
  | [], f :: fs, _, _, h => by
      exact absurd ((h f).mpr List.mem_cons_self) (by simp)
  | e :: es, [], _, _, h => by
      exact absurd ((h e).mp List.mem_cons_self) (by simp)
  | e :: es, f :: fs, hs, hs', h => by
      obtain ⟨he, hes⟩ := List.pairwise_cons.mp hs
      obtain ⟨hf, hfs⟩ := List.pairwise_cons.mp hs'
      have hef : e = f := by
        rcases List.mem_cons.mp ((h e).mp List.mem_cons_self) with h1 | h1
        · exact h1
        · rcases List.mem_cons.mp ((h f).mpr List.mem_cons_self) with h2 | h2
          · exact h2.symm
          · exact absurd (hf e h1) (he f h2).not_gt
      subst hef
      have htails : ∀ x, x ∈ es ↔ x ∈ fs := by
        intro x
        constructor
        · intro hx
          rcases List.mem_cons.mp ((h x).mp (List.mem_cons_of_mem _ hx)) with rfl | h1
          · exact absurd (he x hx) (lt_irrefl _)
          · exact h1
        · intro hx
          rcases List.mem_cons.mp ((h x).mpr (List.mem_cons_of_mem _ hx)) with rfl | h1
          · exact absurd (hf x hx) (lt_irrefl _)
          · exact h1
      rw [ascending_ext hes hfs htails]

/-- Insertion into the first of two blocks, or the second. -/
theorem insertEntry_append_left {k : K} {v : V} : ∀ {es fs : List (K × V)},
    (∀ f ∈ fs, k < f.1) → insertEntry k v (es ++ fs) = insertEntry k v es ++ fs
  | [], [], _ => rfl
  | [], f :: fs, hfs => if_pos (hfs f List.mem_cons_self)
  | e :: es, fs, hfs => by
      rw [List.cons_append, insertEntry, insertEntry, insertEntry_append_left hfs]
      split_ifs <;> rfl

theorem insertEntry_append_right {k : K} {v : V} : ∀ {es fs : List (K × V)},
    (∀ e ∈ es, e.1 < k) → insertEntry k v (es ++ fs) = es ++ insertEntry k v fs
  | [], _, _ => rfl
  | e :: es, fs, hes => by
      have hlt := hes e List.mem_cons_self
      rw [List.cons_append, insertEntry, if_neg hlt.not_gt, if_pos hlt,
        insertEntry_append_right fun x hx => hes x (List.mem_cons_of_mem _ hx)]
      rfl

/-- Insertion between the two. -/
theorem insertEntry_split {k : K} {v : V} {es fs : List (K × V)} (hes : ∀ e ∈ es, e.1 < k)
    (hfs : ∀ f ∈ fs, k < f.1) : insertEntry k v (es ++ fs) = es ++ (k, v) :: fs :=
  calc insertEntry k v (es ++ fs)
      = es ++ insertEntry k v ([] ++ fs) := insertEntry_append_right hes
    _ = es ++ (k, v) :: fs := by rw [insertEntry_append_left hfs]; rfl

/-- Replacing an entry in place. -/
theorem insertEntry_replace {k : K} {v w : V} {es fs : List (K × V)} (hes : ∀ e ∈ es, e.1 < k) :
    insertEntry k v (es ++ (k, w) :: fs) = es ++ (k, v) :: fs := by
  rw [insertEntry_append_right hes, insertEntry, if_neg (lt_irrefl _), if_neg (lt_irrefl _)]

theorem eraseEntry_split {k : K} {v : V} {es fs : List (K × V)}
    (hes : ∀ e ∈ es, e.1 < k) (hfs : ∀ f ∈ fs, k < f.1) :
    eraseEntry k (es ++ (k, v) :: fs) = es ++ fs := by
  unfold eraseEntry
  rw [List.filter_append, List.filter_cons_of_neg (by simp)]
  congr 1
  · apply List.filter_eq_self.mpr
    intro e he
    simpa using (hes e he).ne
  · apply List.filter_eq_self.mpr
    intro f hf
    simpa using (hfs f hf).ne'

/-! ## Maps -/

/-- A finite map in canonical form. -/
@[ext] structure SortedMap (K : Type u) (V : Type v) [LinearOrder K] where
  entries : List (K × V)
  sorted : Ascending entries

namespace SortedMap

variable {m m' : SortedMap K V} {k j : K} {v w : V}

instance [DecidableEq V] : DecidableEq (SortedMap K V) := fun m m' =>
  decidable_of_iff (m.entries = m'.entries) (SortedMap.ext_iff (x := m) (y := m')).symm

def empty : SortedMap K V := ⟨[], List.Pairwise.nil⟩

def get (m : SortedMap K V) (k : K) : Option V := m.entries.lookup k

def keys (m : SortedMap K V) : List K := m.entries.map Prod.fst

def insert (m : SortedMap K V) (k : K) (v : V) : SortedMap K V :=
  ⟨insertEntry k v m.entries, insertEntry_ascending m.sorted⟩

def erase (m : SortedMap K V) (k : K) : SortedMap K V :=
  ⟨eraseEntry k m.entries, m.sorted.filter _⟩

/-- The first entry above `k`, or the first entry at all. -/
def next (m : SortedMap K V) : Option K → Option (K × V)
  | none => m.entries.head?
  | some k => m.entries.find? (fun e => decide (k < e.1))

/-- The first entry at or above `k`. -/
def seek (m : SortedMap K V) (k : K) : Option (K × V) :=
  m.entries.find? (fun e => decide (k ≤ e.1))

theorem mem_entries_iff : (k, v) ∈ m.entries ↔ m.get k = some v :=
  ⟨lookup_eq_some_of_mem m.sorted, mem_of_lookup_eq_some⟩

theorem mem_keys_iff : k ∈ m.keys ↔ ∃ v, m.get k = some v := by
  simp only [keys, List.mem_map, Prod.exists, mem_entries_iff, exists_and_right,
    exists_eq_right]

theorem get_insert : (m.insert k v).get j = if j = k then some v else m.get j :=
  lookup_insertEntry k j v m.entries

theorem get_erase : (m.erase k).get j = if j = k then none else m.get j :=
  lookup_eraseEntry k j m.entries

/-- Lookup determines the map. -/
theorem ext_get (h : ∀ k, m.get k = m'.get k) : m = m' := by
  apply SortedMap.ext
  apply ascending_ext m.sorted m'.sorted
  rintro ⟨k, v⟩
  rw [mem_entries_iff, mem_entries_iff, h]

theorem mem_keys_insert : j ∈ (m.insert k v).keys ↔ j = k ∨ j ∈ m.keys := by
  simp only [mem_keys_iff, get_insert]
  by_cases h : j = k <;> simp [h]

theorem mem_keys_erase : j ∈ (m.erase k).keys ↔ j ≠ k ∧ j ∈ m.keys := by
  simp only [mem_keys_iff, get_erase]
  by_cases h : j = k <;> simp [h]

theorem keys_sorted (m : SortedMap K V) : m.keys.Pairwise (· < ·) :=
  List.pairwise_map.mpr m.sorted

/-! ### Cursor moves -/

theorem next_eq_some {p : K} (h : m.next (some p) = some (k, v)) :
    p < k ∧ m.get k = some v := by
  have hk := List.find?_some h
  have hm := List.mem_of_find?_eq_some h
  exact ⟨by simpa using hk, mem_entries_iff.mp hm⟩

theorem seek_eq_some {p : K} (h : m.seek p = some (k, v)) :
    p ≤ k ∧ m.get k = some v := by
  have hk := List.find?_some h
  have hm := List.mem_of_find?_eq_some h
  exact ⟨by simpa using hk, mem_entries_iff.mp hm⟩

/-- The first entry satisfying an upward closed condition is below every
other entry that does. -/
private theorem find?_least {p : K → Prop} [DecidablePred p] {es : List (K × V)}
    (hs : Ascending es) (h : es.find? (fun e => decide (p e.1)) = some (k, v))
    {x : K × V} (hx : x ∈ es) (hp : p x.1) : k ≤ x.1 := by
  obtain ⟨-, as, bs, heq, has⟩ := List.find?_eq_some_iff_append.mp h
  rw [heq] at hx
  rcases List.mem_append.mp hx with hx | hx
  · exact absurd (has x hx) (by simpa using hp)
  · rcases List.mem_cons.mp hx with rfl | hx
    · exact le_rfl
    · have hpw := (List.pairwise_append.mp (heq ▸ hs)).2.1
      exact ((List.pairwise_cons.mp hpw).1 x hx).le

theorem next_least {p : K} (h : m.next (some p) = some (k, v)) (hj : j ∈ m.keys)
    (hp : p < j) : k ≤ j := by
  obtain ⟨x, hx, rfl⟩ := List.mem_map.mp hj
  exact find?_least (p := fun y => p < y) m.sorted h hx hp

theorem next_none {p : K} (h : m.next (some p) = none) (hj : j ∈ m.keys) : j ≤ p := by
  obtain ⟨x, hx, rfl⟩ := List.mem_map.mp hj
  have := List.find?_eq_none.mp h x hx
  simpa using this

theorem seek_least {p : K} (h : m.seek p = some (k, v)) (hj : j ∈ m.keys)
    (hp : p ≤ j) : k ≤ j := by
  obtain ⟨x, hx, rfl⟩ := List.mem_map.mp hj
  exact find?_least (p := fun y => p ≤ y) m.sorted h hx hp

theorem seek_none {p : K} (h : m.seek p = none) (hj : j ∈ m.keys) : j < p := by
  obtain ⟨x, hx, rfl⟩ := List.mem_map.mp hj
  have := List.find?_eq_none.mp h x hx
  simpa using this

theorem next_none_least (h : m.next none = some (k, v)) (hj : j ∈ m.keys) : k ≤ j := by
  obtain ⟨x, hx, rfl⟩ := List.mem_map.mp hj
  obtain ⟨es, hes⟩ : ∃ es, m.entries = (k, v) :: es := by
    cases hm : m.entries with
    | nil => simp [next, hm] at h
    | cons e es =>
        simp only [next, hm, List.head?_cons, Option.some.injEq] at h
        exact ⟨es, by rw [h]⟩
  rw [hes] at hx
  rcases List.mem_cons.mp hx with rfl | hx
  · exact le_rfl
  · exact ((List.pairwise_cons.mp (hes ▸ m.sorted)).1 x hx).le

/-- From a split of the entries, the move past the left block's keys reaches
the head of the right block. -/
theorem next_of_split {p : K} {es fs : List (K × V)} (heq : m.entries = es ++ fs)
    (hes : ∀ e ∈ es, e.1 ≤ p) (hfs : ∀ f ∈ fs, p < f.1) :
    m.next (some p) = fs.head? := by
  have hnone : es.find? (fun e => decide (p < e.1)) = none := by
    apply List.find?_eq_none.mpr
    intro e he
    simpa using hes e he
  rw [next, heq, List.find?_append, hnone, Option.none_or]
  cases fs with
  | nil => rfl
  | cons f fs => simp [hfs f List.mem_cons_self]

end SortedMap

end LightningStream
