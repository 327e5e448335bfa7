import LightningStream.Base.Outcome
import LightningStream.Lmdb

/-!
# The iterator interface and the `Update` strategy

The strategies drive an `Iterator` into one DBI. An iterator is modelled by
what its `Next` calls return, in order, and how they end; `Merge` and `Clean`
may look at the entry `Next` returned last and at the stored value.

`Update` looks every key up. `update_spec` describes its result key by key,
and nothing outside this file unfolds the strategy.
-/

namespace LightningStream.Strategy

open Lmdb

/-! ## The iterator interface -/

/-- A Go slice that may be nil is an `Option Bytes`. -/
structure Iterator (E ε : Type) where
  /-- What successive `Next` calls return. -/
  entries : List E
  /-- The error that ends them; `none` is `io.EOF`. -/
  ending : Option ε
  key : E → Bytes
  /-- The second argument is the stored value, nil for a key that is not there. -/
  merge : E → Option Bytes → Except ε (Option Bytes)
  /-- The first argument is the entry of the last `Next` call, if any. -/
  clean : Option E → Bytes → Except ε (Option Bytes)

inductive StratErr (ε : Type)
  | next (e : ε)
  | get (e : LmdbErr)
  | merge (e : ε)
  | clean (e : ε)
  | del (e : LmdbErr)
  | put (e : LmdbErr)
  | append (e : LmdbErr)
  /-- `ErrNotSorted`, wrapped with the offending key. -/
  | notSorted (key : Bytes)
  /-- The order check keeps the previous key in a buffer of 511 bytes. -/
  | keyTooLong
  | outOfFuel
deriving DecidableEq

variable {E ε : Type}

/-- An empty slice and nil both stand for "no value". -/
def present : Option Bytes → Option Bytes
  | some (b :: bs) => some (b :: bs)
  | _ => none

@[simp] theorem present_none : present none = none := rfl

@[simp] theorem present_nil : present (some []) = none := rfl

@[simp] theorem present_present (r : Option Bytes) : present (present r) = present r := by
  rcases r with - | - | ⟨b, bs⟩ <;> rfl

theorem present_eq_some {r : Option Bytes} {v : Bytes} :
    present r = some v ↔ r = some v ∧ v ≠ [] := by
  rcases r with - | - | ⟨b, bs⟩
  · simp
  · simp only [present_nil, reduceCtorEq, Option.some.injEq, false_iff, not_and, not_not]
    exact fun h => h.symm
  · simp only [present, Option.some.injEq]
    constructor
    · rintro rfl
      exact ⟨rfl, by simp⟩
    · exact fun h => h.1

namespace Iterator

/-- The entry an iterator yields for a key. -/
def find (it : Iterator E ε) (k : Bytes) : Option E :=
  it.entries.find? (fun e => decide (it.key e = k))

def keys (it : Iterator E ε) : List Bytes := it.entries.map it.key

end Iterator

/-! ## Update -/

def setNewVal (t : Txn) (key oldVal : Bytes) (newVal : Option Bytes) :
    Except (StratErr ε) Txn :=
  match present newVal with
  | none =>
      match t.del key with
      | .ok t' => .ok t'
      | .error .notFound => .ok t
      | .error e => .error (.del e)
  | some v =>
      if v = oldVal then .ok t
      else (t.put key v).mapError .put

/-- The lookup in `Update`: a missing key is fine and reads as nil. -/
def getOld (t : Txn) (k : Bytes) : Except (StratErr ε) (Option Bytes) :=
  match t.get k with
  | .ok v => .ok (some v)
  | .error .notFound => .ok none
  | .error err => .error (.get err)

/-- One round of the loop in `Update`. -/
def updateOne (it : Iterator E ε) (t : Txn) (e : E) : Except (StratErr ε) Txn := do
  let dbv ← getOld t (it.key e)
  let val ← (it.merge e dbv).mapError .merge
  setNewVal t (it.key e) (dbv.getD []) val

def update (t : Txn) (it : Iterator E ε) : Except (StratErr ε) Txn := do
  let t' ← it.entries.foldlM (updateOne it) t
  match it.ending with
  | none => .ok t'
  | some e => .error (.next e)

/-- The bytes of the stored value; nil has none. -/
def oldVal (d : Dbi) (k : Bytes) : Bytes := (d.get k).getD []

theorem getOld_eq {t : Txn} {k : Bytes} (hk : k ≠ []) :
    getOld (ε := ε) t k = .ok (t.dbi.get k) := by
  rw [getOld, Txn.get, if_neg hk]
  cases t.dbi.get k <;> rfl

theorem setNewVal_spec {t : Txn} {k : Bytes} {r : Option Bytes} (hk : k ≠ [])
    (ha : present r ≠ none → t.dbi.flags.Allowed (k :: t.dbi.keys)) :
    ∃ t', setNewVal (ε := ε) t k (oldVal t.dbi k) r = .ok t' ∧
      t'.dbi.flags = t.dbi.flags ∧
      ∀ j, t'.dbi.get j = if j = k then present r else t.dbi.get j := by
  unfold setNewVal
  cases hr : present r with
  | none =>
      cases hg : t.dbi.get k with
      | none =>
          refine ⟨t, by simp [Txn.del, hk, hg], rfl, fun j => ?_⟩
          split
          · rename_i hj
            rw [hj, hg]
          · rfl
      | some w =>
          refine ⟨⟨t.dbi.erase k, true⟩, by simp [Txn.del_of_some hg], rfl, fun j => ?_⟩
          exact Dbi.get_erase
  | some v =>
      have hv : v ≠ [] := (present_eq_some.mp hr).2
      by_cases hold : v = oldVal t.dbi k
      · refine ⟨t, by simp [hold], rfl, fun j => ?_⟩
        split
        · rename_i hj
          cases hg : t.dbi.get k with
          | none => exact absurd (by rw [hold, oldVal, hg]; rfl) hv
          | some w => rw [hj, hg, hold, oldVal, hg, Option.getD_some]
        · rfl
      · have hal := ha (by rw [hr]; simp)
        refine ⟨⟨t.dbi.set k v hal, true⟩, ?_, rfl, fun j => Dbi.get_set hal⟩
        simp only [if_neg hold, Txn.put_of_allowed hal]
        rfl

theorem updateOne_spec {it : Iterator E ε} {t : Txn} {e : E} {r : Option Bytes}
    (hk : it.key e ≠ []) (hm : it.merge e (t.dbi.get (it.key e)) = .ok r)
    (ha : present r ≠ none → t.dbi.flags.Allowed (it.key e :: t.dbi.keys)) :
    ∃ t', updateOne it t e = .ok t' ∧ t'.dbi.flags = t.dbi.flags ∧
      ∀ j, t'.dbi.get j = if j = it.key e then present r else t.dbi.get j := by
  obtain ⟨t', hset, hrest⟩ := setNewVal_spec (ε := ε) hk ha
  refine ⟨t', ?_, hrest⟩
  rw [updateOne, getOld_eq hk]
  simp only [bind, Except.bind, hm, Except.mapError]
  exact hset

/-- **`Update`, key by key.** Over an iterator with distinct non-empty keys whose
merges succeed, every key the iterator has takes the merged value and every
other key keeps its own. -/
theorem update_spec {it : Iterator E ε} {t : Txn} {mg : E → Option Bytes → Option Bytes}
    (hend : it.ending = none) (hnd : it.keys.Nodup)
    (hne : ∀ e ∈ it.entries, it.key e ≠ [])
    (hm : ∀ e ∈ it.entries, it.merge e (t.dbi.get (it.key e)) =
      .ok (mg e (t.dbi.get (it.key e))))
    (ha : t.dbi.flags.Allowed (it.keys ++ t.dbi.keys)) :
    ∃ t', update t it = .ok t' ∧ t'.dbi.flags = t.dbi.flags ∧
      ∀ k, t'.dbi.get k = match it.find k with
        | some e => present (mg e (t.dbi.get k))
        | none => t.dbi.get k := by
  unfold update
  suffices gen : ∀ (es : List E) (s : Txn), (es.map it.key).Nodup →
      (∀ e ∈ es, it.key e ≠ []) →
      (∀ e ∈ es, it.merge e (s.dbi.get (it.key e)) = .ok (mg e (s.dbi.get (it.key e)))) →
      s.dbi.flags.Allowed (es.map it.key ++ s.dbi.keys) →
      ∃ s', es.foldlM (updateOne it) s = .ok s' ∧ s'.dbi.flags = s.dbi.flags ∧
        ∀ k, s'.dbi.get k = match es.find? (fun e => decide (it.key e = k)) with
          | some e => present (mg e (s.dbi.get k))
          | none => s.dbi.get k by
    obtain ⟨t', hfold, hrest⟩ := gen it.entries t hnd hne hm ha
    refine ⟨t', ?_, hrest⟩
    rw [hfold, hend]
    rfl
  intro es
  induction es with
  | nil =>
      intro s _ _ _ _
      exact ⟨s, rfl, rfl, fun k => rfl⟩
  | cons e es ih =>
      intro s hnd hne hm ha
      rw [List.map_cons, List.nodup_cons] at hnd
      obtain ⟨s₁, hone, hf₁, hg₁⟩ := updateOne_spec (hne e List.mem_cons_self)
        (hm e List.mem_cons_self) (fun _ => ha.subset (by
          intro x hx
          rcases List.mem_cons.mp hx with rfl | hx
          · simp
          · exact List.mem_append_right _ hx))
      -- the later keys differ from this one, so their stored values are untouched
      have hlater : ∀ x ∈ es, it.key x ≠ it.key e := by
        intro x hx heq
        exact hnd.1 (List.mem_map.mpr ⟨x, hx, heq⟩)
      have hold : ∀ x ∈ es, s₁.dbi.get (it.key x) = s.dbi.get (it.key x) := by
        intro x hx
        rw [hg₁, if_neg (hlater x hx)]
      have ha₁ : s₁.dbi.flags.Allowed (es.map it.key ++ s₁.dbi.keys) := by
        rw [hf₁]
        apply ha.subset
        intro x hx
        rcases List.mem_append.mp hx with hx | hx
        · simp [List.mem_map.mp hx]
        · by_cases hxe : x = it.key e
          · simp [hxe]
          · obtain ⟨w, hw⟩ := Dbi.mem_keys_iff.mp hx
            rw [hg₁, if_neg hxe] at hw
            exact List.mem_append_right _ (Dbi.mem_keys_iff.mpr ⟨w, hw⟩)
      obtain ⟨s₂, hfold, hf₂, hg₂⟩ := ih s₁ hnd.2
        (fun x hx => hne x (List.mem_cons_of_mem _ hx))
        (fun x hx => by rw [hold x hx]; exact hm x (List.mem_cons_of_mem _ hx)) ha₁
      refine ⟨s₂, ?_, hf₂.trans hf₁, fun k => ?_⟩
      · rw [List.foldlM_cons, hone]
        exact hfold
      · rw [hg₂, List.find?_cons]
        by_cases hk : it.key e = k
        · have hnone : es.find? (fun e => decide (it.key e = k)) = none := by
            apply List.find?_eq_none.mpr
            intro x hx
            simpa [← hk] using hlater x hx
          rw [hnone]
          simp only [hk, decide_true, hg₁, if_true]
        · simp only [hk, decide_false]
          cases hfind : es.find? (fun e => decide (it.key e = k)) with
          | none =>
              simp only [hg₁, if_neg (Ne.symm hk)]
          | some x =>
              have hxk : it.key x = k := by simpa using List.find?_some hfind
              have hxm := List.mem_of_find?_eq_some hfind
              simp only [← hxk, hold x hxm]

/-! ## What a successful run did -/

/-- A round that succeeded wrote what the merge returned. -/
theorem updateOne_ok {it : Iterator E ε} {t t' : Txn} {e : E}
    (h : updateOne it t e = .ok t') :
    ∃ r, it.merge e (t.dbi.get (it.key e)) = .ok r ∧ t'.dbi.flags = t.dbi.flags ∧
      ∀ j, t'.dbi.get j = if j = it.key e then present r else t.dbi.get j := by
  unfold updateOne at h
  obtain ⟨dbv, hget, h⟩ := bind_eq_ok.mp h
  obtain ⟨r, hm, hset⟩ := bind_eq_ok.mp h
  have hk : it.key e ≠ [] := by
    intro hk
    rw [hk] at hget
    cases hget
  rw [getOld_eq hk] at hget
  obtain rfl := Except.ok.inj hget
  change setNewVal t (it.key e) (oldVal t.dbi (it.key e)) r = .ok t' at hset
  have ha : present r ≠ none → t.dbi.flags.Allowed (it.key e :: t.dbi.keys) := by
    intro hr
    by_contra hna
    obtain ⟨v, hv⟩ := Option.ne_none_iff_exists'.mp hr
    unfold setNewVal at hset
    rw [hv] at hset
    simp only at hset
    split at hset
    · -- an unchanged value belongs to a key the DBI already has
      rename_i hold
      cases hg : t.dbi.get (it.key e) with
      | none => exact (present_eq_some.mp hv).2 (by rw [hold, oldVal, hg]; rfl)
      | some w => exact hna (Txn.allowed_of_get hg)
    · rw [Txn.put, dif_neg hna] at hset
      cases hset
  obtain ⟨t₁, ht₁, hrest⟩ := setNewVal_spec (ε := ε) hk ha
  rw [ht₁] at hset
  obtain rfl := Except.ok.inj hset
  exact ⟨r, mapError_eq_ok.mp hm, hrest⟩

theorem updateOne_key {it : Iterator E ε} {t t' : Txn} {e : E} (h : updateOne it t e = .ok t') :
    it.key e ≠ [] := by
  unfold updateOne at h
  obtain ⟨dbv, hget, -⟩ := bind_eq_ok.mp h
  intro hk
  rw [hk] at hget
  cases hget

theorem update_eq_ok {it : Iterator E ε} {t t' : Txn} (h : update t it = .ok t') :
    it.ending = none ∧ it.entries.foldlM (updateOne it) t = .ok t' := by
  unfold update at h
  obtain ⟨t₁, hfold, h⟩ := bind_eq_ok.mp h
  cases hend : it.ending with
  | none =>
      rw [hend] at h
      exact ⟨rfl, hfold.trans (congrArg Except.ok (Except.ok.inj h))⟩
  | some e =>
      rw [hend] at h
      cases h

/-- A successful run over distinct keys has left at each of them what the merge with
the value from before returned. -/
theorem update_ok {it : Iterator E ε} {t t' : Txn} (h : update t it = .ok t')
    (hnd : it.keys.Nodup) :
    ∀ e ∈ it.entries, it.key e ≠ [] ∧ ∃ r, it.merge e (t.dbi.get (it.key e)) = .ok r ∧
      t'.dbi.get (it.key e) = present r := by
  suffices gen : ∀ (es : List E) (s s' : Txn), (es.map it.key).Nodup →
      es.foldlM (updateOne it) s = .ok s' →
      (∀ k, k ∉ es.map it.key → s'.dbi.get k = s.dbi.get k) ∧
      ∀ e ∈ es, it.key e ≠ [] ∧ ∃ r, it.merge e (s.dbi.get (it.key e)) = .ok r ∧
        s'.dbi.get (it.key e) = present r from
    (gen it.entries t t' hnd (update_eq_ok h).2).2
  intro es
  induction es with
  | nil =>
      intro s s' _ hfold
      obtain rfl := Except.ok.inj hfold
      exact ⟨fun _ _ => rfl, fun _ he => by cases he⟩
  | cons x es ih =>
      intro s s' hnd hfold
      rw [List.map_cons, List.nodup_cons] at hnd
      rw [List.foldlM_cons] at hfold
      obtain ⟨s₁, hone, hfold⟩ := bind_eq_ok.mp hfold
      obtain ⟨r, hm, -, hget⟩ := updateOne_ok hone
      obtain ⟨hsame, hrest⟩ := ih s₁ s' hnd.2 hfold
      refine ⟨fun k hk => ?_, fun e he => ?_⟩
      · rw [List.map_cons, List.mem_cons, not_or] at hk
        rw [hsame k hk.2, hget, if_neg hk.1]
      · rcases List.mem_cons.mp he with rfl | he
        · exact ⟨updateOne_key hone, r, hm, by rw [hsame _ hnd.1, hget, if_pos rfl]⟩
        · obtain ⟨hne, r', hm', hget'⟩ := hrest e he
          have hother : it.key e ≠ it.key x := fun heq =>
            hnd.1 (heq ▸ List.mem_map.mpr ⟨e, he, rfl⟩)
          have hold : s₁.dbi.get (it.key e) = s.dbi.get (it.key e) := by
            rw [hget, if_neg hother]
          exact ⟨hne, r', hold ▸ hm', hget'⟩

/-- A run whose merges all return what is stored already writes nothing. -/
theorem update_idle {it : Iterator E ε} {t : Txn} (hend : it.ending = none)
    (hidle : ∀ e ∈ it.entries, it.key e ≠ [] ∧ ∃ r,
      it.merge e (t.dbi.get (it.key e)) = .ok r ∧ present r = t.dbi.get (it.key e)) :
    update t it = .ok t := by
  have hone : ∀ e ∈ it.entries, updateOne it t e = .ok t := by
    intro e he
    obtain ⟨hne, r, hm, hr⟩ := hidle e he
    unfold updateOne
    rw [getOld_eq hne]
    simp only [bind, Except.bind, hm, Except.mapError]
    unfold setNewVal
    rw [hr]
    cases hg : t.dbi.get (it.key e) with
    | none => simp [Txn.del, hne, hg]
    | some v => simp
  have hfold : ∀ es : List E, (∀ e ∈ es, e ∈ it.entries) → es.foldlM (updateOne it) t = .ok t := by
    intro es hes
    induction es with
    | nil => rfl
    | cons e es ih =>
        rw [List.foldlM_cons, hone e (hes e List.mem_cons_self)]
        exact ih fun x hx => hes x (List.mem_cons_of_mem _ hx)
  unfold update
  rw [hfold it.entries (fun _ he => he), hend]
  rfl

/-- **An invariant of `Update`**: what every write of a merged value keeps, a
successful run keeps. -/
theorem update_invariant {it : Iterator E ε} {I : Dbi → Prop}
    (hstep : ∀ e ∈ it.entries, ∀ {d d' : Dbi} {r : Option Bytes}, I d →
      it.merge e (d.get (it.key e)) = .ok r → d'.flags = d.flags →
      (∀ j, d'.get j = if j = it.key e then present r else d.get j) → I d')
    {t t' : Txn} (h : update t it = .ok t') (ht : I t.dbi) : I t'.dbi := by
  refine foldlM_invariant (I := fun s => I s.dbi) (fun e he s s' hs hone => ?_)
    (update_eq_ok h).2 ht
  obtain ⟨r, hm, hflags, hget⟩ := updateOne_ok hone
  exact hstep e he hs hm hflags hget

/-- Merging and cleaning values with a property gives values with it. -/
structure Respects (it : Iterator E ε) (V : Bytes → Prop) : Prop where
  merge : ∀ {e : E} {old r : Option Bytes} {v : Bytes}, (∀ w, old = some w → V w) →
    it.merge e old = .ok r → present r = some v → V v
  clean : ∀ {c : Option E} {old v : Bytes}, V old → it.clean c old = .ok (some v) → V v

/-- **What merging respects, all stored values keep.** -/
theorem update_stored {it : Iterator E ε} {V : Bytes → Prop} (hit : Respects it V) {t t' : Txn}
    (ht : ∀ k v, t.dbi.get k = some v → V v) (h : update t it = .ok t') :
    t'.dbi.flags = t.dbi.flags ∧ ∀ k v, t'.dbi.get k = some v → V v := by
  refine update_invariant
    (I := fun d => d.flags = t.dbi.flags ∧ ∀ k v, d.get k = some v → V v) ?_ h ⟨rfl, ht⟩
  rintro e - d d' r ⟨hflags, hd⟩ hm hflags' hget
  refine ⟨hflags'.trans hflags, fun k v hk => ?_⟩
  rw [hget k] at hk
  split at hk
  · exact hit.merge (hd _) hm hk
  · exact hd k v hk

/-! ## Which transactions write -/

/-- A step either did nothing or left its mark on the transaction. -/
def Marked (t t' : Txn) : Prop := t' = t ∨ t'.dirty = true

theorem Marked.refl (t : Txn) : Marked t t := Or.inl rfl

theorem Marked.trans {a b c : Txn} (hab : Marked a b) (hbc : Marked b c) :
    Marked a c := by
  rcases hbc with rfl | h
  · exact hab
  · exact Or.inr h

/-- A transaction left clean has left the DBI alone. -/
theorem Marked.eq_of_clean {t t' : Txn} (h : Marked t t') (hc : t'.dirty = false) :
    t' = t := by
  rcases h with h | h
  · exact h
  · rw [hc] at h
    cases h

theorem put_marked {t t' : Txn} {k v : Bytes} (h : t.put k v = .ok t') :
    Marked t t' := by
  obtain ⟨ha, rfl⟩ := Txn.put_eq_ok h
  exact Or.inr rfl

theorem del_marked {t t' : Txn} {k : Bytes} (h : t.del k = .ok t') : Marked t t' := by
  rw [Txn.del_eq_ok h]
  exact Or.inr rfl

theorem setNewVal_marked {t t' : Txn} {k old : Bytes} {r : Option Bytes}
    (h : setNewVal (ε := ε) t k old r = .ok t') : Marked t t' := by
  unfold setNewVal at h
  split at h
  · split at h
    · rename_i hdel
      rw [← Except.ok.inj h]
      exact del_marked hdel
    · exact Or.inl (Except.ok.inj h).symm
    · cases h
  · split at h
    · exact Or.inl (Except.ok.inj h).symm
    · exact put_marked (mapError_eq_ok.mp h)

theorem updateOne_marked {it : Iterator E ε} {t t' : Txn} {e : E}
    (h : updateOne it t e = .ok t') : Marked t t' := by
  unfold updateOne at h
  obtain ⟨dbv, -, h⟩ := bind_eq_ok.mp h
  obtain ⟨val, -, h⟩ := bind_eq_ok.mp h
  exact setNewVal_marked h

theorem update_marked {it : Iterator E ε} {t t' : Txn} (h : update t it = .ok t') :
    Marked t t' :=
  foldlM_rel Marked.refl Marked.trans updateOne_marked (update_eq_ok h).2

/-! ## The data does not depend on the mark -/

theorem setNewVal_dbi {t s r : Txn} {k old : Bytes} {v : Option Bytes} (hts : t.dbi = s.dbi)
    (h : setNewVal (ε := ε) t k old v = .ok r) :
    ∃ r', setNewVal (ε := ε) s k old v = .ok r' ∧ r.dbi = r'.dbi := by
  obtain ⟨d, b⟩ := t
  obtain ⟨d', b'⟩ := s
  obtain rfl : d = d' := hts
  unfold setNewVal at h ⊢
  cases hv : present v with
  | none =>
      rw [hv] at h
      simp only [Txn.del] at h ⊢
      by_cases hk : k = []
      · simp [hk] at h
      · simp only [if_neg hk] at h ⊢
        cases hget : d.get k with
        | none =>
            rw [hget] at h
            exact ⟨_, rfl, by rw [← Except.ok.inj h]⟩
        | some w =>
            rw [hget] at h
            exact ⟨_, rfl, by rw [← Except.ok.inj h]⟩
  | some w =>
      rw [hv] at h
      simp only [Txn.put] at h ⊢
      by_cases hw : w = old
      · rw [if_pos hw] at h ⊢
        exact ⟨_, rfl, by rw [← Except.ok.inj h]⟩
      · rw [if_neg hw] at h ⊢
        by_cases ha : d.flags.Allowed (k :: d.keys)
        · rw [dif_pos ha] at h ⊢
          exact ⟨_, rfl, by rw [← Except.ok.inj h]⟩
        · rw [dif_neg ha] at h
          cases h

/-- **`Update` does the same to the data whether or not the transaction has already
written.** -/
theorem update_dbi {it : Iterator E ε} {t s r : Txn} (hts : t.dbi = s.dbi)
    (h : update t it = .ok r) : ∃ r', update s it = .ok r' ∧ r.dbi = r'.dbi := by
  unfold update at h ⊢
  obtain ⟨t', hfold, h⟩ := bind_eq_ok.mp h
  obtain ⟨s', hfold', hts'⟩ := foldlM_sim (f := updateOne it) (R := fun a b => a.dbi = b.dbi)
    (by
      intro a a' e q haa' hq
      unfold updateOne at hq ⊢
      obtain ⟨old, hold, hq⟩ := bind_eq_ok.mp hq
      obtain ⟨v, hv, hq⟩ := bind_eq_ok.mp hq
      obtain ⟨q', hq', hqq'⟩ := setNewVal_dbi haa' hq
      have hold' : getOld (ε := ε) a' (it.key e) = .ok old := by
        rw [← hold]
        unfold getOld Txn.get
        rw [haa']
      exact ⟨q', bind_eq_ok.mpr ⟨old, hold', bind_eq_ok.mpr ⟨v, hv, hq'⟩⟩, hqq'⟩) hts hfold
  refine ⟨s', ?_, ?_⟩
  · rw [hfold']
    cases hend : it.ending with
    | none => rfl
    | some e =>
        rw [hend] at h
        cases h
  · cases hend : it.ending with
    | none =>
        rw [hend] at h
        rw [← Except.ok.inj h]
        exact hts'
    | some e =>
        rw [hend] at h
        cases h

end LightningStream.Strategy
