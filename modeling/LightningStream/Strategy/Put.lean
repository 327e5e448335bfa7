import LightningStream.Lmdb.DupSort
import LightningStream.Strategy.SortedInput

/-!
# The strategies that replace a DBI's contents

`Put`, `EmptyPut`, `Append` and `IterPut` write an iterator's values into a DBI
without regard to what is stored: `Merge` is always called with nil. `Put` writes
one entry after the other, `EmptyPut` empties the DBI first, `Append` relies on an
empty DBI and sorted input, and `IterPut` walks over the DBI as `IterUpdate` does
and takes away what the iterator does not have.

They are different ways to the same contents (`strategies_agree`). `EmptyPut` also
runs on a DBI with `MDB_DUPSORT`, where it is the only one that does.
-/

namespace LightningStream.Strategy

open Lmdb

variable {E ε τ : Type}

/-! ## Put and EmptyPut -/

/-- What `doPut` and `EmptyPut` do to a DBI of either kind. -/
structure Store (τ : Type) where
  put : τ → Bytes → Bytes → Except LmdbErr τ
  del : τ → Bytes → Except LmdbErr τ
  /-- `Drop` without deleting the DBI. -/
  drop : τ → τ

def txnStore : Store Txn where
  put := Txn.put
  del := Txn.del
  drop := fun t => ⟨Dbi.empty t.dbi.flags, true⟩

def dupTxnStore : Store DupTxn where
  put := DupTxn.put
  del := DupTxn.del
  drop := fun t => ⟨DupDbi.empty t.dbi.flags, true⟩

/-- One round of the loop in `doPut`. An empty value deletes the key, unless the DBI
was empty to begin with. -/
def putOne (S : Store τ) (it : Iterator E ε) (isEmpty : Bool) (t : τ) (e : E) :
    Except (StratErr ε) τ := do
  let val ← (it.merge e none).mapError .merge
  match present val with
  | none =>
      if isEmpty then .ok t
      else match S.del t (it.key e) with
        | .ok t' => .ok t'
        | .error .notFound => .ok t
        | .error err => .error (.del err)
  | some v => (S.put t (it.key e) v).mapError .put

/-- How a loop over the iterator ends. -/
def finish (it : Iterator E ε) (t : τ) : Except (StratErr ε) τ :=
  match it.ending with
  | none => .ok t
  | some e => .error (.next e)

def doPut (S : Store τ) (t : τ) (it : Iterator E ε) (isEmpty : Bool) :
    Except (StratErr ε) τ := do
  let t' ← it.entries.foldlM (putOne S it isEmpty) t
  finish it t'

def put (S : Store τ) (t : τ) (it : Iterator E ε) : Except (StratErr ε) τ := doPut S t it false

def emptyPut (S : Store τ) (t : τ) (it : Iterator E ε) : Except (StratErr ε) τ :=
  doPut S (S.drop t) it true

/-! ## Append -/

/-- One round of the loop in `Append`, with the previous key. The order it checks is the
bytewise one, whatever the flags of the DBI. -/
def appendOne (it : Iterator E ε) (s : Bytes × Txn) (e : E) :
    Except (StratErr ε) (Bytes × Txn) :=
  if ¬ s.1 < it.key e then .error (.notSorted (it.key e))
  else if (it.key e).length > maxKeySize then .error .keyTooLong
  else do
    let val ← (it.merge e none).mapError .merge
    match present val with
    | none => .ok (it.key e, s.2)
    | some v => do
        let t ← (s.2.append (it.key e) v).mapError .append
        .ok (it.key e, t)

def append (t : Txn) (it : Iterator E ε) : Except (StratErr ε) Txn := do
  let s ← it.entries.foldlM (appendOne it) ([], t)
  finish it s.2

/-! ## IterPut -/

/-- The callback of `IterPut`. It stores an empty value as it is. -/
def iterPutFunc (it : Iterator E ε) (_cur : Option E) (x : Visit E) (t : Txn) :
    Except (StratErr ε) Txn :=
  match x with
  | .dbOnly k _ => (t.del k).mapError .del
  | .itOnly e dbEOF => do
      let val ← (it.merge e none).mapError .merge
      if dbEOF then (t.append (it.key e) (val.getD [])).mapError .append
      else (t.put (it.key e) (val.getD [])).mapError .put
  | .both e _ v => do
      let val ← (it.merge e none).mapError .merge
      if val.getD [] = v then .ok t else (t.put (it.key e) (val.getD [])).mapError .put

def iterPut (t : Txn) (it : Iterator E ε) : Except (StratErr ε) Txn :=
  iterBoth it t.dbi.flags.integerKey (iterPutFunc it)
    (2 * it.entries.length + t.dbi.entries.length + 1) (Walk.start it t)

/-- `Pick`, with `Facts.IsEmpty`. -/
def pickStrategy (isEmpty : Bool) : Txn → Iterator E ε → Except (StratErr ε) Txn :=
  if isEmpty then append else iterPut

/-- `IsEmpty` of a DBI. -/
def isEmpty (d : Dbi) : Bool := (d.next none).isNone

theorem isEmpty_iff {d : Dbi} : isEmpty d = true ↔ d.keys = [] := by
  unfold isEmpty Dbi.keys
  rw [Dbi.next_none_eq_head]
  cases d.entries with
  | nil => simp
  | cons e es => simp

/-! ## Loops that write one key after the other -/

/-- **A loop whose rounds each set one key** sets the keys of all its entries and leaves the
others alone. What a round relies on may refer to the entries that are still to come. -/
theorem foldlM_keywise {ε' : Type} (get : τ → Bytes → Option Bytes) (key : E → Bytes)
    (val : E → Option Bytes) (step : τ → E → Except ε' τ) (I : τ → List E → Prop)
    (hstep : ∀ {t e es}, I t (e :: es) → ∃ t', step t e = .ok t' ∧ I t' es ∧
      ∀ j, get t' j = if j = key e then val e else get t j) :
    ∀ {es : List E} {t : τ}, (es.map key).Nodup → I t es →
      ∃ t', es.foldlM step t = .ok t' ∧ I t' [] ∧
        ∀ k, get t' k = match es.find? (fun e => decide (key e = k)) with
          | some e => val e
          | none => get t k
  | [], t, _, hI => ⟨t, rfl, hI, fun _ => rfl⟩
  | e :: es, t, hnd, hI => by
      obtain ⟨hnot, hnd⟩ := List.nodup_cons.mp hnd
      obtain ⟨t₁, hone, hI₁, hget₁⟩ := hstep hI
      obtain ⟨t', hrest, hI', hget'⟩ := foldlM_keywise get key val step I hstep hnd hI₁
      refine ⟨t', ?_, hI', fun k => ?_⟩
      · rw [List.foldlM_cons, hone]
        exact hrest
      · rw [hget', List.find?_cons]
        by_cases hk : key e = k
        · -- no later entry has the key
          have hnone : es.find? (fun e => decide (key e = k)) = none := by
            apply List.find?_eq_none.mpr
            intro x hx
            rw [decide_eq_true_eq, ← hk]
            exact fun hxe => hnot (List.mem_map.mpr ⟨x, hx, hxe⟩)
          rw [hnone]
          simp only [hk, decide_true, hget₁, if_true]
        · simp only [hk, decide_false]
          cases es.find? (fun e => decide (key e = k)) with
          | none => simp only [hget₁, if_neg (Ne.symm hk)]
          | some x => rfl

/-! ## The contents they lead to -/

/-- An iterator with a value for each of its entries that does not depend on what is
stored. -/
structure Fixed (it : Iterator E ε) (val : E → Bytes) : Prop where
  ending : it.ending = none
  merge : ∀ e ∈ it.entries, it.merge e none = .ok (some (val e))
  present : ∀ e ∈ it.entries, val e ≠ []

section Contents

variable {it : Iterator E ε} {val : E → Bytes} {t : Txn}

theorem Fixed.present_val (h : Fixed it val) {e : E} (he : e ∈ it.entries) :
    Strategy.present (some (val e)) = some (val e) :=
  present_eq_some.mpr ⟨rfl, h.present e he⟩

theorem finish_of_fixed (h : Fixed it val) (t : τ) : finish it t = .ok t := by
  rw [finish, h.ending]

theorem putOne_of_fixed (h : Fixed it val) {e : E} (he : e ∈ it.entries) (isEmpty : Bool)
    (t : Txn) : putOne txnStore it isEmpty t e = (t.put (it.key e) (val e)).mapError .put := by
  unfold putOne
  rw [h.merge e he]
  simp only [Except.mapError, bind, Except.bind, h.present_val he]
  rfl

/-- What a DBI that may hold a list of keys can take next. -/
theorem allowed_next {f : KeyFlags} {k : Bytes} {ks ls : List Bytes}
    (h : f.Allowed (k :: ks ++ ls)) : f.Allowed (k :: ls) := by
  apply h.subset
  intro x hx
  rcases List.mem_cons.mp hx with rfl | hx
  · exact List.mem_cons_self
  · exact List.mem_append_right _ hx

theorem allowed_after {t t' : Txn} {k v : Bytes} {ks : List Bytes} (hput : t.put k v = .ok t')
    (h : t.dbi.flags.Allowed (k :: ks ++ t.dbi.keys)) :
    t'.dbi.flags.Allowed (ks ++ t'.dbi.keys) := by
  obtain ⟨hflags, hget⟩ := Txn.put_spec hput
  rw [hflags]
  apply h.subset
  intro x hx
  rcases List.mem_append.mp hx with hx | hx
  · exact List.mem_append_left _ (List.mem_cons_of_mem _ hx)
  · by_cases hxk : x = k
    · rw [hxk]
      exact List.mem_append_left _ List.mem_cons_self
    · obtain ⟨w, hw⟩ := Dbi.mem_keys_iff.mp hx
      rw [hget, if_neg hxk] at hw
      exact List.mem_append_right _ (Dbi.mem_keys_iff.mpr ⟨w, hw⟩)

/-- **`doPut`** leaves the iterator's values at the iterator's keys. -/
theorem doPut_spec (h : Fixed it val) (hnd : it.keys.Nodup)
    (ha : t.dbi.flags.Allowed (it.keys ++ t.dbi.keys)) (isEmpty : Bool) :
    ∃ t', doPut txnStore t it isEmpty = .ok t' ∧ t'.dbi.flags = t.dbi.flags ∧
      ∀ k, t'.dbi.get k = match it.find k with
        | some e => some (val e)
        | none => t.dbi.get k := by
  obtain ⟨t', hfold, ⟨-, hflags, -⟩, hget⟩ := foldlM_keywise (fun s : Txn => s.dbi.get)
    it.key (fun e => some (val e)) (putOne txnStore it isEmpty)
    (fun s es => (∀ e ∈ es, e ∈ it.entries) ∧ s.dbi.flags = t.dbi.flags ∧
      s.dbi.flags.Allowed (es.map it.key ++ s.dbi.keys))
    (by
      rintro s e es ⟨hes, hf, hs⟩
      have hput := Txn.put_of_allowed (v := val e) (allowed_next hs)
      obtain ⟨hf', hget⟩ := Txn.put_spec hput
      refine ⟨_, ?_, ⟨fun x hx => hes x (List.mem_cons_of_mem _ hx), hf'.trans hf,
        allowed_after hput hs⟩, hget⟩
      rw [putOne_of_fixed h (hes e List.mem_cons_self), hput]
      rfl)
    hnd ⟨fun _ he => he, rfl, ha⟩
  refine ⟨t', ?_, hflags, hget⟩
  unfold doPut
  rw [hfold]
  exact finish_of_fixed h t'

/-- **`Append`** into an empty DBI in bytewise order. -/
theorem append_spec (h : Fixed it val) (hkeys : ByteOrdered it.keys)
    (hplain : t.dbi.flags = KeyFlags.plain) (hempty : t.dbi.keys = []) :
    ∃ t', append t it = .ok t' ∧ t'.dbi.flags = t.dbi.flags ∧
      ∀ k, t'.dbi.get k = (it.find k).map val := by
  have hfirst : ∀ e ∈ it.entries, [] < it.key e := by
    intro e he
    have hne := (hkeys.sizes _ (List.mem_map.mpr ⟨e, he, rfl⟩)).1
    exact less_iff.mp (nil_less hne)
  -- all keys that are stored lie below those to come, as does the previous key
  obtain ⟨s', hfold, ⟨-, hflags, -⟩, hget⟩ := foldlM_keywise
    (fun s : Bytes × Txn => s.2.dbi.get) it.key (fun e => some (val e)) (appendOne it)
    (fun s es => (∀ e ∈ es, e ∈ it.entries) ∧ s.2.dbi.flags = t.dbi.flags ∧
      (es.map it.key).Pairwise (· < ·) ∧
      ∀ e ∈ es, s.1 < it.key e ∧ ∀ j ∈ s.2.dbi.keys, j < it.key e)
    (by
      rintro ⟨prev, s⟩ e es ⟨hes, hf, hsorted, hbelow⟩
      obtain ⟨hlater, hsorted⟩ := List.pairwise_cons.mp hsorted
      obtain ⟨hprev, hdb⟩ := hbelow e List.mem_cons_self
      have he := hes e List.mem_cons_self
      have hf : s.dbi.flags = t.dbi.flags := hf
      have hsize := hkeys.sizes _ (List.mem_map.mpr ⟨e, he, rfl⟩)
      have ha : s.dbi.flags.Allowed (it.key e :: s.dbi.keys) := by
        refine ⟨fun k hk => ?_, fun hik => ?_⟩
        · rcases List.mem_cons.mp hk with rfl | hk
          · exact ⟨List.length_pos_iff.mpr hsize.1, hsize.2⟩
          · exact s.dbi.keys_allowed.1 k hk
        · rw [hf, hplain] at hik
          cases hik
      have hput := Txn.put_of_allowed (v := val e) ha
      obtain ⟨hf', hget⟩ := Txn.put_spec hput
      refine ⟨(it.key e, _), ?_, ⟨fun x hx => hes x (List.mem_cons_of_mem _ hx), hf'.trans hf,
        hsorted, fun x hx => ?_⟩, hget⟩
      · have happend : s.append (it.key e) (val e) =
            .ok ⟨s.dbi.set (it.key e) (val e) ha, true⟩ := by
          rw [Txn.append, if_pos, hput]
          intro j hj
          rw [hf, hplain, KeyFlags.rank_plain, KeyFlags.rank_plain]
          exact hdb j hj
        unfold appendOne
        rw [if_neg (not_not.mpr hprev), if_neg (not_lt.mpr hsize.2), h.merge e he]
        simp only [Except.mapError, bind, Except.bind, h.present_val he, happend]
      · have hlt := hlater (it.key x) (List.mem_map.mpr ⟨x, hx, rfl⟩)
        refine ⟨hlt, fun j hj => ?_⟩
        obtain ⟨w, hw⟩ := Dbi.mem_keys_iff.mp hj
        rw [hget] at hw
        split at hw
        · rename_i hje
          rw [hje]
          exact hlt
        · exact lt_trans (hdb j (Dbi.mem_keys_iff.mpr ⟨w, hw⟩)) hlt)
    (t := ([], t)) (hkeys.sorted.imp fun hlt => hlt.ne)
    ⟨fun _ he => he, rfl, hkeys.sorted, fun e he => ⟨hfirst e he, by simp [hempty]⟩⟩
  refine ⟨s'.2, ?_, hflags, fun k => ?_⟩
  · unfold append
    rw [hfold]
    exact finish_of_fixed h s'.2
  · have hk := hget k
    rw [show t.dbi.get k = none from Dbi.get_eq_none_iff.mpr (by simp [hempty])] at hk
    rw [hk, Iterator.find]
    cases it.entries.find? (fun e => decide (it.key e = k)) with
    | none => rfl
    | some e => rfl

/-! ### EmptyPut with `MDB_DUPSORT` -/

section DupSort

variable {mg : E → Option Bytes} {f : KeyFlags} {K : List Bytes}

/-- The loop of `EmptyPut` adds one pair for every entry that has a value. The keys are from
a list that a DBI with these flags may hold. -/
theorem putOne_dup (hK : f.Allowed K) : ∀ {es : List E} {t : DupTxn},
    (∀ e ∈ es, it.merge e none = .ok (mg e)) →
    (∀ e ∈ es, ∀ v, Strategy.present (mg e) = some v → it.key e ∈ K ∧ v.length ≤ maxKeySize) →
    t.dbi.flags = f → (∀ k ∈ t.dbi.keys, k ∈ K) →
    ∃ t', es.foldlM (putOne dupTxnStore it true) t = .ok t' ∧ t'.dbi.flags = f ∧
      ∀ p, p ∈ t'.dbi.pairs ↔
        (∃ e ∈ es, p.1 = it.key e ∧ Strategy.present (mg e) = some p.2) ∨ p ∈ t.dbi.pairs
  | [], t, _, _, hf, _ => ⟨t, rfl, hf, fun p => by simp⟩
  | e :: es, t, hm, hfits, hf, ht => by
      have hm' : ∀ x ∈ es, it.merge x none = .ok (mg x) := fun x hx =>
        hm x (List.mem_cons_of_mem _ hx)
      have hfits' : ∀ x ∈ es, ∀ v, Strategy.present (mg x) = some v →
          it.key x ∈ K ∧ v.length ≤ maxKeySize := fun x hx =>
        hfits x (List.mem_cons_of_mem _ hx)
      cases hv : Strategy.present (mg e) with
      | none =>
          have hone : putOne dupTxnStore it true t e = .ok t := by
            unfold putOne
            rw [hm e List.mem_cons_self]
            simp only [Except.mapError, bind, Except.bind, hv, if_true]
          obtain ⟨t', hrest, hf', hmem⟩ := putOne_dup hK hm' hfits' hf ht
          refine ⟨t', ?_, hf', fun p => ?_⟩
          · rw [List.foldlM_cons, hone]
            exact hrest
          · rw [hmem p]
            simp [hv]
      | some v =>
          obtain ⟨hk, hshort⟩ := hfits e List.mem_cons_self v hv
          have hfit : t.dbi.Fits (it.key e) v := by
            refine ⟨?_, hshort⟩
            rw [hf]
            apply hK.subset
            intro x hx
            rcases List.mem_cons.mp hx with rfl | hx
            · exact hk
            · exact ht x hx
          obtain ⟨t₁, hput, hf₁, hmem₁⟩ := DupTxn.put_of_fits hfit
          have hone : putOne dupTxnStore it true t e = .ok t₁ := by
            unfold putOne
            rw [hm e List.mem_cons_self]
            simp only [Except.mapError, bind, Except.bind, hv]
            show (t.put (it.key e) v).mapError _ = _
            rw [hput]
            rfl
          have ht₁ : ∀ k ∈ t₁.dbi.keys, k ∈ K := by
            intro k hk₁
            obtain ⟨p, hp, rfl⟩ := List.mem_map.mp hk₁
            rcases (hmem₁ p).mp hp with rfl | hp
            · exact hk
            · exact ht p.1 (List.mem_map.mpr ⟨p, hp, rfl⟩)
          obtain ⟨t', hrest, hf', hmem⟩ := putOne_dup hK hm' hfits' (hf₁.trans hf) ht₁
          refine ⟨t', ?_, hf', fun p => ?_⟩
          · rw [List.foldlM_cons, hone]
            exact hrest
          · rw [hmem p, hmem₁ p]
            constructor
            · rintro (⟨x, hx, hp⟩ | rfl | hp)
              · exact Or.inl ⟨x, List.mem_cons_of_mem _ hx, hp⟩
              · exact Or.inl ⟨e, List.mem_cons_self, rfl, hv⟩
              · exact Or.inr hp
            · rintro (⟨x, hx, hp⟩ | hp)
              · rcases List.mem_cons.mp hx with rfl | hx
                · refine Or.inr (Or.inl (Prod.ext hp.1 ?_))
                  exact (Option.some.inj (hv.symm.trans hp.2)).symm
                · exact Or.inl ⟨x, hx, hp⟩
              · exact Or.inr (Or.inr hp)

/-- **`EmptyPut` on a DBI with `MDB_DUPSORT`** leaves the pairs of the iterator that have a
value, and no others. -/
theorem emptyPut_dup (hend : it.ending = none) (hm : ∀ e ∈ it.entries, it.merge e none = .ok (mg e))
    {t : DupTxn} (hK : t.dbi.flags.Allowed K)
    (hfits : ∀ e ∈ it.entries, ∀ v, Strategy.present (mg e) = some v →
      it.key e ∈ K ∧ v.length ≤ maxKeySize) :
    ∃ t', emptyPut dupTxnStore t it = .ok t' ∧ t'.dbi.flags = t.dbi.flags ∧
      ∀ p, p ∈ t'.dbi.pairs ↔
        ∃ e ∈ it.entries, p.1 = it.key e ∧ Strategy.present (mg e) = some p.2 := by
  have hnil : (dupTxnStore.drop t).dbi.pairs = [] := rfl
  obtain ⟨t', hrun, hf, hmem⟩ := @putOne_dup _ _ it mg t.dbi.flags K hK it.entries
    (dupTxnStore.drop t) hm hfits rfl (by simp [DupDbi.keys, hnil])
  refine ⟨t', ?_, hf, fun p => ?_⟩
  · unfold emptyPut doPut
    rw [hrun]
    show finish it t' = _
    rw [finish, hend]
  · rw [hmem p, hnil]
    simp

end DupSort

/-! ### IterPut -/

/-- The iterator that `IterUpdate` would have to run with to do what `IterPut` does. -/
def pinned (it : Iterator E ε) : Iterator E ε :=
  { it with merge := fun e _ => it.merge e none, clean := fun _ _ => .ok none }

/-- The entries that a walk still has are those of the iterator. -/
structure Within (it : Iterator E ε) (w : Walk E) : Prop where
  rest : ∀ e ∈ w.rest, e ∈ it.entries
  head : ∀ e, w.head = some e → e ∈ it.entries

theorem Within.fetchIt {ik : Bool} {w w₁ : Walk E} (hw : Within it w)
    (h : fetchIt it ik w = .ok w₁) : Within it w₁ := by
  rcases fetchIt_cases h with ⟨-, -, rfl⟩ | ⟨e, rest, hrest, -, rfl⟩ | ⟨-, rfl⟩
  · exact ⟨hw.rest, hw.head⟩
  · refine ⟨fun x hx => hw.rest x ?_, fun x hx => ?_⟩
    · rw [hrest]
      exact List.mem_cons_of_mem _ hx
    · obtain rfl := Option.some.inj hx
      exact hw.rest e (by rw [hrest]; exact List.mem_cons_self)
  · exact hw

theorem Within.fetchDb {w : Walk E} (hw : Within it w) : Within it (fetchDb w) := by
  obtain ⟨-, -, hrest, hhead, -⟩ := fetchDb_frame w
  exact ⟨by rw [hrest]; exact hw.rest, by rw [hhead]; exact hw.head⟩

theorem Within.consume {w : Walk E} (hw : Within it w) (t : Txn) (x : Visit E) :
    Within it (consume w t x) := by
  cases x with
  | dbOnly k v => exact ⟨hw.rest, hw.head⟩
  | itOnly e eof => exact ⟨hw.rest, nofun⟩
  | both e k v => exact ⟨hw.rest, nofun⟩

/-- An entry that is visited was pending. -/
theorem pick_entry {ik : Bool} {head : Option E} {dbKV : Option (Bytes × Bytes)} {x : Visit E}
    (h : pick it ik head dbKV = some x) :
    match x with
    | .dbOnly _ _ => True
    | .itOnly e _ => head = some e
    | .both e _ _ => head = some e := by
  rcases head with - | e <;> rcases dbKV with - | ⟨k, v⟩
  · cases h
  · cases h
    trivial
  · cases h
    rfl
  · cases hcmp : cmpFunc ik k (it.key e)
    all_goals
      simp only [pick, hcmp, Option.some.injEq] at h
      subst h
      trivial

theorem iterPutFunc_pinned (h : Fixed it val) {w : Walk E} (hw : Within it w) {ik : Bool}
    {dbKV : Option (Bytes × Bytes)} {x : Visit E} (hpick : pick it ik w.head dbKV = some x)
    (c : Option E) (t : Txn) : iterPutFunc it c x t = iterUpdateFunc (pinned it) c x t := by
  have hentry := pick_entry hpick
  cases x with
  | dbOnly k v => rfl
  | itOnly e eof =>
      have he := hw.head e hentry
      simp only [iterPutFunc, iterUpdateFunc, pinned, h.merge e he, h.present_val he,
        Except.mapError, bind, Except.bind, Option.getD_some]
  | both e k v =>
      have he := hw.head e hentry
      simp only [iterPutFunc, iterUpdateFunc, pinned, h.merge e he, h.present_val he,
        Except.mapError, bind, Except.bind, Option.getD_some]

/-- **`IterPut` is `IterUpdate`** with an iterator that ignores the stored values and gives
up the keys it does not have. -/
theorem iterBoth_pinned (h : Fixed it val) (ik : Bool) : ∀ (n : ℕ) {w : Walk E}, Within it w →
    iterBoth it ik (iterPutFunc it) n w =
      iterBoth (pinned it) ik (iterUpdateFunc (pinned it)) n w
  | 0, _, _ => rfl
  | n + 1, w, hw => by
      rw [iterBoth, iterBoth, show fetchIt (pinned it) ik w = fetchIt it ik w from rfl]
      cases hf : fetchIt it ik w with
      | error e => rfl
      | ok w₁ =>
          have hw₂ := (hw.fetchIt hf).fetchDb
          simp only [bind, Except.bind]
          rw [show pick (pinned it) ik (fetchDb w₁).head (fetchDb w₁).dbKV =
            pick it ik (fetchDb w₁).head (fetchDb w₁).dbKV from rfl]
          cases hpick : pick it ik (fetchDb w₁).head (fetchDb w₁).dbKV with
          | none => rfl
          | some x =>
              simp only [iterPutFunc_pinned h hw₂ hpick]
              cases iterUpdateFunc (pinned it) (fetchDb w₁).cur x (fetchDb w₁).txn with
              | error e => rfl
              | ok t => exact iterBoth_pinned h ik n (hw₂.consume t x)

theorem iterPut_spec (h : Fixed it val) (hkeys : ByteOrdered it.keys)
    (hplain : t.dbi.flags = KeyFlags.plain) :
    ∃ t', iterPut t it = .ok t' ∧ t'.dbi.flags = t.dbi.flags ∧
      ∀ k, t'.dbi.get k = (it.find k).map val := by
  have hik : t.dbi.flags.integerKey = false := by
    rw [hplain]
    rfl
  have hmerge : ∀ x ∈ it.entries, ∀ old, (pinned it).merge x old = .ok (some (val x)) :=
    fun x hx _ => h.merge x hx
  obtain ⟨t', hrun, hflags, hget⟩ := @iterUpdate_spec _ _ (pinned it) t
    (fun e _ => some (val e)) (fun _ _ => none) _ h.ending
    (fun x hx => by
      rw [hik]
      exact nil_less (hkeys.sizes _ (List.mem_map.mpr ⟨x, hx, rfl⟩)).1)
    (mergeable_of_sorted (inOrder_of_forward (by rw [hplain]; rfl)) (hkeys.allowed hplain)
      (by
        rw [hik]
        exact hkeys.sorted.imp fun hlt => less_iff.mpr hlt)
      (fun x hx => hmerge x hx none) (fun x hx v _ => hmerge x hx (some v)) fun _ _ _ _ => rfl)
  have hstart : Within it (Walk.start it t) := ⟨fun _ he => he, nofun⟩
  refine ⟨t', ?_, hflags, fun k => ?_⟩
  · rw [iterPut, iterBoth_pinned h _ _ hstart]
    exact hrun
  · rw [hget k, show (pinned it).find k = it.find k from rfl]
    cases hfind : it.find k with
    | none =>
        cases t.dbi.get k with
        | none => rfl
        | some v => rfl
    | some e => exact h.present_val (List.mem_of_find?_eq_some hfind)

/-- **All strategies lead to the same contents.** Over sorted input with a value for each
key, `IterPut` and `EmptyPut` leave exactly the iterator's entries in the DBI, whatever it
held before; so do `Put` and `Append` in an empty DBI, and so does what `Pick` picks. -/
theorem strategies_agree (h : Fixed it val) (hkeys : ByteOrdered it.keys) {t : Txn}
    (hplain : t.dbi.flags = KeyFlags.plain) :
    ∃ d : Dbi, d.flags = KeyFlags.plain ∧ (∀ k, d.get k = (it.find k).map val) ∧
      (iterPut t it).map Txn.dbi = .ok d ∧
      (emptyPut txnStore t it).map Txn.dbi = .ok d ∧
      (pickStrategy (isEmpty t.dbi) t it).map Txn.dbi = .ok d ∧
      (isEmpty t.dbi = true →
        (append t it).map Txn.dbi = .ok d ∧ (put txnStore t it).map Txn.dbi = .ok d) := by
  have hnd : it.keys.Nodup := hkeys.sorted.imp fun hlt => hlt.ne
  obtain ⟨t', hrun, hflags, hget⟩ := iterPut_spec h hkeys hplain
  -- whoever has the same lookups has the same contents
  have hsame : ∀ {s : Txn}, s.dbi.flags = t.dbi.flags →
      (∀ k, s.dbi.get k = (it.find k).map val) → s.dbi = t'.dbi := fun hf hg =>
    Dbi.ext_get (hf.trans hflags.symm) fun k => (hg k).trans (hget k).symm
  have hmatch : ∀ {s s' : Txn}, s.dbi.keys = [] → (∀ k, s'.dbi.get k = match it.find k with
      | some e => some (val e)
      | none => s.dbi.get k) → ∀ k, s'.dbi.get k = (it.find k).map val := by
    intro s s' hnil hs' k
    rw [hs' k]
    cases it.find k with
    | none => exact Dbi.get_eq_none_iff.mpr (by simp [hnil])
    | some e => rfl
  have happend : isEmpty t.dbi = true → (append t it).map Txn.dbi = .ok t'.dbi := by
    intro hempty
    obtain ⟨s, hs, hf, hg⟩ := append_spec h hkeys hplain (isEmpty_iff.mp hempty)
    rw [hs, ← hsame hf hg]
    rfl
  refine ⟨t'.dbi, hflags.trans hplain, hget, by rw [hrun]; rfl, ?_, ?_, fun hempty =>
    ⟨happend hempty, ?_⟩⟩
  · have hnil : (txnStore.drop t).dbi.keys = [] := rfl
    have hf : (txnStore.drop t).dbi.flags = t.dbi.flags := rfl
    obtain ⟨s, hs, hfs, hg⟩ := doPut_spec (t := txnStore.drop t) h hnd
      (hkeys.allowed (hf.trans hplain)) true
    rw [emptyPut, hs, ← hsame (hfs.trans hf) (hmatch hnil hg)]
    rfl
  · cases hempty : isEmpty t.dbi with
    | true => exact happend hempty
    | false =>
        show (iterPut t it).map Txn.dbi = _
        rw [hrun]
        rfl
  · obtain ⟨s, hs, hf, hg⟩ := doPut_spec h hnd (hkeys.allowed hplain) false
    rw [put, hs, ← hsame hf (hmatch (isEmpty_iff.mp hempty) hg)]
    rfl

/-- An iterator over a list of pairs. -/
def listed (es : List (Bytes × Bytes)) : Iterator (Bytes × Bytes) Empty where
  entries := es
  ending := none
  key := Prod.fst
  merge := fun e _ => .ok (some e.2)
  clean := fun _ _ => .ok none

theorem strategies_agree_two :
    ∃ d : Dbi, (iterPut (Txn.start oneKey) (listed [([2], [5]), ([4], [9])])).map Txn.dbi = .ok d ∧
      d.get [1] = none ∧ d.get [2] = some [5] := by
  obtain ⟨d, -, hget, hrun, -⟩ := @strategies_agree _ _ (listed [([2], [5]), ([4], [9])])
    Prod.snd ⟨rfl, fun _ _ => rfl, by decide⟩ ⟨by decide, by decide⟩ (Txn.start oneKey) rfl
  refine ⟨d, hrun, ?_, ?_⟩
  · rw [hget]
    decide
  · rw [hget]
    decide

end Contents

end LightningStream.Strategy
