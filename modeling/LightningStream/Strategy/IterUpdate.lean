import LightningStream.Strategy.Update

/-!
# The `IterUpdate` strategy

`iterBoth` walks the iterator and a cursor over the DBI side by side and hands
the callback whichever side is behind, or both when the keys agree. The
callback writes into the DBI the cursor is on, so the walk reads entries from
a map that changes under it.

The invariant that tames this is a split of the live entries: everything the
walk has passed lies in a left block, everything still to come is the right
block exactly as it was at the start (`Pending`). Each visit moves entries
from right to left and never touches what is left of the right block.
-/

namespace LightningStream.Strategy

open Lmdb

variable {E ε : Type}

/-! ## Key comparison -/

/-- `bytesToInt`: unsupported lengths read as 0. -/
def bytesToInt (b : Bytes) : ℕ :=
  if b.length = 4 ∨ b.length = 8 ∨ b.length = 2 then leNat b else 0

def cmpIntegerLittleEndian (a b : Bytes) : Ordering := cmp (bytesToInt a) (bytesToInt b)

def cmpFunc (integerKey : Bool) (a b : Bytes) : Ordering :=
  if integerKey then cmpIntegerLittleEndian a b else cmp a b

/-- The strict order of the comparison function. -/
def Less (integerKey : Bool) (a b : Bytes) : Prop := cmpFunc integerKey a b = .lt

instance (ik : Bool) (a b : Bytes) : Decidable (Less ik a b) :=
  inferInstanceAs (Decidable (_ = _))

theorem less_iff {ik : Bool} {a b : Bytes} :
    Less ik a b ↔ if ik then bytesToInt a < bytesToInt b else a < b := by
  unfold Less cmpFunc cmpIntegerLittleEndian
  cases ik with
  | false =>
      rw [if_neg Bool.false_ne_true, if_neg Bool.false_ne_true]
      unfold cmp cmpUsing
      split_ifs with hlt hgt
      · exact iff_of_true rfl hlt
      · exact iff_of_false (by decide) hlt
      · exact iff_of_false (by decide) hlt
  | true =>
      rw [if_pos rfl, if_pos rfl]
      exact cmp_eq_lt_iff _ _

theorem less_of_gt {ik : Bool} {a b : Bytes} (h : cmpFunc ik a b = .gt) : Less ik b a := by
  rw [less_iff]
  unfold cmpFunc cmpIntegerLittleEndian at h
  cases ik with
  | false =>
      rw [if_neg Bool.false_ne_true] at h ⊢
      unfold cmp cmpUsing at h
      split_ifs at h with hlt hgt
      exact hgt
  | true =>
      rw [if_pos rfl] at h ⊢
      exact (cmp_eq_gt_iff _ _).mp h

theorem Less.trans {ik : Bool} {a b c : Bytes} (hab : Less ik a b) (hbc : Less ik b c) :
    Less ik a c := by
  rw [less_iff] at *
  cases ik <;> exact lt_trans hab hbc

theorem Less.irrefl {ik : Bool} {a : Bytes} : ¬ Less ik a a := by
  rw [less_iff]
  cases ik <;> simp

theorem Less.ne {ik : Bool} {a b : Bytes} (h : Less ik a b) : a ≠ b := by
  rintro rfl
  exact Less.irrefl h

theorem nil_less {k : Bytes} (hk : k ≠ []) : Less false [] k := by
  rw [less_iff]
  cases k with
  | nil => exact absurd rfl hk
  | cons b bs => exact List.nil_lt_cons b bs

section Uniform

variable {f : KeyFlags} {U : List Bytes} {a b : Bytes}

/-- Integer keys of one DBI have one of the sizes `bytesToInt` reads. -/
theorem bytesToInt_eq (hU : f.Allowed U) (hf : f.integerKey = true) (ha : a ∈ U) :
    bytesToInt a = leNat a := by
  unfold bytesToInt
  rw [if_pos]
  rcases hU.2 hf with h | h
  · exact Or.inl (h a ha)
  · exact Or.inr (Or.inl (h a ha))

private theorem length_eq (hU : f.Allowed U) (hf : f.integerKey = true) (ha : a ∈ U)
    (hb : b ∈ U) : a.length = b.length := by
  rcases hU.2 hf with h | h
  · rw [h a ha, h b hb]
  · rw [h a ha, h b hb]

/-- The DBI keeps its keys in the order of the comparison function. Integer keys are
in that order even with `MDB_REVERSEKEY`. -/
def InOrder (f : KeyFlags) : Prop := f.reverseKey = true → f.integerKey = true

theorem inOrder_of_forward (h : f.reverseKey = false) : InOrder f := by
  intro hrev
  rw [h] at hrev
  cases hrev

theorem less_iff_rank (hord : InOrder f) (hU : f.Allowed U) (ha : a ∈ U)
    (hb : b ∈ U) : Less f.integerKey a b ↔ f.rank a < f.rank b := by
  rw [less_iff, KeyFlags.rank, KeyFlags.rank]
  cases hf : f.integerKey with
  | false =>
      have hrev : f.reverseKey = false := by
        by_contra hne
        rw [hord (by simpa using hne)] at hf
        cases hf
      rw [hrev]
      rfl
  | true =>
      simp only [Bool.or_true, if_true]
      rw [bytesToInt_eq hU hf ha, bytesToInt_eq hU hf hb, ← beNat_lt_iff (by
        simpa using length_eq hU hf ha hb), beNat, beNat, List.reverse_reverse,
        List.reverse_reverse]

theorem eq_of_cmpFunc_eq (hU : f.Allowed U) (ha : a ∈ U) (hb : b ∈ U)
    (h : cmpFunc f.integerKey a b = .eq) : a = b := by
  unfold cmpFunc cmpIntegerLittleEndian at h
  cases hf : f.integerKey with
  | false =>
      rw [hf, if_neg Bool.false_ne_true] at h
      unfold cmp cmpUsing at h
      split_ifs at h with h1 h2
      exact le_antisymm (not_lt.mp h2) (not_lt.mp h1)
  | true =>
      rw [hf, if_pos rfl, cmp_eq_eq_iff, bytesToInt_eq hU hf ha, bytesToInt_eq hU hf hb] at h
      exact leNat_inj (length_eq hU hf ha hb) h

end Uniform

/-! ## The walk -/

/-- What `iterBoth` hands to its callback. -/
inductive Visit (E : Type)
  | dbOnly (dbKey dbVal : Bytes)
  | itOnly (e : E) (dbEOF : Bool)
  | both (e : E) (dbKey dbVal : Bytes)

/-- The local variables of `iterBoth`. The pending `itKey` is the key of
`head`; `pos` is the cursor. -/
structure Walk (E : Type) where
  rest : List E
  cur : Option E
  head : Option E
  itEOF : Bool
  dbKV : Option (Bytes × Bytes)
  dbEOF : Bool
  pos : Option Bytes
  prevKey : Bytes
  txn : Txn

def Walk.start (it : Iterator E ε) (t : Txn) : Walk E :=
  ⟨it.entries, none, none, false, none, false, none, [], t⟩

/-- Next iterator key if needed, with the check that keys are in order. -/
def fetchIt (it : Iterator E ε) (ik : Bool) (w : Walk E) : Except (StratErr ε) (Walk E) :=
  if w.head.isNone && !w.itEOF then
    match w.rest with
    | [] =>
        match it.ending with
        | none => .ok { w with itEOF := true }
        | some e => .error (.next e)
    | e :: rest =>
        if ¬ Less ik w.prevKey (it.key e) then .error (.notSorted (it.key e))
        else if (it.key e).length > maxKeySize then .error .keyTooLong
        else .ok { w with
          rest := rest, cur := some e, head := some e, prevKey := it.key e }
  else .ok w

/-- Next LMDB key if needed. -/
def fetchDb (w : Walk E) : Walk E :=
  if w.dbKV.isNone && !w.dbEOF then
    match w.txn.dbi.next w.pos with
    | none => { w with dbEOF := true }
    | some kv => { w with dbKV := some kv, pos := some kv.1 }
  else w

/-- The side that is behind; `none` when both are at their end. -/
def pick (it : Iterator E ε) (ik : Bool) (head : Option E) (dbKV : Option (Bytes × Bytes)) :
    Option (Visit E) :=
  match head, dbKV with
  | none, none => none
  | none, some (k, v) => some (.dbOnly k v)
  | some e, none => some (.itOnly e true)
  | some e, some (k, v) =>
      match cmpFunc ik k (it.key e) with
      | .lt => some (.dbOnly k v)
      | .eq => some (.both e k v)
      | .gt => some (.itOnly e false)

def consume (w : Walk E) (t : Txn) : Visit E → Walk E
  | .dbOnly _ _ => { w with dbKV := none, txn := t }
  | .itOnly _ _ => { w with head := none, txn := t }
  | .both _ _ _ => { w with head := none, dbKV := none, txn := t }

def iterBoth (it : Iterator E ε) (ik : Bool)
    (f : Option E → Visit E → Txn → Except (StratErr ε) Txn) :
    ℕ → Walk E → Except (StratErr ε) Txn
  | 0, _ => .error .outOfFuel
  | n + 1, w => do
      let w₁ ← fetchIt it ik w
      let w₂ := fetchDb w₁
      match pick it ik w₂.head w₂.dbKV with
      | none => .ok w₂.txn
      | some x =>
          let t ← f w₂.cur x w₂.txn
          iterBoth it ik f n (consume w₂ t x)

/-- The callback of `IterUpdate`. A matching key is merged twice, first
against nil; only the second result counts. -/
def iterUpdateFunc (it : Iterator E ε) (cur : Option E) (x : Visit E) (t : Txn) :
    Except (StratErr ε) Txn :=
  match x with
  | .dbOnly k v => do
      let val ← (it.clean cur v).mapError .clean
      match val with
      | none => (t.del k).mapError .del
      | some v' => if v' = v then .ok t else (t.put k v').mapError .put
  | .itOnly e dbEOF => do
      let val ← (it.merge e none).mapError .merge
      match present val with
      | none => .ok t
      | some v =>
          if dbEOF then (t.append (it.key e) v).mapError .append
          else (t.put (it.key e) v).mapError .put
  | .both e k v => do
      let _ ← (it.merge e none).mapError .merge
      let val ← (it.merge e (some v)).mapError .merge
      match present val with
      | none => (t.del k).mapError .del
      | some v' => if v' = v then .ok t else (t.put (it.key e) v').mapError .put

/-- Every round but the last uses up an entry of one side, and an entry taken
from the iterator adds at most one to the DBI, so the fuel does not run out. -/
def iterUpdate (t : Txn) (it : Iterator E ε) : Except (StratErr ε) Txn :=
  iterBoth it t.dbi.flags.integerKey (iterUpdateFunc it)
    (2 * it.entries.length + t.dbi.entries.length + 1) (Walk.start it t)

/-! ## What success says about the input -/

theorem fetchDb_frame (w : Walk E) :
    (fetchDb w).itEOF = w.itEOF ∧ (fetchDb w).prevKey = w.prevKey ∧
      (fetchDb w).rest = w.rest ∧ (fetchDb w).head = w.head ∧
      (fetchDb w).txn = w.txn := by
  unfold fetchDb
  split
  · split <;> exact ⟨rfl, rfl, rfl, rfl, rfl⟩
  · exact ⟨rfl, rfl, rfl, rfl, rfl⟩

/-- What a fetch on the iterator side can do. -/
theorem fetchIt_cases {it : Iterator E ε} {ik : Bool} {w w₁ : Walk E}
    (h : fetchIt it ik w = .ok w₁) :
    (w.rest = [] ∧ it.ending = none ∧ w₁ = { w with itEOF := true }) ∨
    (∃ e rest, w.rest = e :: rest ∧ Less ik w.prevKey (it.key e) ∧ w₁ = { w with
      rest := rest, cur := some e, head := some e, prevKey := it.key e }) ∨
    ((w.head.isSome ∨ w.itEOF = true) ∧ w₁ = w) := by
  unfold fetchIt at h
  split at h
  · split at h
    · rename_i hrest
      split at h
      · rename_i hend
        exact Or.inl ⟨hrest, hend, (Except.ok.inj h).symm⟩
      · cases h
    · rename_i e rest hrest
      split at h
      · cases h
      · rename_i hless
        split at h
        · cases h
        · exact Or.inr (Or.inl ⟨e, rest, hrest, not_not.mp hless, (Except.ok.inj h).symm⟩)
  · rename_i hcond
    refine Or.inr (Or.inr ⟨?_, (Except.ok.inj h).symm⟩)
    cases hh : w.head <;> simp_all

/-- With an entry pending, there is something to visit. -/
theorem pick_ne_none {it : Iterator E ε} {ik : Bool} {e : E} {dbKV : Option (Bytes × Bytes)} :
    pick it ik (some e) dbKV ≠ none := by
  rcases dbKV with - | ⟨k, v⟩
  · simp [pick]
  · cases hcmp : cmpFunc ik k (it.key e) <;> simp [pick, hcmp]

theorem fetchIt_chain {it : Iterator E ε} {ik : Bool} {w w₁ : Walk E}
    (h : fetchIt it ik w = .ok w₁) (heof : w.itEOF = false)
    (ih : w₁.itEOF = false →
      List.IsChain (Less ik) (w₁.prevKey :: w₁.rest.map it.key) ∧ it.ending = none) :
    List.IsChain (Less ik) (w.prevKey :: w.rest.map it.key) ∧ it.ending = none := by
  rcases fetchIt_cases h with ⟨hrest, hend, -⟩ | ⟨e, rest, hrest, hless, rfl⟩ | ⟨-, rfl⟩
  · rw [hrest]
    exact ⟨by simp, hend⟩
  · obtain ⟨hchain, hend⟩ := ih heof
    rw [hrest, List.map_cons]
    exact ⟨List.isChain_cons_cons.mpr ⟨hless, hchain⟩, hend⟩
  · exact ih heof

/-- A walk that succeeds has read the whole iterator in strictly increasing
key order. -/
theorem iterBoth_chain {it : Iterator E ε} {ik : Bool}
    {f : Option E → Visit E → Txn → Except (StratErr ε) Txn} :
    ∀ {n : ℕ} {w : Walk E} {t' : Txn}, iterBoth it ik f n w = .ok t' →
      w.itEOF = false →
      List.IsChain (Less ik) (w.prevKey :: w.rest.map it.key) ∧ it.ending = none
  | 0, w, t', h, _ => by cases h
  | n + 1, w, t', h, heof => by
      rw [iterBoth] at h
      obtain ⟨w₁, hfetch, h⟩ := bind_eq_ok.mp h
      apply fetchIt_chain hfetch heof
      intro heof₁
      have hdb := fetchDb_frame w₁
      -- the iterator is not at its end, so an entry is pending and the walk goes on
      have hhead : ∃ e, w₁.head = some e := by
        rcases fetchIt_cases hfetch with ⟨-, -, rfl⟩ | ⟨e, rest, -, -, rfl⟩ | ⟨hsome, rfl⟩
        · cases heof₁
        · exact ⟨e, rfl⟩
        · rw [heof₁] at hsome
          exact Option.isSome_iff_exists.mp (by simpa using hsome)
      obtain ⟨e, hhead⟩ := hhead
      simp only at h
      split at h
      · rename_i hpick
        rw [hdb.2.2.2.1, hhead] at hpick
        exact absurd hpick pick_ne_none
      · rename_i x hpick
        obtain ⟨t, hf, h⟩ := bind_eq_ok.mp h
        have hcons : (consume (fetchDb w₁) t x).itEOF = false ∧
            (consume (fetchDb w₁) t x).prevKey = w₁.prevKey ∧
            (consume (fetchDb w₁) t x).rest = w₁.rest := by
          cases x <;> exact ⟨hdb.1.trans heof₁, hdb.2.1, hdb.2.2.1⟩
        have ih := iterBoth_chain h hcons.1
        rw [hcons.2.1, hcons.2.2] at ih
        exact ih

theorem isChain_less_pairwise {ik : Bool} {ks : List Bytes}
    (h : List.IsChain (Less ik) ks) : ks.Pairwise (Less ik) := by
  have : IsTrans Bytes (Less ik) := ⟨fun _ _ _ => Less.trans⟩
  exact List.isChain_iff_pairwise.mp h

/-- If `IterUpdate` succeeds, its input was strictly increasing. -/
theorem iterUpdate_sorted {it : Iterator E ε} {t t' : Txn}
    (h : iterUpdate t it = .ok t') :
    ([] :: it.keys).Pairwise (Less t.dbi.flags.integerKey) :=
  isChain_less_pairwise (iterBoth_chain h rfl).1

/-! ## What a walk leaves behind -/

/-- What is still to come on both sides. The right block `ys` of the live
entries is untouched so far. -/
structure Pending (it : Iterator E ε) (ik : Bool) (w : Walk E) (xs : List E)
    (pre ys : List (Bytes × Bytes)) : Prop where
  live : w.txn.dbi.entries = pre ++ ys
  comes : xs = w.head.toList ++ w.rest
  itEOF : w.itEOF = true → xs = []
  held : ∀ e, w.head = some e → w.cur = some e ∧ w.prevKey = it.key e
  above : w.head = none → ∀ x ∈ xs, Less ik w.prevKey (it.key x)
  dbEOF : w.dbEOF = true → w.dbKV = none ∧ ys = []
  dbKV : ∀ kv, w.dbKV = some kv → ys.head? = some kv ∧ w.pos = some kv.1
  reach : w.dbEOF = false → w.dbKV = none → w.txn.dbi.next w.pos = ys.head?

/-- The walk after both fetches: each side shows the head of what is to come. -/
structure Shown (it : Iterator E ε) (w : Walk E) (xs : List E)
    (ys : List (Bytes × Bytes)) (c : Option E) : Prop where
  head : w.head = xs.head?
  rest : w.rest = xs.tail
  cur : w.cur = xs.head?.or c
  itEOF : w.itEOF = true → xs = []
  prevKey : ∀ e, w.head = some e → w.prevKey = it.key e
  dbKV : w.dbKV = ys.head?
  dbEOF : w.dbEOF = true ↔ ys = []
  pos : ∀ kv, w.dbKV = some kv → w.pos = some kv.1

theorem fetchIt_shown {it : Iterator E ε} {ik : Bool} {w : Walk E} {xs : List E}
    {pre ys : List (Bytes × Bytes)} (hp : Pending it ik w xs pre ys)
    (hend : it.ending = none) (hlen : ∀ x ∈ xs, (it.key x).length ≤ maxKeySize) :
    ∃ rest cur head itEOF prevKey,
      fetchIt it ik w = .ok { w with
        rest := rest, cur := cur, head := head, itEOF := itEOF, prevKey := prevKey } ∧
      head = xs.head? ∧ rest = xs.tail ∧ cur = xs.head?.or w.cur ∧
      (itEOF = true → xs = []) ∧ (∀ e, head = some e → prevKey = it.key e) := by
  obtain ⟨rest, cur, head, itEOF, dbKV, dbEOF, pos, prevKey, txn⟩ := w
  obtain ⟨-, hxs, heof, hheld, habove, -, -, -⟩ := hp
  simp only at hxs heof hheld habove ⊢
  cases head with
  | some e =>
      obtain ⟨hcur, hprev⟩ := hheld e rfl
      refine ⟨rest, cur, some e, itEOF, prevKey, by simp [fetchIt], ?_⟩
      rw [hxs]
      refine ⟨rfl, rfl, hcur, fun h => ?_, fun x hx => ?_⟩
      · rw [← hxs]
        exact heof h
      · rw [← Option.some.inj hx]
        exact hprev
  | none =>
      rw [Option.toList_none, List.nil_append] at hxs
      subst hxs
      cases xs with
      | nil =>
          cases itEOF with
          | true => exact ⟨_, _, _, true, prevKey, by simp [fetchIt], rfl, rfl, rfl,
              fun _ => rfl, by simp⟩
          | false => exact ⟨_, _, _, true, prevKey, by simp [fetchIt, hend], rfl, rfl,
              rfl, fun _ => rfl, by simp⟩
      | cons x xs =>
          have hitEOF : itEOF = false := by
            rw [← Bool.not_eq_true]
            intro h
            exact absurd (heof h) (by simp)
          have hless := habove rfl x List.mem_cons_self
          have hx := hlen x List.mem_cons_self
          refine ⟨xs, some x, some x, false, it.key x, ?_, rfl, rfl, rfl, by simp, ?_⟩
          · subst hitEOF
            simp [fetchIt, hless, hx]
          · intro e he
            rw [← Option.some.inj he]

theorem fetch_shown {it : Iterator E ε} {ik : Bool} {w : Walk E} {xs : List E}
    {pre ys : List (Bytes × Bytes)} (hp : Pending it ik w xs pre ys)
    (hend : it.ending = none) (hlen : ∀ x ∈ xs, (it.key x).length ≤ maxKeySize) :
    ∃ w₁, fetchIt it ik w = .ok w₁ ∧ (fetchDb w₁).txn = w.txn ∧
      Shown it (fetchDb w₁) xs ys w.cur := by
  obtain ⟨rest, cur, head, itEOF, prevKey, hf, hhead, hrest, hcur, heof, hprev⟩ :=
    fetchIt_shown hp hend hlen
  refine ⟨_, hf, ?_⟩
  have hdbEOF := hp.dbEOF
  have hdbKV := hp.dbKV
  have hreach := hp.reach
  generalize w.dbKV = dbKV at *
  generalize w.dbEOF = dbEOF at *
  cases dbKV with
  | some kv =>
      obtain ⟨hys, hpos⟩ := hdbKV kv rfl
      have hne : ys ≠ [] := by
        rintro rfl
        cases hys
      refine ⟨rfl, hhead, hrest, hcur, heof, hprev, hys.symm,
        ⟨fun h => (hdbEOF h).2, fun h => absurd h hne⟩, ?_⟩
      intro kv' h
      rw [← Option.some.inj h]
      exact hpos
  | none =>
      cases dbEOF with
      | true =>
          obtain ⟨-, rfl⟩ := hdbEOF rfl
          exact ⟨rfl, hhead, hrest, hcur, heof, hprev, rfl, ⟨fun _ => rfl, fun _ => rfl⟩,
            by simp [fetchDb]⟩
      | false =>
          have hn := hreach rfl rfl
          simp only [fetchDb, hn, Option.isNone_none, Bool.not_false, Bool.and_true, if_true]
          cases ys with
          | nil =>
              exact ⟨rfl, hhead, hrest, hcur, heof, hprev, rfl,
                ⟨fun _ => rfl, fun _ => rfl⟩, by simp⟩
          | cons kv ys =>
              refine ⟨rfl, hhead, hrest, hcur, heof, hprev, rfl, by simp, ?_⟩
              intro kv' h
              rw [← Option.some.inj h]
              rfl

/-- A visit at key `k` that left `r` there: the entries after the cursor are
as they were. -/
structure Passed (t t' : Txn) (pre ys : List (Bytes × Bytes)) (k : Bytes)
    (r : Option Bytes) : Prop where
  flags : t'.dbi.flags = t.dbi.flags
  live : ∃ pre', t'.dbi.entries = pre' ++ ys ∧ ∀ p ∈ pre', p ∈ pre ∨ p.1 = k
  get : ∀ j, t'.dbi.get j = if j = k then r else t.dbi.get j

section Visits

variable {it : Iterator E ε} {t : Txn} {pre ys : List (Bytes × Bytes)} {k v : Bytes}

private theorem get_of_live (hlive : t.dbi.entries = pre ++ (k, v) :: ys) :
    t.dbi.get k = some v := by
  apply Dbi.mem_entries_iff.mp
  rw [hlive]
  simp

private theorem mem_pre_or_key {w : Bytes} {p : Bytes × Bytes} (hp : p ∈ pre ++ [(k, w)]) :
    p ∈ pre ∨ p.1 = k := by
  rcases List.mem_append.mp hp with hp | hp
  · exact Or.inl hp
  · exact Or.inr (by rw [List.mem_singleton.mp hp])

theorem passed_keep (hlive : t.dbi.entries = pre ++ (k, v) :: ys) :
    Passed t t pre ys k (some v) := by
  refine ⟨rfl, ⟨pre ++ [(k, v)], by simp [hlive], fun _ => mem_pre_or_key⟩, fun j => ?_⟩
  split
  · rename_i hj
    rw [hj, get_of_live hlive]
  · rfl

theorem passed_del (hlive : t.dbi.entries = pre ++ (k, v) :: ys) :
    Passed t ⟨t.dbi.erase k, true⟩ pre ys k none :=
  ⟨rfl, ⟨pre, Dbi.entries_erase_split hlive, fun _ hp => Or.inl hp⟩,
    fun _ => Dbi.get_erase⟩

theorem passed_put (hlive : t.dbi.entries = pre ++ (k, v) :: ys) (v' : Bytes) (ha) :
    Passed t ⟨t.dbi.set k v' ha, true⟩ pre ys k (some v') := by
  refine ⟨rfl, ⟨pre ++ [(k, v')], ?_, fun _ => mem_pre_or_key⟩, fun _ => Dbi.get_set ha⟩
  rw [List.append_assoc]
  exact Dbi.entries_set_replace hlive ha

/-- A stored entry is deleted, left as it is or overwritten. -/
private theorem passed_store (hlive : t.dbi.entries = pre ++ (k, v) :: ys) (r : Option Bytes) :
    ∃ t', (match r with
      | none => (t.del k).mapError StratErr.del
      | some v' => if v' = v then .ok t else (t.put k v').mapError StratErr.put) =
        (Except.ok t' : Except (StratErr ε) Txn) ∧ Passed t t' pre ys k r := by
  have hg := get_of_live hlive
  cases r with
  | none =>
      simp only [Txn.del_of_some hg]
      exact ⟨_, rfl, passed_del hlive⟩
  | some v' =>
      by_cases hv : v' = v
      · simp only [hv, if_true]
        exact ⟨_, rfl, passed_keep hlive⟩
      · simp only [if_neg hv, Txn.put_of_allowed (Txn.allowed_of_get hg)]
        exact ⟨_, rfl, passed_put hlive v' _⟩

theorem iterUpdateFunc_dbOnly {cur : Option E} {r : Option Bytes}
    (hlive : t.dbi.entries = pre ++ (k, v) :: ys) (hc : it.clean cur v = .ok r) :
    ∃ t', iterUpdateFunc it cur (.dbOnly k v) t = .ok t' ∧ Passed t t' pre ys k r := by
  unfold iterUpdateFunc
  dsimp only
  rw [hc]
  exact passed_store hlive r

theorem iterUpdateFunc_both {c : Option E} {e : E} {r₀ r : Option Bytes}
    (hlive : t.dbi.entries = pre ++ (k, v) :: ys) (hk : it.key e = k)
    (h0 : it.merge e none = .ok r₀) (hm : it.merge e (some v) = .ok r) :
    ∃ t', iterUpdateFunc it c (.both e k v) t = .ok t' ∧
      Passed t t' pre ys k (present r) := by
  unfold iterUpdateFunc
  dsimp only
  rw [h0, hm, hk]
  exact passed_store hlive (present r)

/-- A key the DBI may take beside the keys `U`, and whose place in LMDB's order
is the one the comparison function gives it. -/
structure Fits (f : KeyFlags) (ik : Bool) (U : List Bytes) (k : Bytes) : Prop where
  allowed : f.Allowed (k :: U)
  below : ∀ j ∈ U, Less ik j k → f.rank j < f.rank k
  above : ∀ j ∈ U, Less ik k j → f.rank k < f.rank j

theorem iterUpdateFunc_itOnly {c : Option E} {e : E} {r : Option Bytes} {ik eof : Bool}
    {U : List Bytes} (hlive : t.dbi.entries = pre ++ ys)
    (hU : ∀ p ∈ pre ++ ys, p.1 ∈ U) (hm : it.merge e none = .ok r)
    (hpre : ∀ p ∈ pre, Less ik p.1 (it.key e)) (hys : ∀ y ∈ ys, Less ik (it.key e) y.1)
    (hfits : present r ≠ none → Fits t.dbi.flags ik U (it.key e))
    (heof : eof = true → ys = []) :
    ∃ t', iterUpdateFunc it c (.itOnly e eof) t = .ok t' ∧
      Passed t t' pre ys (it.key e) (present r) := by
  have hkeys : ∀ j ∈ t.dbi.keys, j ∈ U := by
    intro j hj
    obtain ⟨p, hp, rfl⟩ := List.mem_map.mp hj
    exact hU p (hlive ▸ hp)
  unfold iterUpdateFunc
  simp only [hm, Except.mapError, bind, Except.bind]
  cases hr : present r with
  | none =>
      refine ⟨t, rfl, rfl, ⟨pre, hlive, fun _ hp => Or.inl hp⟩, fun j => ?_⟩
      split
      · rename_i hj
        rw [Dbi.get_eq_none_iff, hj]
        intro hmem
        obtain ⟨p, hp, hpk⟩ := List.mem_map.mp hmem
        rw [hlive] at hp
        rcases List.mem_append.mp hp with hp | hp
        · exact (hpre p hp).ne hpk
        · exact (hys p hp).ne hpk.symm
      · rfl
  | some v =>
      obtain ⟨hal, hbelow, habove⟩ := hfits (by rw [hr]; simp)
      have ha : t.dbi.flags.Allowed (it.key e :: t.dbi.keys) := by
        apply hal.subset
        intro x hx
        rcases List.mem_cons.mp hx with rfl | hx
        · simp
        · exact List.mem_cons_of_mem _ (hkeys x hx)
      have hpassed : Passed t ⟨t.dbi.set (it.key e) v ha, true⟩ pre ys (it.key e)
          (some v) := by
        refine ⟨rfl, ⟨pre ++ [(it.key e, v)], ?_, fun _ => mem_pre_or_key⟩,
          fun _ => Dbi.get_set ha⟩
        rw [List.append_assoc]
        refine Dbi.entries_set_split hlive ?_ ?_ ha
        · intro p hp
          exact hbelow _ (hU p (List.mem_append_left _ hp)) (hpre p hp)
        · intro y hy
          exact habove _ (hU y (List.mem_append_right _ hy)) (hys y hy)
      refine ⟨_, ?_, hpassed⟩
      cases heof' : eof with
      | false => simp only [Bool.false_eq_true, if_false, Txn.put_of_allowed ha]
      | true =>
          -- at the end of the DBI every key has been passed, so `Append` is in order
          have hlast : ∀ j ∈ t.dbi.keys, t.dbi.flags.rank j < t.dbi.flags.rank (it.key e) := by
            intro j hj
            obtain ⟨p, hp, rfl⟩ := List.mem_map.mp hj
            rw [hlive, heof heof', List.append_nil] at hp
            exact hbelow _ (hU p (List.mem_append_left _ hp)) (hpre p hp)
          simp only [if_true, Txn.append, if_pos hlast, Txn.put_of_allowed ha]

end Visits

/-! ### The run -/

/-- What a walk needs from what is still to come. `mg` and `cl` are the results
of merging and cleaning, `U` the keys that can be live at any time. -/
structure Mergeable (it : Iterator E ε) (ik : Bool) (f : KeyFlags)
    (mg : E → Option Bytes → Option Bytes) (cl : Option E → Bytes → Option Bytes)
    (U : List Bytes) (xs : List E) (ys : List (Bytes × Bytes)) : Prop where
  sorted : (xs.map it.key).Pairwise (Less ik)
  short : ∀ x ∈ xs, (it.key x).length ≤ maxKeySize
  dbSorted : (ys.map Prod.fst).Pairwise (Less ik)
  same : ∀ x ∈ xs, ∀ y ∈ ys, cmpFunc ik y.1 (it.key x) = .eq → y.1 = it.key x
  mergeNew : ∀ x ∈ xs, it.merge x none = .ok (mg x none)
  mergeOld : ∀ x ∈ xs, ∀ v, (it.key x, v) ∈ ys → it.merge x (some v) = .ok (mg x (some v))
  clean : ∀ c, ∀ y ∈ ys, it.clean c y.2 = .ok (cl c y.2)
  fits : ∀ x ∈ xs, it.key x ∉ ys.map Prod.fst → present (mg x none) ≠ none →
    Fits f ik U (it.key x)
  known : (∀ x ∈ xs, it.key x ∈ U) ∧ ∀ y ∈ ys, y.1 ∈ U

section Run

variable {it : Iterator E ε} {ik : Bool} {f : KeyFlags}
  {mg : E → Option Bytes → Option Bytes} {cl : Option E → Bytes → Option Bytes}
  {U : List Bytes} {x : E} {xs : List E} {y : Bytes × Bytes}
  {pre ys : List (Bytes × Bytes)}

theorem Mergeable.tailIt (h : Mergeable it ik f mg cl U (x :: xs) ys) :
    Mergeable it ik f mg cl U xs ys where
  sorted := (List.pairwise_cons.mp h.sorted).2
  short := fun z hz => h.short z (List.mem_cons_of_mem _ hz)
  dbSorted := h.dbSorted
  same := fun z hz => h.same z (List.mem_cons_of_mem _ hz)
  mergeNew := fun z hz => h.mergeNew z (List.mem_cons_of_mem _ hz)
  mergeOld := fun z hz => h.mergeOld z (List.mem_cons_of_mem _ hz)
  clean := h.clean
  fits := fun z hz => h.fits z (List.mem_cons_of_mem _ hz)
  known := ⟨fun z hz => h.known.1 z (List.mem_cons_of_mem _ hz), h.known.2⟩

theorem Mergeable.tailDb (h : Mergeable it ik f mg cl U xs (y :: ys))
    (hne : ∀ x ∈ xs, it.key x ≠ y.1) : Mergeable it ik f mg cl U xs ys where
  sorted := h.sorted
  short := h.short
  dbSorted := (List.pairwise_cons.mp h.dbSorted).2
  same := fun x hx z hz => h.same x hx z (List.mem_cons_of_mem _ hz)
  mergeNew := h.mergeNew
  mergeOld := fun x hx v hv => h.mergeOld x hx v (List.mem_cons_of_mem _ hv)
  clean := fun c z hz => h.clean c z (List.mem_cons_of_mem _ hz)
  fits := fun x hx hmem => h.fits x hx (by
    rw [List.map_cons, List.mem_cons, not_or]
    exact ⟨hne x hx, hmem⟩)
  known := ⟨h.known.1, fun z hz => h.known.2 z (List.mem_cons_of_mem _ hz)⟩

theorem Mergeable.head_less (h : Mergeable it ik f mg cl U (x :: xs) ys) :
    ∀ z ∈ xs, Less ik (it.key x) (it.key z) := fun z hz =>
  (List.pairwise_cons.mp h.sorted).1 _ (List.mem_map.mpr ⟨z, hz, rfl⟩)

theorem Mergeable.db_head_less (h : Mergeable it ik f mg cl U xs (y :: ys)) :
    ∀ z ∈ ys, Less ik y.1 z.1 := fun z hz =>
  (List.pairwise_cons.mp h.dbSorted).1 _ (List.mem_map.mpr ⟨z, hz, rfl⟩)

/-- The entry that is current when the walk visits a key only the DBI has. -/
def context (it : Iterator E ε) (ik : Bool) (xs : List E) (c : Option E) (k : Bytes) :
    Option E :=
  (xs.find? (fun x => decide (Less ik k (it.key x)))).or (xs.getLast?.or c)

/-- The value a finished walk leaves at a key. -/
def outcome (it : Iterator E ε) (ik : Bool) (mg : E → Option Bytes → Option Bytes)
    (cl : Option E → Bytes → Option Bytes) (d : Dbi) (xs : List E)
    (ys : List (Bytes × Bytes)) (c : Option E) (k : Bytes) : Option Bytes :=
  match xs.find? (fun x => decide (it.key x = k)) with
  | some x => present (mg x (d.get k))
  | none =>
      if k ∈ ys.map Prod.fst then cl (context it ik xs c k) (oldVal d k) else d.get k

theorem context_cons {c : Option E} {k : Bytes} (h : ¬ Less ik k (it.key x)) :
    context it ik (x :: xs) c k = context it ik xs (some x) k := by
  unfold context
  rw [List.find?_cons_of_neg (by simpa using h)]
  cases xs with
  | nil => rfl
  | cons z zs => simp [List.getLast?_cons]

theorem context_or {c : Option E} {k : Bytes} :
    context it ik xs (xs.head?.or c) k = context it ik xs c k := by
  cases xs with
  | nil => rfl
  | cons z zs => simp [context, List.getLast?_cons]

/-- Passing a DBI entry below the iterator. -/
theorem outcome_dbOnly {d d' : Dbi} {c : Option E} {j : Bytes}
    (h : Mergeable it ik f mg cl U xs (y :: ys)) (hlow : ∀ x ∈ xs, Less ik y.1 (it.key x))
    (hold : d.get y.1 = some y.2)
    (hget : ∀ j, d'.get j = if j = y.1 then cl (xs.head?.or c) y.2 else d.get j) :
    outcome it ik mg cl d' xs ys (xs.head?.or c) j =
      outcome it ik mg cl d xs (y :: ys) c j := by
  unfold outcome
  cases hfind : xs.find? (fun x => decide (it.key x = j)) with
  | some x =>
      have hxj : it.key x = j := by simpa using List.find?_some hfind
      have hne : j ≠ y.1 := by
        rw [← hxj]
        exact (hlow x (List.mem_of_find?_eq_some hfind)).ne.symm
      simp only [hget, if_neg hne]
  | none =>
      by_cases hj : j = y.1
      · have hnotin : j ∉ ys.map Prod.fst := by
          rw [hj]
          intro hmem
          obtain ⟨z, hz, hzy⟩ := List.mem_map.mp hmem
          exact (h.db_head_less z hz).ne hzy.symm
        have hctx : context it ik xs c j = xs.head?.or c := by
          cases xs with
          | nil => rfl
          | cons x xs =>
              rw [context, List.find?_cons_of_pos (by
                rw [hj]
                simpa using hlow x List.mem_cons_self)]
              rfl
        simp only [if_neg hnotin, hget, if_pos hj]
        rw [if_pos (by simp [hj]), hctx, oldVal, hj, hold, Option.getD_some]
      · simp only [List.map_cons, List.mem_cons, hj, false_or, oldVal, hget, if_false,
          context_or]

/-- Passing an iterator entry below the DBI. -/
theorem outcome_itOnly {d d' : Dbi} {c : Option E} {j : Bytes}
    (h : Mergeable it ik f mg cl U (x :: xs) ys) (hys : ∀ y ∈ ys, Less ik (it.key x) y.1)
    (hnew : d.get (it.key x) = none)
    (hget : ∀ j, d'.get j = if j = it.key x then present (mg x none) else d.get j) :
    outcome it ik mg cl d' xs ys (some x) j =
      outcome it ik mg cl d (x :: xs) ys c j := by
  unfold outcome
  by_cases hj : it.key x = j
  · have hnone : xs.find? (fun x => decide (it.key x = j)) = none := by
      apply List.find?_eq_none.mpr
      intro z hz
      simpa [← hj] using (h.head_less z hz).ne.symm
    have hnotin : j ∉ ys.map Prod.fst := by
      rw [← hj]
      intro hmem
      obtain ⟨z, hz, hzx⟩ := List.mem_map.mp hmem
      exact (hys z hz).ne hzx.symm
    rw [hnone, List.find?_cons_of_pos (by simp [hj])]
    simp only [if_neg hnotin, hget, if_pos hj.symm]
    rw [← hj, hnew]
  · rw [List.find?_cons_of_neg (by simp [hj])]
    have hkeep : d'.get j = d.get j := by rw [hget, if_neg (Ne.symm hj)]
    cases xs.find? (fun x => decide (it.key x = j)) with
    | some z => simp only [hkeep]
    | none =>
        simp only [oldVal, hkeep]
        by_cases hmem : j ∈ ys.map Prod.fst
        · obtain ⟨z, hz, hzj⟩ := List.mem_map.mp hmem
          have hnless : ¬ Less ik j (it.key x) := by
            intro hl
            exact Less.irrefl (hl.trans (hzj ▸ hys z hz))
          rw [if_pos hmem, if_pos hmem, context_cons hnless]
        · rw [if_neg hmem, if_neg hmem]

/-- Passing a key both sides have. -/
theorem outcome_both {d d' : Dbi} {c : Option E} {j : Bytes}
    (h : Mergeable it ik f mg cl U (x :: xs) (y :: ys)) (hxy : it.key x = y.1)
    (hold : d.get y.1 = some y.2)
    (hget : ∀ j, d'.get j = if j = y.1 then present (mg x (some y.2)) else d.get j) :
    outcome it ik mg cl d' xs ys (some x) j =
      outcome it ik mg cl d (x :: xs) (y :: ys) c j := by
  unfold outcome
  by_cases hj : it.key x = j
  · have hnone : xs.find? (fun x => decide (it.key x = j)) = none := by
      apply List.find?_eq_none.mpr
      intro z hz
      simpa [← hj] using (h.head_less z hz).ne.symm
    have hnotin : j ∉ ys.map Prod.fst := by
      rw [← hj, hxy]
      intro hmem
      obtain ⟨z, hz, hzy⟩ := List.mem_map.mp hmem
      exact (h.db_head_less z hz).ne hzy.symm
    rw [hnone, List.find?_cons_of_pos (by simp [hj])]
    simp only [if_neg hnotin, hget]
    rw [← hj, hxy, if_pos rfl, hold]
  · rw [List.find?_cons_of_neg (by simp [hj])]
    have hjy : j ≠ y.1 := by
      rw [← hxy]
      exact Ne.symm hj
    have hkeep : d'.get j = d.get j := by rw [hget, if_neg hjy]
    cases xs.find? (fun x => decide (it.key x = j)) with
    | some z => simp only [hkeep]
    | none =>
        simp only [oldVal, hkeep, List.map_cons, List.mem_cons, hjy, false_or]
        by_cases hmem : j ∈ ys.map Prod.fst
        · obtain ⟨z, hz, hzj⟩ := List.mem_map.mp hmem
          have hnless : ¬ Less ik j (it.key x) := by
            intro hl
            rw [hxy] at hl
            exact Less.irrefl (hl.trans (hzj ▸ h.db_head_less z hz))
          rw [if_pos hmem, if_pos hmem, context_cons hnless]
        · rw [if_neg hmem, if_neg hmem]

/-- The cursor moves on from a visited key to the entries it has not seen. -/
theorem Passed.next {t t' : Txn} {r : Option Bytes} (hp : Passed t t' pre ys y.1 r)
    (hlive : t.dbi.entries = pre ++ y :: ys) : t'.dbi.next (some y.1) = ys.head? := by
  obtain ⟨hpre, hrest, hcross⟩ := List.pairwise_append.mp (hlive ▸ t.dbi.entries_sorted)
  obtain ⟨pre', hlive', hmem⟩ := hp.live
  apply Dbi.next_of_split hlive'
  · intro p hp'
    rcases hmem p hp' with h | h
    · left
      rw [Dbi.before, hp.flags]
      exact hcross p h y List.mem_cons_self
    · exact Or.inr h
  · intro z hz
    rw [Dbi.before, hp.flags]
    exact (List.pairwise_cons.mp hrest).1 z hz

section Consume

variable {w : Walk E} {c : Option E} {t' : Txn}

theorem Shown.dbOnly {k v : Bytes} (hs : Shown it w xs (y :: ys) c)
    (hlive : t'.dbi.entries = pre ++ ys) (hnext : t'.dbi.next (some y.1) = ys.head?) :
    Pending it ik (consume w t' (.dbOnly k v)) xs pre ys where
  live := hlive
  comes := by
    show xs = w.head.toList ++ w.rest
    rw [hs.head, hs.rest]
    cases xs <;> rfl
  itEOF := hs.itEOF
  held := by
    intro e he
    have hxs : xs.head? = some e := hs.head.symm.trans he
    exact ⟨by rw [show (consume w t' (.dbOnly k v)).cur = w.cur from rfl, hs.cur, hxs]; rfl,
      hs.prevKey e he⟩
  above := by
    intro hnone
    have hxs : xs = [] := List.head?_eq_none_iff.mp (hs.head.symm.trans hnone)
    simp [hxs]
  dbEOF := fun h => absurd (hs.dbEOF.mp h) (by simp)
  dbKV := by simp [consume]
  reach := by
    intro _ _
    show t'.dbi.next w.pos = ys.head?
    rw [hs.pos y (by rw [hs.dbKV]; rfl)]
    exact hnext

theorem Shown.itOnly {e : E} {eof : Bool} (hs : Shown it w (x :: xs) ys c)
    (hlive : t'.dbi.entries = pre ++ ys) (hless : ∀ z ∈ xs, Less ik (it.key x) (it.key z)) :
    Pending it ik (consume w t' (.itOnly e eof)) xs pre ys where
  live := hlive
  comes := hs.rest.symm
  itEOF := fun h => absurd (hs.itEOF h) (by simp)
  held := by simp [consume]
  above := by
    intro _ z hz
    show Less ik w.prevKey _
    rw [hs.prevKey x hs.head]
    exact hless z hz
  dbEOF := by
    intro h
    have hys := hs.dbEOF.mp h
    exact ⟨hs.dbKV.trans (by rw [hys]; rfl), hys⟩
  dbKV := fun kv h => ⟨hs.dbKV.symm.trans h, hs.pos kv h⟩
  reach := by
    intro hneof hnone
    have hys : ys = [] := List.head?_eq_none_iff.mp (hs.dbKV.symm.trans hnone)
    exact absurd (hs.dbEOF.mpr hys) (by rw [show w.dbEOF = false from hneof]; simp)

theorem Shown.both {e : E} {k v : Bytes} (hs : Shown it w (x :: xs) (y :: ys) c)
    (hlive : t'.dbi.entries = pre ++ ys) (hnext : t'.dbi.next (some y.1) = ys.head?)
    (hless : ∀ z ∈ xs, Less ik (it.key x) (it.key z)) :
    Pending it ik (consume w t' (.both e k v)) xs pre ys where
  live := hlive
  comes := hs.rest.symm
  itEOF := fun h => absurd (hs.itEOF h) (by simp)
  held := by simp [consume]
  above := by
    intro _ z hz
    show Less ik w.prevKey _
    rw [hs.prevKey x hs.head]
    exact hless z hz
  dbEOF := fun h => absurd (hs.dbEOF.mp h) (by simp)
  dbKV := by simp [consume]
  reach := by
    intro _ _
    show t'.dbi.next w.pos = ys.head?
    rw [hs.pos y (by rw [hs.dbKV]; rfl)]
    exact hnext

end Consume

theorem iterBoth_succ {g : Option E → Visit E → Txn → Except (StratErr ε) Txn} {n : ℕ}
    {w w₁ : Walk E} {v : Visit E} {t' : Txn} {c : Option E}
    (hfetch : fetchIt it ik w = .ok w₁) (hs : Shown it (fetchDb w₁) xs ys c)
    (hpick : pick it ik xs.head? ys.head? = some v)
    (hg : g (fetchDb w₁).cur v (fetchDb w₁).txn = .ok t') :
    iterBoth it ik g (n + 1) w = iterBoth it ik g n (consume (fetchDb w₁) t' v) := by
  rw [iterBoth, hfetch]
  simp only [bind, Except.bind, hs.head, hs.dbKV, hpick, hg]

/-- The invariant of the walk. -/
structure Tame (it : Iterator E ε) (ik : Bool) (mg : E → Option Bytes → Option Bytes)
    (cl : Option E → Bytes → Option Bytes) (U : List Bytes) (w : Walk E) (xs : List E)
    (pre ys : List (Bytes × Bytes)) : Prop where
  pending : Pending it ik w xs pre ys
  mergeable : Mergeable it ik w.txn.dbi.flags mg cl U xs ys
  passedKnown : ∀ p ∈ pre, p.1 ∈ U
  passedLess : ∀ p ∈ pre, ∀ x ∈ xs, Less ik p.1 (it.key x)

/-- The walk ends well, with the outcome at every key. -/
def Finishes (it : Iterator E ε) (ik : Bool) (mg : E → Option Bytes → Option Bytes)
    (cl : Option E → Bytes → Option Bytes) (n : ℕ) (w : Walk E) (xs : List E)
    (ys : List (Bytes × Bytes)) : Prop :=
  ∃ t', iterBoth it ik (iterUpdateFunc it) n w = .ok t' ∧
    t'.dbi.flags = w.txn.dbi.flags ∧
    ∀ j, t'.dbi.get j = outcome it ik mg cl w.txn.dbi xs ys w.cur j

section Step

variable {w : Walk E} {n : ℕ}

theorem Pending.get_of_mem (hp : Pending it ik w xs pre ys) (hy : y ∈ ys) :
    w.txn.dbi.get y.1 = some y.2 := by
  apply Dbi.mem_entries_iff.mp
  rw [hp.live]
  exact List.mem_append_right _ hy

/-- A round that passes the next entry of the DBI, which lies below the iterator. -/
theorem Tame.dbOnly (hend : it.ending = none) (h : Tame it ik mg cl U w xs pre (y :: ys))
    (hlow : ∀ x ∈ xs, Less ik y.1 (it.key x))
    (hpick : pick it ik xs.head? (some y) = some (.dbOnly y.1 y.2))
    (ih : ∀ {w' pre'}, Tame it ik mg cl U w' xs pre' ys →
      Finishes it ik mg cl n w' xs ys) :
    Finishes it ik mg cl (n + 1) w xs (y :: ys) := by
  obtain ⟨hp, hm, hU, hpre⟩ := h
  obtain ⟨w₁, hfetch, htxn, hs⟩ := fetch_shown hp hend hm.short
  have hlive : (fetchDb w₁).txn.dbi.entries = pre ++ y :: ys := by rw [htxn, hp.live]
  obtain ⟨t₁, hf, hpass⟩ := iterUpdateFunc_dbOnly hlive
    (hm.clean (fetchDb w₁).cur y List.mem_cons_self)
  obtain ⟨pre', hlive', hmem⟩ := hpass.live
  have htame : Tame it ik mg cl U (consume (fetchDb w₁) t₁ (.dbOnly y.1 y.2)) xs pre' ys := by
    refine ⟨hs.dbOnly hlive' (hpass.next hlive), ?_, ?_, ?_⟩
    · show Mergeable it ik t₁.dbi.flags mg cl U xs ys
      rw [hpass.flags, htxn]
      exact hm.tailDb fun x hx => (hlow x hx).ne.symm
    · intro p hp'
      rcases hmem p hp' with h | h
      · exact hU p h
      · rw [h]
        exact hm.known.2 y List.mem_cons_self
    · intro p hp' x hx
      rcases hmem p hp' with h | h
      · exact hpre p h x hx
      · rw [h]
        exact hlow x hx
  obtain ⟨t', hrun, hflags, hget⟩ := ih htame
  refine ⟨t', (iterBoth_succ hfetch hs hpick hf).trans hrun, ?_, fun j => ?_⟩
  · exact hflags.trans (hpass.flags.trans (by rw [htxn]))
  · rw [hget, show (consume (fetchDb w₁) t₁ (.dbOnly y.1 y.2)).cur =
      (fetchDb w₁).cur from rfl, hs.cur]
    apply outcome_dbOnly hm hlow (hp.get_of_mem List.mem_cons_self)
    intro j
    rw [← hs.cur, ← htxn]
    exact hpass.get j

/-- A round that passes the next entry of the iterator, which lies below the DBI. -/
theorem Tame.itOnly {b : Bool} (hend : it.ending = none)
    (h : Tame it ik mg cl U w (x :: xs) pre ys) (hys : ∀ y ∈ ys, Less ik (it.key x) y.1)
    (heof : b = true → ys = [])
    (hpick : pick it ik (some x) ys.head? = some (.itOnly x b))
    (ih : ∀ {w' pre'}, Tame it ik mg cl U w' xs pre' ys →
      Finishes it ik mg cl n w' xs ys) :
    Finishes it ik mg cl (n + 1) w (x :: xs) ys := by
  obtain ⟨hp, hm, hU, hpre⟩ := h
  obtain ⟨w₁, hfetch, htxn, hs⟩ := fetch_shown hp hend hm.short
  have hlive : (fetchDb w₁).txn.dbi.entries = pre ++ ys := by rw [htxn, hp.live]
  have hprex : ∀ p ∈ pre, Less ik p.1 (it.key x) := fun p hp' =>
    hpre p hp' x List.mem_cons_self
  have hnotin : it.key x ∉ ys.map Prod.fst := by
    intro hmem
    obtain ⟨z, hz, hzx⟩ := List.mem_map.mp hmem
    exact (hys z hz).ne hzx.symm
  have hknown : ∀ p ∈ pre ++ ys, p.1 ∈ U := by
    intro p hp'
    rcases List.mem_append.mp hp' with h | h
    · exact hU p h
    · exact hm.known.2 p h
  obtain ⟨t₁, hf, hpass⟩ := iterUpdateFunc_itOnly (c := (fetchDb w₁).cur) hlive hknown
    (hm.mergeNew x List.mem_cons_self) hprex hys
    (by rw [htxn]; exact hm.fits x List.mem_cons_self hnotin) heof
  obtain ⟨pre', hlive', hmem⟩ := hpass.live
  have htame : Tame it ik mg cl U (consume (fetchDb w₁) t₁ (.itOnly x b)) xs pre' ys := by
    refine ⟨hs.itOnly hlive' hm.head_less, ?_, ?_, ?_⟩
    · show Mergeable it ik t₁.dbi.flags mg cl U xs ys
      rw [hpass.flags, htxn]
      exact hm.tailIt
    · intro p hp'
      rcases hmem p hp' with h | h
      · exact hU p h
      · rw [h]
        exact hm.known.1 x List.mem_cons_self
    · intro p hp' z hz
      rcases hmem p hp' with h | h
      · exact hpre p h z (List.mem_cons_of_mem _ hz)
      · rw [h]
        exact hm.head_less z hz
  obtain ⟨t', hrun, hflags, hget⟩ := ih htame
  refine ⟨t', (iterBoth_succ hfetch hs hpick hf).trans hrun, ?_, fun j => ?_⟩
  · exact hflags.trans (hpass.flags.trans (by rw [htxn]))
  · rw [hget, show (consume (fetchDb w₁) t₁ (.itOnly x b)).cur = some x from hs.cur]
    apply outcome_itOnly hm hys
    · rw [Dbi.get_eq_none_iff]
      intro hin
      obtain ⟨p, hp', hpx⟩ := List.mem_map.mp hin
      rw [hp.live] at hp'
      rcases List.mem_append.mp hp' with h | h
      · exact (hprex p h).ne hpx
      · exact (hys p h).ne hpx.symm
    · intro j
      rw [← htxn]
      exact hpass.get j

/-- A round at a key both sides have. -/
theorem Tame.both (hend : it.ending = none)
    (h : Tame it ik mg cl U w (x :: xs) pre (y :: ys)) (hxy : it.key x = y.1)
    (hpick : pick it ik (some x) (some y) = some (.both x y.1 y.2))
    (ih : ∀ {w' pre'}, Tame it ik mg cl U w' xs pre' ys →
      Finishes it ik mg cl n w' xs ys) :
    Finishes it ik mg cl (n + 1) w (x :: xs) (y :: ys) := by
  obtain ⟨hp, hm, hU, hpre⟩ := h
  obtain ⟨w₁, hfetch, htxn, hs⟩ := fetch_shown hp hend hm.short
  have hlive : (fetchDb w₁).txn.dbi.entries = pre ++ y :: ys := by rw [htxn, hp.live]
  obtain ⟨t₁, hf, hpass⟩ := iterUpdateFunc_both (c := (fetchDb w₁).cur) hlive hxy
    (hm.mergeNew x List.mem_cons_self)
    (hm.mergeOld x List.mem_cons_self y.2 (by rw [hxy]; exact List.mem_cons_self))
  obtain ⟨pre', hlive', hmem⟩ := hpass.live
  have htame : Tame it ik mg cl U (consume (fetchDb w₁) t₁ (.both x y.1 y.2)) xs pre' ys := by
    refine ⟨hs.both hlive' (hpass.next hlive) hm.head_less, ?_, ?_, ?_⟩
    · show Mergeable it ik t₁.dbi.flags mg cl U xs ys
      rw [hpass.flags, htxn]
      exact hm.tailIt.tailDb fun z hz => by
        rw [← hxy]
        exact (hm.head_less z hz).ne.symm
    · intro p hp'
      rcases hmem p hp' with h | h
      · exact hU p h
      · rw [h]
        exact hm.known.2 y List.mem_cons_self
    · intro p hp' z hz
      rcases hmem p hp' with h | h
      · exact hpre p h z (List.mem_cons_of_mem _ hz)
      · rw [h, ← hxy]
        exact hm.head_less z hz
  obtain ⟨t', hrun, hflags, hget⟩ := ih htame
  refine ⟨t', (iterBoth_succ hfetch hs hpick hf).trans hrun, ?_, fun j => ?_⟩
  · exact hflags.trans (hpass.flags.trans (by rw [htxn]))
  · rw [hget, show (consume (fetchDb w₁) t₁ (.both x y.1 y.2)).cur = some x from hs.cur]
    apply outcome_both hm hxy (hp.get_of_mem List.mem_cons_self)
    intro j
    rw [← htxn]
    exact hpass.get j

end Step

/-- Every walk over mergeable input finishes. The induction is on the fuel,
which bounds what is still to come on both sides together. -/
theorem iterBoth_finishes (hend : it.ending = none) : ∀ {n : ℕ} {w : Walk E}
    {xs : List E} {pre ys : List (Bytes × Bytes)}, xs.length + ys.length < n →
    Tame it ik mg cl U w xs pre ys → Finishes it ik mg cl n w xs ys
  | 0, _, _, _, _, hn, _ => by omega
  | n + 1, w, [], pre, [], _, h => by
      obtain ⟨w₁, hfetch, htxn, hs⟩ := fetch_shown h.pending hend h.mergeable.short
      refine ⟨(fetchDb w₁).txn, ?_, by rw [htxn], fun j => by rw [htxn]; rfl⟩
      rw [iterBoth, hfetch]
      simp only [bind, Except.bind, hs.head, hs.dbKV, List.head?_nil, pick]
  | n + 1, w, [], pre, y :: ys, hn, h => by
      refine h.dbOnly hend (by simp) rfl fun h' => iterBoth_finishes hend ?_ h'
      simp only [List.length_cons] at hn
      omega
  | n + 1, w, x :: xs, pre, [], hn, h => by
      refine h.itOnly (b := true) hend (by simp) (fun _ => rfl) rfl fun h' =>
        iterBoth_finishes hend ?_ h'
      simp only [List.length_cons] at hn
      omega
  | n + 1, w, x :: xs, pre, y :: ys, hn, h => by
      have hm := h.mergeable
      simp only [List.length_cons] at hn
      cases hcmp : cmpFunc ik y.1 (it.key x) with
      | lt =>
          refine h.dbOnly hend ?_ (by simp [pick, hcmp]) fun h' =>
            iterBoth_finishes hend (by simp only [List.length_cons]; omega) h'
          intro z hz
          rcases List.mem_cons.mp hz with rfl | hz
          · exact hcmp
          · exact Less.trans hcmp (hm.head_less z hz)
      | gt =>
          have hxy := less_of_gt hcmp
          refine h.itOnly (b := false) hend ?_ (by simp) (by simp [pick, hcmp]) fun h' =>
            iterBoth_finishes hend (by simp only [List.length_cons]; omega) h'
          intro z hz
          rcases List.mem_cons.mp hz with rfl | hz
          · exact hxy
          · exact hxy.trans (hm.db_head_less z hz)
      | eq =>
          have hxy := (hm.same x List.mem_cons_self y List.mem_cons_self hcmp).symm
          exact h.both hend hxy (by simp [pick, hcmp]) fun h' =>
            iterBoth_finishes hend (by omega) h'

end Run

/-- A walk that is to pass the entries `xs`, at its start. -/
theorem pending_start {it : Iterator E ε} {t : Txn} {ik : Bool} {xs : List E}
    (hne : ∀ x ∈ xs, Less ik [] (it.key x)) :
    Pending it ik { Walk.start it t with rest := xs } xs [] t.dbi.entries := by
  refine ⟨rfl, rfl, ?_, ?_, fun _ => hne, ?_, ?_, fun _ _ => ?_⟩
  · simp [Walk.start]
  · simp [Walk.start]
  · simp [Walk.start]
  · simp [Walk.start]
  · exact t.dbi.next_none_eq_head

/-- **`IterUpdate`, key by key.** A key the iterator has takes the merged value;
a key only the DBI has is cleaned. -/
theorem iterUpdate_spec {it : Iterator E ε} {t : Txn} {mg : E → Option Bytes → Option Bytes}
    {cl : Option E → Bytes → Option Bytes} {U : List Bytes} (hend : it.ending = none)
    (hne : ∀ x ∈ it.entries, Less t.dbi.flags.integerKey [] (it.key x))
    (hm : Mergeable it t.dbi.flags.integerKey t.dbi.flags mg cl U it.entries t.dbi.entries) :
    ∃ t', iterUpdate t it = .ok t' ∧ t'.dbi.flags = t.dbi.flags ∧
      ∀ k, t'.dbi.get k = match it.find k with
        | some x => present (mg x (t.dbi.get k))
        | none => (t.dbi.get k).bind
            (cl (context it t.dbi.flags.integerKey it.entries none k)) := by
  obtain ⟨t', hrun, hflags, hget⟩ := iterBoth_finishes (U := U) hend
    (n := 2 * it.entries.length + t.dbi.entries.length + 1) (by omega)
    ⟨pending_start hne, hm, by simp, by simp⟩
  refine ⟨t', hrun, hflags, fun k => ?_⟩
  rw [hget]
  show outcome it _ mg cl t.dbi it.entries t.dbi.entries none k = _
  unfold outcome Iterator.find
  cases it.entries.find? (fun e => decide (it.key e = k)) with
  | some x => rfl
  | none =>
      rw [show t.dbi.entries.map Prod.fst = t.dbi.keys from rfl]
      cases hk : t.dbi.get k with
      | none => rw [if_neg (Dbi.get_eq_none_iff.mp hk), Option.bind_none]
      | some v =>
          rw [if_pos (Dbi.mem_keys_iff.mpr ⟨v, hk⟩), oldVal, hk]
          rfl

/-- Keys the DBI may hold beside its own fit when its order is the
comparison function's. -/
theorem fits_of_allowed {f : KeyFlags} {U : List Bytes} {k : Bytes}
    (hord : InOrder f) (hU : f.Allowed U) (hk : k ∈ U) :
    Fits f f.integerKey U k := by
  refine ⟨hU.subset fun x hx => ?_, fun j hj h => ?_, fun j hj h => ?_⟩
  · rcases List.mem_cons.mp hx with rfl | hx
    · exact hk
    · exact hx
  · exact (less_iff_rank hord hU hj hk).mp h
  · exact (less_iff_rank hord hU hk hj).mp h

theorem keys_less {d : Dbi} (hord : InOrder d.flags) :
    d.keys.Pairwise (Less d.flags.integerKey) := by
  refine d.keys_sorted.imp_of_mem ?_
  intro a b ha hb h
  exact (less_iff_rank hord d.keys_allowed ha hb).mpr h

/-- A DBI that keeps its keys in the order of the comparison function takes any sorted
input whose merges succeed. -/
theorem mergeable_of_sorted {it : Iterator E ε} {d : Dbi} {mg : E → Option Bytes → Option Bytes}
    {cl : Option E → Bytes → Option Bytes} {xs : List E} (hord : InOrder d.flags)
    (hsizes : d.flags.Allowed (xs.map it.key ++ d.keys))
    (hsorted : (xs.map it.key).Pairwise (Less d.flags.integerKey))
    (hnew : ∀ x ∈ xs, it.merge x none = .ok (mg x none))
    (hold : ∀ x ∈ xs, ∀ v, d.get (it.key x) = some v → it.merge x (some v) = .ok (mg x (some v)))
    (hclean : ∀ c k v, d.get k = some v → it.clean c v = .ok (cl c v)) :
    Mergeable it d.flags.integerKey d.flags mg cl (xs.map it.key ++ d.keys) xs d.entries := by
  have hx : ∀ x ∈ xs, it.key x ∈ xs.map it.key ++ d.keys := fun x hx =>
    List.mem_append_left _ (List.mem_map.mpr ⟨x, hx, rfl⟩)
  have hy : ∀ y ∈ d.entries, y.1 ∈ xs.map it.key ++ d.keys := fun y hy =>
    List.mem_append_right _ (List.mem_map.mpr ⟨y, hy, rfl⟩)
  exact {
    sorted := hsorted
    short := fun x hmem => (hsizes.1 _ (hx x hmem)).2
    dbSorted := keys_less hord
    same := fun x hmem y hmem' h => eq_of_cmpFunc_eq hsizes (hy y hmem') (hx x hmem) h
    mergeNew := hnew
    mergeOld := fun x hmem v hv => hold x hmem v (Dbi.mem_entries_iff.mp hv)
    clean := fun c y hmem => hclean c y.1 y.2 (Dbi.mem_entries_iff.mp hmem)
    fits := fun x hmem _ _ => fits_of_allowed hord hsizes (hx x hmem)
    known := ⟨hx, hy⟩ }

/-! ## What a successful walk did -/

/-- What a visit may write, and at which key. -/
inductive Writes (it : Iterator E ε) (cur : Option E) : Visit E → Bytes → Bytes → Prop
  | clean {k v v' : Bytes} (h : it.clean cur v = .ok (some v')) :
      Writes it cur (.dbOnly k v) k v'
  | add {e : E} {eof : Bool} {r : Option Bytes} {v : Bytes} (h : it.merge e none = .ok r)
      (hv : present r = some v) : Writes it cur (.itOnly e eof) (it.key e) v
  | merge {e : E} {k old : Bytes} {r : Option Bytes} {v : Bytes}
      (h : it.merge e (some old) = .ok r) (hv : present r = some v) :
      Writes it cur (.both e k old) (it.key e) v

theorem iterUpdateFunc_cases {it : Iterator E ε} {cur : Option E} {x : Visit E} {t t' : Txn}
    (h : iterUpdateFunc it cur x t = .ok t') :
    t' = t ∨ (∃ k, t.del k = .ok t') ∨ ∃ k v, Writes it cur x k v ∧ t.put k v = .ok t' := by
  unfold iterUpdateFunc at h
  cases x with
  | dbOnly k v =>
      obtain ⟨val, hval, h⟩ := bind_eq_ok.mp h
      split at h
      · exact Or.inr (Or.inl ⟨k, mapError_eq_ok.mp h⟩)
      · split at h
        · exact Or.inl (Except.ok.inj h).symm
        · exact Or.inr (Or.inr ⟨k, _, .clean (mapError_eq_ok.mp hval), mapError_eq_ok.mp h⟩)
  | itOnly e eof =>
      obtain ⟨val, hval, h⟩ := bind_eq_ok.mp h
      split at h
      · exact Or.inl (Except.ok.inj h).symm
      · rename_i v hv
        refine Or.inr (Or.inr ⟨it.key e, v, .add (mapError_eq_ok.mp hval) hv, ?_⟩)
        split at h
        · have happ := mapError_eq_ok.mp h
          unfold Txn.append at happ
          split at happ
          · exact happ
          · cases happ
        · exact mapError_eq_ok.mp h
  | both e k v =>
      obtain ⟨val₀, -, h⟩ := bind_eq_ok.mp h
      obtain ⟨val, hval, h⟩ := bind_eq_ok.mp h
      split at h
      · exact Or.inr (Or.inl ⟨k, mapError_eq_ok.mp h⟩)
      · rename_i v' hv
        split at h
        · exact Or.inl (Except.ok.inj h).symm
        · exact Or.inr (Or.inr ⟨it.key e, v', .merge (mapError_eq_ok.mp hval) hv,
            mapError_eq_ok.mp h⟩)

theorem fetchIt_txn {it : Iterator E ε} {ik : Bool} {w w₁ : Walk E}
    (h : fetchIt it ik w = .ok w₁) : w₁.txn = w.txn := by
  rcases fetchIt_cases h with ⟨-, -, rfl⟩ | ⟨e, rest, -, -, rfl⟩ | ⟨-, rfl⟩
  · rfl
  · rfl
  · rfl

@[simp] theorem fetchDb_txn (w : Walk E) : (fetchDb w).txn = w.txn := (fetchDb_frame w).2.2.2.2

/-- An entry the cursor has just moved to is in the DBI. -/
theorem fetchDb_dbKV {w : Walk E} {y : Bytes × Bytes} (h : (fetchDb w).dbKV = some y) :
    w.dbKV = some y ∨ w.txn.dbi.get y.1 = some y.2 := by
  unfold fetchDb at h
  split at h
  · split at h
    · exact Or.inl h
    · rename_i kv hnext
      obtain rfl := Option.some.inj h
      exact Or.inr (Dbi.get_of_next hnext)
  · exact Or.inl h

@[simp] theorem consume_txn (w : Walk E) (t : Txn) (x : Visit E) : (consume w t x).txn = t := by
  cases x with
  | dbOnly k v => rfl
  | itOnly e eof => rfl
  | both e k v => rfl

/-- **An invariant of the walk**: what fetching and visiting keep, a successful walk
keeps. -/
theorem iterBoth_invariant {it : Iterator E ε} {ik : Bool}
    {f : Option E → Visit E → Txn → Except (StratErr ε) Txn} {J : Walk E → Prop}
    (hfetch : ∀ {w w₁ : Walk E}, J w → fetchIt it ik w = .ok w₁ → J (fetchDb w₁))
    (hvisit : ∀ {w : Walk E} {x : Visit E} {t : Txn}, J w →
      pick it ik w.head w.dbKV = some x → f w.cur x w.txn = .ok t → J (consume w t x)) :
    ∀ {n : ℕ} {w : Walk E} {t' : Txn}, J w → iterBoth it ik f n w = .ok t' →
      ∃ w', J w' ∧ w'.txn = t'
  | 0, _, _, _, h => by cases h
  | n + 1, w, t', hw, h => by
      rw [iterBoth] at h
      obtain ⟨w₁, hf, h⟩ := bind_eq_ok.mp h
      have hw₁ := hfetch hw hf
      simp only at h
      split at h
      · exact ⟨_, hw₁, Except.ok.inj h⟩
      · rename_i x hpick
        obtain ⟨t, hx, h⟩ := bind_eq_ok.mp h
        exact iterBoth_invariant hfetch hvisit (hvisit hw₁ hpick hx) h

/-! ### Which walks write -/

theorem iterUpdateFunc_marked {it : Iterator E ε} {cur : Option E} {x : Visit E}
    {t t' : Txn} (h : iterUpdateFunc it cur x t = .ok t') : Marked t t' := by
  rcases iterUpdateFunc_cases h with rfl | ⟨k, hdel⟩ | ⟨k, v, -, hput⟩
  · exact Marked.refl _
  · exact del_marked hdel
  · exact put_marked hput

theorem iterUpdate_marked {it : Iterator E ε} {t t' : Txn}
    (h : iterUpdate t it = .ok t') : Marked t t' := by
  obtain ⟨w', hw', rfl⟩ := iterBoth_invariant (J := fun w => Marked t w.txn)
    (fun hw hf => by rwa [fetchDb_txn, fetchIt_txn hf])
    (fun hw _ hx => by
      rw [consume_txn]
      exact hw.trans (iterUpdateFunc_marked hx)) (Marked.refl t) h
  exact hw'

/-! ### Keys that neither side has -/

/-- A visit that is not about a key. -/
def Visit.Avoids (it : Iterator E ε) (k : Bytes) : Visit E → Prop
  | .dbOnly j _ => j ≠ k
  | .itOnly e _ => it.key e ≠ k
  | .both e j _ => it.key e ≠ k ∧ j ≠ k

theorem iterUpdateFunc_absent {it : Iterator E ε} {cur : Option E} {x : Visit E} {k : Bytes}
    {t t' : Txn} (hx : x.Avoids it k) (ht : t.dbi.get k = none)
    (h : iterUpdateFunc it cur x t = .ok t') : t'.dbi.get k = none := by
  rcases iterUpdateFunc_cases h with rfl | ⟨j, hdel⟩ | ⟨j, v, hwrites, hput⟩
  · exact ht
  · exact Txn.del_absent hdel ht
  · refine Txn.put_absent hput ht ?_
    cases hwrites with
    | clean _ => exact hx
    | add _ _ => exact hx
    | merge _ _ => exact hx.1

/-- A walk that has not met a key. -/
structure Clear (it : Iterator E ε) (k : Bytes) (w : Walk E) : Prop where
  rest : ∀ e ∈ w.rest, it.key e ≠ k
  head : ∀ e, w.head = some e → it.key e ≠ k
  db : ∀ y, w.dbKV = some y → y.1 ≠ k
  absent : w.txn.dbi.get k = none

theorem Clear.fetchIt {it : Iterator E ε} {ik : Bool} {k : Bytes} {w w₁ : Walk E}
    (hw : Clear it k w) (h : fetchIt it ik w = .ok w₁) : Clear it k w₁ := by
  rcases fetchIt_cases h with ⟨-, -, rfl⟩ | ⟨e, rest, hrest, -, rfl⟩ | ⟨-, rfl⟩
  · exact ⟨hw.rest, hw.head, hw.db, hw.absent⟩
  · have hmem := hw.rest
    rw [hrest] at hmem
    refine ⟨fun x hx => hmem x (List.mem_cons_of_mem _ hx), ?_, hw.db, hw.absent⟩
    intro x hx
    obtain rfl := Option.some.inj hx
    exact hmem e List.mem_cons_self
  · exact hw

theorem Clear.fetchDb {it : Iterator E ε} {k : Bytes} {w : Walk E} (hw : Clear it k w) :
    Clear it k (fetchDb w) := by
  obtain ⟨-, -, hrest, hhead, htxn⟩ := fetchDb_frame w
  refine ⟨by rw [hrest]; exact hw.rest, by rw [hhead]; exact hw.head, fun y hy hk => ?_,
    by rw [htxn]; exact hw.absent⟩
  rcases fetchDb_dbKV hy with hold | hget
  · exact hw.db y hold hk
  · rw [hk, hw.absent] at hget
    cases hget

theorem Clear.avoids {it : Iterator E ε} {ik : Bool} {k : Bytes} {w : Walk E} {x : Visit E}
    (hw : Clear it k w) (h : pick it ik w.head w.dbKV = some x) : x.Avoids it k := by
  unfold pick at h
  split at h
  · cases h
  · rename_i y v hhead hdb
    obtain rfl := Option.some.inj h
    exact hw.db _ hdb
  · rename_i e hhead hdb
    obtain rfl := Option.some.inj h
    exact hw.head e hhead
  · rename_i e y v hhead hdb
    have he := hw.head e hhead
    have hy := hw.db _ hdb
    split at h
    · obtain rfl := Option.some.inj h
      exact hy
    · obtain rfl := Option.some.inj h
      exact ⟨he, hy⟩
    · obtain rfl := Option.some.inj h
      exact he

theorem Clear.consume {it : Iterator E ε} {k : Bytes} {w : Walk E} {t : Txn} {x : Visit E}
    (hw : Clear it k w) (ht : t.dbi.get k = none) : Clear it k (consume w t x) := by
  cases x with
  | dbOnly j v => exact ⟨hw.rest, hw.head, nofun, ht⟩
  | itOnly e eof => exact ⟨hw.rest, nofun, hw.db, ht⟩
  | both e j v => exact ⟨hw.rest, nofun, nofun, ht⟩

/-- **A key that is neither in the DBI nor in the iterator stays away.** -/
theorem iterUpdate_absent {it : Iterator E ε} {t t' : Txn} {k : Bytes} (hk : k ∉ it.keys)
    (ht : t.dbi.get k = none) (h : iterUpdate t it = .ok t') : t'.dbi.get k = none := by
  have hstart : Clear it k (Walk.start it t) :=
    ⟨fun e he hek => hk (List.mem_map.mpr ⟨e, he, hek⟩), nofun, nofun, ht⟩
  obtain ⟨w', hw', rfl⟩ := iterBoth_invariant (J := Clear it k)
    (fun hw hf => (hw.fetchIt hf).fetchDb)
    (fun hw hpick hx => hw.consume (iterUpdateFunc_absent (hw.avoids hpick) hw.absent hx))
    hstart h
  exact hw'.absent

/-! ### What is stored -/

section Stored

variable {V : Bytes → Prop} {it : Iterator E ε}

/-- A walk over a DBI whose values have a property, in which the one it has read has it. -/
structure Holding (V : Bytes → Prop) (f : KeyFlags) (w : Walk E) : Prop where
  flags : w.txn.dbi.flags = f
  stored : ∀ k v, w.txn.dbi.get k = some v → V v
  read : ∀ y, w.dbKV = some y → V y.2

theorem Holding.fetch {ik : Bool} {f : KeyFlags} {w w₁ : Walk E} (hw : Holding V f w)
    (h : fetchIt it ik w = .ok w₁) : Holding V f (fetchDb w₁) := by
  have htxn := fetchIt_txn h
  have hdb : w₁.dbKV = w.dbKV := by
    rcases fetchIt_cases h with ⟨-, -, rfl⟩ | ⟨e, rest, -, -, rfl⟩ | ⟨-, rfl⟩
    · rfl
    · rfl
    · rfl
  refine ⟨by rw [fetchDb_txn, htxn]; exact hw.flags,
    by rw [fetchDb_txn, htxn]; exact hw.stored, fun y hy => ?_⟩
  rcases fetchDb_dbKV hy with hold | hget
  · exact hw.read y (hdb ▸ hold)
  · exact hw.stored _ _ (htxn ▸ hget)

/-- The entry of the DBI that a visit is about. -/
def Visit.old : Visit E → Option (Bytes × Bytes)
  | .dbOnly k v => some (k, v)
  | .itOnly _ _ => none
  | .both _ k v => some (k, v)

theorem pick_old {ik : Bool} {head : Option E} {dbKV : Option (Bytes × Bytes)} {x : Visit E}
    (h : pick it ik head dbKV = some x) {y : Bytes × Bytes} (hy : x.old = some y) :
    dbKV = some y := by
  unfold pick at h
  split at h
  · cases h
  · obtain rfl := Option.some.inj h
    exact hy
  · obtain rfl := Option.some.inj h
    cases hy
  · split at h
    · obtain rfl := Option.some.inj h
      exact hy
    · obtain rfl := Option.some.inj h
      exact hy
    · obtain rfl := Option.some.inj h
      cases hy

theorem Writes.respects (hit : Respects it V) {cur : Option E} {x : Visit E}
    (hold : ∀ y, x.old = some y → V y.2) {k v : Bytes} (h : Writes it cur x k v) : V v := by
  cases h with
  | clean hc => exact hit.clean (hold _ rfl) hc
  | add hm hv => exact hit.merge (fun w hw => absurd hw.symm (Option.some_ne_none w)) hm hv
  | merge hm hv =>
      refine hit.merge (fun w hw => ?_) hm hv
      obtain rfl := Option.some.inj hw
      exact hold _ rfl

theorem Holding.visit (hit : Respects it V) {ik : Bool} {f : KeyFlags} {w : Walk E}
    {x : Visit E} {t : Txn} (hw : Holding V f w) (hpick : pick it ik w.head w.dbKV = some x)
    (h : iterUpdateFunc it w.cur x w.txn = .ok t) : Holding V f (consume w t x) := by
  have ht : t.dbi.flags = f ∧ ∀ k v, t.dbi.get k = some v → V v := by
    rcases iterUpdateFunc_cases h with rfl | ⟨k, hdel⟩ | ⟨k, v, hwrites, hput⟩
    · exact ⟨hw.flags, hw.stored⟩
    · rw [Txn.del_eq_ok hdel]
      refine ⟨hw.flags, fun j v hj => ?_⟩
      rw [Dbi.get_erase] at hj
      split at hj
      · cases hj
      · exact hw.stored j v hj
    · obtain ⟨hflags, hget⟩ := Txn.put_spec hput
      refine ⟨hflags.trans hw.flags, fun j v' hj => ?_⟩
      rw [hget j] at hj
      split at hj
      · exact Option.some.inj hj ▸ hwrites.respects hit fun y hy => hw.read y (pick_old hpick hy)
      · exact hw.stored j v' hj
  refine ⟨by rw [consume_txn]; exact ht.1, by rw [consume_txn]; exact ht.2, ?_⟩
  intro y hy
  cases x with
  | dbOnly j v => cases hy
  | itOnly e eof => exact hw.read y hy
  | both e j v => cases hy

/-- **What merging and cleaning respect, all stored values keep.** -/
theorem iterUpdate_stored (hit : Respects it V) {t t' : Txn}
    (ht : ∀ k v, t.dbi.get k = some v → V v) (h : iterUpdate t it = .ok t') :
    t'.dbi.flags = t.dbi.flags ∧ ∀ k v, t'.dbi.get k = some v → V v := by
  have hstart : Holding V t.dbi.flags (Walk.start it t) := ⟨rfl, ht, nofun⟩
  obtain ⟨w', hw', rfl⟩ := iterBoth_invariant (J := Holding V t.dbi.flags)
    (fun hw hf => hw.fetch hf) (fun hw hpick hx => hw.visit hit hpick hx) hstart h
  exact ⟨hw'.flags, hw'.stored⟩

end Stored

end LightningStream.Strategy
