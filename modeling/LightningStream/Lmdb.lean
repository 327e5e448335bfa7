import LightningStream.Base.Bytes
import LightningStream.Base.SortedMap

/-!
# LMDB databases

A DBI without `MDB_DUPSORT` is a finite map from keys to values, kept in the
key order its flags select. LMDB has two such orders on a little endian host:
bytewise, and, for `MDB_REVERSEKEY` and `MDB_INTEGERKEY`, bytewise on the
reversed key. Both are the bytewise order of a *rank*, and the rank is its own
inverse, so the map below is sorted by rank and every key is read back
through it.

A cursor position is the last key it returned. Moving on from it means
finding the first key above, which is LMDB's behaviour whether or not other
keys were inserted meanwhile and whether or not the current one was deleted.
-/

namespace LightningStream.Lmdb

inductive LmdbErr
  | notFound
  | badValSize
  | keyExist
deriving DecidableEq, Repr

/-- `LMDBMaxKeySize`. -/
def maxKeySize : ℕ := 511

/-! ## Flags and key order -/

/-- The DBI flags that decide the order of keys. -/
@[ext] structure KeyFlags where
  reverseKey : Bool
  integerKey : Bool
deriving DecidableEq, Repr

namespace KeyFlags

def plain : KeyFlags := ⟨false, false⟩

/-- `MDB_REVERSEKEY` is `0x02` and `MDB_INTEGERKEY` is `0x08`. -/
def bits (f : KeyFlags) : UInt64 :=
  (if f.reverseKey then 0x02 else 0) ||| (if f.integerKey then 0x08 else 0)

def ofBits (b : UInt64) : KeyFlags := ⟨b &&& 0x02 != 0, b &&& 0x08 != 0⟩

/-- Keys are ordered bytewise by rank. -/
def rank (f : KeyFlags) (k : Bytes) : Bytes :=
  if f.reverseKey || f.integerKey then k.reverse else k

/-- The keys a DBI may hold: 1 to 511 bytes, and with `MDB_INTEGERKEY` all of
them native integers of one size. LMDB checks the former. The latter it only
documents: where a put is refused here because of a size, it is undefined what LMDB
does. -/
def Allowed (f : KeyFlags) (ks : List Bytes) : Prop :=
  (∀ k ∈ ks, 1 ≤ k.length ∧ k.length ≤ maxKeySize) ∧
    (f.integerKey = true → (∀ k ∈ ks, k.length = 4) ∨ ∀ k ∈ ks, k.length = 8)

instance (f : KeyFlags) (ks : List Bytes) : Decidable (f.Allowed ks) := by
  unfold Allowed
  infer_instance

@[simp] theorem rank_rank (f : KeyFlags) (k : Bytes) : f.rank (f.rank k) = k := by
  unfold rank
  split <;> simp

@[simp] theorem rank_plain (k : Bytes) : plain.rank k = k := rfl

@[simp] theorem rank_length (f : KeyFlags) (k : Bytes) :
    (f.rank k).length = k.length := by
  unfold rank
  split <;> simp

theorem rank_inj {f : KeyFlags} {j k : Bytes} : f.rank j = f.rank k ↔ j = k :=
  ⟨fun h => by rw [← rank_rank f j, h, rank_rank], fun h => by rw [h]⟩

theorem Allowed.subset {f : KeyFlags} {ks ls : List Bytes} (h : f.Allowed ls)
    (hsub : ∀ k ∈ ks, k ∈ ls) : f.Allowed ks := by
  refine ⟨fun k hk => h.1 k (hsub k hk), fun hi => ?_⟩
  rcases h.2 hi with h4 | h8
  · exact Or.inl fun k hk => h4 k (hsub k hk)
  · exact Or.inr fun k hk => h8 k (hsub k hk)

theorem allowed_map_rank {f g : KeyFlags} {ks : List Bytes} :
    f.Allowed (ks.map g.rank) ↔ f.Allowed ks := by
  simp [Allowed]

end KeyFlags

/-! ## Databases -/

/-- A DBI. The map is keyed by rank. -/
@[ext] structure Dbi where
  flags : KeyFlags
  map : SortedMap Bytes Bytes
  allowed : flags.Allowed map.keys

namespace Dbi

variable {d d' : Dbi} {k j : Bytes} {v w : Bytes}

instance : DecidableEq Dbi := fun d d' =>
  decidable_of_iff (d.flags = d'.flags ∧ d.map = d'.map)
    (Dbi.ext_iff (x := d) (y := d')).symm

def empty (f : KeyFlags) : Dbi :=
  ⟨f, SortedMap.empty, by simp [KeyFlags.Allowed, SortedMap.empty, SortedMap.keys]⟩

def get (d : Dbi) (k : Bytes) : Option Bytes := d.map.get (d.flags.rank k)

/-- All entries in cursor order. -/
def entries (d : Dbi) : List (Bytes × Bytes) :=
  d.map.entries.map (fun e => (d.flags.rank e.1, e.2))

def keys (d : Dbi) : List Bytes := d.entries.map Prod.fst

/-- The DBI order on keys. -/
def before (d : Dbi) (j k : Bytes) : Prop := d.flags.rank j < d.flags.rank k

/-- Cursor moves `First` (from no position) and `Next`. -/
def next (d : Dbi) (pos : Option Bytes) : Option (Bytes × Bytes) :=
  (d.map.next (pos.map d.flags.rank)).map (fun e => (d.flags.rank e.1, e.2))

/-- Cursor move `SetRange`. -/
def seek (d : Dbi) (k : Bytes) : Option (Bytes × Bytes) :=
  (d.map.seek (d.flags.rank k)).map (fun e => (d.flags.rank e.1, e.2))

/-- Store an entry whose key the DBI may hold. -/
def set (d : Dbi) (k v : Bytes) (h : d.flags.Allowed (k :: d.keys)) : Dbi :=
  ⟨d.flags, d.map.insert (d.flags.rank k) v, by
    have hr : d.flags.Allowed ((k :: d.keys).map d.flags.rank) :=
      KeyFlags.allowed_map_rank.mpr h
    apply hr.subset
    intro x hx
    rcases SortedMap.mem_keys_insert.mp hx with rfl | hx
    · exact List.mem_map.mpr ⟨k, List.mem_cons_self, rfl⟩
    · obtain ⟨e, he, rfl⟩ := List.mem_map.mp hx
      refine List.mem_map.mpr ⟨d.flags.rank e.1, List.mem_cons_of_mem _ ?_, by simp⟩
      exact List.mem_map.mpr ⟨_, List.mem_map.mpr ⟨e, he, rfl⟩, rfl⟩⟩

def erase (d : Dbi) (k : Bytes) : Dbi :=
  ⟨d.flags, d.map.erase (d.flags.rank k),
    d.allowed.subset fun _ hx => (SortedMap.mem_keys_erase.mp hx).2⟩

/-- A DBI without flags may take `[1]` as its first key. -/
theorem allowed_one :
    (empty KeyFlags.plain).flags.Allowed ([1] :: (empty KeyFlags.plain).keys) := by
  decide

/-- The same value at so many keys of two bytes. -/
def numbered (n : ℕ) (hn : n ≤ 2 ^ 16) (v : Bytes) : Dbi where
  flags := .plain
  map := ⟨(List.range n).map fun i => (beBytes 2 i, v), by
    refine List.pairwise_map.mpr (List.pairwise_lt_range.imp_of_mem fun hi hj hlt => ?_)
    rw [List.mem_range] at hi hj
    refine (beNat_lt_iff (by simp)).mp ?_
    rw [beNat_beBytes, beNat_beBytes]
    omega⟩
  allowed := by
    refine ⟨fun k hk => ?_, fun h => nomatch h⟩
    simp only [SortedMap.keys, List.map_map, List.mem_map, Function.comp_apply] at hk
    obtain ⟨i, -, rfl⟩ := hk
    simp [maxKeySize]

theorem numbered_entries (n : ℕ) (hn : n ≤ 2 ^ 16) (v : Bytes) :
    (numbered n hn v).entries = (List.range n).map fun i => (beBytes 2 i, v) := by
  simp [entries, numbered, Function.comp_def]

@[simp] theorem set_flags (h) : (d.set k v h).flags = d.flags := rfl

@[simp] theorem erase_flags : (d.erase k).flags = d.flags := rfl

@[simp] theorem get_empty (f : KeyFlags) : (empty f).get k = none := rfl

theorem mem_entries_iff : (k, v) ∈ d.entries ↔ d.get k = some v := by
  rw [get, ← SortedMap.mem_entries_iff, entries]
  constructor
  · intro h
    obtain ⟨e, he, heq⟩ := List.mem_map.mp h
    obtain ⟨h1, rfl⟩ := Prod.mk.inj heq
    rw [← h1, KeyFlags.rank_rank]
    exact he
  · intro h
    exact List.mem_map.mpr ⟨_, h, by simp⟩

theorem mem_keys_iff : k ∈ d.keys ↔ ∃ v, d.get k = some v := by
  simp only [keys, List.mem_map, Prod.exists, mem_entries_iff, exists_and_right,
    exists_eq_right]

theorem get_eq_none_iff : d.get k = none ↔ k ∉ d.keys := by
  rw [mem_keys_iff, not_exists, Option.eq_none_iff_forall_ne_some]

theorem keys_allowed (d : Dbi) : d.flags.Allowed d.keys := by
  have h : d.keys = d.map.keys.map d.flags.rank := by
    simp [keys, entries, SortedMap.keys, Function.comp_def]
  rw [h, KeyFlags.allowed_map_rank]
  exact d.allowed

theorem entries_sorted (d : Dbi) :
    d.entries.Pairwise (fun a b => d.before a.1 b.1) := by
  unfold entries before
  rw [List.pairwise_map]
  simp only [KeyFlags.rank_rank]
  exact d.map.sorted

theorem keys_sorted (d : Dbi) : d.keys.Pairwise d.before :=
  List.pairwise_map.mpr d.entries_sorted

theorem keys_nodup (d : Dbi) : d.keys.Nodup := by
  refine d.keys_sorted.imp ?_
  intro a b h hab
  rw [hab] at h
  exact lt_irrefl _ h

theorem get_set (h) : (d.set k v h).get j = if j = k then some v else d.get j := by
  unfold get
  rw [set_flags]
  show (d.map.insert _ v).get _ = _
  rw [SortedMap.get_insert]
  simp only [KeyFlags.rank_inj]

theorem get_erase : (d.erase k).get j = if j = k then none else d.get j := by
  unfold get
  rw [erase_flags]
  show (d.map.erase _).get _ = _
  rw [SortedMap.get_erase]
  simp only [KeyFlags.rank_inj]

/-- DBIs with the same keys. -/
theorem keys_length_congr (h : ∀ k, d'.get k = none ↔ d.get k = none) :
    d'.keys.length = d.keys.length := by
  refine ((List.perm_ext_iff_of_nodup d'.keys_nodup d.keys_nodup).mpr fun k => ?_).length_eq
  rw [← not_iff_not, ← get_eq_none_iff, ← get_eq_none_iff]
  exact h k

theorem keys_length_set (hnone : d.get k = none) (h) :
    (d.set k v h).keys.length = d.keys.length + 1 := by
  have hnot : k ∉ d.keys := get_eq_none_iff.mp hnone
  refine ((List.perm_ext_iff_of_nodup (keys_nodup _)
    (List.nodup_cons.mpr ⟨hnot, d.keys_nodup⟩)).mpr fun j => ?_).length_eq
  rw [List.mem_cons, ← not_iff_not, not_or, ← get_eq_none_iff, ← get_eq_none_iff, get_set]
  by_cases hj : j = k
  · simp [hj]
  · simp [hj]

/-- Two DBIs with the same flags and the same lookups are the same. -/
theorem ext_get (hf : d.flags = d'.flags) (h : ∀ k, d.get k = d'.get k) : d = d' := by
  apply Dbi.ext hf
  apply SortedMap.ext_get
  intro r
  have := h (d.flags.rank r)
  unfold get at this
  rw [← hf] at this
  simpa using this

/-! ### Entry lists under updates -/

private theorem map_entries_eq (d : Dbi) :
    d.map.entries = d.entries.map (fun e => (d.flags.rank e.1, e.2)) := by
  simp [entries, Function.comp_def]

private theorem entries_of_map {es : List (Bytes × Bytes)}
    (h : d.map.entries = es.map (fun e => (d.flags.rank e.1, e.2))) :
    d.entries = es := by
  simp [entries, h, Function.comp_def]

/-- A new key goes between the entries before it and those after it. -/
theorem entries_set_split {es fs : List (Bytes × Bytes)} (heq : d.entries = es ++ fs)
    (hes : ∀ e ∈ es, d.before e.1 k) (hfs : ∀ f ∈ fs, d.before k f.1) (h) :
    (d.set k v h).entries = es ++ (k, v) :: fs := by
  apply entries_of_map
  show insertEntry (d.flags.rank k) v d.map.entries = _
  rw [map_entries_eq, heq, List.map_append, List.map_append, List.map_cons]
  apply insertEntry_split
  · intro e he
    obtain ⟨x, hx, rfl⟩ := List.mem_map.mp he
    exact hes x hx
  · intro f hf
    obtain ⟨x, hx, rfl⟩ := List.mem_map.mp hf
    exact hfs x hx

theorem entries_set_replace {es fs : List (Bytes × Bytes)}
    (heq : d.entries = es ++ (k, w) :: fs) (h) :
    (d.set k v h).entries = es ++ (k, v) :: fs := by
  have hs := heq ▸ d.entries_sorted
  have hes := (List.pairwise_append.mp hs).2.2
  apply entries_of_map
  show insertEntry (d.flags.rank k) v d.map.entries = _
  rw [map_entries_eq, heq, List.map_append, List.map_append, List.map_cons,
    List.map_cons]
  apply insertEntry_replace
  intro e he
  obtain ⟨x, hx, rfl⟩ := List.mem_map.mp he
  exact hes x hx (k, w) List.mem_cons_self

/-- A key that goes before the last entries leaves them alone. -/
theorem entries_set_left {es fs : List (Bytes × Bytes)} (heq : d.entries = es ++ fs)
    (hfs : ∀ f ∈ fs, d.before k f.1) (h) : ∃ es', (d.set k v h).entries = es' ++ fs := by
  refine ⟨(insertEntry (d.flags.rank k) v (es.map fun e => (d.flags.rank e.1, e.2))).map
    fun e => (d.flags.rank e.1, e.2), ?_⟩
  apply entries_of_map
  show insertEntry (d.flags.rank k) v d.map.entries = _
  rw [map_entries_eq, heq, List.map_append, List.map_append, insertEntry_append_left]
  · simp [Function.comp_def]
  · intro f hf
    obtain ⟨x, hx, rfl⟩ := List.mem_map.mp hf
    exact hfs x hx

theorem entries_set_right {es fs : List (Bytes × Bytes)} (heq : d.entries = es ++ fs)
    (hes : ∀ e ∈ es, d.before e.1 k) (h) : ∃ fs', (d.set k v h).entries = es ++ fs' := by
  refine ⟨(insertEntry (d.flags.rank k) v (fs.map fun e => (d.flags.rank e.1, e.2))).map
    fun e => (d.flags.rank e.1, e.2), ?_⟩
  apply entries_of_map
  show insertEntry (d.flags.rank k) v d.map.entries = _
  rw [map_entries_eq, heq, List.map_append, List.map_append, insertEntry_append_right]
  · simp [Function.comp_def]
  · intro e he
    obtain ⟨x, hx, rfl⟩ := List.mem_map.mp he
    exact hes x hx

theorem entries_erase_split {es fs : List (Bytes × Bytes)}
    (heq : d.entries = es ++ (k, w) :: fs) : (d.erase k).entries = es ++ fs := by
  have hs := heq ▸ d.entries_sorted
  obtain ⟨-, hr, hes⟩ := List.pairwise_append.mp hs
  apply entries_of_map
  show eraseEntry (d.flags.rank k) d.map.entries = _
  rw [map_entries_eq, heq, List.map_append, List.map_append, List.map_cons]
  apply eraseEntry_split
  · intro e he
    obtain ⟨x, hx, rfl⟩ := List.mem_map.mp he
    exact hes x hx (k, w) List.mem_cons_self
  · intro f hf
    obtain ⟨x, hx, rfl⟩ := List.mem_map.mp hf
    exact (List.pairwise_cons.mp hr).1 x hx

/-! ### Cursor moves -/

theorem next_none_eq_head (d : Dbi) : d.next none = d.entries.head? := by
  simp [next, entries, SortedMap.next]

theorem next_of_split {p : Bytes} {es fs : List (Bytes × Bytes)}
    (heq : d.entries = es ++ fs) (hes : ∀ e ∈ es, d.before e.1 p ∨ e.1 = p)
    (hfs : ∀ f ∈ fs, d.before p f.1) : d.next (some p) = fs.head? := by
  have hm : d.map.entries = es.map (fun e => (d.flags.rank e.1, e.2)) ++
      fs.map (fun e => (d.flags.rank e.1, e.2)) := by
    rw [map_entries_eq, heq, List.map_append]
  unfold next
  rw [Option.map_some, SortedMap.next_of_split hm]
  · cases fs <;> simp
  · intro e he
    obtain ⟨x, hx, rfl⟩ := List.mem_map.mp he
    rcases hes x hx with h | h
    · exact h.le
    · rw [h]
  · intro f hf
    obtain ⟨x, hx, rfl⟩ := List.mem_map.mp hf
    exact hfs x hx

/-- The first entry whose key has the property `P`, or none if no key has it. -/
def Least (d : Dbi) (P : Bytes → Prop) : Option (Bytes × Bytes) → Prop
  | some e => P e.1 ∧ d.get e.1 = some e.2 ∧
      ∀ j ∈ d.keys, P j → d.flags.rank e.1 ≤ d.flags.rank j
  | none => ∀ j ∈ d.keys, ¬ P j

theorem Least.congr {P Q : Bytes → Prop} {e : Option (Bytes × Bytes)} (h : d.Least P e)
    (hPQ : ∀ j ∈ d.keys, P j ↔ Q j) : d.Least Q e := by
  cases e with
  | none => exact fun j hj hQ => h j hj ((hPQ j hj).mpr hQ)
  | some e =>
      have hmem : e.1 ∈ d.keys := mem_keys_iff.mpr ⟨_, h.2.1⟩
      exact ⟨(hPQ _ hmem).mp h.1, h.2.1, fun j hj hQ => h.2.2 j hj ((hPQ j hj).mpr hQ)⟩

private theorem rank_mem (h : k ∈ d.keys) : d.flags.rank k ∈ d.map.keys := by
  obtain ⟨v, hv⟩ := mem_keys_iff.mp h
  exact SortedMap.mem_keys_iff.mpr ⟨v, hv⟩

theorem first_least (d : Dbi) : d.Least (fun _ => True) (d.next none) := by
  unfold next
  rw [Option.map_none]
  cases h : d.map.next none with
  | none =>
      intro j hj
      have hnil : d.map.entries = [] := List.head?_eq_none_iff.mp h
      have := rank_mem hj
      simp [SortedMap.keys, hnil] at this
  | some e =>
      have hmem : e ∈ d.map.entries := List.mem_of_mem_head? h
      refine ⟨trivial, ?_, fun j hj _ => ?_⟩
      · rw [get, KeyFlags.rank_rank]
        exact SortedMap.mem_entries_iff.mp hmem
      · rw [KeyFlags.rank_rank]
        exact SortedMap.next_none_least h (rank_mem hj)

theorem next_least (d : Dbi) (p : Bytes) : d.Least (d.before p) (d.next (some p)) := by
  unfold next
  rw [Option.map_some]
  cases h : d.map.next (some (d.flags.rank p)) with
  | none =>
      intro j hj
      exact not_lt.mpr (SortedMap.next_none h (rank_mem hj))
  | some e =>
      obtain ⟨hlt, hget⟩ := SortedMap.next_eq_some h
      refine ⟨?_, ?_, fun j hj hp => ?_⟩
      · rw [before, KeyFlags.rank_rank]
        exact hlt
      · rw [get, KeyFlags.rank_rank]
        exact hget
      · rw [KeyFlags.rank_rank]
        exact SortedMap.next_least h (rank_mem hj) hp

theorem seek_least (d : Dbi) (p : Bytes) :
    d.Least (fun j => d.flags.rank p ≤ d.flags.rank j) (d.seek p) := by
  unfold seek
  cases h : d.map.seek (d.flags.rank p) with
  | none =>
      intro j hj
      exact not_le.mpr (SortedMap.seek_none h (rank_mem hj))
  | some e =>
      obtain ⟨hle, hget⟩ := SortedMap.seek_eq_some h
      refine ⟨?_, ?_, fun j hj hp => ?_⟩
      · show d.flags.rank p ≤ d.flags.rank (d.flags.rank e.1)
        rw [KeyFlags.rank_rank]
        exact hle
      · rw [get, KeyFlags.rank_rank]
        exact hget
      · rw [KeyFlags.rank_rank]
        exact SortedMap.seek_least h (rank_mem hj) hp

theorem get_of_next {pos : Option Bytes} {e : Bytes × Bytes} (h : d.next pos = some e) :
    d.get e.1 = some e.2 := by
  cases pos with
  | none =>
      have hleast := d.first_least
      rw [h] at hleast
      exact hleast.2.1
  | some p =>
      have hleast := d.next_least p
      rw [h] at hleast
      exact hleast.2.1

end Dbi

/-! ## Write transactions

A write transaction on one DBI. LMDB commits a transaction only when it wrote
something, so the transaction remembers whether it did. -/

structure Txn where
  dbi : Dbi
  dirty : Bool
deriving DecidableEq

namespace Txn

variable {t t' : Txn} {k j v : Bytes}

def start (d : Dbi) : Txn := ⟨d, false⟩

def get (t : Txn) (k : Bytes) : Except LmdbErr Bytes :=
  if k = [] then .error .badValSize
  else match t.dbi.get k with
    | none => .error .notFound
    | some v => .ok v

def put (t : Txn) (k v : Bytes) : Except LmdbErr Txn :=
  if h : t.dbi.flags.Allowed (k :: t.dbi.keys) then .ok ⟨t.dbi.set k v h, true⟩
  else .error .badValSize

def del (t : Txn) (k : Bytes) : Except LmdbErr Txn :=
  if k = [] then .error .badValSize
  else match t.dbi.get k with
    | none => .error .notFound
    | some _ => .ok ⟨t.dbi.erase k, true⟩

/-- A put with `MDB_APPEND`: the key has to lie above every existing one. -/
def append (t : Txn) (k v : Bytes) : Except LmdbErr Txn :=
  if ∀ j ∈ t.dbi.keys, t.dbi.flags.rank j < t.dbi.flags.rank k then t.put k v
  else .error .keyExist

theorem put_eq_ok (h : t.put k v = .ok t') :
    ∃ ha, t' = ⟨t.dbi.set k v ha, true⟩ := by
  unfold put at h
  split at h
  · rename_i ha
    exact ⟨ha, (Except.ok.inj h).symm⟩
  · cases h

theorem put_spec (h : t.put k v = .ok t') :
    t'.dbi.flags = t.dbi.flags ∧
      ∀ j, t'.dbi.get j = if j = k then some v else t.dbi.get j := by
  obtain ⟨ha, rfl⟩ := put_eq_ok h
  exact ⟨rfl, fun j => Dbi.get_set ha⟩

theorem put_of_allowed (ha : t.dbi.flags.Allowed (k :: t.dbi.keys)) :
    t.put k v = .ok ⟨t.dbi.set k v ha, true⟩ := dif_pos ha

/-- A key the DBI already holds may be stored again. -/
theorem allowed_of_get {d : Dbi} {w : Bytes} (h : d.get k = some w) :
    d.flags.Allowed (k :: d.keys) := by
  apply d.keys_allowed.subset
  intro x hx
  rcases List.mem_cons.mp hx with rfl | hx
  · exact Dbi.mem_keys_iff.mpr ⟨w, h⟩
  · exact hx

theorem ne_nil_of_get {d : Dbi} {w : Bytes} (h : d.get k = some w) : k ≠ [] := by
  have hk := (d.keys_allowed.1 k (Dbi.mem_keys_iff.mpr ⟨w, h⟩)).1
  intro he
  simp [he] at hk

theorem get_of_some {w : Bytes} (h : t.dbi.get k = some w) : t.get k = .ok w := by
  rw [get, if_neg (ne_nil_of_get h), h]

theorem get_of_none (hk : k ≠ []) (h : t.dbi.get k = none) : t.get k = .error .notFound := by
  rw [get, if_neg hk, h]

theorem del_of_some {w : Bytes} (h : t.dbi.get k = some w) :
    t.del k = .ok ⟨t.dbi.erase k, true⟩ := by
  rw [del, if_neg (ne_nil_of_get h), h]

theorem del_eq_ok (h : t.del k = .ok t') : t' = ⟨t.dbi.erase k, true⟩ := by
  unfold del at h
  split at h
  · cases h
  · split at h
    · cases h
    · exact (Except.ok.inj h).symm

/-- A write to other keys leaves a missing key missing. -/
theorem put_absent (h : t.put k v = .ok t') (hj : t.dbi.get j = none) (hne : k ≠ j) :
    t'.dbi.get j = none := by
  rw [(put_spec h).2 j, if_neg hne.symm, hj]

theorem del_absent (h : t.del k = .ok t') (hj : t.dbi.get j = none) : t'.dbi.get j = none := by
  rw [del_eq_ok h]
  show (t.dbi.erase k).get j = none
  rw [Dbi.get_erase, hj, ite_self]

end Txn

end LightningStream.Lmdb
