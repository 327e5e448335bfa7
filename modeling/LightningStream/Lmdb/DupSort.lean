import LightningStream.Lmdb
import Mathlib.Data.Prod.Lex

/-!
# DBIs with `MDB_DUPSORT`

Such a DBI holds pairs of a key and a value, every pair once. A cursor visits
them by key, in the order of the DBI's flags, and the values of a key bytewise.
The values are keys of a tree themselves, so LMDB limits them to the size of a
key. The flags that change the order of the values (`MDB_REVERSEDUP`,
`MDB_INTEGERDUP`) or fix their size (`MDB_DUPFIXED`) are outside this model.
-/

namespace LightningStream.Lmdb

/-- A DBI with `MDB_DUPSORT`. The keys of the map are the pairs, with the rank of
the key in front. -/
@[ext] structure DupDbi where
  flags : KeyFlags
  map : SortedMap (Bytes ×ₗ Bytes) Unit
  keysAllowed : flags.Allowed (map.keys.map fun p => (ofLex p).1)
  valuesShort : ∀ p ∈ map.keys, (ofLex p).2.length ≤ maxKeySize

namespace DupDbi

variable {d d' : DupDbi} {k v : Bytes} {p : Bytes × Bytes}

instance : DecidableEq DupDbi := fun d d' =>
  decidable_of_iff (d.flags = d'.flags ∧ d.map = d'.map)
    (DupDbi.ext_iff (x := d) (y := d')).symm

def empty (f : KeyFlags) : DupDbi where
  flags := f
  map := SortedMap.empty
  keysAllowed := by simp [KeyFlags.Allowed, SortedMap.empty, SortedMap.keys]
  valuesShort := by simp [SortedMap.empty, SortedMap.keys]

/-- All pairs in cursor order. -/
def pairs (d : DupDbi) : List (Bytes × Bytes) :=
  d.map.keys.map fun p => (d.flags.rank (ofLex p).1, (ofLex p).2)

def keys (d : DupDbi) : List Bytes := d.pairs.map Prod.fst

/-- What a pair is filed under. -/
def rankPair (f : KeyFlags) (p : Bytes × Bytes) : Bytes ×ₗ Bytes := toLex (f.rank p.1, p.2)

theorem rankPair_inj {f : KeyFlags} {p q : Bytes × Bytes} :
    rankPair f p = rankPair f q ↔ p = q := by
  constructor
  · intro h
    have hpq := Prod.mk.inj (toLex.injective h)
    exact Prod.ext (KeyFlags.rank_inj.mp hpq.1) hpq.2
  · rintro rfl
    rfl

theorem mem_pairs_iff : p ∈ d.pairs ↔ rankPair d.flags p ∈ d.map.keys := by
  unfold pairs
  rw [List.mem_map]
  constructor
  · rintro ⟨q, hq, rfl⟩
    rw [rankPair, KeyFlags.rank_rank]
    exact hq
  · intro h
    exact ⟨_, h, by simp [rankPair]⟩

@[simp] theorem pairs_empty (f : KeyFlags) : (empty f).pairs = [] := rfl

theorem keys_allowed (d : DupDbi) : d.flags.Allowed d.keys := by
  have h : d.keys = (d.map.keys.map fun p => (ofLex p).1).map d.flags.rank := by
    simp [keys, pairs, Function.comp_def]
  rw [h, KeyFlags.allowed_map_rank]
  exact d.keysAllowed

theorem value_short (h : p ∈ d.pairs) : p.2.length ≤ maxKeySize :=
  d.valuesShort (rankPair d.flags p) (mem_pairs_iff.mp h)

/-- Two DBIs with the same flags and the same pairs are the same. -/
theorem ext_pairs (hf : d.flags = d'.flags) (h : ∀ p, p ∈ d.pairs ↔ p ∈ d'.pairs) : d = d' := by
  apply DupDbi.ext hf
  apply SortedMap.ext_get
  intro q
  have hq := h (d.flags.rank (ofLex q).1, (ofLex q).2)
  rw [mem_pairs_iff, mem_pairs_iff, ← hf] at hq
  simp only [rankPair, KeyFlags.rank_rank, Prod.mk.eta, toLex_ofLex] at hq
  rw [SortedMap.mem_keys_iff, SortedMap.mem_keys_iff] at hq
  cases hd : d.map.get q with
  | none =>
      cases hd' : d'.map.get q with
      | none => rfl
      | some u => simp [hd, hd'] at hq
  | some u =>
      obtain ⟨u', hu'⟩ := hq.mp ⟨u, hd⟩
      rw [hu']

/-! ## Writing -/

/-- A pair that LMDB accepts: the key has a size that the DBI allows, and the value
is no longer than a key may be. -/
def Fits (d : DupDbi) (k v : Bytes) : Prop :=
  d.flags.Allowed (k :: d.keys) ∧ v.length ≤ maxKeySize

instance (d : DupDbi) (k v : Bytes) : Decidable (d.Fits k v) :=
  inferInstanceAs (Decidable (_ ∧ _))

def insert (d : DupDbi) (k v : Bytes) (h : d.Fits k v) : DupDbi where
  flags := d.flags
  map := d.map.insert (rankPair d.flags (k, v)) ()
  keysAllowed := by
    have hr : d.flags.Allowed ((k :: d.keys).map d.flags.rank) :=
      KeyFlags.allowed_map_rank.mpr h.1
    apply hr.subset
    intro x hx
    obtain ⟨q, hq, rfl⟩ := List.mem_map.mp hx
    rcases SortedMap.mem_keys_insert.mp hq with rfl | hq
    · exact List.mem_cons_self
    · refine List.mem_map.mpr ⟨d.flags.rank (ofLex q).1, List.mem_cons_of_mem _ ?_, by simp⟩
      exact List.mem_map.mpr ⟨_, List.mem_map.mpr ⟨q, hq, rfl⟩, rfl⟩
  valuesShort := by
    intro q hq
    rcases SortedMap.mem_keys_insert.mp hq with rfl | hq
    · exact h.2
    · exact d.valuesShort q hq

theorem mem_insert (h) : p ∈ (d.insert k v h).pairs ↔ p = (k, v) ∨ p ∈ d.pairs := by
  rw [mem_pairs_iff, mem_pairs_iff]
  show rankPair d.flags p ∈ (d.map.insert _ ()).keys ↔ _
  rw [SortedMap.mem_keys_insert, rankPair_inj]

/-- Take away all pairs of a key. -/
def erase (d : DupDbi) (k : Bytes) : DupDbi where
  flags := d.flags
  map := ⟨d.map.entries.filter fun e => decide ((ofLex e.1).1 ≠ d.flags.rank k),
    d.map.sorted.filter _⟩
  keysAllowed := d.keysAllowed.subset fun _ hx =>
    (List.filter_sublist.map Prod.fst |>.map _).subset hx
  valuesShort := fun q hq => d.valuesShort q ((List.filter_sublist.map Prod.fst).subset hq)

end DupDbi

/-- A write transaction on a DBI with `MDB_DUPSORT`. -/
structure DupTxn where
  dbi : DupDbi
  dirty : Bool
deriving DecidableEq

namespace DupTxn

variable {t t' : DupTxn} {k v : Bytes}

/-- `Put` without flags. A pair that is there already is put again. -/
def put (t : DupTxn) (k v : Bytes) : Except LmdbErr DupTxn :=
  if h : t.dbi.Fits k v then .ok ⟨t.dbi.insert k v h, true⟩ else .error .badValSize

/-- `Del` without a value. -/
def del (t : DupTxn) (k : Bytes) : Except LmdbErr DupTxn :=
  if k = [] then .error .badValSize
  else if k ∈ t.dbi.keys then .ok ⟨t.dbi.erase k, true⟩
  else .error .notFound

theorem put_of_fits (h : t.dbi.Fits k v) :
    ∃ t', t.put k v = .ok t' ∧ t'.dbi.flags = t.dbi.flags ∧
      ∀ p, p ∈ t'.dbi.pairs ↔ p = (k, v) ∨ p ∈ t.dbi.pairs :=
  ⟨⟨t.dbi.insert k v h, true⟩, dif_pos h, rfl, fun _ => DupDbi.mem_insert h⟩

end DupTxn

end LightningStream.Lmdb
