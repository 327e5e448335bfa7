import LightningStream.Base.Outcome
import LightningStream.Lmdb.DupSort

/-!
# Environments with DBIs of both kinds

The DBIs of an environment by name, some of which may have `MDB_DUPSORT`. The
names are the keys of LMDB's root DBI, as in `Contents`.
-/

namespace LightningStream.Lmdb

/-! ## DBI flags -/

/-- The flags of a DBI that are modelled. -/
@[ext] structure DbiFlags where
  keys : KeyFlags
  dupSort : Bool
deriving DecidableEq, Repr

namespace DbiFlags

/-- `MDB_DUPSORT` is `0x04`. -/
def bits (f : DbiFlags) : UInt64 := f.keys.bits ||| (if f.dupSort then 0x04 else 0)

def ofBits (b : UInt64) : DbiFlags := ⟨KeyFlags.ofBits b, b &&& 0x04 != 0⟩

/-- The flags a DBI is created with can be read back. -/
@[simp] theorem ofBits_bits (f : DbiFlags) : ofBits f.bits = f := by
  rcases f with ⟨⟨r, i⟩, s⟩
  cases r <;> cases i <;> cases s <;> decide

end DbiFlags

/-! ## Tables -/

inductive Table
  | single (d : Dbi)
  | dup (d : DupDbi)
deriving DecidableEq

namespace Table

def flags : Table → DbiFlags
  | .single d => ⟨d.flags, false⟩
  | .dup d => ⟨d.flags, true⟩

def empty (f : DbiFlags) : Table :=
  if f.dupSort then .dup (DupDbi.empty f.keys) else .single (Dbi.empty f.keys)

/-- What a cursor returns from the first position to the last. -/
def entries : Table → List (Bytes × Bytes)
  | .single d => d.entries
  | .dup d => d.pairs

@[simp] theorem flags_empty (f : DbiFlags) : (empty f).flags = f := by
  rcases f with ⟨k, s⟩
  cases s <;> rfl

end Table

/-! ## Environments -/

@[ext] structure Tables where
  map : SortedMap Bytes Table
  named : ∀ n ∈ map.keys, 1 ≤ n.length ∧ n.length ≤ maxKeySize

namespace Tables

variable {c c' : Tables} {n m : Bytes} {x y : Table}

instance : DecidableEq Tables := fun c c' =>
  decidable_of_iff (c.map = c'.map) (Tables.ext_iff (x := c) (y := c')).symm

def empty : Tables := ⟨SortedMap.empty, by simp [SortedMap.empty, SortedMap.keys]⟩

def get (c : Tables) (n : Bytes) : Option Table := c.map.get n

/-- `ReadDBINames`. -/
def names (c : Tables) : List Bytes := c.map.keys

def set (c : Tables) (n : Bytes) (x : Table) (h : 1 ≤ n.length ∧ n.length ≤ maxKeySize) :
    Tables :=
  ⟨c.map.insert n x, fun m hm => by
    rcases SortedMap.mem_keys_insert.mp hm with rfl | hm
    · exact h
    · exact c.named m hm⟩

theorem get_set (h) : (c.set n x h).get m = if m = n then some x else c.get m := by
  show (c.map.insert n x).get m = _
  rw [SortedMap.get_insert]
  by_cases hm : m = n
  · rw [if_pos hm, if_pos hm]
  · rw [if_neg hm, if_neg hm]
    rfl

theorem mem_names_iff : n ∈ c.names ↔ ∃ x, c.get n = some x := SortedMap.mem_keys_iff

theorem names_nodup (c : Tables) : c.names.Nodup := c.map.keys_sorted.imp fun h => h.ne

theorem named_of_get (h : c.get n = some x) : 1 ≤ n.length ∧ n.length ≤ maxKeySize :=
  c.named n (mem_names_iff.mpr ⟨x, h⟩)

end Tables

/-- A write transaction on such an environment. -/
structure TablesTxn where
  contents : Tables
  dirty : Bool
deriving DecidableEq

namespace TablesTxn

variable {ε : Type} {t t' : TablesTxn} {n m : Bytes}

def start (c : Tables) : TablesTxn := ⟨c, false⟩

/-- `OpenDBI` with `lmdb.Create`. The flags count only for a new DBI. -/
def create (t : TablesTxn) (n : Bytes) (f : DbiFlags) : Except LmdbErr TablesTxn :=
  if (t.contents.get n).isSome then .ok t
  else if h : 1 ≤ n.length ∧ n.length ≤ maxKeySize then
    .ok ⟨t.contents.set n (Table.empty f) h, true⟩
  else .error .badValSize

/-- Replace a DBI of the environment by what a step of the transaction made of it. -/
def onTable (t : TablesTxn) (n : Bytes) (missing : ε)
    (f : Table → Bool → Except ε (Table × Bool)) : Except ε TablesTxn :=
  match h : t.contents.get n with
  | none => .error missing
  | some x => do
      let r ← f x t.dirty
      .ok ⟨t.contents.set n r.1 (Tables.named_of_get h), r.2⟩

theorem create_of_none (h : t.contents.get n = none) (f : DbiFlags)
    (hn : 1 ≤ n.length ∧ n.length ≤ maxKeySize) :
    ∃ t', t.create n f = .ok t' ∧
      ∀ m, t'.contents.get m = if m = n then some (Table.empty f) else t.contents.get m := by
  refine ⟨⟨t.contents.set n (Table.empty f) hn, true⟩, ?_, fun _ => Tables.get_set hn⟩
  rw [create, if_neg (by rw [h]; exact Bool.false_ne_true), dif_pos hn]

/-- A DBI that was opened is there, and no other one has changed. -/
theorem create_eq_ok {f : DbiFlags} (h : t.create n f = .ok t') :
    ∀ m, t'.contents.get m =
      if m = n then some ((t.contents.get n).getD (Table.empty f)) else t.contents.get m := by
  unfold create at h
  split at h
  · rename_i hsome
    obtain ⟨x, hx⟩ := Option.isSome_iff_exists.mp hsome
    obtain rfl := Except.ok.inj h
    intro m
    by_cases hm : m = n
    · rw [if_pos hm, hm, hx, Option.getD_some]
    · rw [if_neg hm]
  · rename_i hnone
    split at h
    · rename_i hn
      rw [← Except.ok.inj h]
      intro m
      rw [Option.not_isSome_iff_eq_none.mp hnone, Option.getD_none]
      exact Tables.get_set hn
    · cases h

theorem onTable_spec (missing : ε) {f : Table → Bool → Except ε (Table × Bool)} {x : Table}
    {r : Table × Bool} (hget : t.contents.get n = some x) (hf : f x t.dirty = .ok r) :
    ∃ t', t.onTable n missing f = .ok t' ∧ t'.dirty = r.2 ∧
      ∀ m, t'.contents.get m = if m = n then some r.1 else t.contents.get m := by
  refine ⟨⟨t.contents.set n r.1 (Tables.named_of_get hget), r.2⟩, ?_, rfl,
    fun _ => Tables.get_set (Tables.named_of_get hget)⟩
  unfold onTable
  split
  · rename_i hnone
    rw [hnone] at hget
    cases hget
  · rename_i y hy
    obtain rfl : y = x := Option.some.inj (hy.symm.trans hget)
    rw [hf]
    rfl

theorem onTable_eq_ok {missing : ε} {f : Table → Bool → Except ε (Table × Bool)}
    (h : t.onTable n missing f = .ok t') :
    ∃ x r, t.contents.get n = some x ∧ f x t.dirty = .ok r ∧ t'.dirty = r.2 ∧
      ∀ m, t'.contents.get m = if m = n then some r.1 else t.contents.get m := by
  unfold onTable at h
  split at h
  · cases h
  · rename_i x hx
    obtain ⟨r, hr, h⟩ := bind_eq_ok.mp h
    rw [← Except.ok.inj h]
    exact ⟨x, r, hx, hr, rfl, fun _ => Tables.get_set (Tables.named_of_get hx)⟩

end TablesTxn

end LightningStream.Lmdb
