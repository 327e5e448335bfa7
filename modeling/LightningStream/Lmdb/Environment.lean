import LightningStream.Base.Outcome
import LightningStream.Lmdb

/-!
# LMDB environments

The named DBIs of an environment. Their names are the keys of LMDB's root
DBI, so they have 1 to 511 bytes and are listed in bytewise order.
-/

namespace LightningStream.Lmdb

/-- The DBIs of an environment by name. -/
@[ext] structure Contents where
  map : SortedMap Bytes Dbi
  named : ∀ n ∈ map.keys, 1 ≤ n.length ∧ n.length ≤ maxKeySize

namespace Contents

variable {c c' : Contents} {n m : Bytes} {d : Dbi}

instance : DecidableEq Contents := fun c c' =>
  decidable_of_iff (c.map = c'.map) (Contents.ext_iff (x := c) (y := c')).symm

def empty : Contents := ⟨SortedMap.empty, by simp [SortedMap.empty, SortedMap.keys]⟩

def get (c : Contents) (n : Bytes) : Option Dbi := c.map.get n

/-- `ReadDBINames`. -/
def names (c : Contents) : List Bytes := c.map.keys

def set (c : Contents) (n : Bytes) (d : Dbi) (h : 1 ≤ n.length ∧ n.length ≤ maxKeySize) :
    Contents :=
  ⟨c.map.insert n d, fun m hm => by
    rcases SortedMap.mem_keys_insert.mp hm with rfl | hm
    · exact h
    · exact c.named m hm⟩

theorem get_set (h) : (c.set n d h).get m = if m = n then some d else c.get m := by
  show (c.map.insert n d).get m = _
  rw [SortedMap.get_insert]
  by_cases hm : m = n
  · rw [if_pos hm, if_pos hm]
  · rw [if_neg hm, if_neg hm]
    rfl

theorem mem_names_iff : n ∈ c.names ↔ ∃ d, c.get n = some d := SortedMap.mem_keys_iff

theorem named_of_get (h : c.get n = some d) : 1 ≤ n.length ∧ n.length ≤ maxKeySize :=
  c.named n (mem_names_iff.mpr ⟨d, h⟩)

end Contents

/-- A write transaction on an environment. -/
structure EnvTxn where
  contents : Contents
  dirty : Bool
deriving DecidableEq

namespace EnvTxn

def start (c : Contents) : EnvTxn := ⟨c, false⟩

/-- `OpenDBI` with `lmdb.Create`, for a name that is not taken. -/
def create (t : EnvTxn) (n : Bytes) (f : KeyFlags) : Except LmdbErr EnvTxn :=
  if h : 1 ≤ n.length ∧ n.length ≤ maxKeySize then
    .ok ⟨t.contents.set n (Dbi.empty f) h, true⟩
  else .error .badValSize

/-- Work on one DBI within the transaction. -/
def onDbi {ε : Type} (t : EnvTxn) (n : Bytes) (f : Txn → Except ε Txn) (missing : ε) :
    Except ε EnvTxn :=
  match h : t.contents.get n with
  | none => .error missing
  | some d => do
      let r ← f ⟨d, t.dirty⟩
      .ok ⟨t.contents.set n r.dbi (Contents.named_of_get h), r.dirty⟩

theorem create_spec {t : EnvTxn} {n : Bytes} (f : KeyFlags)
    (h : 1 ≤ n.length ∧ n.length ≤ maxKeySize) :
    ∃ t', t.create n f = .ok t' ∧
      ∀ m, t'.contents.get m = if m = n then some (Dbi.empty f) else t.contents.get m :=
  ⟨_, dif_pos h, fun _ => Contents.get_set h⟩

theorem onDbi_spec {ε : Type} {t : EnvTxn} {n : Bytes} {d : Dbi} {f : Txn → Except ε Txn}
    {missing : ε} {r : Txn} (hget : t.contents.get n = some d)
    (hf : f ⟨d, t.dirty⟩ = .ok r) :
    ∃ t', t.onDbi n f missing = .ok t' ∧ t'.dirty = r.dirty ∧
      ∀ m, t'.contents.get m = if m = n then some r.dbi else t.contents.get m := by
  refine ⟨⟨t.contents.set n r.dbi (Contents.named_of_get hget), r.dirty⟩, ?_, rfl,
    fun _ => Contents.get_set (Contents.named_of_get hget)⟩
  unfold onDbi
  split
  · rename_i hnone
    rw [hnone] at hget
    cases hget
  · rename_i d' hd'
    obtain rfl : d' = d := Option.some.inj (hd'.symm.trans hget)
    rw [hf]
    rfl

theorem create_eq_ok {t t' : EnvTxn} {n : Bytes} {f : KeyFlags} (h : t.create n f = .ok t') :
    ∀ m, t'.contents.get m = if m = n then some (Dbi.empty f) else t.contents.get m := by
  unfold create at h
  split at h
  · rename_i hn
    rw [← Except.ok.inj h]
    exact fun _ => Contents.get_set hn
  · cases h

theorem onDbi_eq_ok {ε : Type} {t t' : EnvTxn} {n : Bytes} {f : Txn → Except ε Txn}
    {missing : ε} (h : t.onDbi n f missing = .ok t') :
    ∃ d r, t.contents.get n = some d ∧ f ⟨d, t.dirty⟩ = .ok r ∧ t'.dirty = r.dirty ∧
      ∀ m, t'.contents.get m = if m = n then some r.dbi else t.contents.get m := by
  unfold onDbi at h
  split at h
  · cases h
  · rename_i d hd
    obtain ⟨r, hr, h⟩ := bind_eq_ok.mp h
    rw [← Except.ok.inj h]
    exact ⟨d, r, hd, hr, rfl, fun _ => Contents.get_set (Contents.named_of_get hd)⟩

end EnvTxn

end LightningStream.Lmdb
