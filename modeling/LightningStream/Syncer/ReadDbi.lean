import LightningStream.Lmdb
import LightningStream.Base.Outcome
import LightningStream.Snapshot.Kv

/-!
# Reading a DBI into a snapshot message

`readDBI` walks a cursor over the DBI and appends one entry per key. The
headers of the values are split into the entry's fields, unless the DBI holds
raw values. A DBI without `MDB_DUPSORT` never lists a key twice, so the
source's check for that has nothing to refuse here.
-/

namespace LightningStream.Syncer

open Lmdb Snapshot Header

/-- `ErrEntry`. -/
structure EntryErr where
  dbiName : Bytes
  key : Bytes
  err : HeaderErr
deriving DecidableEq, Repr

/-- One round of the loop in `readDBI`. -/
def readEntry (dbiName : Bytes) (rawValues : Bool) (e : Bytes × Bytes) :
    Except EntryErr Kv :=
  if rawValues then .ok ⟨e.1, e.2, 0, 0⟩
  else match parse e.2 with
    | .error err => .error ⟨dbiName, e.1, err⟩
    | .ok (h, appVal) => .ok ⟨e.1, appVal, h.timestamp, (masked h.flags).toUInt32⟩

def readDBI (dbiName : Bytes) (rawValues : Bool) (d : Dbi) : Except EntryErr (List Kv) :=
  d.entries.mapM (readEntry dbiName rawValues)

/-- The entry a raw dump has for a key and value. -/
def rawKv (e : Bytes × Bytes) : Kv := ⟨e.1, e.2, 0, 0⟩

@[simp] theorem rawKv_maskedFlags (e : Bytes × Bytes) : (rawKv e).maskedFlags = noFlags := by
  show masked (0 : UInt32).toUInt8 = noFlags
  decide

/-- The application value of a stored value. -/
def appOf (v : Bytes) : Bytes :=
  match parse v with
  | .error _ => []
  | .ok (_, appVal) => appVal

theorem appOf_of_parse {v app : Bytes} {h : Header} (hp : parse v = .ok (h, app)) :
    appOf v = app := by
  rw [appOf, hp]

/-- The entry a dump has for a key and a value with a header. -/
def headerKv (e : Bytes × Bytes) : Kv :=
  match parse e.2 with
  | .error _ => ⟨e.1, [], 0, 0⟩
  | .ok (h, appVal) => ⟨e.1, appVal, h.timestamp, (masked h.flags).toUInt32⟩

@[simp] theorem headerKv_key (e : Bytes × Bytes) : (headerKv e).key = e.1 := by
  unfold headerKv
  split <;> rfl

@[simp] theorem headerKv_value (e : Bytes × Bytes) : (headerKv e).value = appOf e.2 := by
  unfold headerKv appOf
  split <;> rfl

theorem headerKv_of_parse {e : Bytes × Bytes} {h : Header} {app : Bytes}
    (hp : parse e.2 = .ok (h, app)) :
    headerKv e = ⟨e.1, app, h.timestamp, (masked h.flags).toUInt32⟩ := by
  unfold headerKv
  rw [hp]

/-- The masked flags survive the trip through the entry's 32 bit field. -/
@[simp] theorem maskedFlags_of_masked (k v : Bytes) (ts : Timestamp) (f : Flags) :
    Kv.maskedFlags ⟨k, v, ts, (masked f).toUInt32⟩ = masked f := by
  unfold Kv.maskedFlags
  rw [show (masked f).toUInt32.toUInt8 = masked f by simp, masked_masked]

theorem readDBI_raw (name : Bytes) (d : Dbi) :
    readDBI name true d = .ok (d.entries.map rawKv) :=
  mapM_eq_ok_map fun _ _ => rfl

/-- Every value of the DBI has a valid header. -/
def HeadersValid (d : Dbi) : Prop := ∀ k v, d.get k = some v → ∃ r, parse v = .ok r

theorem readDBI_headers (name : Bytes) {d : Dbi} (hd : HeadersValid d) :
    readDBI name false d = .ok (d.entries.map headerKv) := by
  apply mapM_eq_ok_map
  rintro ⟨k, v⟩ he
  obtain ⟨⟨h, app⟩, hp⟩ := hd k v (Dbi.mem_entries_iff.mp he)
  rw [readEntry, hp, headerKv_of_parse hp]
  rfl

/-- A dump succeeds only on valid headers. -/
theorem readDBI_headers_iff (name : Bytes) {d : Dbi} {kvs : List Kv} :
    readDBI name false d = .ok kvs ↔ HeadersValid d ∧ kvs = d.entries.map headerKv := by
  constructor
  · intro h
    have hvalid : HeadersValid d := by
      intro k v hkv
      obtain ⟨kv, -, hread⟩ := mapM_ok_of_mem h (Dbi.mem_entries_iff.mpr hkv)
      unfold readEntry at hread
      cases hp : parse v with
      | error e => simp [hp] at hread
      | ok r => exact ⟨r, rfl⟩
    refine ⟨hvalid, ?_⟩
    rw [readDBI_headers name hvalid] at h
    exact (Except.ok.inj h).symm
  · rintro ⟨hvalid, rfl⟩
    exact readDBI_headers name hvalid

/-- The entry of a list of entries built from the DBI's that a key selects. -/
theorem find_map_entries {d : Dbi} {g : Bytes × Bytes → Kv} (hg : ∀ e, (g e).key = e.1)
    (k : Bytes) :
    (d.entries.map g).find? (fun kv => decide (kv.key = k)) =
      (d.get k).map (fun v => g (k, v)) := by
  cases hk : d.get k with
  | none =>
      apply List.find?_eq_none.mpr
      intro kv hkv
      obtain ⟨e, he, rfl⟩ := List.mem_map.mp hkv
      simp only [hg, decide_eq_true_eq]
      rintro rfl
      exact absurd (Dbi.mem_keys_iff.mpr ⟨e.2, Dbi.mem_entries_iff.mp he⟩)
        (Dbi.get_eq_none_iff.mp hk)
  | some v =>
      have hmem : (k, v) ∈ d.entries := Dbi.mem_entries_iff.mpr hk
      cases hf : (d.entries.map g).find? (fun kv => decide (kv.key = k)) with
      | none =>
          have hno := List.find?_eq_none.mp hf (g (k, v)) (List.mem_map.mpr ⟨_, hmem, rfl⟩)
          simp [hg] at hno
      | some kv =>
          obtain ⟨e, he, rfl⟩ := List.mem_map.mp (List.mem_of_find?_eq_some hf)
          have hek : e.1 = k := by simpa [hg] using List.find?_some hf
          have hv : d.get k = some e.2 := hek ▸ Dbi.mem_entries_iff.mp he
          rw [hk] at hv
          rw [Option.map_some, Option.some.inj hv, ← hek]

end LightningStream.Syncer
