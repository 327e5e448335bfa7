import LightningStream.Snapshot.Field
import LightningStream.Snapshot.Kv

/-!
# Decoding a DBI message

`indexData` runs once over the message for the name, flags and transform of
the DBI. `Next` then finds one entry after the other, and `KV.Unmarshal`
decodes each. The three loops are rounds of `readField`; they differ in the
numbers they know and in where an unknown field is skipped from: `indexData`
hands all of its data to `skipTag`, the others what is left behind the tag.

A loop here gets fuel for two rounds more than the data has bytes; one that is
out of fuel by then is stuck.
-/

namespace LightningStream.Snapshot

/-! ## KV -/

def fieldKVKey : ℕ := 1
def fieldKVValue : ℕ := 2
def fieldKVTimestampNano : ℕ := 3
def fieldKVFlags : ℕ := 4

def kvKind (tag : ℕ) : Kind :=
  if tag = fieldKVKey ∨ tag = fieldKVValue then .sized
  else if tag = fieldKVFlags then .varint
  else if tag = fieldKVTimestampNano then .fixed64
  else .unknown

def Kv.empty : Kv := ⟨[], [], 0, 0⟩

def Kv.setField (kv : Kv) (tag : ℕ) : Content → Kv
  | .sized b => if tag = fieldKVKey then { kv with key := b } else { kv with value := b }
  | .varint v => { kv with flags := v.toUInt32 }
  | .fixed64 x => { kv with timestampNano := x }
  | .skipped => kv

/-- A `KV` that is being decoded, and the offset of the next field. -/
structure Unmarshalling where
  kv : Kv
  offset : ℤ
deriving DecidableEq

variable (V : Varint)

def kvRound (data : Bytes) (s : Unmarshalling) : Decoding (Unmarshalling ⊕ Kv) := do
  let r ← readField V kvKind (sliceFrom data) data s.offset
  let kv := s.kv.setField r.number r.content
  .ok (if r.offset = data.length then .inr kv else .inl ⟨kv, r.offset⟩)

/-- `KV.Unmarshal` on a zero `KV`. -/
def Kv.unmarshal (data : Bytes) : Decoding Kv :=
  runRounds (kvRound V data) (data.length + 2) ⟨.empty, 0⟩

/-! ## DBI -/

def fieldDBIName : ℕ := 1
def fieldDBIEntries : ℕ := 2
def fieldDBIFlags : ℕ := 3
def fieldDBITransform : ℕ := 4

/-- `DBI`, without its read offset and its statistics. -/
structure DBI where
  name : Bytes
  flags : UInt64
  transform : Bytes
  data : Bytes
  /-- The capacity of the slice `data`. -/
  cap : ℕ
  dirty : Bool
  flushed : Bool
deriving DecidableEq

def dbiKind (tag : ℕ) : Kind :=
  if tag = fieldDBIEntries ∨ tag = fieldDBIName ∨ tag = fieldDBITransform then .sized
  else if tag = fieldDBIFlags then .varint
  else .unknown

def DBI.setField (d : DBI) (tag : ℕ) : Content → DBI
  | .sized b =>
      if tag = fieldDBIName then { d with name := b }
      else if tag = fieldDBITransform then { d with transform := b }
      else d
  | .varint v => { d with flags := v }
  | _ => d

/-- A `DBI` that is being indexed, and the offset of the next field. -/
structure Indexing where
  dbi : DBI
  offset : ℤ
deriving DecidableEq

def indexRound (data : Bytes) (s : Indexing) : Decoding (Indexing ⊕ DBI) :=
  if data.length ≤ s.offset then .ok (.inr s.dbi)
  else do
    let r ← readField V dbiKind (fun _ => .ok data) data s.offset
    .ok (.inl ⟨s.dbi.setField r.number r.content, r.offset⟩)

def DBI.indexData (d : DBI) : Decoding DBI :=
  runRounds (indexRound V d.data) (d.data.length + 2) ⟨{ d with flushed := true }, 0⟩

/-- The `DBI` that `NewDBIFromData` indexes. -/
def DBI.ofData (data : Bytes) : DBI := ⟨[], 0, [], data, data.length, false, true⟩

def newDBIFromData (data : Bytes) : Decoding DBI := (DBI.ofData data).indexData V

/-- `Next` looks for entries only. -/
def entryKind (tag : ℕ) : Kind := if tag = fieldDBIEntries then .sized else .unknown

/-- A round of the loop in `Next`, the last one together with what follows the
loop: the bytes of the entry and the new cursor, or nothing at the end. -/
def nextRound (data : Bytes) (offset : ℤ) : Decoding (ℤ ⊕ Option (Bytes × ℤ)) :=
  if data.length ≤ offset then .ok (.inr none)
  else do
    let r ← readField V entryKind (sliceFrom data) data offset
    match r.content with
    | .sized b => .ok (.inr (some (b, r.offset)))
    | _ => .ok (.inl r.offset)

/-- `Next` from a cursor: an entry and the new cursor, or `none` for `io.EOF`. -/
def next (data : Bytes) (cur : ℤ) : Decoding (Option (Kv × ℤ)) := do
  match ← runRounds (nextRound V data) (data.length + 2) cur with
  | none => .ok none
  | some (b, cur) => do
      let kv ← Kv.unmarshal V b
      .ok (some (kv, cur))

/-- The entries that `Next` has returned, and its cursor. -/
structure Cursor where
  kvs : List Kv
  cur : ℤ
deriving DecidableEq

def Cursor.reset : Cursor := ⟨[], 0⟩

/-- One call of `Next` by a reader that goes on until it gets an error. -/
def readRound (data : Bytes) (c : Cursor) : Decoding (Cursor ⊕ Reading DecodeErr) :=
  match next V data c.cur with
  | .ok none => .ok (.inr ⟨c.kvs, none⟩)
  | .ok (some (kv, cur)) => .ok (.inl ⟨c.kvs ++ [kv], cur⟩)
  | .error (.error e) => .ok (.inr ⟨c.kvs, some e⟩)
  | .error f => .error f

/-- All calls of `Next` from a reset cursor. -/
def readAll (data : Bytes) : Decoding (Reading DecodeErr) :=
  runRounds (readRound V data) (data.length + 2) .reset

variable {V} {data : Bytes}

theorem readRound_next {c c' : Cursor} (h : readRound V data c = .ok (.inl c')) :
    ∃ kv, next V data c.cur = .ok (some (kv, c'.cur)) ∧ c'.kvs = c.kvs ++ [kv] := by
  unfold readRound at h
  split at h
  · cases h
  · rename_i kv cur hnext
    obtain rfl := Sum.inl.inj (Except.ok.inj h)
    exact ⟨kv, hnext, rfl⟩
  · cases h
  · cases h

/-- A reader that stops without an error is at the end of the message. -/
theorem readRound_done {c : Cursor} {kvs : List Kv}
    (h : readRound V data c = .ok (.inr ⟨kvs, none⟩)) :
    next V data c.cur = .ok none ∧ kvs = c.kvs := by
  unfold readRound at h
  split at h
  · rename_i hnext
    exact ⟨hnext, (congrArg Reading.kvs (Sum.inr.inj (Except.ok.inj h))).symm⟩
  · cases h
  · cases h
  · cases h

end LightningStream.Snapshot
