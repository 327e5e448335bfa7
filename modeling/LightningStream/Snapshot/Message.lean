import LightningStream.Snapshot.Builder

/-!
# Snapshots

A snapshot is written as a stream: the versions, the meta message, and one
message for each DBI, whose data is passed on as it is. It is decoded with the
`Decoder` of `csproto`, which refuses fields that are longer than its limit:
the snapshot's decoder sets it to 100 GB, the decoder of the meta message keeps
the default.

The writer is taken to accept everything. `Csproto` stands for the library.
-/

set_option linter.dupNamespace false

namespace LightningStream.Snapshot

/-! ## The decoder of csproto -/

/-- The functions of `csproto`. The methods of its `Decoder` take the bytes that
are left and return a value and the bytes that are left then; `none` is an error. -/
structure Csproto extends Varint where
  decodeTag : Bytes → Option (ℕ × WireType × Bytes)
  decodeUInt32 : Bytes → Option (UInt32 × Bytes)
  decodeInt64 : Bytes → Option (Int64 × Bytes)
  decodeFixed64 : Bytes → Option (UInt64 × Bytes)
  /-- `DecodeBytes` under a limit on the length. -/
  decodeBytes : ℕ → Bytes → Option (Bytes × Bytes)
  decodeString : ℕ → Bytes → Option (Bytes × Bytes)
  skip : ℕ → WireType → Bytes → Option Bytes
  defaultMaxFieldLength : ℕ

/-- The decoder inverts the encoder, and enforces its limit. -/
class Csproto.Lawful (C : Csproto) : Prop extends C.toVarint.Lawful where
  decodeTag_encode : ∀ (tag : ℕ) (v : Value) (rest : Bytes), 1 ≤ tag → tag < 16 →
    C.decodeTag (encodeTag C.toVarint tag v.wireType ++ rest) = some (tag, v.wireType, rest)
  decodeUInt32_encode : ∀ (v : UInt32) (rest : Bytes),
    C.decodeUInt32 (C.encode v.toUInt64 ++ rest) = some (v, rest)
  decodeInt64_encode : ∀ (v : Int64) (rest : Bytes),
    C.decodeInt64 (C.encode v.toUInt64 ++ rest) = some (v, rest)
  decodeFixed64_encode : ∀ (x : UInt64) (rest : Bytes),
    C.decodeFixed64 (leBytes 8 x.toNat ++ rest) = some (x, rest)
  decodeBytes_encode : ∀ (limit : ℕ) (b rest : Bytes), b.length ≤ limit → b.length < 2 ^ 63 →
    C.decodeBytes limit (C.encode (UInt64.ofNat b.length) ++ b ++ rest) = some (b, rest)
  decodeBytes_limit : ∀ (limit : ℕ) (v : UInt64) (rest : Bytes), limit < v.toNat →
    C.decodeBytes limit (C.encode v ++ rest) = none
  decodeString_eq : ∀ (limit : ℕ) (b : Bytes), C.decodeString limit b = C.decodeBytes limit b

def ofCsproto {α : Type} : Option α → Decoding α
  | some a => .ok a
  | none => .error (.error .malformed)

section Getters

variable (C : Csproto)

def getUInt32 (tag : ℕ) (wireType : WireType) (b : Bytes) : Decoding (UInt32 × Bytes) := do
  expectWT tag wireType .varint
  ofCsproto (C.decodeUInt32 b)

def getFixed64 (tag : ℕ) (wireType : WireType) (b : Bytes) : Decoding (UInt64 × Bytes) := do
  expectWT tag wireType .fixed64
  ofCsproto (C.decodeFixed64 b)

def getInt64 (tag : ℕ) (wireType : WireType) (b : Bytes) : Decoding (Int64 × Bytes) := do
  expectWT tag wireType .varint
  ofCsproto (C.decodeInt64 b)

def getBytes (limit tag : ℕ) (wireType : WireType) (b : Bytes) : Decoding (Bytes × Bytes) := do
  expectWT tag wireType .lengthDelimited
  ofCsproto (C.decodeBytes limit b)

def getString (limit tag : ℕ) (wireType : WireType) (b : Bytes) : Decoding (Bytes × Bytes) := do
  expectWT tag wireType .lengthDelimited
  ofCsproto (C.decodeString limit b)

end Getters

/-! ## Meta -/

def fieldMetaGenerationID : ℕ := 1
def fieldMetaInstanceID : ℕ := 2
def fieldMetaHostname : ℕ := 3
def fieldMetaLMDBTxnID : ℕ := 4
def fieldMetaTimestampNano : ℕ := 5
def fieldMetaDatabaseName : ℕ := 7
def fieldMetaFromLMDBTxnID : ℕ := 8

structure Meta where
  generationID : Bytes
  instanceID : Bytes
  hostname : Bytes
  lmdbTxnID : Int64
  timestampNano : UInt64
  databaseName : Bytes
  fromLmdbTxnID : Int64
deriving DecidableEq

namespace Meta

def empty : Meta := ⟨[], [], [], 0, 0, [], 0⟩

def putInt64 (V : Varint) (tag : ℕ) (v : Int64) (b : Buf) : Except Panic Buf :=
  if v > 0 then do
    let b ← put (encodeTag V tag .varint) b
    put (V.encode v.toUInt64) b
  else .ok b

/-- The estimate of the buffer size. -/
def bufSizeNeeded (m : Meta) : ℕ :=
  (m.generationID.length + 20) + (m.instanceID.length + 20) + (m.hostname.length + 20) +
    (m.databaseName.length + 20) + 1000

def marshal (V : Varint) (m : Meta) : Except Panic Bytes := do
  let b ← putSized V fieldMetaGenerationID m.generationID
    ⟨List.replicate m.bufSizeNeeded 0, 0⟩
  let b ← putSized V fieldMetaInstanceID m.instanceID b
  let b ← putSized V fieldMetaHostname m.hostname b
  let b ← putSized V fieldMetaDatabaseName m.databaseName b
  let b ← putInt64 V fieldMetaLMDBTxnID m.lmdbTxnID b
  let b ← putFixed64 V fieldMetaTimestampNano m.timestampNano b
  let b ← putInt64 V fieldMetaFromLMDBTxnID m.fromLmdbTxnID b
  .ok b.written

/-- Decode one field of the message behind its tag. -/
def readField (C : Csproto) (m : Meta) (tag : ℕ) (wireType : WireType) (b : Bytes) :
    Decoding (Meta × Bytes) :=
  let limit := C.defaultMaxFieldLength
  if tag = fieldMetaGenerationID then do
    let r ← getString C limit tag wireType b
    .ok ({ m with generationID := r.1 }, r.2)
  else if tag = fieldMetaInstanceID then do
    let r ← getString C limit tag wireType b
    .ok ({ m with instanceID := r.1 }, r.2)
  else if tag = fieldMetaHostname then do
    let r ← getString C limit tag wireType b
    .ok ({ m with hostname := r.1 }, r.2)
  else if tag = fieldMetaLMDBTxnID then do
    let r ← getInt64 C tag wireType b
    .ok ({ m with lmdbTxnID := r.1 }, r.2)
  else if tag = fieldMetaTimestampNano then do
    let r ← getFixed64 C tag wireType b
    .ok ({ m with timestampNano := r.1 }, r.2)
  else if tag = fieldMetaDatabaseName then do
    let r ← getString C limit tag wireType b
    .ok ({ m with databaseName := r.1 }, r.2)
  else if tag = fieldMetaFromLMDBTxnID then do
    let r ← getInt64 C tag wireType b
    .ok ({ m with fromLmdbTxnID := r.1 }, r.2)
  else do
    let rest ← ofCsproto (C.skip tag wireType b)
    .ok (m, rest)

end Meta

/-- A round of a loop over `Decoder.More`: the message so far and the bytes that
are left. -/
def decoderRound {α : Type} (C : Csproto)
    (readField : α → ℕ → WireType → Bytes → Decoding (α × Bytes)) (s : α × Bytes) :
    Decoding ((α × Bytes) ⊕ α) :=
  if s.2 = [] then .ok (.inr s.1)
  else do
    let t ← ofCsproto (C.decodeTag s.2)
    let r ← readField s.1 t.1 t.2.1 t.2.2
    .ok (.inl r)

def Meta.unmarshal (C : Csproto) (m : Meta) (data : Bytes) : Decoding Meta :=
  runRounds (decoderRound C (Meta.readField C)) (data.length + 2) (m, data)

/-! ## Snapshot -/

def fieldSnapshotFormatVersion : ℕ := 1
def fieldSnapshotMeta : ℕ := 2
def fieldSnapshotDBI : ℕ := 3
def fieldSnapshotCompatVersion : ℕ := 4

/-- 100 GB. -/
def maxFieldLength : ℕ := 100 * 2 ^ 30

structure Snapshot where
  formatVersion : UInt32
  compatVersion : UInt32
  «meta» : Meta
  databases : List DBI
deriving DecidableEq

namespace Snapshot

def empty : Snapshot := ⟨0, 0, .empty, []⟩

/-- Write a message behind a header with its tag and length. -/
def writeMessage (V : Varint) (tag : ℕ) (out msg : Bytes) : Except Panic Bytes :=
  if msg.length = 0 then .ok out
  else do
    let b ← put (encodeTag V tag .lengthDelimited) ⟨List.replicate 1000 0, 0⟩
    let b ← put (V.encode (UInt64.ofNat msg.length)) b
    .ok (out ++ b.written ++ msg)

def writeDBI (V : Varint) (G : Growth) (out : Bytes) (d : DBI) : Except Panic Bytes := do
  let d ← d.marshal V G
  writeMessage V fieldSnapshotDBI out d.data

/-- `WriteTo`: the bytes that the writer gets. -/
def writeTo (V : Varint) (G : Growth) (s : Snapshot) : Except Panic Bytes := do
  let b ← putVarint V fieldSnapshotFormatVersion s.formatVersion.toUInt64
    ⟨List.replicate 1000 0, 0⟩
  let b ← putVarint V fieldSnapshotCompatVersion s.compatVersion.toUInt64 b
  let metaPB ← s.meta.marshal V
  let out ← writeMessage V fieldSnapshotMeta b.written metaPB
  s.databases.foldlM (writeDBI V G) out

def readField (C : Csproto) (s : Snapshot) (tag : ℕ) (wireType : WireType) (b : Bytes) :
    Decoding (Snapshot × Bytes) :=
  if tag = fieldSnapshotFormatVersion then do
    let r ← getUInt32 C tag wireType b
    .ok ({ s with formatVersion := r.1 }, r.2)
  else if tag = fieldSnapshotCompatVersion then do
    let r ← getUInt32 C tag wireType b
    .ok ({ s with compatVersion := r.1 }, r.2)
  else if tag = fieldSnapshotMeta then do
    let r ← getBytes C maxFieldLength tag wireType b
    let m ← s.meta.unmarshal C r.1
    .ok ({ s with «meta» := m }, r.2)
  else if tag = fieldSnapshotDBI then do
    let r ← getBytes C maxFieldLength tag wireType b
    let d ← newDBIFromData C.toVarint r.1
    .ok ({ s with databases := s.databases ++ [d] }, r.2)
  else do
    let rest ← ofCsproto (C.skip tag wireType b)
    .ok (s, rest)

/-- `Unmarshal` on a zero `Snapshot`. -/
def unmarshal (C : Csproto) (data : Bytes) : Decoding Snapshot :=
  runRounds (decoderRound C (readField C)) (data.length + 2) (.empty, data)

end Snapshot

end LightningStream.Snapshot
