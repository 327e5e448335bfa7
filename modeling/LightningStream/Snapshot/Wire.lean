import LightningStream.Base.Rounds
import LightningStream.Base.Varint

/-!
# The protobuf wire format

The hand-written decoders of the snapshot package walk over a byte slice with
an `int` offset. Each of them reads a tag, then the content that the field
number calls for, or skips the content of a number it does not know. `readField`
is this common body. Offsets are integers, since a wrong length can make one
negative, and a slice expression with a bad bound is a panic.
-/

namespace LightningStream.Snapshot

/-- `csproto.WireType`; the low three bits of a tag. -/
inductive WireType
  | varint
  | fixed64
  | lengthDelimited
  | fixed32
  | unsupported (bits : ℕ)
deriving DecidableEq

namespace WireType

def ofBits : ℕ → WireType
  | 0 => .varint
  | 1 => .fixed64
  | 2 => .lengthDelimited
  | 5 => .fixed32
  | n => .unsupported n

def bits : WireType → ℕ
  | .varint => 0
  | .fixed64 => 1
  | .lengthDelimited => 2
  | .fixed32 => 5
  | .unsupported n => n

end WireType

inductive DecodeErr
  /-- An error of `csproto`. -/
  | malformed
  | unexpectedWireType (tag : ℕ) (wireType expWireType : WireType)
  | unsupportedWireType (wireType : WireType)
  /-- "remaining data to short for indicated size". -/
  | tooShortForSize
  /-- "remaining data to short for fixed64". -/
  | tooShortForFixed64
  /-- `io.ErrUnexpectedEOF`. -/
  | unexpectedEOF
deriving DecidableEq

abbrev Decoding : Type → Type := Except (Fault DecodeErr)

/-! ## Integers and slices -/

/-- A 64 bit `int` overflows into the negative numbers. -/
def wrap64 (x : ℤ) : ℤ := (x + 2 ^ 63) % 2 ^ 64 - 2 ^ 63

/-- The conversion `int(v)`. -/
def toInt (v : UInt64) : ℤ := wrap64 v.toNat

theorem wrap64_of_lt {x : ℤ} (h0 : 0 ≤ x) (h : x < 2 ^ 63) : wrap64 x = x := by
  unfold wrap64
  omega

theorem toInt_of_lt {v : UInt64} (h : v.toNat < 2 ^ 63) : toInt v = v.toNat :=
  wrap64_of_lt (by omega) (by exact_mod_cast h)

theorem toInt_of_le {v : UInt64} (h : 2 ^ 63 ≤ v.toNat) : toInt v = v.toNat - 2 ^ 64 := by
  have hv : v.toNat < 2 ^ 64 := v.toNat_lt
  unfold toInt wrap64
  omega

theorem toNat_ofNat_of_lt {n : ℕ} (h : n < 2 ^ 64) : (UInt64.ofNat n).toNat = n :=
  UInt64.toNat_ofNat_of_lt' h

theorem toInt_ofNat {n : ℕ} (h : n < 2 ^ 63) : toInt (UInt64.ofNat n) = n := by
  have hn : (UInt64.ofNat n).toNat = n := toNat_ofNat_of_lt (by omega)
  rw [toInt_of_lt (by omega), hn]

/-- The slice `data[lo:]`. -/
def sliceFrom (data : Bytes) (lo : ℤ) : Decoding Bytes :=
  if 0 ≤ lo ∧ lo ≤ data.length then .ok (data.drop lo.toNat) else .error .panic

/-- The slice `data[lo:hi:hi]`. -/
def slice (data : Bytes) (lo hi : ℤ) : Decoding Bytes :=
  if 0 ≤ lo ∧ lo ≤ hi ∧ hi ≤ data.length then .ok ((data.take hi.toNat).drop lo.toNat)
  else .error .panic

/-- The bytes `rest` are what is left of the data at an offset. -/
def At (data : Bytes) (offset : ℤ) (rest : Bytes) : Prop :=
  ∃ pre, data = pre ++ rest ∧ offset = pre.length

section At

variable {data a rest : Bytes} {offset : ℤ}

theorem at_start (data : Bytes) : At data 0 data := ⟨[], rfl, rfl⟩

theorem At.advance (h : At data offset (a ++ rest)) : At data (offset + a.length) rest := by
  obtain ⟨pre, hdata, hoff⟩ := h
  exact ⟨pre ++ a, by rw [hdata, List.append_assoc], by simp [hoff]⟩

theorem At.length_eq (h : At data offset rest) : (data.length : ℤ) = offset + rest.length := by
  obtain ⟨pre, hdata, hoff⟩ := h
  simp [hdata, hoff]

theorem At.nonneg (h : At data offset rest) : 0 ≤ offset := by
  obtain ⟨pre, -, hoff⟩ := h
  omega

theorem At.drop_eq (h : At data offset rest) : data.drop offset.toNat = rest := by
  obtain ⟨pre, hdata, hoff⟩ := h
  simp [hdata, hoff]

theorem sliceFrom_at (h : At data offset rest) : sliceFrom data offset = .ok rest := by
  have hlen := h.length_eq
  rw [sliceFrom, if_pos ⟨h.nonneg, by omega⟩, h.drop_eq]

theorem slice_at (h : At data offset (a ++ rest)) :
    slice data offset (offset + a.length) = .ok a := by
  have hlen := h.length_eq
  have h0 := h.nonneg
  rw [List.length_append] at hlen
  rw [slice, if_pos ⟨h0, by omega, by push_cast at hlen; omega⟩]
  obtain ⟨pre, hdata, hoff⟩ := h
  have hto : (offset + a.length).toNat = (pre ++ a).length := by
    rw [List.length_append]
    omega
  rw [hto, hdata, ← List.append_assoc, List.take_left, hoff]
  simp

end At

/-! ## Reading a field -/

/-- What a decoder expects of a field number. -/
inductive Kind
  | sized
  | varint
  | fixed64
  | unknown
deriving DecidableEq

inductive Content
  | sized (b : Bytes)
  | varint (v : UInt64)
  | fixed64 (x : UInt64)
  | skipped
deriving DecidableEq

/-- A field number and wire type, and the offset behind them. -/
structure Tag where
  number : ℕ
  wireType : WireType
  offset : ℤ
deriving DecidableEq

/-- A field that was read, and the offset behind it. -/
structure Read where
  number : ℕ
  content : Content
  offset : ℤ
deriving DecidableEq

def expectWT (tag : ℕ) (got exp : WireType) : Decoding Unit :=
  if got ≠ exp then .error (.error (.unexpectedWireType tag got exp)) else .ok ()

variable (V : Varint)

/-- `csproto.DecodeVarint`. -/
def decodeVarint (b : Bytes) : Decoding (UInt64 × ℕ) :=
  match V.decode b with
  | some r => .ok r
  | none => .error (.error .malformed)

def readTag (data : Bytes) (offset : ℤ) : Decoding Tag := do
  let b ← sliceFrom data offset
  let r ← decodeVarint V b
  .ok ⟨r.1.toNat / 8, .ofBits (r.1.toNat % 8), offset + r.2⟩

/-- The content of a length-delimited field, and the offset behind it. -/
def readSized (data : Bytes) (offset : ℤ) : Decoding (Bytes × ℤ) := do
  let b ← sliceFrom data offset
  let r ← decodeVarint V b
  let size := toInt r.1
  let offset := offset + r.2
  if data.length - offset < size then .error (.error .tooShortForSize)
  else do
    let b ← slice data offset (offset + size)
    .ok (b, offset + size)

def readVarint (data : Bytes) (offset : ℤ) : Decoding (UInt64 × ℤ) := do
  let b ← sliceFrom data offset
  let r ← decodeVarint V b
  .ok (r.1, offset + r.2)

def readFixed64 (data : Bytes) (offset : ℤ) : Decoding (UInt64 × ℤ) :=
  if data.length - offset < 8 then .error (.error .tooShortForFixed64)
  else do
    let b ← slice data offset (offset + 8)
    .ok (UInt64.ofNat (leNat b), offset + 8)

/-- `skipTag` before its check: how many bytes the content takes. -/
def contentSize (data : Bytes) : WireType → Decoding ℤ
  | .varint => do
      let r ← decodeVarint V data
      .ok r.2
  | .lengthDelimited => do
      let r ← decodeVarint V data
      .ok (wrap64 (toInt r.1 + r.2))
  | .fixed32 => .ok 4
  | .fixed64 => .ok 8
  | .unsupported n => .error (.error (.unsupportedWireType (.unsupported n)))

/-- `skipTag` skips over the next tag data. -/
def skipTag (data : Bytes) (wireType : WireType) : Decoding ℤ := do
  let skip ← contentSize V data wireType
  if data.length < skip then .error (.error .unexpectedEOF) else .ok skip

/-- Read a tag and the content its number calls for. The content of an unknown
field is skipped in the slice that `skipped` gives for the offset behind the tag. -/
def readField (kind : ℕ → Kind) (skipped : ℤ → Decoding Bytes) (data : Bytes) (offset : ℤ) :
    Decoding Read := do
  let t ← readTag V data offset
  match kind t.number with
  | .sized => do
      expectWT t.number t.wireType .lengthDelimited
      let r ← readSized V data t.offset
      .ok ⟨t.number, .sized r.1, r.2⟩
  | .varint => do
      expectWT t.number t.wireType .varint
      let r ← readVarint V data t.offset
      .ok ⟨t.number, .varint r.1, r.2⟩
  | .fixed64 => do
      expectWT t.number t.wireType .fixed64
      let r ← readFixed64 data t.offset
      .ok ⟨t.number, .fixed64 r.1, r.2⟩
  | .unknown => do
      let b ← skipped t.offset
      let n ← skipTag V b t.wireType
      .ok ⟨t.number, .skipped, t.offset + n⟩

end LightningStream.Snapshot
