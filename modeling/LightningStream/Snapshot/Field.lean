import LightningStream.Base.Outcome
import LightningStream.Snapshot.Wire

/-!
# Well-formed fields

The fields of a protobuf message as data: the bytes of the tag and of a varint
are part of a field, since the same number can be written in more than one way,
and each field carries the proof that its bytes decode. A message is the
concatenation of the bytes of its fields, and `readField` reads them back one
by one (`readField_field`).
-/

namespace LightningStream.Snapshot

/-- The content of a field with the bytes it is written in. -/
inductive Payload (V : Varint)
  | varint (raw : Bytes) (v : UInt64) (valid : V.decode raw = some (v, raw.length))
  | fixed32 (b : Bytes) (valid : b.length = 4)
  | fixed64 (b : Bytes) (valid : b.length = 8)
  | sized (raw b : Bytes) (valid : V.decode raw = some (UInt64.ofNat b.length, raw.length))
      (fits : raw.length + b.length < 2 ^ 63)

namespace Payload

variable {V : Varint}

def wireType : Payload V → WireType
  | .varint .. => .varint
  | .fixed32 .. => .fixed32
  | .fixed64 .. => .fixed64
  | .sized .. => .lengthDelimited

def bytes : Payload V → Bytes
  | .varint raw _ _ => raw
  | .fixed32 b _ => b
  | .fixed64 b _ => b
  | .sized raw b _ _ => raw ++ b

/-- The wire type is the one the kind expects. -/
def Typed (p : Payload V) : Kind → Prop
  | .sized => p.wireType = .lengthDelimited
  | .varint => p.wireType = .varint
  | .fixed64 => p.wireType = .fixed64
  | .unknown => True

def content : Payload V → Kind → Content
  | .sized _ b _ _, .sized => .sized b
  | .varint _ v _, .varint => .varint v
  | .fixed64 b _, .fixed64 => .fixed64 (UInt64.ofNat (leNat b))
  | _, _ => .skipped

end Payload

structure Field (V : Varint) where
  raw : Bytes
  number : ℕ
  payload : Payload V
  small : number < 2 ^ 61
  valid : V.decode raw =
    some (UInt64.ofNat (8 * number + payload.wireType.bits), raw.length)

def Field.bytes {V : Varint} (f : Field V) : Bytes := f.raw ++ f.payload.bytes

def encodeFields {V : Varint} (fs : List (Field V)) : Bytes := fs.flatMap Field.bytes

variable {V : Varint}

@[simp] theorem encodeFields_nil : encodeFields ([] : List (Field V)) = [] := rfl

@[simp] theorem encodeFields_cons (f : Field V) (fs : List (Field V)) :
    encodeFields (f :: fs) = f.bytes ++ encodeFields fs := rfl

@[simp] theorem encodeFields_append (fs gs : List (Field V)) :
    encodeFields (fs ++ gs) = encodeFields fs ++ encodeFields gs := List.flatMap_append

theorem Payload.bits_lt (p : Payload V) : p.wireType.bits < 8 := by
  cases p <;> simp [Payload.wireType, WireType.bits]

theorem Payload.ofBits_bits (p : Payload V) : WireType.ofBits p.wireType.bits = p.wireType := by
  cases p <;> rfl

/-! ## Reading well-formed fields -/

variable [V.Lawful] {data rest : Bytes} {offset : ℤ}

theorem decodeVarint_append {raw : Bytes} {v : UInt64} (h : V.decode raw = some (v, raw.length))
    (rest : Bytes) : decodeVarint V (raw ++ rest) = .ok (v, raw.length) := by
  rw [decodeVarint, Varint.Lawful.decode_append h]

theorem Field.raw_ne_nil (f : Field V) : 1 ≤ f.raw.length :=
  (Varint.Lawful.decode_length f.valid).1

theorem Field.bytes_ne_nil (f : Field V) : 1 ≤ f.bytes.length := by
  have := f.raw_ne_nil
  rw [Field.bytes, List.length_append]
  omega

theorem readTag_field (f : Field V) (h : At data offset (f.bytes ++ rest)) :
    readTag V data offset = .ok ⟨f.number, f.payload.wireType, offset + f.raw.length⟩ := by
  have hbits := f.payload.bits_lt
  have hsmall := f.small
  have hv : (UInt64.ofNat (8 * f.number + f.payload.wireType.bits)).toNat =
      8 * f.number + f.payload.wireType.bits := toNat_ofNat_of_lt (by omega)
  have hnum : (8 * f.number + f.payload.wireType.bits) / 8 = f.number := by omega
  have hwt : (8 * f.number + f.payload.wireType.bits) % 8 = f.payload.wireType.bits := by omega
  rw [readTag, sliceFrom_at h, Field.bytes, List.append_assoc]
  simp only [bind, Except.bind, decodeVarint_append f.valid, hv, hnum, hwt,
    f.payload.ofBits_bits]

theorem readSized_payload {raw b : Bytes}
    (hvalid : V.decode raw = some (UInt64.ofNat b.length, raw.length))
    (hfits : raw.length + b.length < 2 ^ 63) (h : At data offset (raw ++ b ++ rest)) :
    readSized V data offset = .ok (b, offset + (raw ++ b).length) := by
  have hv : toInt (UInt64.ofNat b.length) = b.length := toInt_ofNat (by omega)
  rw [List.append_assoc] at h
  have hb : At data (offset + raw.length) (b ++ rest) := h.advance
  have hlen := hb.length_eq
  rw [List.length_append] at hlen
  rw [readSized, sliceFrom_at h]
  simp only [bind, Except.bind, decodeVarint_append hvalid, hv]
  rw [if_neg (by push_cast at hlen; omega), slice_at hb]
  simp only [List.length_append, Nat.cast_add, add_assoc]

theorem readVarint_payload {raw : Bytes} {v : UInt64} (hvalid : V.decode raw = some (v, raw.length))
    (h : At data offset (raw ++ rest)) :
    readVarint V data offset = .ok (v, offset + raw.length) := by
  rw [readVarint, sliceFrom_at h]
  simp only [bind, Except.bind, decodeVarint_append hvalid]

omit [V.Lawful] in
theorem readFixed64_payload {b : Bytes} (hb : b.length = 8) (h : At data offset (b ++ rest)) :
    readFixed64 data offset = .ok (UInt64.ofNat (leNat b), offset + 8) := by
  have hlen := h.length_eq
  rw [List.length_append, hb] at hlen
  have hslice := slice_at h
  rw [hb] at hslice
  rw [readFixed64, if_neg (by push_cast at hlen; omega)]
  push_cast at hslice
  rw [hslice]
  rfl

theorem contentSize_payload (p : Payload V) (rest : Bytes) :
    contentSize V (p.bytes ++ rest) p.wireType = .ok p.bytes.length := by
  cases p with
  | varint raw v valid =>
      simp only [Payload.bytes, Payload.wireType, contentSize, decodeVarint_append valid]
      rfl
  | fixed32 b valid => simp [Payload.bytes, Payload.wireType, contentSize, valid]
  | fixed64 b valid => simp [Payload.bytes, Payload.wireType, contentSize, valid]
  | sized raw b valid fits =>
      have hv : toInt (UInt64.ofNat b.length) = b.length := toInt_ofNat (by omega)
      simp only [Payload.bytes, Payload.wireType, contentSize, List.append_assoc,
        decodeVarint_append valid, bind, Except.bind, hv]
      rw [wrap64_of_lt (by omega) (by omega), List.length_append]
      push_cast
      rw [add_comm]

/-- Skipping from where the content starts gives its size. -/
theorem skipTag_payload (p : Payload V) (rest : Bytes) :
    skipTag V (p.bytes ++ rest) p.wireType = .ok p.bytes.length := by
  rw [skipTag, contentSize_payload]
  simp only [bind, Except.bind, List.length_append]
  rw [if_neg (by push_cast; omega)]

/-- A well-formed field is read as what it is, if an unknown one is skipped by
its size. -/
theorem readField_field (f : Field V) {kind : ℕ → Kind} {skipped : ℤ → Decoding Bytes}
    (h : At data offset (f.bytes ++ rest)) (ht : f.payload.Typed (kind f.number))
    (hskip : kind f.number = .unknown → ∃ b, skipped (offset + f.raw.length) = .ok b ∧
      skipTag V b f.payload.wireType = .ok f.payload.bytes.length) :
    readField V kind skipped data offset =
      .ok ⟨f.number, f.payload.content (kind f.number), offset + f.bytes.length⟩ := by
  have hat : At data (offset + f.raw.length) (f.payload.bytes ++ rest) := by
    rw [Field.bytes, List.append_assoc] at h
    exact h.advance
  have hlen : (offset + f.bytes.length : ℤ) =
      offset + f.raw.length + f.payload.bytes.length := by
    rw [Field.bytes, List.length_append]
    push_cast
    ring
  rw [readField, readTag_field f h, hlen]
  simp only [bind, Except.bind]
  generalize f.payload = p at ht hskip hat
  cases hk : kind f.number with
  | unknown =>
      obtain ⟨b, hb, hn⟩ := hskip hk
      simp only [hb, hn]
      cases p <;> rfl
  | sized =>
      rw [hk] at ht
      cases p with
      | sized raw b valid fits =>
          simp only [Payload.bytes, Payload.wireType, expectWT, ne_eq, not_true_eq_false,
            if_false, Payload.content] at hat ⊢
          rw [readSized_payload valid fits hat]
      | varint _ _ _ => cases ht
      | fixed32 _ _ => cases ht
      | fixed64 _ _ => cases ht
  | varint =>
      rw [hk] at ht
      cases p with
      | varint raw v valid =>
          simp only [Payload.bytes, Payload.wireType, expectWT, ne_eq, not_true_eq_false,
            if_false, Payload.content] at hat ⊢
          rw [readVarint_payload valid hat]
      | sized _ _ _ _ => cases ht
      | fixed32 _ _ => cases ht
      | fixed64 _ _ => cases ht
  | fixed64 =>
      rw [hk] at ht
      cases p with
      | fixed64 b valid =>
          simp only [Payload.bytes, Payload.wireType, expectWT, ne_eq, not_true_eq_false,
            if_false, Payload.content, valid] at hat ⊢
          rw [readFixed64_payload valid hat]
          rfl
      | sized _ _ _ _ => cases ht
      | fixed32 _ _ => cases ht
      | varint _ _ _ => cases ht

/-- A decoder that skips from behind the tag reads every well-typed field. -/
theorem readField_field_here (f : Field V) {kind : ℕ → Kind}
    (h : At data offset (f.bytes ++ rest)) (ht : f.payload.Typed (kind f.number)) :
    readField V kind (sliceFrom data) data offset =
      .ok ⟨f.number, f.payload.content (kind f.number), offset + f.bytes.length⟩ := by
  refine readField_field f h ht fun _ => ?_
  rw [Field.bytes, List.append_assoc] at h
  exact ⟨_, sliceFrom_at h.advance, skipTag_payload _ _⟩

end LightningStream.Snapshot
