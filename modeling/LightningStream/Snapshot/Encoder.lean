import LightningStream.Snapshot.Field

/-!
# Writing fields

The encoders of the snapshot package write into a buffer they have allocated
beforehand. A field with a zero value is left out. What a sequence of writes
leaves in the buffer is the encoding of a list of items, provided the buffer
has room for it; a write outside the buffer is a panic, while the built-in
`copy` stops silently at its end.
-/

namespace LightningStream.Snapshot

/-! ## Items -/

inductive Value
  | varint (v : UInt64)
  | fixed64 (x : UInt64)
  | sized (b : Bytes)
deriving DecidableEq

def Value.wireType : Value → WireType
  | .varint _ => .varint
  | .fixed64 _ => .fixed64
  | .sized _ => .lengthDelimited

/-- A field as it is written. -/
structure Item where
  tag : ℕ
  value : Value
deriving DecidableEq

variable (V : Varint)

/-- `csproto.EncodeTag`. -/
def encodeTag (tag : ℕ) (wireType : WireType) : Bytes :=
  V.encode (UInt64.ofNat (8 * tag + wireType.bits))

def Value.bytes : Value → Bytes
  | .varint v => V.encode v
  | .fixed64 x => leBytes 8 x.toNat
  | .sized b => V.encode (UInt64.ofNat b.length) ++ b

def Item.bytes (i : Item) : Bytes := encodeTag V i.tag i.value.wireType ++ i.value.bytes V

def encodeItems (is : List Item) : Bytes := is.flatMap (Item.bytes V)

@[simp] theorem encodeItems_nil : encodeItems V [] = [] := rfl

@[simp] theorem encodeItems_cons (i : Item) (is : List Item) :
    encodeItems V (i :: is) = i.bytes V ++ encodeItems V is := rfl

@[simp] theorem encodeItems_append (is js : List Item) :
    encodeItems V (is ++ js) = encodeItems V is ++ encodeItems V js := List.flatMap_append

/-- A field that is written only if it has a value. -/
def sizedItem (tag : ℕ) (b : Bytes) : List Item :=
  if b.length > 0 then [⟨tag, .sized b⟩] else []

def varintItem (tag : ℕ) (v : UInt64) : List Item :=
  if v > 0 then [⟨tag, .varint v⟩] else []

def fixed64Item (tag : ℕ) (x : UInt64) : List Item :=
  if x > 0 then [⟨tag, .fixed64 x⟩] else []

/-! ## Writes -/

inductive Panic
  /-- "not allowed after fields have been flushed". -/
  | flushed
  /-- An index or slice bound is out of range. -/
  | outOfRange
deriving DecidableEq

def put (xs : Bytes) (b : Buf) : Except Panic Buf :=
  match b.put xs with
  | some b => .ok b
  | none => .error .outOfRange

/-- The three writes of a length-delimited field. -/
def putSized (tag : ℕ) (s : Bytes) (b : Buf) : Except Panic Buf :=
  if s.length > 0 then do
    let b ← put (encodeTag V tag .lengthDelimited) b
    let b ← put (V.encode (UInt64.ofNat s.length)) b
    .ok (b.copyAt s)
  else .ok b

def putVarint (tag : ℕ) (v : UInt64) (b : Buf) : Except Panic Buf :=
  if v > 0 then do
    let b ← put (encodeTag V tag .varint) b
    put (V.encode v) b
  else .ok b

def putFixed64 (tag : ℕ) (x : UInt64) (b : Buf) : Except Panic Buf :=
  if x > 0 then do
    let b ← put (encodeTag V tag .fixed64) b
    put (leBytes 8 x.toNat) b
  else .ok b

variable {V}

/-- Given room, the write succeeds and adds exactly these bytes. -/
def Writes (f : Buf → Except Panic Buf) (ys : Bytes) : Prop :=
  ∀ (b : Buf) (start xs : Bytes) (room : ℕ), b.Wrote start xs room → ys.length ≤ room →
    ∃ b', f b = .ok b' ∧ b'.Wrote start (xs ++ ys) (room - ys.length)

theorem writes_nothing : Writes .ok [] := fun b _ xs _ hb _ =>
  ⟨b, rfl, by rw [List.append_nil]; exact hb⟩

theorem Writes.andThen {f g : Buf → Except Panic Buf} {ys zs : Bytes} (hf : Writes f ys)
    (hg : Writes g zs) : Writes (fun b => f b >>= g) (ys ++ zs) := by
  intro b start xs room hb hroom
  rw [List.length_append] at hroom
  obtain ⟨b₁, h₁, hb₁⟩ := hf b start xs room hb (by omega)
  obtain ⟨b₂, h₂, hb₂⟩ := hg b₁ start _ _ hb₁ (by omega)
  refine ⟨b₂, ?_, ?_⟩
  · simp only [h₁, bind, Except.bind, h₂]
  · rw [← List.append_assoc, List.length_append, ← Nat.sub_sub]
    exact hb₂

theorem writes_put (ys : Bytes) : Writes (put ys) ys := by
  intro b start xs room hb hroom
  obtain ⟨b', hput, hb'⟩ := hb.put hroom
  exact ⟨b', by rw [put, hput], hb'⟩

theorem writes_copyAt (ys : Bytes) : Writes (fun b => .ok (b.copyAt ys)) ys :=
  fun _ _ _ _ hb hroom => ⟨_, rfl, hb.copyAt hroom⟩

theorem writes_putSized (V : Varint) (tag : ℕ) (s : Bytes) :
    Writes (putSized V tag s) (encodeItems V (sizedItem tag s)) := by
  unfold putSized sizedItem
  split
  · have h := (writes_put (encodeTag V tag .lengthDelimited)).andThen
      ((writes_put (V.encode (UInt64.ofNat s.length))).andThen (writes_copyAt s))
    simpa [Item.bytes, Value.bytes, Value.wireType] using h
  · exact writes_nothing

theorem writes_putVarint (V : Varint) (tag : ℕ) (v : UInt64) :
    Writes (putVarint V tag v) (encodeItems V (varintItem tag v)) := by
  unfold putVarint varintItem
  split
  · have h := (writes_put (encodeTag V tag .varint)).andThen (writes_put (V.encode v))
    simpa [Item.bytes, Value.bytes, Value.wireType] using h
  · exact writes_nothing

theorem writes_putFixed64 (V : Varint) (tag : ℕ) (x : UInt64) :
    Writes (putFixed64 V tag x) (encodeItems V (fixed64Item tag x)) := by
  unfold putFixed64 fixed64Item
  split
  · have h := (writes_put (encodeTag V tag .fixed64)).andThen (writes_put (leBytes 8 x.toNat))
    simpa [Item.bytes, Value.bytes, Value.wireType] using h
  · exact writes_nothing

/-- The bytes written to a fresh buffer that is large enough. -/
theorem Writes.written {f : Buf → Except Panic Buf} {ys : Bytes} {n : ℕ} (h : Writes f ys)
    (hroom : ys.length ≤ n) :
    ∃ b, f ⟨List.replicate n 0, 0⟩ = .ok b ∧ b.written = ys := by
  obtain ⟨b, hf, hb⟩ := h _ _ _ _ (Buf.wrote_fresh [] n) hroom
  exact ⟨b, hf, hb.written_eq⟩

/-- Bytes written behind the end of a slice that was extended by their size. -/
theorem Writes.extended {f : Buf → Except Panic Buf} {ys : Bytes} (h : Writes f ys)
    (start : Bytes) :
    ∃ b, f ⟨start ++ List.replicate ys.length 0, start.length⟩ = .ok b ∧ b.data = start ++ ys := by
  obtain ⟨b, hf, hb⟩ := h _ _ _ _ (Buf.wrote_fresh start ys.length) le_rfl
  rw [Nat.sub_self, List.nil_append] at hb
  exact ⟨b, hf, hb.data_eq⟩

/-! ## Sizes -/

section Sizes

variable [V.Lawful]

theorem encodeTag_length_small {tag : ℕ} (h : tag < 16) (v : Value) :
    (encodeTag V tag v.wireType).length = 1 := by
  have hbits : v.wireType.bits < 8 := by cases v <;> simp [Value.wireType, WireType.bits]
  apply Varint.Lawful.encode_small
  rw [UInt64.lt_iff_toNat_lt, toNat_ofNat_of_lt (by omega)]
  show 8 * tag + v.wireType.bits < 128
  omega

theorem length_sizedItem {tag : ℕ} (h : tag < 16) (b : Bytes) :
    (encodeItems V (sizedItem tag b)).length =
      if b.length > 0 then 1 + (V.encode (UInt64.ofNat b.length)).length + b.length else 0 := by
  unfold sizedItem
  split
  · simp only [encodeItems_cons, encodeItems_nil, List.append_nil, Item.bytes, Value.bytes,
      List.length_append, encodeTag_length_small h]
    omega
  · rfl

theorem length_varintItem {tag : ℕ} (h : tag < 16) (v : UInt64) :
    (encodeItems V (varintItem tag v)).length =
      if v > 0 then 1 + (V.encode v).length else 0 := by
  unfold varintItem
  split
  · simp only [encodeItems_cons, encodeItems_nil, List.append_nil, Item.bytes, Value.bytes,
      List.length_append, encodeTag_length_small h]
  · rfl

theorem length_fixed64Item {tag : ℕ} (h : tag < 16) (x : UInt64) :
    (encodeItems V (fixed64Item tag x)).length = if x > 0 then 9 else 0 := by
  unfold fixed64Item
  split
  · simp only [encodeItems_cons, encodeItems_nil, List.append_nil, Item.bytes, Value.bytes,
      List.length_append, encodeTag_length_small h, leBytes_length]
  · rfl

theorem length_sizedItem_le {tag : ℕ} (h : tag < 16) (b : Bytes) :
    (encodeItems V (sizedItem tag b)).length ≤ b.length + 11 := by
  have := (Varint.Lawful.encode_length (V := V) (UInt64.ofNat b.length)).2
  rw [length_sizedItem h]
  split <;> omega

theorem length_varintItem_le {tag : ℕ} (h : tag < 16) (v : UInt64) :
    (encodeItems V (varintItem tag v)).length ≤ 11 := by
  have := (Varint.Lawful.encode_length (V := V) v).2
  rw [length_varintItem h]
  split <;> omega

theorem length_fixed64Item_le {tag : ℕ} (h : tag < 16) (x : UInt64) :
    (encodeItems V (fixed64Item tag x)).length ≤ 9 := by
  rw [length_fixed64Item h]
  split <;> omega

end Sizes

end LightningStream.Snapshot
