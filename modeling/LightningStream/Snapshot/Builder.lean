import LightningStream.Snapshot.Decoder
import LightningStream.Snapshot.Encoder

/-!
# Building a DBI message

A `DBI` is built by setting its top-level fields and appending entries. The
fields are not written at once but with the next entry, or when the message is
marshalled, and cannot be set any more after that. `Append` computes the size
of its entry beforehand, makes room for it, and writes it behind the data.

`Built` says what the data consists of at any point, and every operation keeps
it. No operation leaves the bounds of a buffer.
-/

namespace LightningStream.Snapshot

def mb : ℕ := 1024 * 1024

/-- The capacity that the built-in `append` gives a slice that has to grow. -/
structure Growth where
  grow : ℕ → ℕ → ℕ
  le_grow : ∀ cap need, need ≤ grow cap need

namespace DBI

def newDBISize (size : ℕ) : DBI := ⟨[], 0, [], [], size, false, false⟩

def newDBI : DBI := newDBISize 0

/-! ## Top-level fields -/

def setName (s : Bytes) (d : DBI) : Except Panic DBI :=
  if d.flushed then .error .flushed else .ok { d with name := s, dirty := true }

def setFlags (v : UInt64) (d : DBI) : Except Panic DBI :=
  if d.flushed then .error .flushed else .ok { d with flags := v, dirty := true }

def setTransform (s : Bytes) (d : DBI) : Except Panic DBI :=
  if d.flushed then .error .flushed else .ok { d with transform := s, dirty := true }

variable (V : Varint) (G : Growth)

/-- The built-in `append` on the data. -/
def appendData (xs : Bytes) (d : DBI) : DBI :=
  { d with
    data := d.data ++ xs
    cap := if d.data.length + xs.length ≤ d.cap then d.cap
      else G.grow d.cap (d.data.length + xs.length) }

def doFlushFields (d : DBI) : Except Panic DBI := do
  let b ← putSized V fieldDBIName d.name ⟨List.replicate 1000 0, 0⟩
  let b ← putVarint V fieldDBIFlags d.flags b
  let b ← putSized V fieldDBITransform d.transform b
  .ok (d.appendData G b.written)

def flushFields (d : DBI) : Except Panic DBI :=
  let d := { d with flushed := true }
  if !d.dirty then .ok d else doFlushFields V G { d with dirty := false }

/-- `Marshal`: the flushed `DBI`, whose data is the message. -/
def marshal (d : DBI) : Except Panic DBI := flushFields V G d

/-! ## Append -/

def tagSize0To15 : ℕ := 1

/-- The size of the `KV` message. -/
def msgSize (kv : Kv) : ℕ :=
  (if kv.key.length > 0 then
    tagSize0To15 + V.size (UInt64.ofNat kv.key.length) + kv.key.length else 0) +
  (if kv.value.length > 0 then
    tagSize0To15 + V.size (UInt64.ofNat kv.value.length) + kv.value.length else 0) +
  (if kv.flags > 0 then tagSize0To15 + V.size kv.flags.toUInt64 else 0) +
  (if kv.timestampNano > 0 then tagSize0To15 + 8 else 0)

/-- The capacity of a data buffer that has to grow. -/
def growSize (oldSize : ℕ) : ℕ :=
  let newSize := 2 * oldSize
  let newSize := if oldSize < 5 * mb then 10 * mb else newSize
  if oldSize > 1024 * mb then oldSize + 512 * mb else newSize

def makeRoom (outerSize : ℕ) (d : DBI) : DBI :=
  if d.cap - d.data.length < outerSize then { d with cap := growSize d.cap + outerSize } else d

/-- The part of `Append` that writes a non-empty entry. -/
def writeEntry (kv : Kv) (d : DBI) : Except Panic DBI :=
  let outerSize := tagSize0To15 + V.size (UInt64.ofNat (msgSize V kv)) + msgSize V kv
  let d := d.makeRoom outerSize
  -- the slice expression `d.data[:len(d.data)+outerSize]`
  if d.data.length + outerSize ≤ d.cap then do
    let b ← put (encodeTag V fieldDBIEntries .lengthDelimited)
      ⟨d.data ++ List.replicate outerSize 0, d.data.length⟩
    let b ← put (V.encode (UInt64.ofNat (msgSize V kv))) b
    let b ← putSized V fieldKVKey kv.key b
    let b ← putSized V fieldKVValue kv.value b
    let b ← putVarint V fieldKVFlags kv.flags.toUInt64 b
    let b ← putFixed64 V fieldKVTimestampNano kv.timestampNano b
    .ok { d with data := b.data }
  else .error .outOfRange

def flushIfDirty (d : DBI) : Except Panic DBI :=
  if d.dirty then flushFields V G d else .ok d

def append (kv : Kv) (d : DBI) : Except Panic DBI := do
  let d ← flushIfDirty V G d
  if msgSize V kv = 0 then .ok d else writeEntry V kv d

end DBI

/-! ## Scripts -/

inductive Op
  | setName (s : Bytes)
  | setFlags (v : UInt64)
  | setTransform (s : Bytes)
  | append (kv : Kv)
deriving DecidableEq

def Op.run (V : Varint) (G : Growth) (d : DBI) : Op → Except Panic DBI
  | .setName s => d.setName s
  | .setFlags v => d.setFlags v
  | .setTransform s => d.setTransform s
  | .append kv => d.append V G kv

def build (V : Varint) (G : Growth) (size : ℕ) (ops : List Op) : Except Panic DBI :=
  ops.foldlM (Op.run V G) (DBI.newDBISize size)

/-- The lengths that the flush buffer is meant for. -/
def Op.Fits : Op → Prop
  | .setName s => s.length ≤ 511
  | .setTransform s => s.length ≤ 50
  | _ => True

/-- The top-level fields. -/
@[ext] structure Head where
  name : Bytes
  flags : UInt64
  transform : Bytes
deriving DecidableEq

def DBI.head (d : DBI) : Head := ⟨d.name, d.flags, d.transform⟩

def Op.setHead (h : Head) : Op → Head
  | .setName s => { h with name := s }
  | .setFlags v => { h with flags := v }
  | .setTransform s => { h with transform := s }
  | .append _ => h

def Op.appended : Op → Option Kv
  | .append kv => some kv
  | _ => none

/-! ## What is written -/

variable {V : Varint} {G : Growth}

def kvItems (kv : Kv) : List Item :=
  sizedItem fieldKVKey kv.key ++ sizedItem fieldKVValue kv.value ++
    varintItem fieldKVFlags kv.flags.toUInt64 ++
    fixed64Item fieldKVTimestampNano kv.timestampNano

/-- The entry of a `KV`; there is none if all its fields are empty. -/
def entryItems (V : Varint) (kv : Kv) : List Item :=
  sizedItem fieldDBIEntries (encodeItems V (kvItems kv))

def headItems (d : DBI) : List Item :=
  sizedItem fieldDBIName d.name ++ varintItem fieldDBIFlags d.flags ++
    sizedItem fieldDBITransform d.transform

def dbiItems (V : Varint) (before : List Kv) (head : List Item) (after : List Kv) : List Item :=
  before.flatMap (entryItems V) ++ head ++ after.flatMap (entryItems V)

variable [V.Lawful]

theorem msgSize_eq (kv : Kv) : DBI.msgSize V kv = (encodeItems V (kvItems kv)).length := by
  simp only [kvItems, encodeItems_append, List.length_append,
    length_sizedItem (V := V) (show fieldKVKey < 16 by decide),
    length_sizedItem (V := V) (show fieldKVValue < 16 by decide),
    length_varintItem (V := V) (show fieldKVFlags < 16 by decide),
    length_fixed64Item (V := V) (show fieldKVTimestampNano < 16 by decide),
    DBI.msgSize, DBI.tagSize0To15, Varint.Lawful.size_eq]
  rfl

omit [V.Lawful] in
theorem writes_kv (kv : Kv) : Writes (fun b => do
    let b ← putSized V fieldKVKey kv.key b
    let b ← putSized V fieldKVValue kv.value b
    let b ← putVarint V fieldKVFlags kv.flags.toUInt64 b
    putFixed64 V fieldKVTimestampNano kv.timestampNano b) (encodeItems V (kvItems kv)) := by
  have h := (writes_putSized V fieldKVKey kv.key).andThen
    ((writes_putSized V fieldKVValue kv.value).andThen
      ((writes_putVarint V fieldKVFlags kv.flags.toUInt64).andThen
        (writes_putFixed64 V fieldKVTimestampNano kv.timestampNano)))
  simpa only [kvItems, encodeItems_append, List.append_assoc] using h

omit [V.Lawful] in
theorem writes_head (d : DBI) : Writes (fun b => do
    let b ← putSized V fieldDBIName d.name b
    let b ← putVarint V fieldDBIFlags d.flags b
    putSized V fieldDBITransform d.transform b) (encodeItems V (headItems d)) := by
  have h := (writes_putSized V fieldDBIName d.name).andThen
    ((writes_putVarint V fieldDBIFlags d.flags).andThen
      (writes_putSized V fieldDBITransform d.transform))
  simpa only [headItems, encodeItems_append, List.append_assoc] using h

theorem le_growSize (n : ℕ) : n ≤ DBI.growSize n := by
  unfold DBI.growSize mb
  dsimp only
  split
  · omega
  · split <;> omega

/-- `Append` writes its entry behind the data, in a buffer that it has made large
enough. -/
theorem writeEntry_ok {d : DBI} {kv : Kv} (hcap : d.data.length ≤ d.cap)
    (hne : DBI.msgSize V kv ≠ 0) :
    ∃ cap, DBI.writeEntry V kv d =
        .ok { d with data := d.data ++ encodeItems V (entryItems V kv), cap := cap } ∧
      (d.data ++ encodeItems V (entryItems V kv)).length ≤ cap := by
  have hkv : (encodeItems V (kvItems kv)).length > 0 := by
    rw [← msgSize_eq]
    omega
  have hentry : encodeItems V (entryItems V kv) =
      encodeTag V fieldDBIEntries .lengthDelimited ++
        (V.encode (UInt64.ofNat (DBI.msgSize V kv)) ++ encodeItems V (kvItems kv)) := by
    rw [entryItems, sizedItem, if_pos hkv, msgSize_eq]
    simp [Item.bytes, Value.bytes, Value.wireType]
  have hsize : DBI.tagSize0To15 + V.size (UInt64.ofNat (DBI.msgSize V kv)) + DBI.msgSize V kv =
      (encodeItems V (entryItems V kv)).length := by
    rw [entryItems, length_sizedItem (by decide), if_pos hkv, Varint.Lawful.size_eq, msgSize_eq]
    rfl
  obtain ⟨b, hrun, hb⟩ := ((writes_put (encodeTag V fieldDBIEntries .lengthDelimited)).andThen
    ((writes_put (V.encode (UInt64.ofNat (DBI.msgSize V kv)))).andThen (writes_kv kv))).extended
      d.data
  rw [← hentry] at hrun hb
  obtain ⟨cap, hroom, hle⟩ : ∃ cap,
      d.makeRoom (encodeItems V (entryItems V kv)).length = { d with cap := cap } ∧
        d.data.length + (encodeItems V (entryItems V kv)).length ≤ cap := by
    have hgrow := le_growSize d.cap
    unfold DBI.makeRoom
    split
    · exact ⟨_, rfl, by omega⟩
    · exact ⟨d.cap, rfl, by omega⟩
  refine ⟨cap, ?_, by rw [List.length_append]; exact hle⟩
  simp only [DBI.writeEntry, hsize, hroom, if_pos hle]
  rw [← hb]
  obtain ⟨b₁, h₁, hrun⟩ := bind_eq_ok.mp hrun
  obtain ⟨b₂, h₂, hrun⟩ := bind_eq_ok.mp hrun
  obtain ⟨b₃, h₃, hrun⟩ := bind_eq_ok.mp hrun
  obtain ⟨b₄, h₄, hrun⟩ := bind_eq_ok.mp hrun
  obtain ⟨b₅, h₅, hrun⟩ := bind_eq_ok.mp hrun
  simp only [bind, Except.bind, h₁, h₂, h₃, h₄, h₅, hrun]

/-- The flush buffer of 1000 bytes is large enough. -/
theorem doFlushFields_ok {d : DBI} (hname : d.name.length ≤ 511)
    (htransform : d.transform.length ≤ 50) :
    DBI.doFlushFields V G d = .ok (d.appendData G (encodeItems V (headItems d))) := by
  have h1 := length_sizedItem_le (V := V) (show fieldDBIName < 16 by decide) d.name
  have h2 := length_varintItem_le (V := V) (show fieldDBIFlags < 16 by decide) d.flags
  have h3 := length_sizedItem_le (V := V) (show fieldDBITransform < 16 by decide) d.transform
  obtain ⟨b, hrun, hb⟩ := (writes_head (V := V) d).written (n := 1000) (by
    simp only [headItems, encodeItems_append, List.length_append]
    omega)
  obtain ⟨b₁, h₁, hrun⟩ := bind_eq_ok.mp hrun
  obtain ⟨b₂, h₂, hrun⟩ := bind_eq_ok.mp hrun
  simp only [DBI.doFlushFields, bind, Except.bind, h₁, h₂, hrun, hb]

omit [V.Lawful] in
theorem appendData_length_le {d : DBI} {xs : Bytes} :
    (d.appendData G xs).data.length ≤ (d.appendData G xs).cap := by
  simp only [DBI.appendData, List.length_append]
  split
  · assumption
  · exact G.le_grow _ _

/-! ## The invariant -/

/-- The state of a `DBI` to which the entries `kvs` have been appended. -/
structure Built (V : Varint) (d : DBI) (kvs : List Kv) : Prop where
  /-- The top-level fields are in the data unless they are still to be flushed. -/
  data_eq : ∃ before after, kvs = before ++ after ∧
    d.data = encodeItems V (dbiItems V before (if d.dirty then [] else headItems d) after)
  unset : d.flushed = false → d.dirty = false → headItems d = []
  unflushed : d.dirty = true → d.flushed = false
  length_le : d.data.length ≤ d.cap
  name_le : d.name.length ≤ 511
  transform_le : d.transform.length ≤ 50

omit [V.Lawful] in
theorem built_new (size : ℕ) : Built V (DBI.newDBISize size) [] where
  data_eq := ⟨[], [], rfl, rfl⟩
  unset := fun _ _ => rfl
  unflushed := nofun
  length_le := Nat.zero_le _
  name_le := Nat.zero_le _
  transform_le := Nat.zero_le _

namespace Built

variable {d : DBI} {kvs : List Kv}

omit [V.Lawful] in
/-- As long as nothing is flushed the data holds entries only. -/
theorem entries_only (h : Built V d kvs) (hf : d.flushed = false) :
    d.data = encodeItems V (kvs.flatMap (entryItems V)) := by
  obtain ⟨before, after, rfl, hdata⟩ := h.data_eq
  have hhead : (if d.dirty then [] else headItems d) = [] := by
    split
    · rfl
    · rename_i hd
      exact h.unset hf (by simpa using hd)
  rw [hdata, hhead, dbiItems, List.append_nil, List.flatMap_append]

omit [V.Lawful] in
/-- Setting a top-level field. -/
theorem set (h : Built V d kvs) (hf : d.flushed = false) {name transform : Bytes}
    (flags : UInt64) (hname : name.length ≤ 511) (htransform : transform.length ≤ 50) :
    Built V { d with name := name, flags := flags, transform := transform, dirty := true } kvs where
  data_eq := ⟨kvs, [], by simp, by simp [h.entries_only hf, dbiItems]⟩
  unset := fun _ hd => by cases hd
  unflushed := fun _ => hf
  length_le := h.length_le
  name_le := hname
  transform_le := htransform

/-- A flush writes the top-level fields if that is still to be done. -/
theorem flush (h : Built V d kvs) :
    ∃ d', DBI.flushFields V G d = .ok d' ∧ Built V d' kvs ∧ d'.dirty = false ∧
      d'.head = d.head := by
  unfold DBI.flushFields
  by_cases hd : d.dirty = true
  · have hdata := h.entries_only (h.unflushed hd)
    simp only [hd, Bool.not_true, Bool.false_eq_true, if_false]
    refine ⟨_, doFlushFields_ok h.name_le h.transform_le, ?_, rfl, rfl⟩
    refine ⟨⟨kvs, [], by simp, ?_⟩, nofun, nofun, appendData_length_le, h.name_le,
      h.transform_le⟩
    show d.data ++ encodeItems V (headItems _) = _
    rw [hdata]
    simp [dbiItems, DBI.appendData, headItems]
  · have hd' : d.dirty = false := by simpa using hd
    simp only [hd', Bool.not_false, if_true]
    refine ⟨_, rfl, ⟨?_, nofun, ?_, h.length_le, h.name_le, h.transform_le⟩, rfl, rfl⟩
    · obtain ⟨before, after, hkvs, hdata⟩ := h.data_eq
      refine ⟨before, after, hkvs, ?_⟩
      rw [hd'] at hdata
      exact hdata
    · exact nofun

/-- An entry goes behind the data. -/
theorem append (h : Built V d kvs) (kv : Kv) :
    ∃ d', DBI.append V G kv d = .ok d' ∧ Built V d' (kvs ++ [kv]) ∧ d'.head = d.head := by
  obtain ⟨d₁, h₁, hbuilt, hhead⟩ : ∃ d₁, DBI.flushIfDirty V G d = .ok d₁ ∧ Built V d₁ kvs ∧
      d₁.head = d.head := by
    unfold DBI.flushIfDirty
    split
    · obtain ⟨d₁, h₁, hb, -, hhead⟩ := h.flush (G := G)
      exact ⟨d₁, h₁, hb, hhead⟩
    · exact ⟨d, rfl, h, rfl⟩
  obtain ⟨before, after, hkvs, hdata⟩ := hbuilt.data_eq
  have hentries : kvs ++ [kv] = before ++ (after ++ [kv]) := by rw [hkvs, List.append_assoc]
  have hdata' : d₁.data ++ encodeItems V (entryItems V kv) = encodeItems V
      (dbiItems V before (if d₁.dirty then [] else headItems d₁) (after ++ [kv])) := by
    rw [hdata]
    simp [dbiItems, List.append_assoc]
  simp only [DBI.append, bind, Except.bind, h₁]
  split
  · rename_i hzero
    have hnone : encodeItems V (entryItems V kv) = [] := by
      rw [entryItems, sizedItem, if_neg (by rw [← msgSize_eq, hzero]; decide)]
      rfl
    rw [hnone, List.append_nil] at hdata'
    exact ⟨d₁, rfl, ⟨⟨before, after ++ [kv], hentries, hdata'⟩, hbuilt.unset, hbuilt.unflushed,
      hbuilt.length_le, hbuilt.name_le, hbuilt.transform_le⟩, hhead⟩
  · rename_i hne
    obtain ⟨cap, hw, hcap⟩ := writeEntry_ok hbuilt.length_le hne
    exact ⟨_, hw, ⟨⟨before, after ++ [kv], hentries, hdata'⟩, hbuilt.unset, hbuilt.unflushed,
      hcap, hbuilt.name_le, hbuilt.transform_le⟩, hhead⟩

/-- Every operation keeps the invariant, or is refused because the fields have
been flushed. -/
theorem step (h : Built V d kvs) {op : Op} (hop : op.Fits) :
    (∃ d', op.run V G d = .ok d' ∧ Built V d' (kvs ++ op.appended.toList) ∧
      d'.head = op.setHead d.head) ∨ op.run V G d = .error .flushed := by
  cases hf : d.flushed with
  | true =>
      cases op with
      | append kv => exact Or.inl (h.append kv)
      | setName s => exact Or.inr (if_pos hf)
      | setFlags v => exact Or.inr (if_pos hf)
      | setTransform s => exact Or.inr (if_pos hf)
  | false =>
      have hno : ¬ d.flushed = true := by simp [hf]
      left
      cases op with
      | append kv => exact h.append kv
      | setName s =>
          refine ⟨_, if_neg hno, ?_, rfl⟩
          simpa [Op.appended] using h.set hf d.flags hop h.transform_le
      | setFlags v =>
          refine ⟨_, if_neg hno, ?_, rfl⟩
          simpa [Op.appended] using h.set hf v h.name_le h.transform_le
      | setTransform s =>
          refine ⟨_, if_neg hno, ?_, rfl⟩
          simpa [Op.appended] using h.set hf d.flags h.name_le hop

end Built

/-- **A script leaves a `DBI` with all its entries and the fields it set last**,
unless it sets a field too late. -/
theorem build_cases (size : ℕ) {ops : List Op} (hops : ∀ op ∈ ops, op.Fits) :
    (∃ d, build V G size ops = .ok d ∧ Built V d (ops.filterMap Op.appended) ∧
      d.head = ops.foldl Op.setHead ⟨[], 0, []⟩) ∨ build V G size ops = .error .flushed := by
  suffices hrun : ∀ {d : DBI} {kvs : List Kv}, Built V d kvs →
      (∃ d', ops.foldlM (Op.run V G) d = .ok d' ∧
        Built V d' (kvs ++ ops.filterMap Op.appended) ∧
        d'.head = ops.foldl Op.setHead d.head) ∨
      ops.foldlM (Op.run V G) d = .error .flushed from hrun (built_new size)
  induction ops with
  | nil =>
      intro d kvs h
      exact Or.inl ⟨d, rfl, by simpa using h, rfl⟩
  | cons op ops ih =>
      intro d kvs h
      rw [List.foldlM_cons]
      rcases h.step (G := G) (hops op List.mem_cons_self) with ⟨d₁, h₁, hb, hhead⟩ | h₁
      · have happ : kvs ++ (op :: ops).filterMap Op.appended =
            kvs ++ op.appended.toList ++ ops.filterMap Op.appended := by
          rw [List.filterMap_cons, List.append_assoc]
          cases op.appended <;> rfl
        rw [h₁, happ, List.foldl_cons, ← hhead]
        exact ih (fun o ho => hops o (List.mem_cons_of_mem _ ho)) hb
      · rw [h₁]
        exact Or.inr rfl

/-- Appending never panics. -/
theorem appends_ok {d : DBI} {kvs : List Kv} (h : Built V d kvs) (more : List Kv) :
    ∃ d', (more.map Op.append).foldlM (Op.run V G) d = .ok d' := by
  induction more generalizing d kvs with
  | nil => exact ⟨d, rfl⟩
  | cons kv more ih =>
      obtain ⟨d₁, h₁, hb, -⟩ := h.append (G := G) kv
      obtain ⟨d', hd'⟩ := ih hb
      refine ⟨d', ?_⟩
      rw [List.map_cons, List.foldlM_cons]
      show (DBI.append V G kv d >>= _) = _
      rw [h₁]
      exact hd'

/-- A script that sets the fields before it appends does not panic. -/
theorem build_setters_first (size : ℕ) {setters : List Op} (kvs : List Kv)
    (hfit : ∀ op ∈ setters, op.Fits) (hset : ∀ op ∈ setters, op.appended = none) :
    ∃ d, build V G size (setters ++ kvs.map Op.append) = .ok d := by
  suffices hrun : ∀ {d : DBI} {ks : List Kv}, Built V d ks → d.flushed = false →
      ∃ d', (setters ++ kvs.map Op.append).foldlM (Op.run V G) d = .ok d' from
    hrun (built_new size) rfl
  induction setters with
  | nil => exact fun h _ => appends_ok h kvs
  | cons op setters ih =>
      intro d ks h hf
      have hno : ¬ d.flushed = true := by simp [hf]
      obtain ⟨d₁, h₁, hf₁⟩ : ∃ d₁, op.run V G d = .ok d₁ ∧ d₁.flushed = false := by
        have hop := hset op List.mem_cons_self
        cases op with
        | append kv => cases hop
        | setName s => exact ⟨_, if_neg hno, hf⟩
        | setFlags v => exact ⟨_, if_neg hno, hf⟩
        | setTransform s => exact ⟨_, if_neg hno, hf⟩
      have hb₁ : Built V d₁ (ks ++ op.appended.toList) := by
        rcases h.step (G := G) (hfit op List.mem_cons_self) with ⟨d₂, h₂, hb, -⟩ | h₂
        · obtain rfl : d₂ = d₁ := Except.ok.inj (h₂.symm.trans h₁)
          exact hb
        · cases h₂.symm.trans h₁
      obtain ⟨d', hd'⟩ := ih (fun o ho => hfit o (List.mem_cons_of_mem _ ho))
        (fun o ho => hset o (List.mem_cons_of_mem _ ho)) hb₁ hf₁
      refine ⟨d', ?_⟩
      rw [List.cons_append, List.foldlM_cons, h₁]
      exact hd'

end LightningStream.Snapshot
