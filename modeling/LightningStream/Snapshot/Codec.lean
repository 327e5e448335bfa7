import LightningStream.Snapshot.RoundTrip

/-!
# The snapshot codec

Scripts of `SetName`, `SetFlags`, `SetTransform` and `Append` calls build the
DBIs of a snapshot. The main theorem says that the snapshot reads back with
all that the scripts put into it, as long as it stays within the limits of the
decoders (`snapshot_round_trip`); one DBI of more than 100 GB is written but
cannot be read (`large_dbi_refused`).
-/

set_option linter.dupNamespace false

namespace LightningStream.Snapshot

/-! ## A decoder -/

namespace Plain

/-- Read a varint and go on with its value and the bytes behind it. -/
def withVarint {α : Type} (b : Bytes) (f : UInt64 → Bytes → Option α) : Option α :=
  (leb128.decode b).bind fun r => f r.1 (b.drop r.2)

theorem withVarint_encode {α : Type} (v : UInt64) (rest : Bytes)
    (f : UInt64 → Bytes → Option α) :
    withVarint (leb128.encode v ++ rest) f = f v rest := by
  rw [withVarint, Varint.decode_encode_append v rest, Option.bind_some, List.drop_left]

def decodeTag (b : Bytes) : Option (ℕ × WireType × Bytes) :=
  withVarint b fun v rest =>
    if 1 ≤ v.toNat / 8 ∧ v.toNat / 8 < 2 ^ 29 then
      some (v.toNat / 8, .ofBits (v.toNat % 8), rest)
    else none

def decodeUInt32 (b : Bytes) : Option (UInt32 × Bytes) :=
  withVarint b fun v rest => if v.toNat < 2 ^ 32 then some (v.toUInt32, rest) else none

def decodeInt64 (b : Bytes) : Option (Int64 × Bytes) :=
  withVarint b fun v rest => some (v.toInt64, rest)

def decodeFixed64 (b : Bytes) : Option (UInt64 × Bytes) :=
  if 8 ≤ b.length then some (UInt64.ofNat (leNat (b.take 8)), b.drop 8) else none

def decodeBytes (limit : ℕ) (b : Bytes) : Option (Bytes × Bytes) :=
  withVarint b fun v rest =>
    if v.toNat ≤ limit ∧ v.toNat ≤ rest.length then
      some (rest.take v.toNat, rest.drop v.toNat)
    else none

def skip (wireType : WireType) (b : Bytes) : Option Bytes :=
  match wireType with
  | .varint => withVarint b fun _ rest => some rest
  | .fixed64 => if 8 ≤ b.length then some (b.drop 8) else none
  | .fixed32 => if 4 ≤ b.length then some (b.drop 4) else none
  | .lengthDelimited => (decodeBytes (2 ^ 31 - 1) b).map Prod.snd
  | .unsupported _ => none

theorem decodeTag_encode (tag : ℕ) (v : Value) (rest : Bytes) (hpos : 1 ≤ tag)
    (htag : tag < 16) :
    decodeTag (encodeTag leb128 tag v.wireType ++ rest) = some (tag, v.wireType, rest) := by
  have hbits : v.wireType.bits < 8 := by cases v <;> simp [Value.wireType, WireType.bits]
  have hof : WireType.ofBits v.wireType.bits = v.wireType := by cases v <;> rfl
  have hnum : (8 * tag + v.wireType.bits) / 8 = tag := by omega
  have hwt : (8 * tag + v.wireType.bits) % 8 = v.wireType.bits := by omega
  rw [decodeTag, encodeTag, withVarint_encode, toNat_ofNat_of_lt (by omega), hnum, hwt, hof,
    if_pos ⟨hpos, by omega⟩]

theorem decodeUInt32_encode (v : UInt32) (rest : Bytes) :
    decodeUInt32 (leb128.encode v.toUInt64 ++ rest) = some (v, rest) := by
  rw [decodeUInt32, withVarint_encode, UInt32.toNat_toUInt64, if_pos v.toNat_lt,
    UInt32.toUInt32_toUInt64]

theorem decodeInt64_encode (v : Int64) (rest : Bytes) :
    decodeInt64 (leb128.encode v.toUInt64 ++ rest) = some (v, rest) := by
  rw [decodeInt64, withVarint_encode, Int64.toInt64_toUInt64]

theorem decodeFixed64_encode (x : UInt64) (rest : Bytes) :
    decodeFixed64 (leBytes 8 x.toNat ++ rest) = some (x, rest) := by
  have hlen : (leBytes 8 x.toNat).length = 8 := leBytes_length 8 _
  rw [decodeFixed64, if_pos (by rw [List.length_append, hlen]; omega), List.take_left' hlen,
    List.drop_left' hlen, leNat_leBytes_toNat]

theorem decodeBytes_encode (limit : ℕ) (b rest : Bytes) (hlimit : b.length ≤ limit)
    (hfit : b.length < 2 ^ 63) :
    decodeBytes limit (leb128.encode (UInt64.ofNat b.length) ++ b ++ rest) = some (b, rest) := by
  rw [List.append_assoc, decodeBytes, withVarint_encode, toNat_ofNat_of_lt (by omega),
    if_pos ⟨hlimit, by simp⟩, List.take_left, List.drop_left]

theorem decodeBytes_limit (limit : ℕ) (v : UInt64) (rest : Bytes) (h : limit < v.toNat) :
    decodeBytes limit (leb128.encode v ++ rest) = none := by
  rw [decodeBytes, withVarint_encode, if_neg (by omega)]

end Plain

/-- A plain decoder on LEB128 varints. -/
def plainCsproto : Csproto where
  toVarint := leb128
  decodeTag := Plain.decodeTag
  decodeUInt32 := Plain.decodeUInt32
  decodeInt64 := Plain.decodeInt64
  decodeFixed64 := Plain.decodeFixed64
  decodeBytes := Plain.decodeBytes
  decodeString := Plain.decodeBytes
  skip := fun _ wireType b => Plain.skip wireType b
  defaultMaxFieldLength := 2 ^ 31 - 1

instance : plainCsproto.Lawful where
  toLawful := inferInstanceAs leb128.Lawful
  decodeTag_encode := Plain.decodeTag_encode
  decodeUInt32_encode := Plain.decodeUInt32_encode
  decodeInt64_encode := Plain.decodeInt64_encode
  decodeFixed64_encode := Plain.decodeFixed64_encode
  decodeBytes_encode := Plain.decodeBytes_encode
  decodeBytes_limit := Plain.decodeBytes_limit
  decodeString_eq := fun _ _ => rfl

/-! ## Scripts -/

def Op.Proper : Op → Prop
  | .setName s => 1 ≤ s.length ∧ s.length ≤ 511
  | .setFlags _ => True
  | .setTransform s => s.length ≤ 50
  | .append kv => kv ≠ .empty

theorem Op.Proper.fits : ∀ {op : Op}, op.Proper → op.Fits
  | .setName _, h => h.2
  | .setFlags _, _ => trivial
  | .setTransform _, h => h
  | .append _, _ => trivial

/-- The calls that build a DBI from `NewDBISize`. -/
structure Script where
  size : ℕ
  ops : List Op
  proper : ∀ op ∈ ops, op.Proper
  named : ∃ s, Op.setName s ∈ ops

namespace Script

def build (V : Varint) (G : Growth) (sc : Script) : Except Panic DBI :=
  Snapshot.build V G sc.size sc.ops

/-- The entries that the script appends. -/
def kvs (sc : Script) : List Kv := sc.ops.filterMap Op.appended

theorem kvs_ne_empty (sc : Script) : ∀ kv ∈ sc.kvs, kv ≠ .empty := by
  intro kv hkv
  obtain ⟨op, hop, happ⟩ := List.mem_filterMap.mp hkv
  have hproper := sc.proper op hop
  cases op with
  | append kv' =>
      obtain rfl := Option.some.inj happ
      exact hproper
  | setName s => cases happ
  | setFlags v => cases happ
  | setTransform s => cases happ

theorem foldl_setHead_name {ops : List Op} (hops : ∀ op ∈ ops, op.Proper) {h : Head}
    (hname : h.name ≠ [] ∨ ∃ s, Op.setName s ∈ ops) : (ops.foldl Op.setHead h).name ≠ [] := by
  induction ops generalizing h with
  | nil =>
      rcases hname with hname | ⟨s, hs⟩
      · exact hname
      · cases hs
  | cons op ops ih =>
      have hproper := hops op List.mem_cons_self
      refine ih (fun o ho => hops o (List.mem_cons_of_mem _ ho)) ?_
      cases op with
      | setName s => exact Or.inl (List.ne_nil_of_length_pos hproper.1)
      | append kv => simpa [Op.setHead] using hname
      | setFlags v => simpa [Op.setHead] using hname
      | setTransform s => simpa [Op.setHead] using hname

theorem build_ne_outOfRange (V : Varint) [V.Lawful] (G : Growth) (sc : Script) :
    sc.build V G ≠ .error .outOfRange := by
  rcases build_cases (V := V) (G := G) sc.size (fun op hop => (sc.proper op hop).fits) with
    ⟨d, hd, -⟩ | h
  · rw [build, hd]
    exact nofun
  · rw [build, h]
    exact nofun

end Script

/-- A DBI with the script that built it. -/
structure BuiltDBI (V : Varint) (G : Growth) where
  script : Script
  dbi : DBI
  built : script.build V G = .ok dbi

/-- What decoding the message of a built DBI has to give. -/
structure BuiltDBI.Decoded {V : Varint} {G : Growth} (b : BuiltDBI V G) (d : DBI) : Prop where
  name_eq : d.name = b.dbi.name
  flags_eq : d.flags = b.dbi.flags
  transform_eq : d.transform = b.dbi.transform
  entries_eq : readAll V d.data = .ok ⟨b.script.kvs, none⟩

/-- A built DBI has a message, and it decodes if its length fits an `int`. -/
theorem BuiltDBI.message {V : Varint} [V.Lawful] {G : Growth} (b : BuiltDBI V G) :
    ∃ d', b.dbi.marshal V G = .ok d' ∧ d'.data ≠ [] ∧ (d'.data.length + 10 < 2 ^ 63 →
      ∃ d, newDBIFromData V d'.data = .ok d ∧ b.Decoded d) := by
  obtain ⟨sc, d, hbuild⟩ := b
  obtain ⟨hd, hhead⟩ : Built V d sc.kvs ∧ d.head = sc.ops.foldl Op.setHead ⟨[], 0, []⟩ := by
    rcases build_cases (V := V) (G := G) sc.size (fun op hop => (sc.proper op hop).fits) with
      ⟨d₁, h₁, hb, hh⟩ | h
    · obtain rfl : d₁ = d := Except.ok.inj (h₁.symm.trans hbuild)
      exact ⟨hb, hh⟩
    · cases h.symm.trans hbuild
  obtain ⟨d', hflush, hb', hdirty, hhead'⟩ := hd.flush (G := G)
  obtain ⟨before, after, hkvs, hdata⟩ := hb'.data_eq
  rw [hdirty] at hdata
  simp only [Bool.false_eq_true, if_false] at hdata
  have hne : d'.name ≠ [] := by
    have hname : d'.name = (sc.ops.foldl Op.setHead ⟨[], 0, []⟩).name := by
      rw [← hhead, ← hhead']
      rfl
    rw [hname]
    exact Script.foldl_setHead_name sc.proper (Or.inr sc.named)
  refine ⟨d', hflush, ?_, fun hfit => ?_⟩
  · intro hnil
    have hlen := length_sizedItem_ge (V := V) (show fieldDBIName < 16 by decide) d'.name
    have hpos := List.length_pos_iff.mpr hne
    have htotal := congrArg List.length (hnil.symm.trans hdata)
    simp only [List.length_nil, dbiItems, headItems, encodeItems_append,
      List.length_append] at htotal
    omega
  · obtain ⟨hnew, hread⟩ := built_reads hdata hfit hb'.name_le hb'.transform_le
      (hkvs ▸ sc.kvs_ne_empty)
    refine ⟨_, hnew, congrArg Head.name hhead', congrArg Head.flags hhead',
      congrArg Head.transform hhead', ?_⟩
    rw [hkvs]
    exact hread

/-! ## The round trip -/

/-- The limits of the decoders: the default one for the strings of the meta
message, 100 GB for the messages in the snapshot. -/
structure Limits (C : Csproto) (G : Growth) (s : Snapshot) : Prop where
  strings : s.meta.Within C
  metaMessage : ∀ msg, s.meta.marshal C.toVarint = .ok msg → msg.length ≤ maxFieldLength
  dbiMessages : ∀ d ∈ s.databases, ∀ d', d.marshal C.toVarint G = .ok d' →
    d'.data.length ≤ maxFieldLength

variable {C : Csproto} [C.Lawful] {G : Growth}

/-- The messages of built DBIs. -/
theorem exists_messages (bs : List (BuiltDBI C.toVarint G)) :
    ∃ msgs, Messages C.toVarint G (bs.map BuiltDBI.dbi) msgs ∧
      ((∀ b ∈ bs, ∀ d', b.dbi.marshal C.toVarint G = .ok d' → d'.data.length ≤ maxFieldLength) →
        ∃ ds, List.Forall₂ (fun msg d => msg ≠ [] ∧ msg.length ≤ maxFieldLength ∧
          newDBIFromData C.toVarint msg = .ok d) msgs ds ∧
        List.Forall₂ BuiltDBI.Decoded bs ds) := by
  induction bs with
  | nil => exact ⟨[], .nil, fun _ => ⟨[], .nil, .nil⟩⟩
  | cons b bs ih =>
      obtain ⟨msgs, hmsgs, hds⟩ := ih
      obtain ⟨d', hm, hne, hdecode⟩ := b.message
      refine ⟨d'.data :: msgs, .cons ⟨d', hm, rfl⟩ hmsgs, fun hlimit => ?_⟩
      have hle := hlimit b List.mem_cons_self d' hm
      have hmax : maxFieldLength + 10 < 2 ^ 63 := by decide
      obtain ⟨d, hnew, hd⟩ := hdecode (by omega)
      obtain ⟨ds, hforall, hdecoded⟩ := hds fun b hb => hlimit b (List.mem_cons_of_mem _ hb)
      exact ⟨d :: ds, .cons ⟨hne, hle, hnew⟩ hforall, .cons hd hdecoded⟩

/-- **Snapshots round trip.** No buffer of a script or of `WriteTo` is too small.
What `WriteTo` writes decodes to the same versions and meta data and to the
DBIs in their order, each with its fields and its entries, within the limits
of the decoders. -/
theorem snapshot_round_trip (C : Csproto) [C.Lawful] (G : Growth)
    (formatVersion compatVersion : UInt32) (m : Meta) (bs : List (BuiltDBI C.toVarint G))
    (htxn : 0 ≤ m.lmdbTxnID) (hfrom : 0 ≤ m.fromLmdbTxnID) :
    (∀ sc : Script, sc.build C.toVarint G ≠ .error .outOfRange) ∧
    ∃ bytes, Snapshot.writeTo C.toVarint G
        ⟨formatVersion, compatVersion, m, bs.map BuiltDBI.dbi⟩ = .ok bytes ∧
      (Limits C G ⟨formatVersion, compatVersion, m, bs.map BuiltDBI.dbi⟩ →
        ∃ s, Snapshot.unmarshal C bytes = .ok s ∧ s.formatVersion = formatVersion ∧
          s.compatVersion = compatVersion ∧ s.meta = m ∧
          List.Forall₂ BuiltDBI.Decoded bs s.databases) := by
  obtain ⟨msgs, hmsgs, hds⟩ := exists_messages bs
  refine ⟨Script.build_ne_outOfRange C.toVarint G, _,
    writeTo_eq (s := ⟨formatVersion, compatVersion, m, bs.map BuiltDBI.dbi⟩) hmsgs, ?_⟩
  intro hlimits
  obtain ⟨ds, hforall, hdecoded⟩ := hds fun b hb =>
    hlimits.dbiMessages b.dbi (List.mem_map_of_mem hb)
  exact ⟨_, unmarshal_items hlimits.strings (hlimits.metaMessage _ (marshal_eq m)) htxn hfrom
    hforall, rfl, rfl, rfl, hdecoded⟩

/-- A runtime that grows a slice by what is needed. -/
def tightGrowth : Growth := ⟨fun _ need => need, fun _ _ => le_rfl⟩

/-- A DBI with a name and one entry. -/
def smallScript : Script where
  size := 0
  ops := [.setName [100], .append ⟨[1], [2], 3, 0⟩]
  proper := by simp [Op.Proper, Kv.empty]
  named := ⟨[100], by simp⟩

theorem smallScript_built : smallScript.build leb128 tightGrowth =
    .ok ⟨[100], 0, [], [10, 1, 100, 18, 15, 10, 1, 1, 18, 1, 2, 25, 3, 0, 0, 0, 0, 0, 0, 0],
      10485777, false, true⟩ := by
  decide +kernel

def smallDBI : BuiltDBI leb128 tightGrowth where
  script := smallScript
  dbi := ⟨[100], 0, [], [10, 1, 100, 18, 15, 10, 1, 1, 18, 1, 2, 25, 3, 0, 0, 0, 0, 0, 0, 0],
    10485777, false, true⟩
  built := smallScript_built

theorem snapshot_round_trip_small :
    ∃ bytes s, Snapshot.writeTo leb128 tightGrowth ⟨3, 1, .empty, [smallDBI.dbi]⟩ = .ok bytes ∧
      Snapshot.unmarshal plainCsproto bytes = .ok s ∧ s.formatVersion = 3 ∧
      List.Forall₂ BuiltDBI.Decoded [smallDBI] s.databases := by
  obtain ⟨-, bytes, hw, hread⟩ := snapshot_round_trip plainCsproto tightGrowth 3 1 .empty
    [smallDBI] (by decide) (by decide)
  have hlimits : Limits plainCsproto tightGrowth ⟨3, 1, .empty, [smallDBI.dbi]⟩ := by
    refine ⟨⟨by decide, by decide, by decide, by decide⟩, ?_, ?_⟩
    · intro msg hmsg
      have hnil : Meta.empty.marshal leb128 = .ok [] := marshal_eq Meta.empty
      obtain rfl : [] = msg := Except.ok.inj (hnil.symm.trans hmsg)
      decide
    · intro d hd d' hm
      rw [List.mem_singleton.mp hd] at hm
      have hself : smallDBI.dbi.marshal leb128 tightGrowth = .ok smallDBI.dbi := by decide +kernel
      obtain rfl : smallDBI.dbi = d' := Except.ok.inj (hself.symm.trans hm)
      decide
  obtain ⟨s, hs, hformat, -, -, hd⟩ := hread hlimits
  exact ⟨bytes, s, hw, hs, hformat, hd⟩

/-! ## Beyond the limit -/

/-- A name and one entry. -/
theorem build_one {V : Varint} [V.Lawful] {name : Bytes} (hname : name.length ≤ 511) (kv : Kv) :
    ∃ d, build V G 0 [.setName name, .append kv] = .ok d ∧ Built V d [kv] := by
  have hset : Built V ⟨name, 0, [], [], 0, true, false⟩ [] :=
    (built_new 0).set rfl 0 hname (by decide)
  obtain ⟨d, hd, hbuilt, -⟩ := hset.append (G := G) kv
  refine ⟨d, ?_, hbuilt⟩
  rw [build, List.foldlM_cons]
  show ([Op.append kv]).foldlM (Op.run V G) ⟨name, 0, [], [], 0, true, false⟩ = _
  rw [List.foldlM_cons]
  show (DBI.append V G kv _ >>= _) = _
  rw [hd]
  rfl

/-- The headers of an entry, its flags and its timestamp take little. -/
theorem entry_length_le {V : Varint} [V.Lawful] (kv : Kv) :
    (encodeItems V (entryItems V kv)).length ≤ kv.key.length + kv.value.length + 53 := by
  have h1 := length_sizedItem_le (V := V) (show fieldKVKey < 16 by decide) kv.key
  have h2 := length_sizedItem_le (V := V) (show fieldKVValue < 16 by decide) kv.value
  have h3 := length_varintItem_le (V := V) (show fieldKVFlags < 16 by decide) kv.flags.toUInt64
  have h4 := length_fixed64Item_le (V := V) (show fieldKVTimestampNano < 16 by decide)
    kv.timestampNano
  have h5 := length_sizedItem_le (V := V) (show fieldDBIEntries < 16 by decide)
    (encodeItems V (kvItems kv))
  simp only [entryItems, kvItems, encodeItems_append, List.length_append] at h5 ⊢
  omega

theorem value_lt_entry_length {V : Varint} [V.Lawful] {kv : Kv} (hvalue : kv.value ≠ []) :
    kv.value.length < (encodeItems V (entryItems V kv)).length := by
  have hpos := List.length_pos_iff.mpr hvalue
  have h1 := length_sizedItem (V := V) (show fieldKVValue < 16 by decide) kv.value
  have h2 := length_sizedItem_ge (V := V) (show fieldDBIEntries < 16 by decide)
    (encodeItems V (kvItems kv))
  rw [if_pos hpos] at h1
  simp only [entryItems, kvItems, encodeItems_append, List.length_append] at h2 ⊢
  omega

/-- A byte more than its value, for each entry. -/
theorem values_le_entries_length {V : Varint} [V.Lawful] {kvs : List Kv}
    (hvalues : ∀ kv ∈ kvs, kv.value ≠ []) :
    (kvs.map fun kv => kv.value.length + 1).sum ≤
      (encodeItems V (kvs.flatMap (entryItems V))).length := by
  induction kvs with
  | nil => exact Nat.zero_le _
  | cons kv kvs ih =>
      have hone := value_lt_entry_length (V := V) (hvalues kv List.mem_cons_self)
      have hrest := ih fun x hx => hvalues x (List.mem_cons_of_mem _ hx)
      rw [List.map_cons, List.sum_cons, List.flatMap_cons, encodeItems_append, List.length_append]
      omega

theorem entries_length_le {V : Varint} [V.Lawful] (kvs : List Kv) :
    (encodeItems V (kvs.flatMap (entryItems V))).length ≤
      (kvs.map fun kv => kv.key.length + kv.value.length + 53).sum := by
  induction kvs with
  | nil => exact le_rfl
  | cons kv kvs ih =>
      have hone := entry_length_le (V := V) kv
      rw [List.map_cons, List.sum_cons, List.flatMap_cons, encodeItems_append, List.length_append]
      omega

theorem length_dbiItems {V : Varint} (before : List Kv) (head : List Item) (after : List Kv) :
    (encodeItems V (dbiItems V before head after)).length =
      (encodeItems V ((before ++ after).flatMap (entryItems V))).length +
        (encodeItems V head).length := by
  simp only [dbiItems, List.flatMap_append, encodeItems_append, List.length_append]
  omega

theorem length_headItems_le {V : Varint} [V.Lawful] {d : DBI} (hname : d.name.length ≤ 511)
    (htransform : d.transform.length ≤ 50) : (encodeItems V (headItems d)).length ≤ 594 := by
  have h1 := length_sizedItem_le (V := V) (show fieldDBIName < 16 by decide) d.name
  have h2 := length_varintItem_le (V := V) (show fieldDBIFlags < 16 by decide) d.flags
  have h3 := length_sizedItem_le (V := V) (show fieldDBITransform < 16 by decide) d.transform
  simp only [headItems, encodeItems_append, List.length_append]
  omega

/-- A snapshot of one DBI with entries of more than 100 GB is written but not read. -/
theorem large_entries_refused {d : DBI} {kvs : List Kv} (hbuilt : Built C.toVarint d kvs)
    (hvalues : ∀ kv ∈ kvs, kv.value ≠ [])
    (hlarge : maxFieldLength < (kvs.map fun kv => kv.value.length + 1).sum)
    (hfit : (kvs.map fun kv => kv.key.length + kv.value.length + 53).sum < 2 ^ 63)
    (formatVersion compatVersion : UInt32) :
    ∃ bytes, Snapshot.writeTo C.toVarint G ⟨formatVersion, compatVersion, .empty, [d]⟩ =
        .ok bytes ∧ Snapshot.unmarshal C bytes = .error (.error .malformed) := by
  obtain ⟨d', hflush, hb', hdirty, -⟩ := hbuilt.flush (G := G)
  obtain ⟨before, after, hkvs, hdata⟩ := hb'.data_eq
  -- the message is longer than the limit, and its length still fits a varint
  have hlen := congrArg List.length hdata
  rw [hdirty, length_dbiItems, ← hkvs] at hlen
  simp only [Bool.false_eq_true, if_false] at hlen
  have hhead := length_headItems_le (V := C.toVarint) hb'.name_le hb'.transform_le
  have hhigh := entries_length_le (V := C.toVarint) kvs
  have hlow := values_le_entries_length (V := C.toVarint) hvalues
  have hmsgs : Messages C.toVarint G [d] [d'.data] := .cons ⟨d', hflush, rfl⟩ .nil
  exact ⟨_, writeTo_eq (s := ⟨formatVersion, compatVersion, .empty, [d]⟩) hmsgs,
    unmarshal_large (C := C) (by omega) (by omega)⟩

/-- The calls that build a DBI with one entry of 100 GB. -/
def largeScript : Script where
  size := 0
  ops := [.setName [100], .append ⟨[1], List.replicate maxFieldLength 0, 0, 0⟩]
  proper := by simp [Op.Proper, Kv.empty]
  named := ⟨[100], by simp⟩

/-- **A DBI of more than 100 GB does not read back.** -/
theorem large_dbi_refused : ∃ d bytes, largeScript.build leb128 tightGrowth = .ok d ∧
    Snapshot.writeTo leb128 tightGrowth ⟨0, 0, .empty, [d]⟩ = .ok bytes ∧
    Snapshot.unmarshal plainCsproto bytes = .error (.error .malformed) := by
  obtain ⟨kv, hkv⟩ : ∃ kv : Kv, kv = ⟨[1], List.replicate maxFieldLength 0, 0, 0⟩ := ⟨_, rfl⟩
  have hkey : kv.key.length = 1 := by rw [hkv]; rfl
  have hvalue : kv.value.length = maxFieldLength := by rw [hkv]; exact List.length_replicate
  have hmax : maxFieldLength = 107374182400 := rfl
  obtain ⟨d, hd, hbuilt⟩ := build_one (V := leb128) (G := tightGrowth)
    (show ([100] : Bytes).length ≤ 511 by decide) kv
  have hbuild : largeScript.build leb128 tightGrowth = .ok d := by
    rw [hkv] at hd
    exact hd
  obtain ⟨bytes, hwrite, hread⟩ := large_entries_refused (C := plainCsproto) (G := tightGrowth)
    hbuilt (by
      rw [List.forall_mem_singleton]
      exact List.ne_nil_of_length_pos (by omega))
    (by rw [List.map_singleton, List.sum_singleton]; omega)
    (by rw [List.map_singleton, List.sum_singleton]; omega) 0 0
  exact ⟨d, bytes, hbuild, hwrite, hread⟩

end LightningStream.Snapshot
