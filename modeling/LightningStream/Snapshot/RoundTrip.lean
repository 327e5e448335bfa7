import LightningStream.Snapshot.DbiRoundTrip
import LightningStream.Snapshot.Message

/-!
# Snapshots read back

What `WriteTo` writes is the encoding of a list of items, and `Unmarshal` reads
it back, if no field is longer than the decoders allow.
-/

set_option linter.dupNamespace false

namespace LightningStream.Snapshot

variable {C : Csproto} [C.Lawful] {G : Growth}

/-! ## The decoder loop -/

section Decodes

variable {α : Type} {readField : α → ℕ → WireType → Bytes → Decoding (α × Bytes)}

/-- The loop takes the items off its input and goes from one message to another. -/
def Decodes (C : Csproto) (readField : α → ℕ → WireType → Bytes → Decoding (α × Bytes))
    (is : List Item) (a b : α) : Prop :=
  ∀ fuel rest, runRounds (decoderRound C readField) (is.length + fuel)
      (a, encodeItems C.toVarint is ++ rest) =
    runRounds (decoderRound C readField) fuel (b, rest)

omit [C.Lawful] in
theorem decodes_nil (a : α) : Decodes C readField [] a a := by
  intro fuel rest
  rw [List.length_nil, Nat.zero_add]
  rfl

omit [C.Lawful] in
theorem Decodes.append {is js : List Item} {a b c : α} (hi : Decodes C readField is a b)
    (hj : Decodes C readField js b c) : Decodes C readField (is ++ js) a c := by
  intro fuel rest
  rw [List.length_append, Nat.add_assoc, encodeItems_append, List.append_assoc, hi, hj]

theorem decodes_item {tag : ℕ} {value : Value} {a b : α} (hpos : 1 ≤ tag) (htag : tag < 16)
    (h : ∀ rest, readField a tag value.wireType (value.bytes C.toVarint ++ rest) = .ok (b, rest)) :
    Decodes C readField [⟨tag, value⟩] a b := by
  intro fuel rest
  have hbytes := (⟨tag, value⟩ : Item).bytes_pos (V := C.toVarint)
  have hround : decoderRound C readField (a, encodeItems C.toVarint [⟨tag, value⟩] ++ rest) =
      .ok (.inl (b, rest)) := by
    rw [decoderRound, if_neg (by
      intro hnil
      rw [encodeItems_cons, List.append_eq_nil_iff, List.append_eq_nil_iff] at hnil
      rw [hnil.1.1] at hbytes
      exact absurd hbytes (by simp))]
    simp only [encodeItems_cons, encodeItems_nil, List.append_nil, Item.bytes, List.append_assoc,
      Csproto.Lawful.decodeTag_encode tag value _ hpos htag, ofCsproto, bind, Except.bind, h]
  rw [List.length_singleton, Nat.add_comm, runRounds_next hround]

/-- A field that is left out leaves the message as it is. -/
theorem decodes_sizedItem {tag : ℕ} {x : Bytes} {a b : α} (hpos : 1 ≤ tag) (htag : tag < 16)
    (hnil : x = [] → b = a)
    (h : ∀ rest, readField a tag .lengthDelimited ((Value.sized x).bytes C.toVarint ++ rest) =
      .ok (b, rest)) : Decodes C readField (sizedItem tag x) a b := by
  unfold sizedItem
  split
  · exact decodes_item hpos htag h
  · rename_i hx
    rw [hnil (nil_of_not_pos hx)]
    exact decodes_nil a

theorem decodes_varintItem {tag : ℕ} {v : UInt64} {a b : α} (hpos : 1 ≤ tag) (htag : tag < 16)
    (hzero : v = 0 → b = a)
    (h : ∀ rest, readField a tag .varint ((Value.varint v).bytes C.toVarint ++ rest) =
      .ok (b, rest)) : Decodes C readField (varintItem tag v) a b := by
  unfold varintItem
  split
  · exact decodes_item hpos htag h
  · rename_i hv
    rw [hzero (zero_of_not_pos hv)]
    exact decodes_nil a

theorem decodes_fixed64Item {tag : ℕ} {x : UInt64} {a b : α} (hpos : 1 ≤ tag) (htag : tag < 16)
    (hzero : x = 0 → b = a)
    (h : ∀ rest, readField a tag .fixed64 ((Value.fixed64 x).bytes C.toVarint ++ rest) =
      .ok (b, rest)) : Decodes C readField (fixed64Item tag x) a b := by
  unfold fixed64Item
  split
  · exact decodes_item hpos htag h
  · rename_i hx
    rw [hzero (zero_of_not_pos hx)]
    exact decodes_nil a

theorem length_le_encodeItems : ∀ is : List Item, is.length ≤ (encodeItems C.toVarint is).length
  | [] => le_rfl
  | i :: is => by
      have hi := i.bytes_pos (V := C.toVarint)
      have ih := length_le_encodeItems is
      rw [encodeItems_cons, List.length_append, List.length_cons]
      omega

/-- A loop that has taken off all items returns the message. -/
theorem Decodes.run {is : List Item} {a b : α} (h : Decodes C readField is a b) :
    runRounds (decoderRound C readField) ((encodeItems C.toVarint is).length + 2)
      (a, encodeItems C.toVarint is) = .ok b := by
  have hle := length_le_encodeItems (C := C) is
  obtain ⟨fuel, hfuel⟩ : ∃ fuel, (encodeItems C.toVarint is).length + 2 = is.length + (fuel + 1) :=
    ⟨(encodeItems C.toVarint is).length + 1 - is.length, by omega⟩
  have hrun := h (fuel + 1) []
  rw [List.append_nil] at hrun
  rw [hfuel, hrun]
  exact runRounds_done (if_pos rfl)

end Decodes

/-! ## Getters -/

theorem getString_encode {limit tag : ℕ} {b : Bytes} (hlimit : b.length ≤ limit)
    (hfit : b.length < 2 ^ 63) (rest : Bytes) :
    getString C limit tag .lengthDelimited ((Value.sized b).bytes C.toVarint ++ rest) =
      .ok (b, rest) := by
  show ofCsproto (C.decodeString limit _) = _
  rw [Csproto.Lawful.decodeString_eq, Value.bytes,
    Csproto.Lawful.decodeBytes_encode limit b rest hlimit hfit]
  rfl

theorem getBytes_encode {limit tag : ℕ} {b : Bytes} (hlimit : b.length ≤ limit)
    (hfit : b.length < 2 ^ 63) (rest : Bytes) :
    getBytes C limit tag .lengthDelimited ((Value.sized b).bytes C.toVarint ++ rest) =
      .ok (b, rest) := by
  show ofCsproto (C.decodeBytes limit _) = _
  rw [Value.bytes, Csproto.Lawful.decodeBytes_encode limit b rest hlimit hfit]
  rfl

theorem getInt64_encode {tag : ℕ} (v : Int64) (rest : Bytes) :
    getInt64 C tag .varint ((Value.varint v.toUInt64).bytes C.toVarint ++ rest) =
      .ok (v, rest) := by
  show ofCsproto (C.decodeInt64 _) = _
  rw [Value.bytes, Csproto.Lawful.decodeInt64_encode]
  rfl

theorem getUInt32_encode {tag : ℕ} (v : UInt32) (rest : Bytes) :
    getUInt32 C tag .varint ((Value.varint v.toUInt64).bytes C.toVarint ++ rest) =
      .ok (v, rest) := by
  show ofCsproto (C.decodeUInt32 _) = _
  rw [Value.bytes, Csproto.Lawful.decodeUInt32_encode]
  rfl

theorem getFixed64_encode {tag : ℕ} (x : UInt64) (rest : Bytes) :
    getFixed64 C tag .fixed64 ((Value.fixed64 x).bytes C.toVarint ++ rest) = .ok (x, rest) := by
  show ofCsproto (C.decodeFixed64 _) = _
  rw [Value.bytes, Csproto.Lawful.decodeFixed64_encode]
  rfl

/-! ## Meta -/

def int64Item (tag : ℕ) (v : Int64) : List Item :=
  if v > 0 then [⟨tag, .varint v.toUInt64⟩] else []

def metaItems (m : Meta) : List Item :=
  sizedItem fieldMetaGenerationID m.generationID ++
    (sizedItem fieldMetaInstanceID m.instanceID ++
      (sizedItem fieldMetaHostname m.hostname ++
        (sizedItem fieldMetaDatabaseName m.databaseName ++
          (int64Item fieldMetaLMDBTxnID m.lmdbTxnID ++
            (fixed64Item fieldMetaTimestampNano m.timestampNano ++
              int64Item fieldMetaFromLMDBTxnID m.fromLmdbTxnID)))))

section Meta

variable {V : Varint}

theorem writes_putInt64 (V : Varint) (tag : ℕ) (v : Int64) :
    Writes (Meta.putInt64 V tag v) (encodeItems V (int64Item tag v)) := by
  unfold Meta.putInt64 int64Item
  split
  · have h := (writes_put (encodeTag V tag .varint)).andThen (writes_put (V.encode v.toUInt64))
    simpa [Item.bytes, Value.bytes, Value.wireType] using h
  · exact writes_nothing

theorem length_int64Item_le [V.Lawful] {tag : ℕ} (h : tag < 16) (v : Int64) :
    (encodeItems V (int64Item tag v)).length ≤ 11 := by
  have hv := (Varint.Lawful.encode_length (V := V) v.toUInt64).2
  unfold int64Item
  split
  · simp only [encodeItems_cons, encodeItems_nil, List.append_nil, Item.bytes, Value.bytes,
      List.length_append, encodeTag_length_small h]
    omega
  · simp

/-- The buffer is large enough for the meta message. -/
theorem marshal_eq [V.Lawful] (m : Meta) : m.marshal V = .ok (encodeItems V (metaItems m)) := by
  have h1 := length_sizedItem_le (V := V) (show fieldMetaGenerationID < 16 by decide) m.generationID
  have h2 := length_sizedItem_le (V := V) (show fieldMetaInstanceID < 16 by decide) m.instanceID
  have h3 := length_sizedItem_le (V := V) (show fieldMetaHostname < 16 by decide) m.hostname
  have h4 := length_sizedItem_le (V := V) (show fieldMetaDatabaseName < 16 by decide) m.databaseName
  have h5 := length_int64Item_le (V := V) (show fieldMetaLMDBTxnID < 16 by decide) m.lmdbTxnID
  have h6 := length_fixed64Item_le (V := V) (show fieldMetaTimestampNano < 16 by decide)
    m.timestampNano
  have h7 := length_int64Item_le (V := V) (show fieldMetaFromLMDBTxnID < 16 by decide)
    m.fromLmdbTxnID
  have hwrites := (writes_putSized V fieldMetaGenerationID m.generationID).andThen
    ((writes_putSized V fieldMetaInstanceID m.instanceID).andThen
      ((writes_putSized V fieldMetaHostname m.hostname).andThen
        ((writes_putSized V fieldMetaDatabaseName m.databaseName).andThen
          ((writes_putInt64 V fieldMetaLMDBTxnID m.lmdbTxnID).andThen
            ((writes_putFixed64 V fieldMetaTimestampNano m.timestampNano).andThen
              (writes_putInt64 V fieldMetaFromLMDBTxnID m.fromLmdbTxnID))))))
  obtain ⟨b, hrun, hb⟩ := hwrites.written (n := m.bufSizeNeeded) (by
    simp only [List.length_append, Meta.bufSizeNeeded]
    omega)
  obtain ⟨b₁, h₁, hrun⟩ := bind_eq_ok.mp hrun
  obtain ⟨b₂, h₂, hrun⟩ := bind_eq_ok.mp hrun
  obtain ⟨b₃, h₃, hrun⟩ := bind_eq_ok.mp hrun
  obtain ⟨b₄, h₄, hrun⟩ := bind_eq_ok.mp hrun
  obtain ⟨b₅, h₅, hrun⟩ := bind_eq_ok.mp hrun
  obtain ⟨b₆, h₆, hrun⟩ := bind_eq_ok.mp hrun
  simp only [Meta.marshal, bind, Except.bind, h₁, h₂, h₃, h₄, h₅, h₆, hrun, hb, metaItems,
    encodeItems_append]

end Meta

/-- The strings are within the decoder's limit. -/
structure Meta.Within (C : Csproto) (m : Meta) : Prop where
  generationID : m.generationID.length ≤ C.defaultMaxFieldLength
  instanceID : m.instanceID.length ≤ C.defaultMaxFieldLength
  hostname : m.hostname.length ≤ C.defaultMaxFieldLength
  databaseName : m.databaseName.length ≤ C.defaultMaxFieldLength

theorem decodes_int64Item {α : Type} {readField : α → ℕ → WireType → Bytes → Decoding (α × Bytes)}
    {tag : ℕ} {v : Int64} {a b : α} (hpos : 1 ≤ tag) (htag : tag < 16) (hv : 0 ≤ v)
    (hzero : v = 0 → b = a)
    (h : ∀ rest, readField a tag .varint ((Value.varint v.toUInt64).bytes C.toVarint ++ rest) =
      .ok (b, rest)) : Decodes C readField (int64Item tag v) a b := by
  unfold int64Item
  split
  · exact decodes_item hpos htag h
  · rename_i hnot
    have hz : v = 0 := Int64.le_antisymm (Int64.not_lt.mp hnot) hv
    rw [hzero hz]
    exact decodes_nil a

theorem length_sizedItem_ge {V : Varint} [V.Lawful] {tag : ℕ} (h : tag < 16) (b : Bytes) :
    b.length ≤ (encodeItems V (sizedItem tag b)).length := by
  rw [length_sizedItem h]
  split <;> omega

/-- The meta message reads back. -/
theorem decodes_meta {m : Meta} (hin : m.Within C)
    (hfit : (encodeItems C.toVarint (metaItems m)).length < 2 ^ 63)
    (htxn : 0 ≤ m.lmdbTxnID) (hfrom : 0 ≤ m.fromLmdbTxnID) :
    Decodes C (Meta.readField C) (metaItems m) .empty m := by
  have h1 := length_sizedItem_ge (V := C.toVarint) (show fieldMetaGenerationID < 16 by decide)
    m.generationID
  have h2 := length_sizedItem_ge (V := C.toVarint) (show fieldMetaInstanceID < 16 by decide)
    m.instanceID
  have h3 := length_sizedItem_ge (V := C.toVarint) (show fieldMetaHostname < 16 by decide)
    m.hostname
  have h4 := length_sizedItem_ge (V := C.toVarint) (show fieldMetaDatabaseName < 16 by decide)
    m.databaseName
  simp only [metaItems, encodeItems_append, List.length_append] at hfit
  obtain ⟨generationID, instanceID, hostname, lmdbTxnID, timestampNano, databaseName,
    fromLmdbTxnID⟩ := m
  refine (decodes_sizedItem (b := ⟨generationID, [], [], 0, 0, [], 0⟩) (by decide) (by decide)
    (by rintro rfl; rfl) fun rest => ?_).append
    ((decodes_sizedItem (b := ⟨generationID, instanceID, [], 0, 0, [], 0⟩) (by decide) (by decide)
      (by rintro rfl; rfl) fun rest => ?_).append
    ((decodes_sizedItem (b := ⟨generationID, instanceID, hostname, 0, 0, [], 0⟩) (by decide)
      (by decide) (by rintro rfl; rfl) fun rest => ?_).append
    ((decodes_sizedItem (b := ⟨generationID, instanceID, hostname, 0, 0, databaseName, 0⟩)
      (by decide) (by decide) (by rintro rfl; rfl) fun rest => ?_).append
    ((decodes_int64Item (b := ⟨generationID, instanceID, hostname, lmdbTxnID, 0, databaseName, 0⟩)
      (by decide) (by decide) htxn (by rintro rfl; rfl) fun rest => ?_).append
    ((decodes_fixed64Item
      (b := ⟨generationID, instanceID, hostname, lmdbTxnID, timestampNano, databaseName, 0⟩)
      (by decide) (by decide) (by rintro rfl; rfl) fun rest => ?_).append
    (decodes_int64Item (by decide) (by decide) hfrom (by rintro rfl; rfl) fun rest => ?_))))))
  · show (getString C _ _ _ _ >>= _) = _
    rw [getString_encode hin.generationID (by omega)]
    rfl
  · show (getString C _ _ _ _ >>= _) = _
    rw [getString_encode hin.instanceID (by omega)]
    rfl
  · show (getString C _ _ _ _ >>= _) = _
    rw [getString_encode hin.hostname (by omega)]
    rfl
  · show (getString C _ _ _ _ >>= _) = _
    rw [getString_encode hin.databaseName (by omega)]
    rfl
  · show (getInt64 C _ _ _ >>= _) = _
    rw [getInt64_encode]
    rfl
  · show (getFixed64 C _ _ _ >>= _) = _
    rw [getFixed64_encode]
    rfl
  · show (getInt64 C _ _ _ >>= _) = _
    rw [getInt64_encode]
    rfl

theorem unmarshal_meta {m : Meta} (hin : m.Within C)
    (hfit : (encodeItems C.toVarint (metaItems m)).length < 2 ^ 63)
    (htxn : 0 ≤ m.lmdbTxnID) (hfrom : 0 ≤ m.fromLmdbTxnID) :
    Meta.empty.unmarshal C (encodeItems C.toVarint (metaItems m)) = .ok m :=
  (decodes_meta hin hfit htxn hfrom).run

/-! ## WriteTo -/

/-- The items of a snapshot, given the messages of its DBIs. -/
def snapshotItems (V : Varint) (s : Snapshot) (msgs : List Bytes) : List Item :=
  varintItem fieldSnapshotFormatVersion s.formatVersion.toUInt64 ++
    varintItem fieldSnapshotCompatVersion s.compatVersion.toUInt64 ++
      (sizedItem fieldSnapshotMeta (encodeItems V (metaItems s.meta)) ++
        msgs.flatMap (sizedItem fieldSnapshotDBI))

section WriteTo

variable {V : Varint} [V.Lawful]

theorem writeMessage_eq {tag : ℕ} (htag : tag < 16) (out msg : Bytes) :
    Snapshot.writeMessage V tag out msg = .ok (out ++ encodeItems V (sizedItem tag msg)) := by
  unfold Snapshot.writeMessage sizedItem
  rcases Nat.eq_zero_or_pos msg.length with hzero | hpos
  · rw [if_pos hzero, if_neg (by omega), encodeItems_nil, List.append_nil]
  · have h1 := encodeTag_length_small (V := V) htag (.sized msg)
    have h2 := (Varint.Lawful.encode_length (V := V) (UInt64.ofNat msg.length)).2
    obtain ⟨b, hrun, hb⟩ := ((writes_put (encodeTag V tag .lengthDelimited)).andThen
      (writes_put (V.encode (UInt64.ofNat msg.length)))).written (n := 1000) (by
        rw [List.length_append]
        have h1' : (encodeTag V tag .lengthDelimited).length = 1 := h1
        omega)
    obtain ⟨b₁, h₁, hrun⟩ := bind_eq_ok.mp hrun
    rw [if_neg (by omega), if_pos hpos]
    simp only [bind, Except.bind, h₁, hrun, hb]
    simp [Item.bytes, Value.bytes, Value.wireType]

/-- The message of each DBI. -/
def Messages (V : Varint) (G : Growth) : List DBI → List Bytes → Prop :=
  List.Forall₂ fun d msg => ∃ d', d.marshal V G = .ok d' ∧ d'.data = msg

theorem writeDBIs_eq {ds : List DBI} {msgs : List Bytes} (h : Messages V G ds msgs)
    (out : Bytes) : ds.foldlM (Snapshot.writeDBI V G) out =
      .ok (out ++ encodeItems V (msgs.flatMap (sizedItem fieldSnapshotDBI))) := by
  induction h generalizing out with
  | nil => simp [pure, Except.pure]
  | @cons d msg ds msgs hd _ ih =>
      obtain ⟨d', hm, rfl⟩ := hd
      have hone : Snapshot.writeDBI V G out d =
          .ok (out ++ encodeItems V (sizedItem fieldSnapshotDBI d'.data)) := by
        simp only [Snapshot.writeDBI, hm, bind, Except.bind]
        exact writeMessage_eq (by decide) out d'.data
      rw [List.foldlM_cons, hone]
      show ds.foldlM (Snapshot.writeDBI V G) _ = _
      rw [ih, List.flatMap_cons, encodeItems_append, List.append_assoc]

theorem writeTo_eq {s : Snapshot} {msgs : List Bytes} (h : Messages V G s.databases msgs) :
    s.writeTo V G = .ok (encodeItems V (snapshotItems V s msgs)) := by
  have h1 := length_varintItem_le (V := V) (show fieldSnapshotFormatVersion < 16 by decide)
    s.formatVersion.toUInt64
  have h2 := length_varintItem_le (V := V) (show fieldSnapshotCompatVersion < 16 by decide)
    s.compatVersion.toUInt64
  obtain ⟨b, hrun, hb⟩ := ((writes_putVarint V fieldSnapshotFormatVersion
    s.formatVersion.toUInt64).andThen (writes_putVarint V fieldSnapshotCompatVersion
      s.compatVersion.toUInt64)).written (n := 1000) (by
        rw [List.length_append]
        omega)
  obtain ⟨b₁, h₁, hrun⟩ := bind_eq_ok.mp hrun
  simp only [Snapshot.writeTo, bind, Except.bind, h₁, hrun, marshal_eq, hb,
    writeMessage_eq (V := V) (show fieldSnapshotMeta < 16 by decide)]
  rw [writeDBIs_eq h]
  simp only [snapshotItems, encodeItems_append, List.append_assoc]

end WriteTo

/-! ## Unmarshal -/

/-- Decoding the DBI messages. -/
theorem decodes_dbis {msgs : List Bytes} {ds : List DBI}
    (h : List.Forall₂ (fun msg d => msg ≠ [] ∧ msg.length ≤ maxFieldLength ∧
      newDBIFromData C.toVarint msg = .ok d) msgs ds) (s : Snapshot) :
    Decodes C (Snapshot.readField C) (msgs.flatMap (sizedItem fieldSnapshotDBI)) s
      { s with databases := s.databases ++ ds } := by
  induction h generalizing s with
  | nil =>
      rw [List.append_nil]
      exact decodes_nil s
  | @cons msg d msgs ds hd _ ih =>
      obtain ⟨hne, hlen, hnew⟩ := hd
      have hfit : msg.length < 2 ^ 63 := lt_of_le_of_lt hlen (by decide)
      have hone : Decodes C (Snapshot.readField C) (sizedItem fieldSnapshotDBI msg) s
          { s with databases := s.databases ++ [d] } := by
        refine decodes_sizedItem (by decide) (by decide) (fun hnil => absurd hnil hne)
          fun rest => ?_
        show (getBytes C _ _ _ _ >>= _) = _
        rw [getBytes_encode hlen hfit]
        simp only [bind, Except.bind, hnew]
      have hrest := ih { s with databases := s.databases ++ [d] }
      simp only [List.append_assoc, List.singleton_append] at hrest
      exact hone.append hrest

/-- Decoding the versions. -/
theorem decodes_versions (formatVersion compatVersion : UInt32) :
    Decodes C (Snapshot.readField C)
      (varintItem fieldSnapshotFormatVersion formatVersion.toUInt64 ++
        varintItem fieldSnapshotCompatVersion compatVersion.toUInt64) .empty
      ⟨formatVersion, compatVersion, .empty, []⟩ := by
  refine (decodes_varintItem (b := ⟨formatVersion, 0, .empty, []⟩) (by decide) (by decide)
    (fun hz => ?_) fun rest => ?_).append
    (decodes_varintItem (by decide) (by decide) (fun hz => ?_) fun rest => ?_)
  · obtain rfl : formatVersion = 0 := uint32_toUInt64_eq_zero.mp hz
    rfl
  · show (getUInt32 C _ _ _ >>= _) = _
    rw [getUInt32_encode]
    rfl
  · obtain rfl : compatVersion = 0 := uint32_toUInt64_eq_zero.mp hz
    rfl
  · show (getUInt32 C _ _ _ >>= _) = _
    rw [getUInt32_encode]
    rfl

/-- The fields of a snapshot read back, and each DBI message as it decodes. -/
theorem unmarshal_items {s : Snapshot} {msgs : List Bytes} {ds : List DBI}
    (hin : s.meta.Within C)
    (hmeta : (encodeItems C.toVarint (metaItems s.meta)).length ≤ maxFieldLength)
    (htxn : 0 ≤ s.meta.lmdbTxnID) (hfrom : 0 ≤ s.meta.fromLmdbTxnID)
    (hds : List.Forall₂ (fun msg d => msg ≠ [] ∧ msg.length ≤ maxFieldLength ∧
      newDBIFromData C.toVarint msg = .ok d) msgs ds) :
    Snapshot.unmarshal C (encodeItems C.toVarint (snapshotItems C.toVarint s msgs)) =
      .ok { s with databases := ds } := by
  have hfit : (encodeItems C.toVarint (metaItems s.meta)).length < 2 ^ 63 :=
    lt_of_le_of_lt hmeta (by decide)
  have hm := unmarshal_meta hin hfit htxn hfrom
  have hmsg : Decodes C (Snapshot.readField C)
      (sizedItem fieldSnapshotMeta (encodeItems C.toVarint (metaItems s.meta)))
      ⟨s.formatVersion, s.compatVersion, .empty, []⟩
      ⟨s.formatVersion, s.compatVersion, s.meta, []⟩ := by
    refine decodes_sizedItem (by decide) (by decide) (fun hnil => ?_) fun rest => ?_
    · rw [hnil] at hm
      have hempty : s.meta = .empty := (Except.ok.inj hm).symm
      rw [hempty]
    · show (getBytes C _ _ _ _ >>= _) = _
      rw [getBytes_encode hmeta hfit]
      simp only [bind, Except.bind, hm]
  exact ((decodes_versions _ _).append (hmsg.append (decodes_dbis hds _))).run

/-- A DBI message above the limit makes the snapshot unreadable. -/
theorem unmarshal_large {formatVersion compatVersion : UInt32} {ds : List DBI} {msg : Bytes}
    (hlarge : maxFieldLength < msg.length) (hfit : msg.length < 2 ^ 64) :
    Snapshot.unmarshal C (encodeItems C.toVarint
        (snapshotItems C.toVarint ⟨formatVersion, compatVersion, .empty, ds⟩ [msg])) =
      .error (.error .malformed) := by
  have hlimit : C.decodeBytes maxFieldLength ((Value.sized msg).bytes C.toVarint) = none := by
    apply Csproto.Lawful.decodeBytes_limit
    rw [toNat_ofNat_of_lt hfit]
    exact hlarge
  have hget : getBytes C maxFieldLength fieldSnapshotDBI .lengthDelimited
      ((Value.sized msg).bytes C.toVarint) = .error (.error .malformed) := by
    show ofCsproto (C.decodeBytes maxFieldLength _) = _
    rw [hlimit]
    rfl
  have hfield : ∀ s, Snapshot.readField C s fieldSnapshotDBI .lengthDelimited
      ((Value.sized msg).bytes C.toVarint) = .error (.error .malformed) := by
    intro s
    show (getBytes C maxFieldLength _ _ _ >>= _) = _
    rw [hget]
    rfl
  have hround : ∀ s, decoderRound C (Snapshot.readField C)
      (s, (⟨fieldSnapshotDBI, .sized msg⟩ : Item).bytes C.toVarint) =
        .error (.error .malformed) := by
    intro s
    rw [decoderRound, if_neg (List.ne_nil_of_length_pos (Item.bytes_pos _))]
    simp only [Item.bytes, Csproto.Lawful.decodeTag_encode (C := C) fieldSnapshotDBI (.sized msg)
      _ (by decide) (by decide), ofCsproto, bind, Except.bind]
    exact hfield s ▸ rfl
  -- the versions are read, then the message is refused
  have hitems : encodeItems C.toVarint
      (snapshotItems C.toVarint ⟨formatVersion, compatVersion, .empty, ds⟩ [msg]) =
      encodeItems C.toVarint (varintItem fieldSnapshotFormatVersion formatVersion.toUInt64 ++
        varintItem fieldSnapshotCompatVersion compatVersion.toUInt64) ++
      (⟨fieldSnapshotDBI, .sized msg⟩ : Item).bytes C.toVarint := by
    have hone : sizedItem fieldSnapshotDBI msg = [⟨fieldSnapshotDBI, .sized msg⟩] :=
      if_pos (by omega)
    have hmeta : sizedItem fieldSnapshotMeta (encodeItems C.toVarint (metaItems .empty)) = [] :=
      rfl
    simp [snapshotItems, hmeta, hone]
  rw [Snapshot.unmarshal, hitems, List.length_append]
  have hle := length_le_encodeItems (C := C)
    (varintItem fieldSnapshotFormatVersion formatVersion.toUInt64 ++
      varintItem fieldSnapshotCompatVersion compatVersion.toUInt64)
  obtain ⟨n, hn⟩ := Nat.exists_eq_add_of_le hle
  rw [hn, Nat.add_assoc, Nat.add_assoc, decodes_versions formatVersion compatVersion]
  exact runRounds_error (hround _)

end LightningStream.Snapshot
