import LightningStream.Snapshot.Builder
import LightningStream.Snapshot.Parts

/-!
# A built DBI message reads back

The items a builder has written are the parts of a well-formed message. A
decoder finds in them the top-level fields that were set and the entries that
were appended, in their order.
-/

namespace LightningStream.Snapshot

variable {V : Varint} [V.Lawful]

/-! ## Items are fields -/

/-- The length of the value fits an `int`, together with its varint. -/
def Value.Fits : Value → Prop
  | .sized b => b.length + 10 < 2 ^ 63
  | _ => True

def Value.payload : (v : Value) → v.Fits → Payload V
  | .varint v, _ => .varint (V.encode v) v (Varint.Lawful.decode_encode v)
  | .fixed64 x, _ => .fixed64 (leBytes 8 x.toNat) (leBytes_length 8 _)
  | .sized b, h => .sized (V.encode (UInt64.ofNat b.length)) b (Varint.Lawful.decode_encode _) (by
      have hlen := (Varint.Lawful.encode_length (V := V) (UInt64.ofNat b.length)).2
      have hb : b.length + 10 < 2 ^ 63 := h
      omega)

theorem Value.payload_wireType (v : Value) (h : v.Fits) :
    (v.payload h : Payload V).wireType = v.wireType := by
  cases v <;> rfl

def Item.field (i : Item) (htag : i.tag < 16) (h : i.value.Fits) : Field V where
  raw := encodeTag V i.tag i.value.wireType
  number := i.tag
  payload := i.value.payload h
  small := by omega
  valid := by
    rw [Value.payload_wireType]
    exact Varint.Lawful.decode_encode _

theorem Item.field_bytes (i : Item) (htag : i.tag < 16) (h : i.value.Fits) :
    (i.field htag h : Field V).bytes = i.bytes V := by
  obtain ⟨tag, value⟩ := i
  cases value <;> rfl

/-! ## An entry -/

theorem leNat_leBytes_toNat (x : UInt64) : UInt64.ofNat (leNat (leBytes 8 x.toNat)) = x := by
  have hx : x.toNat < 256 ^ 8 := x.toNat_lt
  rw [leNat_leBytes, Nat.mod_eq_of_lt hx]
  simp

/-- A list of items decodes to a change of the `KV`. -/
def KvReads (V : Varint) (is : List Item) (update : Kv → Kv) : Prop :=
  ∃ fs : List (Field V), encodeFields fs = encodeItems V is ∧
    (∀ f ∈ fs, f.payload.Typed (kvKind f.number)) ∧ ∀ kv, fs.foldl Kv.withField kv = update kv

omit [V.Lawful] in
theorem KvReads.append {is js : List Item} {u w : Kv → Kv} (hi : KvReads V is u)
    (hj : KvReads V js w) : KvReads V (is ++ js) fun kv => w (u kv) := by
  obtain ⟨fs, hfs, htf, hu⟩ := hi
  obtain ⟨gs, hgs, htg, hw⟩ := hj
  refine ⟨fs ++ gs, ?_, ?_, ?_⟩
  · rw [encodeFields_append, encodeItems_append, hfs, hgs]
  · intro f hf
    rcases List.mem_append.mp hf with h | h
    · exact htf f h
    · exact htg f h
  · intro kv
    rw [List.foldl_append, hu, hw]

theorem kvReads_item (tag : ℕ) (value : Value) (htag : tag < 16) (h : value.Fits)
    (ht : (Item.field ⟨tag, value⟩ htag h : Field V).payload.Typed (kvKind tag)) :
    KvReads V [⟨tag, value⟩] fun kv => kv.withField (Item.field ⟨tag, value⟩ htag h : Field V) := by
  refine ⟨[Item.field ⟨tag, value⟩ htag h], ?_, ?_, fun kv => rfl⟩
  · simp [Item.field_bytes]
  · intro f hf
    rw [List.mem_singleton.mp hf]
    exact ht

omit [V.Lawful] in
theorem kvReads_nil : KvReads V [] id := ⟨[], rfl, by simp, fun _ => rfl⟩

theorem kvReads_key {b : Bytes} (h : b.length + 10 < 2 ^ 63) :
    KvReads V (sizedItem fieldKVKey b) fun kv =>
      if b.length > 0 then { kv with key := b } else kv := by
  unfold sizedItem
  split
  · exact kvReads_item fieldKVKey (.sized b) (by decide) h rfl
  · exact kvReads_nil

theorem kvReads_value {b : Bytes} (h : b.length + 10 < 2 ^ 63) :
    KvReads V (sizedItem fieldKVValue b) fun kv =>
      if b.length > 0 then { kv with value := b } else kv := by
  unfold sizedItem
  split
  · exact kvReads_item fieldKVValue (.sized b) (by decide) h rfl
  · exact kvReads_nil

theorem kvReads_flags (v : UInt64) :
    KvReads V (varintItem fieldKVFlags v) fun kv =>
      if v > 0 then { kv with flags := v.toUInt32 } else kv := by
  unfold varintItem
  split
  · exact kvReads_item fieldKVFlags (.varint v) (by decide) trivial rfl
  · exact kvReads_nil

theorem kvReads_timestampNano (x : UInt64) :
    KvReads V (fixed64Item fieldKVTimestampNano x) fun kv =>
      if x > 0 then { kv with timestampNano := x } else kv := by
  unfold fixed64Item
  split
  · have htag : fieldKVTimestampNano < 16 := by decide
    have h := kvReads_item (V := V) fieldKVTimestampNano (.fixed64 x) htag trivial rfl
    have heq : ∀ kv : Kv, kv.withField (Item.field (V := V) ⟨fieldKVTimestampNano, .fixed64 x⟩
        htag trivial) = { kv with timestampNano := x } := by
      intro kv
      show { kv with timestampNano := UInt64.ofNat (leNat (leBytes 8 x.toNat)) } = _
      rw [leNat_leBytes_toNat]
    simpa only [heq] using h
  · exact kvReads_nil

theorem uint32_toUInt64_eq_zero {v : UInt32} : v.toUInt64 = 0 ↔ v = 0 := by
  rw [← UInt64.toNat_inj, UInt32.toNat_toUInt64, ← UInt32.toNat_inj]
  rfl

theorem uint64_pos {v : UInt64} : v > 0 ↔ v ≠ 0 := by
  rw [gt_iff_lt, UInt64.lt_iff_toNat_lt, ne_eq, ← UInt64.toNat_inj]
  exact Nat.pos_iff_ne_zero

theorem nil_of_not_pos {b : Bytes} (h : ¬ b.length > 0) : b = [] :=
  List.length_eq_zero_iff.mp (Nat.eq_zero_of_not_pos h)

theorem zero_of_not_pos {v : UInt64} (h : ¬ v > 0) : v = 0 := not_not.mp fun hne =>
  h (uint64_pos.mpr hne)

/-- A field that is left out because it has its default value might as well be set. -/
theorem set_unless_default {σ α : Type} (set : σ → α → σ) (s : σ) (x d : α) {P : Prop}
    [Decidable P] (hdefault : ¬ P → x = d) (hs : set s d = s) :
    (if P then set s x else s) = set s x := by
  split
  · rfl
  · rename_i hnot
    rw [hdefault hnot, hs]

/-- The fields of an entry decode to the entry. -/
theorem kvItems_fields {kv : Kv} (hfit : (encodeItems V (kvItems kv)).length + 10 < 2 ^ 63) :
    ∃ fs : List (Field V), encodeFields fs = encodeItems V (kvItems kv) ∧
      (∀ f ∈ fs, f.payload.Typed (kvKind f.number)) ∧ kvOf fs = kv := by
  have hkey : kv.key.length + 10 < 2 ^ 63 := by
    simp only [kvItems, encodeItems_append, List.length_append,
      length_sizedItem (V := V) (show fieldKVKey < 16 by decide)] at hfit
    split at hfit <;> omega
  have hvalue : kv.value.length + 10 < 2 ^ 63 := by
    simp only [kvItems, encodeItems_append, List.length_append,
      length_sizedItem (V := V) (show fieldKVValue < 16 by decide)] at hfit
    split at hfit <;> omega
  obtain ⟨fs, hfs, ht, hfold⟩ := (((kvReads_key (V := V) hkey).append (kvReads_value hvalue)).append
    (kvReads_flags kv.flags.toUInt64)).append (kvReads_timestampNano kv.timestampNano)
  refine ⟨fs, hfs, ht, ?_⟩
  rw [kvOf, hfold]
  obtain ⟨key, value, timestampNano, flags⟩ := kv
  have hk : (if key.length > 0 then { Kv.empty with key := key } else Kv.empty) =
      ⟨key, [], 0, 0⟩ :=
    set_unless_default (fun (kv : Kv) b => { kv with key := b }) _ key [] nil_of_not_pos rfl
  have hv : (if value.length > 0 then ⟨key, value, 0, 0⟩ else ⟨key, [], 0, 0⟩) =
      (⟨key, value, 0, 0⟩ : Kv) :=
    set_unless_default (fun (kv : Kv) b => { kv with value := b }) ⟨key, [], 0, 0⟩ value []
      nil_of_not_pos rfl
  have hf : (if flags.toUInt64 > 0 then ⟨key, value, 0, flags.toUInt64.toUInt32⟩
      else ⟨key, value, 0, 0⟩) = (⟨key, value, 0, flags⟩ : Kv) := by
    rw [UInt32.toUInt32_toUInt64]
    exact set_unless_default (fun (kv : Kv) v => { kv with flags := v }) ⟨key, value, 0, 0⟩ flags 0
      (fun h => uint32_toUInt64_eq_zero.mp (zero_of_not_pos h)) rfl
  have ht : (if timestampNano > 0 then ⟨key, value, timestampNano, flags⟩
      else ⟨key, value, 0, flags⟩) = (⟨key, value, timestampNano, flags⟩ : Kv) :=
    set_unless_default (fun (kv : Kv) x => { kv with timestampNano := x }) ⟨key, value, 0, flags⟩
      timestampNano 0 zero_of_not_pos rfl
  simp only [hk, hv, hf, ht]

/-! ## The parts of a built message -/

/-- A list of items decodes to these entries and to a change of the `DBI`. -/
def DbiReads (V : Varint) (is : List Item) (kvs : List Kv) (update : DBI → DBI) : Prop :=
  ∃ ps : List (Part V), encodeParts ps = encodeItems V is ∧
    (∀ p ∈ ps, dbiKind p.toField.number ≠ .unknown) ∧
    (∀ qs, readParts (ps ++ qs) = ⟨kvs ++ (readParts qs).kvs, (readParts qs).ending⟩) ∧
    ∀ d, ps.foldl DBI.withPart d = update d

omit [V.Lawful] in
theorem dbiReads_nil : DbiReads V [] [] id := ⟨[], rfl, by simp, fun _ => rfl, fun _ => rfl⟩

omit [V.Lawful] in
theorem DbiReads.append {is js : List Item} {kvs kvs' : List Kv} {u w : DBI → DBI}
    (hi : DbiReads V is kvs u) (hj : DbiReads V js kvs' w) :
    DbiReads V (is ++ js) (kvs ++ kvs') fun d => w (u d) := by
  obtain ⟨ps, hps, hkp, hrp, hu⟩ := hi
  obtain ⟨qs, hqs, hkq, hrq, hw⟩ := hj
  refine ⟨ps ++ qs, ?_, ?_, ?_, ?_⟩
  · rw [encodeParts_append, encodeItems_append, hps, hqs]
  · intro p hp
    rcases List.mem_append.mp hp with h | h
    · exact hkp p h
    · exact hkq p h
  · intro rs
    rw [List.append_assoc, hrp, hrq, List.append_assoc]
  · intro d
    rw [List.foldl_append, hu, hw]

/-- A top-level field other than an entry. -/
theorem dbiReads_item (tag : ℕ) (value : Value) (htag : tag < 16) (h : value.Fits)
    (hno : tag ≠ fieldDBIEntries) (hknown : dbiKind tag ≠ .unknown)
    (ht : (Item.field ⟨tag, value⟩ htag h : Field V).payload.Typed (dbiKind tag)) :
    DbiReads V [⟨tag, value⟩] [] fun d =>
      d.withPart (.field (Item.field ⟨tag, value⟩ htag h : Field V) hno ht) := by
  refine ⟨[.field (Item.field ⟨tag, value⟩ htag h) hno ht], ?_, ?_, fun qs => rfl, fun d => rfl⟩
  · simp [encodeParts, Part.toField, Item.field_bytes]
  · intro p hp
    rw [List.mem_singleton.mp hp]
    exact hknown

theorem dbiReads_name {b : Bytes} (h : b.length + 10 < 2 ^ 63) :
    DbiReads V (sizedItem fieldDBIName b) [] fun d =>
      if b.length > 0 then { d with name := b } else d := by
  unfold sizedItem
  split
  · exact dbiReads_item fieldDBIName (.sized b) (by decide) h (by decide) (by decide) rfl
  · exact dbiReads_nil

theorem dbiReads_transform {b : Bytes} (h : b.length + 10 < 2 ^ 63) :
    DbiReads V (sizedItem fieldDBITransform b) [] fun d =>
      if b.length > 0 then { d with transform := b } else d := by
  unfold sizedItem
  split
  · exact dbiReads_item fieldDBITransform (.sized b) (by decide) h (by decide)
      (by decide) rfl
  · exact dbiReads_nil

theorem dbiReads_flags (v : UInt64) :
    DbiReads V (varintItem fieldDBIFlags v) [] fun d =>
      if v > 0 then { d with flags := v } else d := by
  unfold varintItem
  split
  · exact dbiReads_item fieldDBIFlags (.varint v) (by decide) trivial (by decide)
      (by decide) rfl
  · exact dbiReads_nil

theorem Item.bytes_pos (i : Item) : 0 < (i.bytes V).length := by
  have h := (Varint.Lawful.encode_length (V := V)
    (UInt64.ofNat (8 * i.tag + i.value.wireType.bits))).1
  rw [Item.bytes, List.length_append, encodeTag]
  omega

/-- An entry that is not empty is written. -/
theorem kvItems_length_pos {kv : Kv} (h : kv ≠ .empty) :
    0 < (encodeItems V (kvItems kv)).length := by
  cases his : kvItems kv with
  | nil =>
      exfalso
      apply h
      obtain ⟨key, value, timestampNano, flags⟩ := kv
      simp only [kvItems, List.append_eq_nil_iff, sizedItem, varintItem, fixed64Item,
        uint64_pos, ne_eq, uint32_toUInt64_eq_zero, List.length_pos_iff, gt_iff_lt,
        ite_eq_right_iff, List.cons_ne_nil, imp_false, not_not] at his
      obtain ⟨⟨⟨rfl, rfl⟩, rfl⟩, rfl⟩ := his
      rfl
  | cons i is =>
      have hi := i.bytes_pos (V := V)
      rw [encodeItems_cons, List.length_append]
      omega

theorem dbiReads_entry {kv : Kv} (hne : kv ≠ .empty)
    (hfit : (encodeItems V (kvItems kv)).length + 10 < 2 ^ 63) :
    DbiReads V (entryItems V kv) [kv] id := by
  have hpos := kvItems_length_pos (V := V) hne
  obtain ⟨fs, hfs, ht, hkv⟩ := kvItems_fields hfit
  have hlen := (Varint.Lawful.encode_length (V := V)
    (UInt64.ofNat (encodeFields fs).length)).2
  have hnil : fs ≠ [] := by
    rintro rfl
    rw [← hfs] at hpos
    exact absurd hpos (by simp)
  obtain ⟨e, he⟩ : ∃ e : Entry V, e =
      { raw := encodeTag V fieldDBIEntries .lengthDelimited
        rawSize := V.encode (UInt64.ofNat (encodeFields fs).length)
        fields := fs
        tag := Varint.Lawful.decode_encode _
        size := Varint.Lawful.decode_encode _
        fits := by rw [hfs] at hlen ⊢; omega
        typed := ht } := ⟨_, rfl⟩
  refine ⟨[.entry e], ?_, ?_, ?_, fun d => rfl⟩
  · rw [entryItems, sizedItem, if_pos hpos, ← hfs, he]
    simp [encodeParts, Part.toField, Entry.toField, Field.bytes, Payload.bytes, Item.bytes,
      Value.bytes, Value.wireType]
  · intro p hp
    rw [List.mem_singleton.mp hp]
    show dbiKind fieldDBIEntries ≠ .unknown
    decide
  · intro qs
    have hfields : e.fields = fs := by rw [he]
    rw [List.singleton_append, readParts, hfields, if_neg (by simpa using hnil), hkv]
    rfl

theorem dbiReads_entries {kvs : List Kv} (hne : ∀ kv ∈ kvs, kv ≠ .empty)
    (hfit : (encodeItems V (kvs.flatMap (entryItems V))).length + 10 < 2 ^ 63) :
    DbiReads V (kvs.flatMap (entryItems V)) kvs id := by
  induction kvs with
  | nil => exact dbiReads_nil
  | cons kv kvs ih =>
      rw [List.flatMap_cons, encodeItems_append, List.length_append] at hfit
      have hentry : (encodeItems V (kvItems kv)).length ≤
          (encodeItems V (entryItems V kv)).length := by
        rw [entryItems, length_sizedItem (by decide)]
        split <;> omega
      exact (dbiReads_entry (hne kv List.mem_cons_self) (by omega)).append
        (ih (fun k hk => hne k (List.mem_cons_of_mem _ hk)) (by omega))

/-- The top-level fields of a decoded `DBI`. -/
def DBI.withHead (d head : DBI) : DBI :=
  { d with name := head.name, flags := head.flags, transform := head.transform }

/-- **What was built is read back.** -/
theorem built_reads {head : DBI} {before after : List Kv} {data : Bytes}
    (hdata : data = encodeItems V (dbiItems V before (headItems head) after))
    (hfit : data.length + 10 < 2 ^ 63) (hname : head.name.length ≤ 511)
    (htransform : head.transform.length ≤ 50) (hne : ∀ kv ∈ before ++ after, kv ≠ .empty) :
    newDBIFromData V data = .ok ((DBI.ofData data).withHead head) ∧
      readAll V data = .ok ⟨before ++ after, none⟩ := by
  have hlen := congrArg List.length hdata
  simp only [dbiItems, encodeItems_append, List.length_append] at hlen
  have hbefore : DbiReads V (before.flatMap (entryItems V)) before id :=
    dbiReads_entries (fun kv hkv => hne kv (List.mem_append_left _ hkv)) (by omega)
  have hafter : DbiReads V (after.flatMap (entryItems V)) after id :=
    dbiReads_entries (fun kv hkv => hne kv (List.mem_append_right _ hkv)) (by omega)
  have hhead := ((dbiReads_name (V := V) (b := head.name) (by omega)).append
    (dbiReads_flags head.flags)).append (dbiReads_transform (b := head.transform) (by omega))
  obtain ⟨ps, hps, hknown, hread, hfold⟩ := (hbefore.append hhead).append hafter
  have hps' : encodeParts ps = data := by
    rw [hps, hdata]
    rfl
  constructor
  · have hindex := indexData_parts fun p hp hu => absurd hu (hknown p hp)
    rw [hps', hfold] at hindex
    rw [hindex]
    obtain ⟨name, flags, transform, _, _, _, _⟩ := head
    have hn : (if name.length > 0 then { DBI.ofData data with name := name }
        else DBI.ofData data) = { DBI.ofData data with name := name } :=
      set_unless_default (fun (d : DBI) b => { d with name := b }) _ name [] nil_of_not_pos rfl
    have hf : (if flags > 0 then { DBI.ofData data with name := name, flags := flags }
        else { DBI.ofData data with name := name }) =
          { DBI.ofData data with name := name, flags := flags } :=
      set_unless_default (fun (d : DBI) v => { d with flags := v })
        { DBI.ofData data with name := name } flags 0 zero_of_not_pos rfl
    have ht : (if transform.length > 0 then
          { DBI.ofData data with name := name, flags := flags, transform := transform }
        else { DBI.ofData data with name := name, flags := flags }) =
          { DBI.ofData data with name := name, flags := flags, transform := transform } :=
      set_unless_default (fun (d : DBI) b => { d with transform := b })
        { DBI.ofData data with name := name, flags := flags } transform [] nil_of_not_pos rfl
    simp only [id_eq, hn, hf, ht, DBI.withHead]
  · have hall := hread []
    rw [List.append_nil] at hall
    rw [← hps', readAll_parts, hall]
    simp [readParts]

end LightningStream.Snapshot
