import LightningStream.Snapshot.Codec
import LightningStream.Syncer.Native

/-!
# Replication fidelity

The whole way of the data from one native environment to another: `SendOnce`
reads every DBI into a message and writes the snapshot, the receiver decodes
the bytes, and `LoadOnce` merges the messages into an empty environment. The
codec gives the messages back as they were (`message_round_trip`), and merging
them creates a replica (`load_copies`).
-/

namespace LightningStream.Syncer.Fidelity

open Lmdb Snapshot Strategy Header

/-! ## Sending and receiving -/

/-- The calls that `readDBI` makes to build the message of a DBI. -/
def dbiOps (d : DbiMsg DecodeErr) : List Op :=
  [.setName d.name, .setFlags d.flags] ++ d.reading.kvs.map .append

inductive SendErr
  | entry (e : EntryErr)
  | panic (p : Panic)
deriving DecidableEq

/-- The snapshot that `SendOnce` writes. The size hint of a DBI comes from the
statistics of LMDB. -/
def sendSnapshot (V : Varint) (G : Growth) (sizeHint : Bytes → ℕ) (m : Meta) (c : Contents) :
    Except SendErr Snapshot := do
  let msg ← (dump c).mapError .entry
  let dbis ← (msg.databases.mapM fun d => build V G (sizeHint d.name) (dbiOps d)).mapError .panic
  .ok ⟨msg.formatVersion, msg.compatVersion, m, dbis⟩

/-- A decoded DBI as `LoadOnce` reads it. -/
def readMessage (V : Varint) (d : DBI) : Decoding (DbiMsg DecodeErr) := do
  let r ← readAll V d.data
  .ok ⟨d.name, d.flags, d.transform, r⟩

/-- The update that the receiver hands to `LoadOnce`. -/
def receive (C : Csproto) (data : Bytes) : Decoding (Message DecodeErr) := do
  let s ← Snapshot.unmarshal C data
  let dbs ← s.databases.mapM (readMessage C.toVarint)
  .ok ⟨s.formatVersion, s.compatVersion, dbs⟩

/-! ## The codec is the identity on messages -/

/-- A message that `readDBI` can build. -/
structure Sendable (d : DbiMsg DecodeErr) : Prop where
  name : 1 ≤ d.name.length ∧ d.name.length ≤ 511
  transform : d.transform = []
  ending : d.reading.ending = none
  entries : ∀ kv ∈ d.reading.kvs, kv ≠ .empty

variable {C : Csproto} [C.Lawful] {V : Varint} [V.Lawful] {G : Growth}

omit [V.Lawful] in
theorem foldl_setHead_appends (h : Head) (kvs : List Kv) :
    (kvs.map Op.append).foldl Op.setHead h = h := by
  induction kvs with
  | nil => rfl
  | cons kv kvs ih => exact ih

omit [V.Lawful] in
theorem appended_dbiOps (d : DbiMsg DecodeErr) :
    (dbiOps d).filterMap Op.appended = d.reading.kvs := by
  show (d.reading.kvs.map Op.append).filterMap Op.appended = _
  rw [List.filterMap_map]
  exact List.filterMap_some

/-- The built DBI of a message. -/
theorem exists_built {d : DbiMsg DecodeErr} (h : Sendable d) (size : ℕ) :
    ∃ b : BuiltDBI V G, build V G size (dbiOps d) = .ok b.dbi ∧ Built V b.dbi d.reading.kvs ∧
      b.script.kvs = d.reading.kvs ∧ b.dbi.head = ⟨d.name, d.flags, []⟩ := by
  have hproper : ∀ op ∈ dbiOps d, op.Proper := by
    intro op hop
    rcases List.mem_append.mp hop with hop | hop
    · rcases List.mem_cons.mp hop with rfl | hop
      · exact h.name
      · rw [List.mem_singleton.mp hop]
        trivial
    · obtain ⟨kv, hkv, rfl⟩ := List.mem_map.mp hop
      exact h.entries kv hkv
  obtain ⟨dbi, hdbi⟩ : ∃ dbi, build V G size (dbiOps d) = .ok dbi := by
    apply build_setters_first
    · intro op hop
      exact (hproper op (List.mem_append_left _ hop)).fits
    · simp [Op.appended]
  rcases build_cases (V := V) (G := G) size (fun op hop => (hproper op hop).fits) with
    ⟨d₁, h₁, hbuilt, hhead⟩ | h₁
  · obtain rfl : d₁ = dbi := Except.ok.inj (h₁.symm.trans hdbi)
    rw [appended_dbiOps] at hbuilt
    rw [dbiOps, List.foldl_append, foldl_setHead_appends] at hhead
    exact ⟨⟨⟨size, dbiOps d, hproper, d.name, List.mem_cons_self⟩, d₁, hdbi⟩, hdbi, hbuilt,
      appended_dbiOps d, hhead⟩
  · cases h₁.symm.trans hdbi

theorem exists_built_all {ds : List (DbiMsg DecodeErr)} (h : ∀ d ∈ ds, Sendable d)
    (sizeHint : Bytes → ℕ) :
    ∃ bs : List (BuiltDBI V G),
      ds.mapM (fun d => build V G (sizeHint d.name) (dbiOps d)) = .ok (bs.map BuiltDBI.dbi) ∧
      List.Forall₂ (fun d b => b.script.kvs = d.reading.kvs ∧
        b.dbi.head = ⟨d.name, d.flags, []⟩) ds bs := by
  induction ds with
  | nil => exact ⟨[], rfl, .nil⟩
  | cons d ds ih =>
      obtain ⟨b, hb, -, hd⟩ := exists_built (V := V) (G := G) (h d List.mem_cons_self)
        (sizeHint d.name)
      obtain ⟨bs, hbs, hds⟩ := ih fun x hx => h x (List.mem_cons_of_mem _ hx)
      refine ⟨b :: bs, ?_, .cons hd hds⟩
      rw [List.mapM_cons, hb, hbs]
      rfl

omit [V.Lawful] in
theorem readMessages_eq {ds : List (DbiMsg DecodeErr)} {bs : List (BuiltDBI V G)}
    {dbis : List DBI} (h : ∀ d ∈ ds, Sendable d)
    (hbs : List.Forall₂ (fun d b => b.script.kvs = d.reading.kvs ∧
      b.dbi.head = ⟨d.name, d.flags, []⟩) ds bs)
    (hdbis : List.Forall₂ BuiltDBI.Decoded bs dbis) :
    dbis.mapM (readMessage V) = .ok ds := by
  induction hbs generalizing dbis with
  | nil =>
      cases hdbis
      rfl
  | @cons d b ds bs hd _ ih =>
      cases hdbis with
      | @cons _ dbi _ dbis hdecoded hrest =>
          have hsend := h d List.mem_cons_self
          have hone : readMessage V dbi = .ok d := by
            obtain ⟨hkvs, hhead⟩ := hd
            rw [readMessage, hdecoded.entries_eq, hkvs, hdecoded.name_eq, hdecoded.flags_eq,
              hdecoded.transform_eq]
            have hname : b.dbi.name = d.name := congrArg Head.name hhead
            have hflags : b.dbi.flags = d.flags := congrArg Head.flags hhead
            have htransform : b.dbi.transform = d.transform :=
              (congrArg Head.transform hhead).trans hsend.transform.symm
            rw [hname, hflags, htransform, ← hsend.ending]
            rfl
          rw [List.mapM_cons, hone, ih (fun x hx => h x (List.mem_cons_of_mem _ hx)) hrest]
          rfl

/-- **The codec gives a message back**, within the limits of the decoders. -/
theorem message_round_trip {msg : Message DecodeErr} (h : ∀ d ∈ msg.databases, Sendable d)
    (sizeHint : Bytes → ℕ) {m : Meta} (htxn : 0 ≤ m.lmdbTxnID) (hfrom : 0 ≤ m.fromLmdbTxnID) :
    ∃ dbis bytes, msg.databases.mapM (fun d => build C.toVarint G (sizeHint d.name) (dbiOps d)) =
        .ok dbis ∧
      Snapshot.writeTo C.toVarint G ⟨msg.formatVersion, msg.compatVersion, m, dbis⟩ = .ok bytes ∧
      (Limits C G ⟨msg.formatVersion, msg.compatVersion, m, dbis⟩ → receive C bytes = .ok msg) := by
  obtain ⟨bs, hbuild, hbs⟩ := exists_built_all (V := C.toVarint) (G := G) h sizeHint
  obtain ⟨msgs, hmsgs, hds⟩ := exists_messages bs
  refine ⟨_, _, hbuild, writeTo_eq (s := ⟨_, _, m, bs.map BuiltDBI.dbi⟩) hmsgs, fun hlimits => ?_⟩
  obtain ⟨ds, hforall, hdecoded⟩ := hds fun b hb =>
    hlimits.dbiMessages b.dbi (List.mem_map_of_mem hb)
  rw [receive, unmarshal_items hlimits.strings (hlimits.metaMessage _ (marshal_eq m)) htxn hfrom
    hforall]
  simp only [bind, Except.bind, readMessages_eq h hbs hdecoded]

/-! ## Merging into an empty environment -/

/-- A stored value says the same as another one: the timestamp, the masked flags,
and the application value unless the entry is Deleted. -/
def SameEntry (v v' : Bytes) : Prop :=
  ∀ h app, parse v = .ok (h, app) →
    ∃ h', parse v' = .ok (h', if isDeleted h.flags then [] else app) ∧
      h'.timestamp = h.timestamp ∧ h'.flags = masked h.flags

/-- The same keys with the same entries. -/
structure Copied (d d' : Dbi) : Prop where
  keys : ∀ k, (d'.get k).isSome = (d.get k).isSome
  entries : ∀ k v v', d.get k = some v → d'.get k = some v' → SameEntry v v'

/-- The same DBIs with the same entries. -/
structure Replica (c c' : Contents) : Prop where
  names : ∀ n, (c'.get n).isSome = (c.get n).isSome
  dbis : ∀ n d d', c.get n = some d → c'.get n = some d' → Copied d d'

/-- The iterator of `LoadOnce` while the sweeper is disabled. -/
def loadIt (padding : Bool) (txnID : TxnID) : NativeIterator :=
  loadIterator padding 0 currentFormatVersion txnID

/-- What an entry of the message becomes. -/
def written (padding : Bool) (txnID : TxnID) (kv : Kv) : Bytes :=
  (loadIt padding txnID).addHeader kv.value kv.timestampNano kv.maskedFlags

variable {padding : Bool} {txnID : TxnID}

/-- `Merge` against an absent entry, with no deletion cutoff. -/
theorem merge_absent (kv : Kv) :
    (loadIt padding txnID).merge kv [] = .ok (some (written padding txnID kv)) := by
  unfold NativeIterator.merge
  rw [if_pos rfl, if_neg]
  · rfl
  · rintro ⟨-, hlt⟩
    exact absurd hlt (UInt64.not_lt.mpr (UInt64.zero_le))

theorem written_sameEntry {k v : Bytes} :
    SameEntry v (written padding txnID (headerKv (k, v))) := by
  intro h app hp
  rw [headerKv_of_parse hp]
  obtain ⟨h', hp', hts, -, hflags⟩ := parse_addHeader (loadIt padding txnID) app h.timestamp
    (masked h.flags)
  have hwf : (loadIt padding txnID).writtenFlags app (masked h.flags) = masked h.flags :=
    writtenFlags_of_current _ rfl _ _
  have hwt : (loadIt padding txnID).writtenTS h.timestamp = h.timestamp :=
    writtenTS_of_noDefault _ rfl _
  rw [NativeIterator.writtenVal, hwf, isDeleted_masked] at hp'
  refine ⟨h', ?_, hts.trans hwt, hflags.trans hwf⟩
  rw [written, maskedFlags_of_masked]
  exact hp'

/-- **Merging a dump into an empty DBI copies it.** -/
theorem applyMessage_copies (padding : Bool) {η : Type} {d : Dbi}
    (hplain : d.flags = KeyFlags.plain) (htxn : txnID ≠ 0) (dirty : Bool) :
    ∃ r : Txn, applyMessage (η := η) padding 0 currentFormatVersion writeCompatFormatVersion txnID
        (Reading.ofList (d.entries.map headerKv)) ⟨Dbi.empty KeyFlags.plain, dirty⟩ = .ok r ∧
      Copied d r.dbi := by
  have hkeys : (d.entries.map headerKv).map Kv.key = d.keys := by
    rw [List.map_map]
    exact List.map_congr_left fun e _ => headerKv_key e
  have hnodup : ((d.entries.map headerKv).map Kv.key).Nodup := by
    rw [hkeys]
    exact d.keys_nodup
  have hne : ∀ kv ∈ d.entries.map headerKv, kv.key ≠ [] := by
    intro kv hkv hnil
    have hmem : kv.key ∈ d.keys := hkeys ▸ List.mem_map_of_mem hkv
    have hlen := (d.keys_allowed.1 kv.key hmem).1
    rw [hnil] at hlen
    exact absurd hlen (by decide)
  have hallowed : KeyFlags.plain.Allowed ((d.entries.map headerKv).map Kv.key ++ []) := by
    rw [hkeys, List.append_nil, ← hplain]
    exact d.keys_allowed
  obtain ⟨r, hr, -, hget⟩ := @update_spec _ _
    ((loadIt padding txnID).iterator (η := η) (Reading.ofList (d.entries.map headerKv)))
    ⟨Dbi.empty KeyFlags.plain, dirty⟩ (fun kv _ => some (written padding txnID kv)) rfl hnodup hne
    (by
      intro kv _
      show ((loadIt padding txnID).merge kv []).mapError _ = _
      rw [merge_absent]
      rfl) hallowed
  have hfind : ∀ k, ((loadIt padding txnID).iterator (η := η)
      (Reading.ofList (d.entries.map headerKv))).find k =
        (d.get k).map fun v => headerKv (k, v) := find_map_entries headerKv_key
  have hvalue : ∀ k, r.dbi.get k =
      (d.get k).map fun v => written padding txnID (headerKv (k, v)) := by
    intro k
    rw [hget k, hfind k]
    cases d.get k with
    | none => rfl
    | some v =>
        show present (some (written padding txnID (headerKv (k, v)))) = _
        exact present_eq_some.mpr ⟨rfl, addHeader_ne_nil _ _ _ _⟩
  refine ⟨r, ?_, ⟨fun k => ?_, fun k v v' hv hv' => ?_⟩⟩
  · rw [applyMessage_eq _ _ (by decide) (by decide) htxn]
    show (update _ ((loadIt padding txnID).iterator _)).mapError _ = _
    rw [hr]
    rfl
  · rw [hvalue k, Option.isSome_map]
  · rw [hvalue k, hv] at hv'
    rw [← Option.some.inj hv']
    exact written_sameEntry

/-- The message that `SendOnce` dumps for a DBI. -/
def dumped (e : Bytes × Dbi) : DbiMsg DecodeErr :=
  ⟨e.1, e.2.flags.bits, transformNone, Reading.ofList (e.2.entries.map headerKv)⟩

/-- A DBI without special flags whose values have valid headers. -/
structure PlainNative (d : Dbi) : Prop where
  flags : d.flags = KeyFlags.plain
  headers : HeadersValid d

/-- No configured creation flags. -/
def loadOptions (padding : Bool) : LoadOptions := ⟨padding, fun _ => none⟩

/-- One round of `LoadOnce` creates the DBI and copies it. -/
theorem loadDbi_copies (padding : Bool) {t : EnvTxn} {e : Bytes × Dbi}
    (hpriv : isPrivate e.1 = false)
    (hname : 1 ≤ e.1.length ∧ e.1.length ≤ maxKeySize) (he : PlainNative e.2)
    (hnew : t.contents.get e.1 = none) (htxn : txnID ≠ 0) :
    ∃ t', loadDbi (loadOptions padding) 0 currentFormatVersion writeCompatFormatVersion txnID t
        (dumped e) = .ok t' ∧
      (∃ d', t'.contents.get e.1 = some d' ∧ Copied e.2 d') ∧
      ∀ n, n ≠ e.1 → t'.contents.get n = t.contents.get n := by
  obtain ⟨t₁, hcreate, hget₁⟩ := EnvTxn.create_spec (t := t) KeyFlags.plain hname
  have htarget : createTarget (loadOptions padding) t (dumped e) = .ok t₁ := by
    have hbits : (dumped e).flags = 0 := by
      show e.2.flags.bits = 0
      rw [he.flags]
      rfl
    unfold createTarget
    rw [if_neg (by rw [show (dumped e).name = e.1 from rfl, hnew]; exact Bool.false_ne_true)]
    simp only [loadOptions, Option.getD_none, hbits]
    rw [if_pos (by decide), show KeyFlags.ofBits 0 = KeyFlags.plain from by decide]
    show (t.create e.1 KeyFlags.plain).mapError _ = _
    rw [hcreate]
    rfl
  have htransform : (dumped e).validateTransform currentFormatVersion true = .ok () := by
    have hbits : e.2.flags.bits = 0 := by
      rw [he.flags]
      rfl
    have hdup : ¬ (0 : UInt64) &&& dupSort > 0 := by decide
    have hhack : transformNone ≠ transformDupSortHackV1 := by decide
    unfold DbiMsg.validateTransform dumped
    simp only [hbits, hdup, hhack, transformSupported, decide_true, Bool.true_or, Bool.not_true,
      Bool.false_eq_true, if_false, ne_eq, not_true_eq_false, and_false, false_and]
  have hself : t₁.contents.get e.1 = some (Dbi.empty KeyFlags.plain) := by
    rw [hget₁, if_pos rfl]
  obtain ⟨r, hr, hcopied⟩ := applyMessage_copies padding (η := DecodeErr) he.flags htxn t₁.dirty
  have happly : (applyMessage padding 0 currentFormatVersion writeCompatFormatVersion txnID
      (dumped e).reading ⟨Dbi.empty KeyFlags.plain, t₁.dirty⟩).mapError LoadErr.apply = .ok r := by
    rw [show (dumped e).reading = Reading.ofList (e.2.entries.map headerKv) from rfl, hr]
    rfl
  obtain ⟨t', honDbi, -, hget'⟩ := @EnvTxn.onDbi_spec _ t₁ e.1 _
    (fun r => (applyMessage padding 0 currentFormatVersion writeCompatFormatVersion txnID
      (dumped e).reading r).mapError LoadErr.apply) LoadErr.notFound r hself happly
  refine ⟨t', ?_, ⟨r.dbi, by rw [hget', if_pos rfl], hcopied⟩, fun n hn => ?_⟩
  · unfold loadDbi
    rw [show (dumped e).name = e.1 from rfl, hpriv]
    simp only [Bool.false_eq_true, if_false, htransform, htarget, Except.mapError, bind,
      Except.bind]
    exact honDbi
  · rw [hget', if_neg hn, hget₁, if_neg hn]

/-- **The rounds of `LoadOnce` copy all DBIs of a dump.** -/
theorem load_copies (padding : Bool) {es : List (Bytes × Dbi)} (hnodup : (es.map Prod.fst).Nodup)
    (hes : ∀ e ∈ es, isPrivate e.1 = false ∧ (1 ≤ e.1.length ∧ e.1.length ≤ maxKeySize) ∧
      PlainNative e.2) (htxn : txnID ≠ 0) {t : EnvTxn}
    (hnew : ∀ e ∈ es, t.contents.get e.1 = none) :
    ∃ t', (es.map dumped).foldlM (loadDbi (loadOptions padding) 0 currentFormatVersion
        writeCompatFormatVersion txnID) t = .ok t' ∧
      (∀ e ∈ es, ∃ d', t'.contents.get e.1 = some d' ∧ Copied e.2 d') ∧
      ∀ n, n ∉ es.map Prod.fst → t'.contents.get n = t.contents.get n := by
  induction es generalizing t with
  | nil => exact ⟨t, rfl, by simp, fun n _ => rfl⟩
  | cons e es ih =>
      rw [List.map_cons, List.nodup_cons] at hnodup
      obtain ⟨hpriv, hname, hplain⟩ := hes e List.mem_cons_self
      obtain ⟨t₁, h₁, ⟨d₁, hd₁, hcopied⟩, hother⟩ := loadDbi_copies padding hpriv hname hplain
        (hnew e List.mem_cons_self) htxn
      have hnew₁ : ∀ x ∈ es, t₁.contents.get x.1 = none := by
        intro x hx
        have hne : x.1 ≠ e.1 := fun heq => hnodup.1 (heq ▸ List.mem_map_of_mem hx)
        rw [hother x.1 hne]
        exact hnew x (List.mem_cons_of_mem _ hx)
      obtain ⟨t', h', hall, hrest⟩ := ih hnodup.2 (fun x hx => hes x (List.mem_cons_of_mem _ hx))
        hnew₁
      refine ⟨t', ?_, ?_, ?_⟩
      · rw [List.map_cons, List.foldlM_cons, h₁]
        exact h'
      · rintro x (_ | ⟨_, hx⟩)
        · exact ⟨d₁, by rw [hrest _ hnodup.1, hd₁], hcopied⟩
        · exact hall x hx
      · intro n hn
        rw [List.map_cons, List.mem_cons, not_or] at hn
        rw [hrest n hn.2, hother n hn.1]

/-! ## The whole way -/

/-- An environment that native mode replicates as it is. -/
def Replicable (c : Contents) : Prop :=
  ∀ n d, c.get n = some d → isPrivate n = false ∧ PlainNative d

variable {c : Contents}

theorem Replicable.of_mem (hc : Replicable c) {e : Bytes × Dbi} (he : e ∈ c.map.entries) :
    c.get e.1 = some e.2 ∧ isPrivate e.1 = false ∧ PlainNative e.2 := by
  have hget : c.get e.1 = some e.2 := SortedMap.mem_entries_iff.mp he
  exact ⟨hget, hc e.1 e.2 hget⟩

theorem dump_eq (hc : Replicable c) :
    dump c = .ok ⟨currentFormatVersion, writeCompatFormatVersion, c.map.entries.map dumped⟩ := by
  have hall : c.map.entries.filter (fun e => !isPrivate e.1) = c.map.entries := by
    apply List.filter_eq_self.mpr
    intro e he
    rw [(hc.of_mem he).2.1]
    rfl
  have hdump : c.map.entries.mapM dumpDbi = .ok (c.map.entries.map dumped) := by
    apply mapM_eq_ok_map
    intro e he
    rw [dumpDbi, readDBI_headers e.1 (hc.of_mem he).2.2.headers]
    rfl
  rw [dump, hall, hdump]
  rfl

theorem dumped_sendable (hc : Replicable c) {e : Bytes × Dbi} (he : e ∈ c.map.entries) :
    Sendable (dumped e) where
  name := Contents.named_of_get (hc.of_mem he).1
  transform := rfl
  ending := rfl
  entries := by
    rintro kv hkv rfl
    obtain ⟨x, hx, hkv⟩ := List.mem_map.mp hkv
    have hlen := (e.2.keys_allowed.1 x.1 (List.mem_map_of_mem hx)).1
    rw [← headerKv_key x, hkv] at hlen
    exact absurd hlen (by decide)

/-- **Replication fidelity.** What one instance sends and another one loads into
an empty environment is a replica, within the limits of the decoders. -/
theorem replication_fidelity (C : Csproto) [C.Lawful] (G : Growth) (sizeHint : Bytes → ℕ)
    {m : Meta} (hmeta : 0 ≤ m.lmdbTxnID) (hfrom : 0 ≤ m.fromLmdbTxnID) {c : Contents}
    (hc : Replicable c) (padding : Bool) {txnID : TxnID} (htxn : txnID ≠ 0) :
    ∃ s bytes, sendSnapshot C.toVarint G sizeHint m c = .ok s ∧
      s.writeTo C.toVarint G = .ok bytes ∧
      (Limits C G s → ∃ msg t, receive C bytes = .ok msg ∧
        loadOnce (loadOptions padding) 0 txnID msg .empty = .ok t ∧ Replica c t.contents) := by
  obtain ⟨dbis, bytes, hbuild, hwrite, hreceive⟩ := @message_round_trip C _ G
    ⟨currentFormatVersion, writeCompatFormatVersion, c.map.entries.map dumped⟩ (by
      intro d hd
      obtain ⟨e, he, rfl⟩ := List.mem_map.mp hd
      exact dumped_sendable hc he) sizeHint m hmeta hfrom
  refine ⟨_, bytes, ?_, hwrite, fun hlimits => ?_⟩
  · rw [sendSnapshot, dump_eq hc]
    simp only [Except.mapError, bind, Except.bind, hbuild]
  · have hnodup : (c.map.entries.map Prod.fst).Nodup := c.map.keys_sorted.imp fun h => h.ne
    obtain ⟨t, hload, hcopied, hother⟩ := load_copies padding (t := EnvTxn.start .empty)
      hnodup (fun e he => ⟨(hc.of_mem he).2.1, Contents.named_of_get (hc.of_mem he).1,
        (hc.of_mem he).2.2⟩) htxn (fun _ _ => rfl)
    refine ⟨_, t, hreceive hlimits, hload, ⟨fun n => ?_, fun n d d' hd hd' => ?_⟩⟩
    · cases hn : c.get n with
      | none =>
          have hnot : n ∉ c.map.entries.map Prod.fst := by
            intro hmem
            obtain ⟨e, he, rfl⟩ := List.mem_map.mp hmem
            rw [(hc.of_mem he).1] at hn
            cases hn
          rw [hother n hnot]
          rfl
      | some d =>
          obtain ⟨d', hd', -⟩ := hcopied (n, d) (SortedMap.mem_entries_iff.mpr hn)
          rw [hd']
          rfl
    · obtain ⟨d₁, hd₁, hcopy⟩ := hcopied (n, d) (SortedMap.mem_entries_iff.mpr hd)
      rw [Option.some.inj (hd'.symm.trans hd₁)]
      exact hcopy

/-- An environment with one DBI. -/
def single (d : Dbi) : Contents := Contents.empty.set [100] d (by decide)

theorem single_get {d d' : Dbi} {n : Bytes} (h : (single d).get n = some d') :
    n = [100] ∧ d' = d := by
  rw [single, Contents.get_set] at h
  split at h
  · rename_i hn
    exact ⟨hn, (Option.some.inj h).symm⟩
  · cases h

theorem replicable_single {d : Dbi} (hd : PlainNative d) : Replicable (single d) := by
  intro n d' h
  obtain ⟨rfl, rfl⟩ := single_get h
  exact ⟨by decide, hd⟩

/-- An environment with one DBI and one entry. -/
def oneEntry (ts : Timestamp) (value : Bytes) : Contents :=
  single ((Dbi.empty KeyFlags.plain).set [1] (putBasic ts 1 noFlags ++ value) Dbi.allowed_one)

theorem oneEntry_replicable (ts : Timestamp) (value : Bytes) : Replicable (oneEntry ts value) := by
  refine replicable_single ⟨rfl, fun k v hv => ?_⟩
  rw [Dbi.get_set] at hv
  split at hv
  · rw [← Option.some.inj hv]
    exact ⟨_, parse_putBasic ts 1 noFlags value⟩
  · cases hv

/-- The snapshot of one small entry. -/
def smallSnapshot : Snapshot :=
  ⟨3, 1, .empty, [⟨[100], 0, [],
    [10, 1, 100, 18, 15, 10, 1, 1, 18, 1, 9, 25, 7, 0, 0, 0, 0, 0, 0, 0], 10485777, false, true⟩]⟩

theorem smallSnapshot_limits : Limits plainCsproto tightGrowth smallSnapshot := by
  refine ⟨⟨by decide, by decide, by decide, by decide⟩, ?_, ?_⟩
  · intro msg hmsg
    have hnil : Meta.empty.marshal leb128 = .ok [] := marshal_eq Meta.empty
    obtain rfl : [] = msg := Except.ok.inj (hnil.symm.trans hmsg)
    decide
  · intro d hd d' hm
    obtain rfl := List.mem_singleton.mp hd
    have hself := Except.ok.inj
      (hm.symm.trans (show DBI.marshal leb128 tightGrowth _ = .ok _ from rfl))
    rw [hself]
    decide

theorem replication_fidelity_one : ∃ bytes msg t,
    smallSnapshot.writeTo leb128 tightGrowth = .ok bytes ∧ receive plainCsproto bytes = .ok msg ∧
    loadOnce (loadOptions true) 0 1 msg .empty = .ok t ∧ Replica (oneEntry 7 [9]) t.contents := by
  obtain ⟨s, bytes, hsend, hwrite, hload⟩ := replication_fidelity plainCsproto tightGrowth
    (fun _ => 0) (show 0 ≤ Meta.empty.lmdbTxnID by decide)
    (show 0 ≤ Meta.empty.fromLmdbTxnID by decide) (oneEntry_replicable 7 [9]) true
    (show (1 : TxnID) ≠ 0 by decide)
  have hs : sendSnapshot leb128 tightGrowth (fun _ => 0) .empty (oneEntry 7 [9]) =
      .ok smallSnapshot := by decide +kernel
  obtain rfl : smallSnapshot = s := Except.ok.inj (hs.symm.trans hsend)
  obtain ⟨msg, t, hmsg, ht, hreplica⟩ := hload smallSnapshot_limits
  exact ⟨bytes, msg, t, hwrite, hmsg, ht, hreplica⟩

/-- A DBI with 200 entries of one size. -/
def manyEntries (value : Bytes) : Dbi :=
  .numbered 200 (by decide) (putBasic 7 1 noFlags ++ value)

theorem manyEntries_plainNative (value : Bytes) : PlainNative (manyEntries value) := by
  refine ⟨rfl, fun k v hv => ?_⟩
  have hmem := Dbi.mem_entries_iff.mpr hv
  rw [manyEntries, Dbi.numbered_entries] at hmem
  obtain ⟨i, -, hi⟩ := List.mem_map.mp hmem
  obtain ⟨-, rfl⟩ := Prod.mk.inj hi
  exact ⟨_, parse_putBasic 7 1 noFlags value⟩

theorem manyEntries_kvs (value : Bytes) : (manyEntries value).entries.map headerKv =
    (List.range 200).map fun i => ⟨beBytes 2 i, value, 7, 0⟩ := by
  rw [manyEntries, Dbi.numbered_entries, List.map_map]
  refine List.map_congr_left fun i _ => ?_
  rw [Function.comp_apply, headerKv_of_parse (parse_putBasic 7 1 noFlags value)]
  rfl

theorem sum_manyEntries (value : Bytes) {f : Kv → ℕ} {n : ℕ}
    (h : ∀ i, f ⟨beBytes 2 i, value, 7, 0⟩ = n) :
    (((manyEntries value).entries.map headerKv).map f).sum = 200 * n := by
  rw [manyEntries_kvs, List.map_map, show f ∘ _ = fun _ => n from funext h, List.map_const',
    List.length_range, List.sum_replicate_nat]

/-- **A DBI with 200 entries of half a GB is sent but not received.** -/
theorem large_dbi_not_received : ∃ s bytes,
    sendSnapshot leb128 tightGrowth (fun _ => 0) .empty
      (single (manyEntries (List.replicate (2 ^ 29) 0))) = .ok s ∧
    s.writeTo leb128 tightGrowth = .ok bytes ∧
    receive plainCsproto bytes = .error (.error .malformed) := by
  obtain ⟨value, hvalue⟩ : ∃ value : Bytes, value = List.replicate (2 ^ 29) 0 := ⟨_, rfl⟩
  have hlen : value.length = 2 ^ 29 := by rw [hvalue]; exact List.length_replicate
  have hmax : maxFieldLength = 107374182400 := rfl
  rw [← hvalue]
  have hc := replicable_single (manyEntries_plainNative value)
  have hsend : Sendable (dumped ([100], manyEntries value)) :=
    dumped_sendable hc List.mem_cons_self
  obtain ⟨b, hbuild, hbuilt, -⟩ := exists_built (V := leb128) (G := tightGrowth) hsend 0
  have hvalues : ∀ kv ∈ (manyEntries value).entries.map headerKv, kv.value ≠ [] := by
    intro kv hkv
    rw [manyEntries_kvs] at hkv
    obtain ⟨i, -, rfl⟩ := List.mem_map.mp hkv
    exact List.ne_nil_of_length_pos (by simp [hlen])
  have hlarge := sum_manyEntries value (f := fun kv => kv.value.length + 1)
    (n := value.length + 1) fun _ => rfl
  have hfit := sum_manyEntries value (f := fun kv => kv.key.length + kv.value.length + 53)
    (n := 2 + value.length + 53) fun _ => by rw [beBytes_length]
  obtain ⟨bytes, hwrite, hread⟩ := large_entries_refused (C := plainCsproto) (G := tightGrowth)
    hbuilt hvalues (hlarge.ge.trans_lt' (by omega)) (hfit.trans_lt (by omega))
    currentFormatVersion writeCompatFormatVersion
  refine ⟨_, bytes, ?_, hwrite, ?_⟩
  · rw [sendSnapshot, dump_eq hc]
    have hdump : (single (manyEntries value)).map.entries.map dumped =
        [dumped ([100], manyEntries value)] := rfl
    rw [hdump]
    simp only [Except.mapError, bind, Except.bind, List.mapM_cons, List.mapM_nil, hbuild]
    rfl
  · rw [receive, hread]
    rfl

end LightningStream.Syncer.Fidelity
