import LightningStream.Syncer.Fidelity
import LightningStream.Syncer.ShadowCopies
import LightningStream.Syncer.TableCopies

/-!
# Replication fidelity in shadow mode

The whole way of the data from the application's DBIs of one environment to those of
another: `SendOnce` copies the DBIs to their shadows and dumps these, the snapshot is
written, received and decoded, and `LoadOnce` merges it into the shadows of an empty
environment and copies them to new DBIs. The application finds there what it has
here, also in DBIs with `MDB_DUPSORT` (`shadow_replication_fidelity`).

In between the entries change: a tombstone that is too old is not merged, and the
headers are written anew. What counts is what the copy back reads (`Brought`).
-/

namespace LightningStream.Syncer.ShadowTables

open Lmdb Snapshot Strategy Header

/-! ## The codec on messages with a transform -/

/-- The calls that `readDBI` makes to build the message of a DBI. -/
def dbiOps (d : DbiMsg DecodeErr) : List Op :=
  [.setName d.name] ++ (if d.transform = transformNone then [] else [.setTransform d.transform]) ++
    [.setFlags d.flags] ++ d.reading.kvs.map .append

/-- The snapshot that `SendOnce` writes. -/
def sendSnapshot (V : Varint) (G : Growth) (sizeHint : Bytes → ℕ) (m : Meta)
    (msg : Message DecodeErr) : Except Panic Snapshot := do
  let dbis ← msg.databases.mapM fun d => build V G (sizeHint d.name) (dbiOps d)
  .ok ⟨msg.formatVersion, msg.compatVersion, m, dbis⟩

/-- A message that `readDBI` can build. -/
structure Buildable (d : DbiMsg DecodeErr) : Prop where
  name : 1 ≤ d.name.length ∧ d.name.length ≤ maxKeySize
  transform : d.transform.length ≤ 50
  ending : d.reading.ending = none
  entries : ∀ kv ∈ d.reading.kvs, kv ≠ .empty

section Codec

variable {C : Csproto} [C.Lawful] {V : Varint} [V.Lawful] {G : Growth}

theorem dbiOps_eq (d : DbiMsg DecodeErr) :
    ∃ setters, dbiOps d = setters ++ d.reading.kvs.map .append ∧ .setName d.name ∈ setters ∧
      (∀ op ∈ setters, op = .setName d.name ∨ op = .setTransform d.transform ∨
        op = .setFlags d.flags) ∧
      setters.foldl Op.setHead ⟨[], 0, []⟩ = ⟨d.name, d.flags, d.transform⟩ := by
  refine ⟨_, rfl, ?_, ?_, ?_⟩
  · simp
  · intro op hop
    by_cases ht : d.transform = transformNone
    · rw [if_pos ht] at hop
      simp only [List.append_nil, List.cons_append, List.nil_append, List.mem_cons,
        List.not_mem_nil, or_false] at hop
      exact hop.imp_right Or.inr
    · rw [if_neg ht] at hop
      simpa using hop
  · by_cases ht : d.transform = transformNone
    · rw [if_pos ht, ht]
      rfl
    · rw [if_neg ht]
      rfl

/-- A built DBI stands for a message. -/
structure StandsFor (d : DbiMsg DecodeErr) (b : BuiltDBI V G) : Prop where
  entries : b.script.kvs = d.reading.kvs
  head : b.dbi.head = ⟨d.name, d.flags, d.transform⟩
  ending : d.reading.ending = none

theorem exists_standsFor {d : DbiMsg DecodeErr} (h : Buildable d) (size : ℕ) :
    ∃ b : BuiltDBI V G, build V G size (dbiOps d) = .ok b.dbi ∧ StandsFor d b := by
  obtain ⟨setters, hops, hname, hset, hhead⟩ := dbiOps_eq d
  have hproper : ∀ op ∈ dbiOps d, op.Proper := by
    intro op hop
    rw [hops] at hop
    rcases List.mem_append.mp hop with hop | hop
    · rcases hset op hop with rfl | rfl | rfl
      · exact h.name
      · exact h.transform
      · trivial
    · obtain ⟨kv, hkv, rfl⟩ := List.mem_map.mp hop
      exact h.entries kv hkv
  obtain ⟨dbi, hdbi⟩ : ∃ dbi, build V G size (dbiOps d) = .ok dbi := by
    rw [hops]
    apply build_setters_first
    · intro op hop
      exact (hproper op (by rw [hops]; exact List.mem_append_left _ hop)).fits
    · intro op hop
      rcases hset op hop with rfl | rfl | rfl <;> rfl
  have happended : (dbiOps d).filterMap Op.appended = d.reading.kvs := by
    have hnone : setters.filterMap Op.appended = [] := by
      apply List.filterMap_eq_nil_iff.mpr
      intro op hop
      rcases hset op hop with rfl | rfl | rfl <;> rfl
    rw [hops, List.filterMap_append, hnone, List.nil_append, List.filterMap_map]
    exact List.filterMap_some
  rcases build_cases (V := V) (G := G) size (fun op hop => (hproper op hop).fits) with
    ⟨d₁, h₁, -, hhead₁⟩ | h₁
  · obtain rfl : d₁ = dbi := Except.ok.inj (h₁.symm.trans hdbi)
    rw [hops, List.foldl_append, hhead, Fidelity.foldl_setHead_appends] at hhead₁
    refine ⟨⟨⟨size, dbiOps d, hproper, d.name, ?_⟩, d₁, hdbi⟩, hdbi, happended, hhead₁, h.ending⟩
    rw [hops]
    exact List.mem_append_left _ hname
  · cases h₁.symm.trans hdbi

omit [V.Lawful] in
theorem readMessage_standsFor {d : DbiMsg DecodeErr} {b : BuiltDBI V G} {x : DBI}
    (h : StandsFor d b) (hx : b.Decoded x) : Fidelity.readMessage V x = .ok d := by
  have hname : b.dbi.name = d.name := congrArg Head.name h.head
  have hflags : b.dbi.flags = d.flags := congrArg Head.flags h.head
  have htransform : b.dbi.transform = d.transform := congrArg Head.transform h.head
  rw [Fidelity.readMessage, hx.entries_eq, h.entries, hx.name_eq, hx.flags_eq, hx.transform_eq,
    hname, hflags, htransform, ← h.ending]
  rfl

/-- **The codec gives a message back**, transforms included, within the limits of the
decoders. -/
theorem sendSnapshot_round_trip {msg : Message DecodeErr} (h : ∀ d ∈ msg.databases, Buildable d)
    (sizeHint : Bytes → ℕ) {m : Meta} (htxn : 0 ≤ m.lmdbTxnID) (hfrom : 0 ≤ m.fromLmdbTxnID) :
    ∃ s bytes, sendSnapshot C.toVarint G sizeHint m msg = .ok s ∧
      s.writeTo C.toVarint G = .ok bytes ∧
      (Limits C G s → Fidelity.receive C bytes = .ok msg) := by
  obtain ⟨bs, hbuild, hbs⟩ := exists_mapM_ok (g := BuiltDBI.dbi (V := C.toVarint) (G := G))
    fun d hd => exists_standsFor (h d hd) (sizeHint d.name)
  obtain ⟨msgs, hmsgs, hds⟩ := exists_messages bs
  refine ⟨⟨msg.formatVersion, msg.compatVersion, m, bs.map BuiltDBI.dbi⟩, _, ?_,
    writeTo_eq (s := ⟨_, _, m, bs.map BuiltDBI.dbi⟩) hmsgs, fun hlimits => ?_⟩
  · rw [sendSnapshot, hbuild]
    rfl
  · obtain ⟨ds, hforall, hdecoded⟩ := hds fun b hb =>
      hlimits.dbiMessages b.dbi (List.mem_map_of_mem hb)
    have hread : ds.mapM (Fidelity.readMessage C.toVarint) = .ok msg.databases :=
      mapM_of_forall₂ (R := StandsFor) (S := BuiltDBI.Decoded)
        (fun _ _ _ hs hx => readMessage_standsFor hs hx) hbs hdecoded
    rw [Fidelity.receive, unmarshal_items hlimits.strings (hlimits.metaMessage _ (marshal_eq m))
      htxn hfrom hforall]
    simp only [bind, Except.bind, hread]

end Codec

/-! ## Merging a dump into an empty shadow -/

variable {η : Type}

/-- A shadow whose Deleted entries are empty. -/
def CleanShadow (s : Dbi) : Prop := ∀ k v, s.get k = some v → Convergence.NativeValue v

/-- What has been made of a shadow on the other side reads the same. -/
structure Brought (s s' : Dbi) : Prop where
  flags : s'.flags = s.flags
  headers : HeadersValid s'
  keys : ∀ k ∈ s'.keys, k ∈ s.keys
  values : ∀ k, plainValue s' k = plainValue s k

section Merge

variable {txnID : TxnID} {s : Dbi}

/-- A merged entry says what the dumped one says, or was Deleted. -/
theorem merged_absent (it : NativeIterator) (hfv : it.formatVersion = currentFormatVersion)
    (k : Bytes) {v app : Bytes} {h : Header} (hp : parse v = .ok (h, app))
    (hdel : isDeleted h.flags = true → app = []) :
    (app = [] ∧ it.merged (headerKv (k, v)) [] = none) ∨
      ∃ v' h', it.merged (headerKv (k, v)) [] = some v' ∧ parse v' = .ok (h', app) := by
  have hmerge : it.merge (headerKv (k, v)) [] =
      if isDeleted (masked h.flags) ∧ h.timestamp < it.deletedCutoff then .ok none
      else .ok (some (it.addHeader app h.timestamp (masked h.flags))) := by
    unfold NativeIterator.merge
    rw [if_pos rfl, headerKv_of_parse hp, maskedFlags_of_masked]
  split at hmerge
  · rename_i hstale
    rw [isDeleted_masked] at hstale
    exact Or.inl ⟨hdel hstale.1, merged_of_ok hmerge⟩
  · obtain ⟨h', hp', -⟩ := parse_addHeader it app h.timestamp (masked h.flags)
    refine Or.inr ⟨_, h', merged_of_ok hmerge, hp'.trans ?_⟩
    rw [NativeIterator.writtenVal, show it.writtenFlags app (masked h.flags) = masked h.flags from
      writtenFlags_of_current _ hfv _ _, isDeleted_masked]
    split
    · rename_i hd
      rw [hdel hd]
    · rfl

/-- **Merging the dump of a shadow into an empty one** brings what the shadow has, whatever
the deletion cutoff. -/
theorem applyMessage_brings (padding : Bool) (cutoff : Timestamp) (hs : CleanShadow s)
    (htxn : txnID ≠ 0) (b : Bool) :
    ∃ r : Txn, applyMessage (η := η) padding cutoff currentFormatVersion writeCompatFormatVersion
        txnID (Reading.ofList (s.entries.map headerKv)) ⟨Dbi.empty s.flags, b⟩ = .ok r ∧
      Brought s r.dbi := by
  set it := loadIterator padding cutoff currentFormatVersion txnID with hit
  set msg : Reading η := Reading.ofList (s.entries.map headerKv) with hmsg
  have hkeys : (it.iterator msg).keys = s.keys := keys_headerKv s
  obtain ⟨r, hr, hflags, hget⟩ := @update_spec _ _ (it.iterator msg) ⟨Dbi.empty s.flags, b⟩
    (fun kv old => it.merged kv (old.getD [])) rfl (by rw [hkeys]; exact s.keys_nodup)
    (by
      intro kv hkv hnil
      have hmem : kv.key ∈ s.keys := hkeys ▸ List.mem_map_of_mem hkv
      have hlen := (s.keys_allowed.1 kv.key hmem).1
      rw [show kv.key = [] from hnil] at hlen
      exact absurd hlen (by decide))
    (by
      intro kv _
      obtain ⟨v, hv⟩ := merge_of_valid it kv (Or.inl rfl)
      exact iterator_merge_of_ok hv)
    (by
      show s.flags.Allowed ((it.iterator msg).keys ++ [])
      rw [hkeys, List.append_nil]
      exact s.keys_allowed)
  have hfind : ∀ k, (it.iterator msg).find k = (s.get k).map fun v => headerKv (k, v) :=
    find_map_entries headerKv_key
  have hvalue : ∀ k, r.dbi.get k =
      (s.get k).bind fun v => present (it.merged (headerKv (k, v)) []) := by
    intro k
    rw [hget k, hfind k]
    cases s.get k with
    | none => rfl
    | some v => rfl
  refine ⟨r, ?_, hflags, fun k v' hv' => ?_, fun k hk => ?_, fun k => ?_⟩
  · rw [applyMessage_eq _ _ (by decide) (by decide) htxn]
    exact mapError_eq_ok.mpr hr
  · rw [hvalue k] at hv'
    obtain ⟨v, hv, hpres⟩ := Option.bind_eq_some_iff.mp hv'
    obtain ⟨h, app, hp, hdel⟩ := hs k v hv
    rcases merged_absent it rfl k hp hdel with ⟨-, hnone⟩ | ⟨w, h', hsome, hw⟩
    · rw [hnone] at hpres
      cases hpres
    · rw [hsome] at hpres
      rw [← Option.some.inj (present_eq_some.mp hpres).1]
      exact ⟨_, hw⟩
  · by_contra hnot
    rw [← Dbi.get_eq_none_iff] at hnot
    have hnone : r.dbi.get k = none := by rw [hvalue k, hnot, Option.bind_none]
    exact Dbi.get_eq_none_iff.mp hnone hk
  · rw [plainValue, plainValue, hvalue k]
    cases hv : s.get k with
    | none => rfl
    | some v =>
        obtain ⟨h, app, hp, hdel⟩ := hs k v hv
        rw [Option.bind_some, Option.bind_some, appOf_of_parse hp]
        rcases merged_absent it rfl k hp hdel with ⟨rfl, hnone⟩ | ⟨w, h', hsome, hw⟩
        · rw [hnone, present_nil]
          rfl
        · rw [hsome, present_eq_some.mpr ⟨rfl, parse_ok_ne_nil hw⟩, Option.bind_some,
            appOf_of_parse hw]

end Merge

/-! ## Loading into an empty environment -/

/-- The message of a DBI and its shadow. -/
def dumped (n : Bytes) (x : Table) (s : Dbi) : DbiMsg η :=
  ⟨n, x.flags.bits, transformOf x.flags, Reading.ofList (s.entries.map headerKv)⟩

section Load

variable {o : Options} {txnID : TxnID} {s : Dbi} {n : Bytes} {x : Table}

theorem validateTransform_dumped (n : Bytes) (x : Table) (s : Dbi) :
    (dumped (η := η) n x s).validateTransform currentFormatVersion false = .ok () := by
  have hiff : x.flags.bits &&& dupSort > 0 ↔ transformOf x.flags = transformDupSortHackV1 := by
    rcases x.flags with ⟨⟨r, i⟩, d⟩
    cases r <;> cases i <;> cases d <;> decide
  have hsupported : transformSupported (transformOf x.flags) = true := by
    rcases x.flags with ⟨k, d⟩
    cases d <;> rfl
  unfold DbiMsg.validateTransform dumped
  simp only [hsupported, hiff, Bool.not_true, Bool.false_eq_true, if_false, false_and, and_not_self,
    and_false, not_and_self]

/-- What can be loaded into an empty environment. -/
structure Loadable (o : Options) (n : Bytes) (x : Table) (s : Dbi) : Prop where
  app : isPrivate n = false
  flags : o.overrideCreateFlags n = none
  name : 1 ≤ n.length ∧ n.length ≤ maxKeySize
  shadow : 1 ≤ (shadowName n).length ∧ (shadowName n).length ≤ maxKeySize
  clean : CleanShadow s
  shadowFlags : s.flags = Syncer.shadowFlags x.flags.keys

/-- A round of `LoadOnce` for a DBI that does not exist yet. -/
theorem loadDbi_brings (cutoff : Timestamp) {t : TablesTxn} (hl : Loadable o n x s)
    (hnew : t.contents.get n = none) (hnew' : t.contents.get (shadowName n) = none)
    (htxn : txnID ≠ 0) :
    ∃ t' s', loadDbi (η := η) o cutoff currentFormatVersion writeCompatFormatVersion txnID t
        (dumped n x s) = .ok t' ∧ Brought s s' ∧
      ∀ m, t'.contents.get m = if m = shadowName n then some (.single s') else
        if m = n then some (Table.empty x.flags) else t.contents.get m := by
  have hcreate : o.createFlags (dumped (η := η) n x s) = x.flags.bits := by
    unfold Options.createFlags
    rw [show (dumped (η := η) n x s).name = n from rfl, hl.flags]
    rfl
  have hne : shadowName n ≠ n := shadowName_ne hl.app
  obtain ⟨t₁, h₁, hget₁⟩ := TablesTxn.create_of_none hnew x.flags hl.name
  have hmain : createMain (η := η) o currentFormatVersion t (dumped n x s) = .ok t₁ := by
    unfold createMain createDBI
    rw [show (dumped (η := η) n x s).name = n from rfl, hnew, hcreate, DbiFlags.ofBits_bits,
      if_pos rfl, h₁, if_neg (by simp), if_neg (fun h => absurd h.1 (by decide))]
    rfl
  have hnew₁ : t₁.contents.get (shadowName n) = none := by rw [hget₁, if_neg hne, hnew']
  obtain ⟨t₂, h₂, hget₂⟩ := TablesTxn.create_of_none hnew₁ ⟨s.flags, false⟩ hl.shadow
  have hsh : createShadow (η := η) o t₁ (dumped n x s) = .ok t₂ := by
    have hkeys : KeyFlags.ofBits x.flags.bits = x.flags.keys :=
      congrArg DbiFlags.keys (DbiFlags.ofBits_bits x.flags)
    unfold createShadow
    rw [show (dumped (η := η) n x s).name = n from rfl, hnew₁, hcreate, hkeys, ← hl.shadowFlags, h₂,
      if_neg (by simp)]
    rfl
  obtain ⟨r, hr, hbrought⟩ := applyMessage_brings (η := η) o.headerExtraPaddingBlock cutoff
    hl.clean htxn t₂.dirty
  have hself : t₂.contents.get (shadowName n) = some (.single (Dbi.empty s.flags)) := by
    rw [hget₂, if_pos rfl]
    rfl
  obtain ⟨t', h', -, hget'⟩ := TablesTxn.onTable_spec (Err.notFound (shadowName n))
    (f := onSingle (η := η) (shadowName n) fun q =>
      (applyMessage o.headerExtraPaddingBlock cutoff currentFormatVersion writeCompatFormatVersion
        txnID (dumped n x s).reading q).mapError .apply)
    (r := (.single r.dbi, r.dirty)) hself (by
      show (do let q ← Except.mapError _ (applyMessage _ _ _ _ _ _ _); _) = _
      rw [show (dumped (η := η) n x s).reading = Reading.ofList (s.entries.map headerKv) from rfl,
        hr]
      rfl)
  refine ⟨t', r.dbi, ?_, hbrought, fun m => ?_⟩
  · unfold loadDbi
    rw [show (dumped (η := η) n x s).name = n from rfl, hl.app, validateTransform_dumped]
    simp only [Bool.false_eq_true, if_false, Except.mapError, bind, Except.bind, hmain, hsh]
    exact h'
  · rw [hget' m, hget₂ m, hget₁ m]
    by_cases hm : m = shadowName n
    · rw [if_pos hm, if_pos hm]
    · rw [if_neg hm, if_neg hm, if_neg hm]

/-- A DBI of the application and its shadow, as one cell of the environment. -/
def tableAndShadow (t : TablesTxn) (n : Bytes) : Option Table × Option Table :=
  if isPrivate n then (none, none) else (t.contents.get n, t.contents.get (shadowName n))

theorem tableAndShadow_eq {t : TablesTxn} (hpriv : isPrivate n = false) :
    tableAndShadow t n = (t.contents.get n, t.contents.get (shadowName n)) := by
  rw [tableAndShadow, hpriv]
  rfl

/-- The cell of a DBI that has been loaded: a new DBI, with the shadow that was brought. -/
def Loaded (x : Table) (s : Dbi) (v : Option Table × Option Table) : Prop :=
  v.1 = some (Table.empty x.flags) ∧ ∃ s', v.2 = some (.single s') ∧ Brought s s'

/-- A round of `LoadOnce` on the cell of its DBI. -/
theorem loadDbi_works (cutoff : Timestamp) {t : TablesTxn} (hl : Loadable o n x s)
    (hnew : tableAndShadow t n = (none, none)) (htxn : txnID ≠ 0) :
    ∃ t', loadDbi (η := η) o cutoff currentFormatVersion writeCompatFormatVersion txnID t
        (dumped n x s) = .ok t' ∧ Loaded x s (tableAndShadow t' n) ∧
      ∀ m, m ≠ n → tableAndShadow t' m = tableAndShadow t m := by
  rw [tableAndShadow_eq hl.app, Prod.mk.injEq] at hnew
  obtain ⟨t', s', h, hbrought, hget⟩ := loadDbi_brings (η := η) cutoff hl hnew.1 hnew.2 htxn
  refine ⟨t', h, ?_, fun m hm => ?_⟩
  · rw [tableAndShadow_eq hl.app, hget, hget, if_neg (shadowName_ne hl.app).symm, if_pos rfl,
      if_pos rfl]
    exact ⟨rfl, s', rfl, hbrought⟩
  · unfold tableAndShadow
    cases hpriv : isPrivate m with
    | true => rfl
    | false =>
        have hmn : shadowName m ≠ shadowName n := fun heq => hm (shadowName_inj.mp heq)
        simp only [Bool.false_eq_true, if_false]
        rw [hget, hget, if_neg (shadowName_ne hpriv).symm, if_neg hm, if_neg hmn,
          if_neg (shadowName_ne hl.app)]

/-- **The rounds of `LoadOnce` on an empty environment** create every DBI with its shadow,
and bring the shadow. -/
theorem load_brings (cutoff : Timestamp) {ns : List Bytes} (hnd : ns.Nodup) {xs : Bytes → Table}
    {ss : Bytes → Dbi} (hns : ∀ n ∈ ns, Loadable o n (xs n) (ss n)) (htxn : txnID ≠ 0) :
    ∃ t', (ns.map fun n => dumped (η := η) n (xs n) (ss n)).foldlM
        (loadDbi o cutoff currentFormatVersion writeCompatFormatVersion txnID)
        (TablesTxn.start .empty) = .ok t' ∧
      (∀ n ∈ ns, t'.contents.get n = some (Table.empty (xs n).flags) ∧
        ∃ s', t'.contents.get (shadowName n) = some (.single s') ∧ Brought (ss n) s') ∧
      ∀ n, isPrivate n = false → n ∉ ns → t'.contents.get n = none := by
  have hempty : ∀ n, tableAndShadow (TablesTxn.start .empty) n = (none, none) := by
    intro n
    unfold tableAndShadow
    split <;> rfl
  rw [List.foldlM_map]
  obtain ⟨t', hrun, hown, hother⟩ : ∃ t', ns.foldlM (fun t n => loadDbi (η := η) o cutoff
        currentFormatVersion writeCompatFormatVersion txnID t (dumped n (xs n) (ss n)))
        (TablesTxn.start .empty) = .ok t' ∧
      Done tableAndShadow id (fun n => Loaded (xs n) (ss n)) ns (TablesTxn.start .empty) t' := by
    apply foldlM_cells
    · rwa [List.map_id]
    · intro n hn t hun
      obtain ⟨t₁, h₁, hloaded, hrest⟩ := loadDbi_works (η := η) cutoff (hns n hn)
        (hun.own.trans (hempty n)) htxn
      exact ⟨t₁, h₁, hloaded, hrest⟩
  refine ⟨t', hrun, fun n hn => ?_, fun n hpriv hn => ?_⟩
  · have hcell : Loaded (xs n) (ss n) (tableAndShadow t' n) := hown n hn
    rwa [tableAndShadow_eq (hns n hn).app] at hcell
  · have hcell := hother n (by rwa [List.map_id])
    rw [hempty, tableAndShadow_eq hpriv] at hcell
    exact (Prod.mk.inj hcell).1

end Load

/-! ## The copy to the new DBIs -/

section Fresh

variable {cutoff ts : Timestamp} {txnID : TxnID} {s e sh sh' : Dbi} {n : Bytes} {x : Table}

/-- Deleted entries stay empty. -/
theorem cleanShadow_copied (ht : TrackedBefore ts s) (hc : Copied cutoff ts txnID x s e sh) :
    CleanShadow sh := by
  intro k raw hraw
  have hout : Outcome ts (e.get k) (s.get k) (sh.get k) := by
    rw [hc.entries k]
    exact shadowedValue_outcome ht.valid k
  refine hout.native (fun old hold => ?_) hraw
  obtain ⟨h, app, hp, -, hdel⟩ := ht k old hold
  exact ⟨h, app, hp, hdel⟩

/-- **The copy from a brought shadow to a new DBI** makes the DBI that was sent. -/
theorem putBack_brought (hstore : Storable x) (hable : Shadowable x s) (ht : TrackedBefore ts s)
    (hret : Returnable x s) (hord : InOrder x.flags.keys)
    (hc : Copied cutoff ts txnID x s e sh) (hb : Brought sh sh') (b : Bool) :
    ∃ b', putBack (η := η) n (sh'.entries.map headerKv) (Table.empty x.flags) b = .ok (x, b') := by
  have hvalue : ∀ k v, plainValue sh' k = some v ↔ e.get k = some v ∧ v ≠ [] := by
    intro k v
    rw [hb.values k]
    exact plainValue_copied ht hc
  cases x with
  | single d =>
      obtain rfl : e = d := hc.image
      have hflags : sh'.flags = shadowFlags e.flags := hb.flags.trans (hc.flags.trans hable.flags)
      obtain ⟨mn, hmn, hmflags, hget⟩ : ∃ mn,
          Syncer.shadowToMain n sh' ⟨Dbi.empty e.flags, b⟩ = .ok mn ∧ mn.dbi.flags = e.flags ∧
          ∀ k, mn.dbi.get k = plainValue sh' k := Syncer.shadowToMain_spec
        ⟨Dbi.empty e.flags, sh', hflags, sh'.keys_allowed⟩ hb.headers
        (fun k hk => (keys_copied hable ht hc (hb.keys k hk)).elim
          ((List.pairwise_cons.mp hc.sorted).1 k) (hret k)) List.Pairwise.nil (Or.inl hord) b
      have hsame : mn.dbi = e := by
        apply Dbi.ext_get hmflags
        intro k
        rw [hget k]
        apply Option.ext
        intro v
        rw [hvalue k v]
        exact ⟨fun h => h.1, fun h => ⟨h, hstore k v h⟩⟩
      refine ⟨mn.dirty, ?_⟩
      show putBack n _ (.single (Dbi.empty e.flags)) b = _
      rw [putBack_single hb.headers hmn, hsame]
  | dup d =>
      show ∃ b', putBack n _ (.dup (DupDbi.empty d.flags)) b = .ok (.dup d, b')
      exact putBack_image hstore hc.image
        (fun k hk => (keys_copied hable ht hc (hb.keys k hk)).elim (image_decodable hc.image)
          (hret k)) hvalue rfl b

end Fresh

/-! ## The whole way -/

/-- The DBI of this name. -/
def tableOf (c : Tables) (n : Bytes) : Table :=
  (c.get n).getD (.single (Dbi.empty KeyFlags.plain))

/-- The shadow of the DBI of this name. -/
def shadowOf (c : Tables) (n : Bytes) : Dbi :=
  match c.get (shadowName n) with
  | some (.single s) => s
  | _ => Dbi.empty KeyFlags.plain

section Whole

variable {o : Options} {cutoff ts : Timestamp} {txnID : TxnID} {c : Tables} {t : TablesTxn}
  {n : Bytes} {x : Table}

/-- A DBI after `mainToShadow`, with its shadow before and after. -/
structure Sent (o : Options) (cutoff ts : Timestamp) (txnID : TxnID) (t : TablesTxn) (n : Bytes)
    (x : Table) (s e : Dbi) : Prop where
  main : t.contents.get n = some x
  enabled : Enabled o x
  shadow : t.contents.get (shadowName n) = some (.single (shadowOf t.contents n))
  stored : Storable x
  able : Shadowable x s
  tracked : TrackedBefore ts s
  back : Returnable x s
  copied : Copied cutoff ts txnID x s e (shadowOf t.contents n)

/-- The DBIs of the application stay as they are. -/
theorem mainToShadow_apps (hc : Ready ts c) {b : Bool}
    (h : mainToShadow (η := η) o cutoff ts txnID ⟨c, b⟩ = .ok t) (hpriv : isPrivate n = false) :
    t.contents.get n = c.get n :=
  (mainToShadow_ok hc.workable h).2 n fun _ _ _ heq => shadowName_ne hpriv heq.symm

theorem exists_sent (hc : Ready ts c) {b : Bool}
    (h : mainToShadow (η := η) o cutoff ts txnID ⟨c, b⟩ = .ok t) (hpriv : isPrivate n = false)
    (hx : c.get n = some x) : ∃ s e, Sent o cutoff ts txnID t n x s e := by
  obtain ⟨ho, s, e, sh, hs, hable, hcop, hsh⟩ := (mainToShadow_ok hc.workable h).1 n x hpriv hx
  obtain ⟨hstore, s', hs', -, ht, hret⟩ := hc n x hpriv hx
  obtain rfl : s = s' := Table.single.inj (hs.symm.trans hs')
  have hof : shadowOf t.contents n = sh := by rw [shadowOf, hsh]
  refine ⟨s, e, (mainToShadow_apps hc h hpriv).trans hx, ho, ?_, hstore, hable, ht, hret, ?_⟩
  · rw [hof]
    exact hsh
  · rw [hof]
    exact hcop

/-- Every DBI that is dumped has been sent. -/
theorem sent_of_mem (hc : Ready ts c) {b : Bool}
    (h : mainToShadow (η := η) o cutoff ts txnID ⟨c, b⟩ = .ok t) (hn : n ∈ appNames t.contents) :
    isPrivate n = false ∧ c.get n = some (tableOf t.contents n) ∧
      ∃ s e, Sent o cutoff ts txnID t n (tableOf t.contents n) s e := by
  obtain ⟨hpriv, x, hx⟩ := mem_appNames.mp hn
  have hcx : c.get n = some x := (mainToShadow_apps hc h hpriv).symm.trans hx
  rw [show tableOf t.contents n = x by rw [tableOf, hx]; rfl]
  exact ⟨hpriv, hcx, exists_sent hc h hpriv hcx⟩

/-- The dump has one message for every DBI of the application. -/
theorem dump_eq (hc : Ready ts c) {b : Bool}
    (h : mainToShadow (η := η) o cutoff ts txnID ⟨c, b⟩ = .ok t) :
    dump (η := η) o t.contents = .ok ⟨currentFormatVersion, writeCompatFormatVersion,
      (appNames t.contents).map fun n =>
        dumped n (tableOf t.contents n) (shadowOf t.contents n)⟩ := by
  have hall : (appNames t.contents).mapM
      (fun n => readDBI (η := η) o t.contents (shadowName n) n false) =
      .ok ((appNames t.contents).map fun n =>
        dumped n (tableOf t.contents n) (shadowOf t.contents n)) := by
    apply mapM_eq_ok_map
    intro n hn
    obtain ⟨hpriv, -, s, e, hsent⟩ := sent_of_mem hc h hn
    exact readDBI_shadow hpriv hsent.main hsent.enabled hsent.shadow
      (plainValue_after hsent.tracked hsent.copied.entries).1
  rw [dump, hall]
  rfl

theorem Sent.buildable {s e : Dbi} (h : Sent o cutoff ts txnID t n x s e) :
    Buildable (dumped n x (shadowOf t.contents n)) where
  name := Tables.named_of_get h.main
  transform := by
    show (transformOf x.flags).length ≤ 50
    unfold transformOf
    split <;> decide
  ending := rfl
  entries := by
    rintro kv hkv rfl
    obtain ⟨p, hp, hkey⟩ := List.mem_map.mp hkv
    have hlen := ((shadowOf t.contents n).keys_allowed.1 p.1 (List.mem_map_of_mem hp)).1
    rw [← headerKv_key p, hkey] at hlen
    exact absurd hlen (by decide)

theorem Sent.loadable {o' : Options} {s e : Dbi} (h : Sent o cutoff ts txnID t n x s e)
    (hpriv : isPrivate n = false) (hflags : o'.overrideCreateFlags n = none) :
    Loadable o' n x (shadowOf t.contents n) where
  app := hpriv
  flags := hflags
  name := Tables.named_of_get h.main
  shadow := Tables.named_of_get h.shadow
  clean := cleanShadow_copied h.tracked h.copied
  shadowFlags := h.copied.flags.trans h.able.flags

/-- **Loading a dump into an empty environment** gives the application the DBIs that were
dumped. -/
theorem loadOnce_dump (hc : Ready ts c)
    (hord : ∀ n x, isPrivate n = false → c.get n = some x → InOrder x.flags.keys) {b : Bool}
    (h : mainToShadow (η := η) o cutoff ts txnID ⟨c, b⟩ = .ok t) {o' : Options}
    (hhack : o'.dupSortHack = true) (hflags : ∀ n, o'.overrideCreateFlags n = none)
    (localChanged : Bool) (cutoff' ts' : Timestamp) {txnID' : TxnID} (htxn : txnID' ≠ 0) :
    ∃ t', loadOnce (η := η) o' localChanged cutoff' ts' txnID' ⟨currentFormatVersion,
        writeCompatFormatVersion, (appNames t.contents).map fun n =>
          dumped n (tableOf t.contents n) (shadowOf t.contents n)⟩ .empty = .ok t' ∧
      ∀ n, isPrivate n = false → t'.contents.get n = c.get n := by
  obtain ⟨t₁, hload, hloaded, hnone⟩ := load_brings (η := η) (o := o') cutoff'
    (appNames_nodup t.contents) (fun n hn => by
      obtain ⟨hpriv, -, s, e, hs⟩ := sent_of_mem hc h hn
      exact hs.loadable hpriv (hflags n)) htxn
  have hmem : ∀ {n x}, isPrivate n = false → t₁.contents.get n = some x →
      n ∈ appNames t.contents := by
    intro n x hpriv hx
    by_contra hnot
    rw [hnone n hpriv hnot] at hx
    cases hx
  obtain ⟨t', hrun, hback, hown⟩ := shadowToMain_spec (o := o') (c := t₁.contents) (b := t₁.dirty)
    (P := fun n y => c.get n = some y) (η := η) (by
      intro n x hpriv hx
      have hn := hmem hpriv hx
      obtain ⟨-, hcx, s, e, hs⟩ := sent_of_mem hc h hn
      obtain ⟨hmain, s', hs', hbrought⟩ := hloaded n hn
      obtain rfl : Table.empty (tableOf t.contents n).flags = x :=
        Option.some.inj (hmain.symm.trans hx)
      refine ⟨fun _ => hhack, s', hs', hbrought.headers, fun b => ?_⟩
      obtain ⟨b', hput⟩ := putBack_brought (η := η) (n := n) hs.stored hs.able hs.tracked hs.back
        (hord n _ hpriv hcx) hs.copied hbrought b
      exact ⟨_, b', hput, hcx⟩)
  refine ⟨t', ?_, fun n hpriv => ?_⟩
  · have hfirst : copyIfChanged (η := η) o' localChanged cutoff' ts' txnID'
        (TablesTxn.start .empty) = .ok (TablesTxn.start .empty) := by
      unfold copyIfChanged
      split <;> rfl
    rw [loadOnce, hfirst]
    simp only [bind, Except.bind, hload]
    exact hrun
  · by_cases hn : n ∈ appNames t.contents
    · obtain ⟨hmain, -⟩ := hloaded n hn
      obtain ⟨y, hy, hcy⟩ := hback n _ hpriv hmain
      rw [hy, hcy]
    · have hcn : c.get n = none := by
        rw [← mainToShadow_apps hc h hpriv]
        by_contra hsome
        exact hn (mem_appNames.mpr ⟨hpriv, Option.ne_none_iff_exists'.mp hsome⟩)
      rw [hown n (Or.inr (hnone n hpriv hn)), hnone n hpriv hn, hcn]

end Whole

/-- **Replication fidelity in shadow mode.** What one instance sends and another one loads
into an empty environment gives the application there the DBIs it has here, those with
`MDB_DUPSORT` as well, within the limits of the decoders and whatever the deletion cutoffs. -/
theorem shadow_replication_fidelity (C : Csproto) [C.Lawful] (G : Growth) (sizeHint : Bytes → ℕ)
    {m : Meta} (hmeta : 0 ≤ m.lmdbTxnID) (hfrom : 0 ≤ m.fromLmdbTxnID) {o : Options}
    {cutoff ts : Timestamp} {txnID : TxnID} {c : Tables} (hc : Ready ts c)
    (hord : ∀ n x, isPrivate n = false → c.get n = some x → InOrder x.flags.keys)
    {t : TablesTxn} {msg : Message DecodeErr}
    (h : sendOnce o false cutoff ts txnID c = .ok (t, some msg)) {o' : Options}
    (hhack : o'.dupSortHack = true) (hflags : ∀ n, o'.overrideCreateFlags n = none)
    (localChanged : Bool) (cutoff' ts' : Timestamp) {txnID' : TxnID} (htxn : txnID' ≠ 0) :
    ∃ s bytes, sendSnapshot C.toVarint G sizeHint m msg = .ok s ∧
      s.writeTo C.toVarint G = .ok bytes ∧
      (Limits C G s → ∃ msg' t', Fidelity.receive C bytes = .ok msg' ∧
        loadOnce o' localChanged cutoff' ts' txnID' msg' .empty = .ok t' ∧
        ∀ n, isPrivate n = false → t'.contents.get n = c.get n) := by
  obtain ⟨t₁, hcopy, h⟩ := bind_eq_ok.mp h
  simp only [Bool.false_eq_true, if_false] at h
  obtain ⟨msg₁, hdump, h⟩ := bind_eq_ok.mp h
  obtain ⟨rfl, hmsg⟩ := Prod.mk.inj (Except.ok.inj h)
  obtain rfl := Option.some.inj hmsg
  rw [dump_eq hc hcopy] at hdump
  obtain rfl := Except.ok.inj hdump
  have hbuild : ∀ d ∈ (appNames t₁.contents).map (fun n =>
      dumped n (tableOf t₁.contents n) (shadowOf t₁.contents n)), Buildable d := by
    intro d hd
    obtain ⟨n, hn, rfl⟩ := List.mem_map.mp hd
    obtain ⟨-, -, s, e, hs⟩ := sent_of_mem hc hcopy hn
    exact hs.buildable
  obtain ⟨s, bytes, hsend, hwrite, hreceive⟩ := @sendSnapshot_round_trip C _ G
    ⟨currentFormatVersion, writeCompatFormatVersion, _⟩ hbuild sizeHint m hmeta hfrom
  obtain ⟨t', hload, happ⟩ := loadOnce_dump hc hord hcopy hhack hflags localChanged cutoff' ts' htxn
  exact ⟨s, bytes, hsend, hwrite, fun hlimits => ⟨_, t', hreceive hlimits, hload, happ⟩⟩

/-- The snapshot of `twoTables`. -/
def twoSnapshot : Snapshot :=
  ⟨3, 1, .empty, [
    ⟨ascii "a", 4, transformDupSortHackV1,
      [10, 1, 97, 24, 4, 34, 15] ++ transformDupSortHackV1 ++
        [18, 21, 10, 7, 7, 0, 0, 0, 0, 1, 1, 18, 1, 1, 25, 5, 0, 0, 0, 0, 0, 0, 0,
          18, 21, 10, 7, 7, 0, 0, 0, 0, 2, 1, 18, 1, 2, 25, 5, 0, 0, 0, 0, 0, 0, 0],
      10485783, false, true⟩,
    ⟨ascii "b", 0, [], [10, 1, 98, 18, 15, 10, 1, 1, 18, 1, 8, 25, 5, 0, 0, 0, 0, 0, 0, 0],
      10485777, false, true⟩]⟩

theorem twoSnapshot_limits : Limits plainCsproto tightGrowth twoSnapshot := by
  refine ⟨⟨by decide, by decide, by decide, by decide⟩, ?_, ?_⟩
  · intro msg hmsg
    have hnil : Meta.empty.marshal leb128 = .ok [] := marshal_eq Meta.empty
    obtain rfl : [] = msg := Except.ok.inj (hnil.symm.trans hmsg)
    decide
  · have hall : ∀ d ∈ twoSnapshot.databases, DBI.marshal leb128 tightGrowth d = .ok d ∧
        d.data.length ≤ maxFieldLength := by decide +kernel
    intro d hd d' hm
    obtain rfl : d = d' := Except.ok.inj ((hall d hd).1.symm.trans hm)
    exact (hall d hd).2

theorem shadow_replication_fidelity_two : ∃ bytes msg t,
    twoSnapshot.writeTo leb128 tightGrowth = .ok bytes ∧
    Fidelity.receive plainCsproto bytes = .ok msg ∧
    loadOnce hackOptions true 9 9 1 msg .empty = .ok t ∧
    t.contents.get (ascii "a") = some (.dup twoPairs) := by
  obtain ⟨t, msg, hsend, hs⟩ : ∃ t msg,
      sendOnce (η := DecodeErr) hackOptions false 0 5 1 twoTables = .ok (t, some msg) ∧
      sendSnapshot leb128 tightGrowth (fun _ => 0) .empty msg = .ok twoSnapshot := by
    have hall : ((sendOnce (η := DecodeErr) hackOptions false 0 5 1 twoTables).toOption.bind
        Prod.snd).map (sendSnapshot leb128 tightGrowth (fun _ => 0) .empty) =
          some (.ok twoSnapshot) := by decide +kernel
    obtain ⟨msg, hmsg, hs⟩ := Option.map_eq_some_iff.mp hall
    obtain ⟨r, hr, hsnd⟩ := Option.bind_eq_some_iff.mp hmsg
    refine ⟨r.1, msg, ?_, hs⟩
    cases hrun : sendOnce (η := DecodeErr) hackOptions false 0 5 1 twoTables with
    | error e =>
        rw [hrun] at hr
        cases hr
    | ok r' =>
        rw [hrun] at hr
        obtain rfl := Option.some.inj hr
        rw [← hsnd]
  obtain ⟨s, bytes, hs', hwrite, hload⟩ := shadow_replication_fidelity plainCsproto tightGrowth
    (fun _ => 0) (show 0 ≤ Meta.empty.lmdbTxnID by decide)
    (show 0 ≤ Meta.empty.fromLmdbTxnID by decide) twoTables_ready
    (fun n x _ hx => by
      rcases twoTables_get hx with ⟨-, rfl⟩ | ⟨-, rfl⟩
      · exact fun h => h
      · exact fun h => h)
    hsend (show hackOptions.dupSortHack = true from rfl) (fun _ => rfl) true 9 9
    (show (1 : TxnID) ≠ 0 by decide)
  obtain rfl : twoSnapshot = s := Except.ok.inj (hs.symm.trans hs')
  obtain ⟨msg', t', hmsg, ht, happ⟩ := hload twoSnapshot_limits
  exact ⟨bytes, msg', t', hwrite, hmsg, ht, (happ _ (by decide)).trans (by decide +kernel)⟩

end LightningStream.Syncer.ShadowTables
