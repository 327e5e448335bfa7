import LightningStream.Base.LastWriter
import LightningStream.Syncer.Load

/-!
# Native instances converge

A run of several instances in native mode: applications write entries with
rising timestamps, instances dump their DBI, and instances load any dump made
earlier in the run. The set of application writes an instance has taken in is
carried along with its DBI and with every dump.

Ordering entries by timestamp and, within a timestamp, by falling value makes
`Merge` a maximum (`merge_max`), so a run is a run of the replicated map of
`LastWriter` (`run_refines`).
-/

namespace LightningStream.Syncer.Convergence

open Lmdb Snapshot Strategy Header

/-! ## The order on entries -/

/-- Timestamps rise; within a timestamp the lower value wins. -/
abbrev Stamp : Type := Timestamp ×ₗ Bytesᵒᵈ

def stamp (e : Timestamp × Bytes) : Stamp := toLex (e.1, OrderDual.toDual e.2)

theorem stamp_le_iff {a b : Timestamp × Bytes} :
    stamp a ≤ stamp b ↔ a.1 < b.1 ∨ (a.1 = b.1 ∧ b.2 ≤ a.2) :=
  Prod.Lex.toLex_le_toLex

theorem stamp_lt_iff {a b : Timestamp × Bytes} :
    stamp a < stamp b ↔ a.1 < b.1 ∨ (a.1 = b.1 ∧ b.2 < a.2) :=
  Prod.Lex.toLex_lt_toLex

theorem stamp_injective : Function.Injective stamp := by
  rintro ⟨t, v⟩ ⟨t', v'⟩ h
  have h' := congrArg ofLex h
  exact Prod.ext (congrArg Prod.fst h') (congrArg (OrderDual.ofDual ∘ Prod.snd) h')

/-- The rank of an entry that may be missing. -/
def rankOf : Option (Timestamp × Bytes) → WithBot Stamp
  | none => ⊥
  | some e => (stamp e : WithBot Stamp)

theorem rankOf_injective : Function.Injective rankOf := by
  rintro (- | a) (- | b) h
  · rfl
  · exact absurd h.symm WithBot.coe_ne_bot
  · exact absurd h WithBot.coe_ne_bot
  · rw [stamp_injective (WithBot.coe_inj.mp h)]

/-! ## Entries -/

/-- The timestamp and application value of a stored value. -/
def entryOfValue (v : Bytes) : Option (Timestamp × Bytes) :=
  match parse v with
  | .ok (h, app) => some (h.timestamp, app)
  | .error _ => none

theorem entryOfValue_of_parse {v app : Bytes} {h : Header} (hp : parse v = .ok (h, app)) :
    entryOfValue v = some (h.timestamp, app) := by
  rw [entryOfValue, hp]

def entryOf (d : Dbi) (k : Bytes) : Option (Timestamp × Bytes) :=
  (d.get k).bind entryOfValue

/-- A stored value as the native schema demands it: a valid header, and no
application value when it is flagged Deleted. -/
def NativeValue (v : Bytes) : Prop :=
  ∃ h app, parse v = .ok (h, app) ∧ (isDeleted h.flags = true → app = [])

structure NativeDbi (d : Dbi) : Prop where
  flags : d.flags = KeyFlags.plain
  values : ∀ k v, d.get k = some v → NativeValue v

/-- A snapshot entry that a dump of a native DBI can contain. -/
structure NativeKv (kv : Kv) : Prop where
  key : 1 ≤ kv.key.length ∧ kv.key.length ≤ maxKeySize
  deleted : isDeleted kv.maskedFlags = true → kv.value = []

/-- The load iterator without a deletion cutoff and with the current format. -/
def mergeIterator (padding : Bool) (txnID : TxnID) : NativeIterator :=
  loadIterator padding 0 currentFormatVersion txnID

variable {padding : Bool} {txnID : TxnID} {kv : Kv}

theorem writtenTS_mergeIterator (ts : Timestamp) :
    (mergeIterator padding txnID).writtenTS ts = ts :=
  writtenTS_of_noDefault _ rfl ts

theorem addHeader_native (padding : Bool) (txnID : TxnID) (hkv : NativeKv kv) :
    NativeValue ((mergeIterator padding txnID).addHeader kv.value kv.timestampNano
      kv.maskedFlags) ∧
    entryOfValue ((mergeIterator padding txnID).addHeader kv.value kv.timestampNano
      kv.maskedFlags) = some (kv.timestampNano, kv.value) := by
  obtain ⟨h, hp, hts, -, hflags⟩ := parse_addHeader (mergeIterator padding txnID)
    kv.value kv.timestampNano kv.maskedFlags
  have hwf : (mergeIterator padding txnID).writtenFlags kv.value kv.maskedFlags =
      kv.maskedFlags := writtenFlags_of_current _ rfl _ _
  have hval : (mergeIterator padding txnID).writtenVal kv.value kv.maskedFlags =
      kv.value := by
    unfold NativeIterator.writtenVal
    rw [hwf]
    split
    · rename_i hdel
      exact (hkv.deleted hdel).symm
    · rfl
  rw [hval] at hp
  rw [hwf] at hflags
  rw [writtenTS_mergeIterator] at hts
  refine ⟨⟨h, kv.value, hp, fun hdel => hkv.deleted (hflags ▸ hdel)⟩, ?_⟩
  rw [entryOfValue_of_parse hp, hts]

/-- **`Merge` is a maximum.** -/
theorem merge_max (hkv : NativeKv kv) {old : Option Bytes}
    (hold : ∀ v, old = some v → NativeValue v) :
    ∃ v, (mergeIterator padding txnID).merge kv (old.getD []) = .ok (some v) ∧
      NativeValue v ∧
      rankOf (entryOfValue v) = max (rankOf (old.bind entryOfValue))
        (rankOf (some (kv.timestampNano, kv.value))) := by
  obtain ⟨hnat, hent⟩ := addHeader_native padding txnID hkv
  cases old with
  | none =>
      refine ⟨_, ?_, hnat, ?_⟩
      · unfold NativeIterator.merge
        rw [Option.getD_none, if_pos rfl, if_neg]
        rintro ⟨-, hlt⟩
        exact absurd hlt (by simp [mergeIterator, loadIterator])
      · rw [hent]
        exact (max_eq_right bot_le).symm
  | some v =>
      obtain ⟨h, app, hp, hdel⟩ := hold v rfl
      have hv := entryOfValue_of_parse hp
      rw [Option.getD_some, merge_of_parse _ hp, Option.bind_some, hv]
      refine ⟨_, rfl, ?_⟩
      by_cases hkeep : (mergeIterator padding txnID).keeps kv h app
      · rw [if_pos hkeep, hv]
        refine ⟨⟨h, app, hp, hdel⟩, (max_eq_left ?_).symm⟩
        apply WithBot.coe_le_coe.mpr
        rw [stamp_le_iff]
        unfold NativeIterator.keeps at hkeep
        rw [writtenTS_mergeIterator] at hkeep
        rcases hkeep with ⟨h0, rfl⟩ | hlt | heq
        · rcases eq_or_lt_of_le (show kv.timestampNano ≤ h.timestamp by rw [h0]; simp) with
            heq | hlt
          · exact Or.inr ⟨heq, le_rfl⟩
          · exact Or.inl hlt
        · exact Or.inl hlt
        · exact Or.inr heq
      · rw [if_neg hkeep, writtenTS_mergeIterator, hent]
        refine ⟨hnat, (max_eq_right ?_).symm⟩
        apply WithBot.coe_le_coe.mpr
        rw [stamp_le_iff]
        unfold NativeIterator.keeps at hkeep
        rw [writtenTS_mergeIterator, not_or, not_or, not_lt] at hkeep
        obtain ⟨-, hle, htie⟩ := hkeep
        rcases eq_or_lt_of_le hle with heq | hlt
        · exact Or.inr ⟨heq, (not_le.mp fun hval => htie ⟨heq.symm, hval⟩).le⟩
        · exact Or.inl hlt

/-! ## Loading a message -/

/-- The entry a message has for a key. -/
def entryIn (kvs : List Kv) (k : Bytes) : Option (Timestamp × Bytes) :=
  (kvs.find? (fun kv => decide (kv.key = k))).map (fun kv => (kv.timestampNano, kv.value))

/-- The entries of a dump of a native DBI. -/
structure NativeMessage (kvs : List Kv) : Prop where
  entries : ∀ kv ∈ kvs, NativeKv kv
  nodup : (kvs.map Kv.key).Nodup

/-- The load step of a run: one message, current format, no sweeper. -/
def load (padding : Bool) (txnID : TxnID) (kvs : List Kv) (d : Dbi) :
    Except (ApplyErr Empty) Txn :=
  applyMessage padding 0 currentFormatVersion writeCompatFormatVersion txnID
    (Reading.ofList kvs) (Txn.start d)

/-- A load succeeds and takes the maximum at every key. -/
theorem load_max {d : Dbi} {kvs : List Kv} (hd : NativeDbi d) (hm : NativeMessage kvs)
    (htxn : txnID ≠ 0) :
    ∃ t, load padding txnID kvs d = .ok t ∧ NativeDbi t.dbi ∧
      ∀ k, rankOf (entryOf t.dbi k) =
        max (rankOf (entryOf d k)) (rankOf (entryIn kvs k)) := by
  have hmerge : ∀ kv ∈ kvs, ∀ k, ∃ v,
      (mergeIterator padding txnID).merge kv (oldVal d k) = .ok (some v) ∧
      NativeValue v ∧ rankOf (entryOfValue v) = max (rankOf (entryOf d k))
        (rankOf (some (kv.timestampNano, kv.value))) := fun kv hkv k =>
    merge_max (hm.entries kv hkv) fun v hv => hd.values k v hv
  have hne : ∀ kv ∈ kvs, kv.key ≠ [] := by
    intro kv hkv hnil
    have hlen := (hm.entries kv hkv).key.1
    simp [hnil] at hlen
  have hallowed : d.flags.Allowed (kvs.map Kv.key ++ d.keys) := by
    rw [hd.flags]
    refine ⟨fun k hk => ?_, by simp [KeyFlags.plain]⟩
    rcases List.mem_append.mp hk with hk | hk
    · obtain ⟨kv, hkv, rfl⟩ := List.mem_map.mp hk
      exact (hm.entries kv hkv).key
    · exact d.keys_allowed.1 k hk
  obtain ⟨t, hup, hflags, hget⟩ := @update_spec _ _
    ((mergeIterator padding txnID).iterator (Reading.ofList (η := Empty) kvs)) (Txn.start d)
    (fun kv old => (mergeIterator padding txnID).merged kv (old.getD [])) rfl hm.nodup hne
    (fun kv hkv => by
      obtain ⟨v, hv, -⟩ := hmerge kv hkv kv.key
      exact iterator_merge_of_ok hv) hallowed
  -- what the strategy stored at a key, as an entry
  have hstored : ∀ k, (∀ v, t.dbi.get k = some v → NativeValue v) ∧
      rankOf (entryOf t.dbi k) = max (rankOf (entryOf d k)) (rankOf (entryIn kvs k)) := by
    intro k
    have hk := hget k
    rw [show Iterator.find _ k = kvs.find? (fun kv => decide (kv.key = k)) from rfl] at hk
    unfold entryOf entryIn
    cases hfind : kvs.find? (fun kv => decide (kv.key = k)) with
    | none =>
        rw [hfind] at hk
        rw [hk]
        exact ⟨hd.values k, (max_eq_left bot_le).symm⟩
    | some kv =>
        obtain ⟨v, hv, hnat, hrank⟩ := hmerge kv (List.mem_of_find?_eq_some hfind) k
        have hnil : v ≠ [] := by
          obtain ⟨h, app, hp, -⟩ := hnat
          exact parse_ok_ne_nil hp
        have hpresent : present (some v) = some v :=
          present_eq_some.mpr ⟨rfl, hnil⟩
        rw [hfind] at hk
        rw [show t.dbi.get k = some v from hk.trans (by
          show present ((mergeIterator padding txnID).merged kv (oldVal d k)) = _
          rw [merged_of_ok hv, hpresent])]
        refine ⟨fun w hw => Option.some.inj hw ▸ hnat, ?_⟩
        exact hrank
  refine ⟨t, ?_, ⟨hflags.trans hd.flags, fun k => (hstored k).1⟩, fun k => (hstored k).2⟩
  rw [load, applyMessage_eq _ _ (by decide) (by decide) htxn]
  exact mapError_eq_ok.mpr hup

/-- A dump of a native DBI has the DBI's entries. -/
theorem dump_native {d : Dbi} {name : Bytes} {kvs : List Kv} (hd : NativeDbi d)
    (hread : readDBI name false d = .ok kvs) :
    NativeMessage kvs ∧ ∀ k, entryIn kvs k = entryOf d k := by
  obtain ⟨-, rfl⟩ := (readDBI_headers_iff name).mp hread
  refine ⟨⟨?_, ?_⟩, fun k => ?_⟩
  · intro kv hkv
    obtain ⟨⟨k, v⟩, he, rfl⟩ := List.mem_map.mp hkv
    have hk := Dbi.mem_entries_iff.mp he
    obtain ⟨h, app, hp, hdel⟩ := hd.values k v hk
    rw [headerKv_of_parse hp]
    refine ⟨d.keys_allowed.1 k (Dbi.mem_keys_iff.mpr ⟨v, hk⟩), fun hmask => hdel ?_⟩
    rwa [maskedFlags_of_masked, isDeleted_masked] at hmask
  · rw [List.map_map, show Kv.key ∘ headerKv = Prod.fst from funext headerKv_key]
    exact d.keys_nodup
  · rw [entryIn, find_map_entries headerKv_key, entryOf]
    cases hk : d.get k with
    | none => rfl
    | some v =>
        obtain ⟨h, app, hp, -⟩ := hd.values k v hk
        rw [Option.map_some, Option.map_some, Option.bind_some, entryOfValue_of_parse hp,
          headerKv_of_parse hp]

/-! ## Runs -/

/-- An application write, as far as it replicates. -/
structure Write where
  key : Bytes
  timestamp : Timestamp
  flags : Flags
  value : Bytes

/-- A dump, with the writes its instance had taken in. -/
structure Dump where
  kvs : List Kv
  writes : Set Write

structure Net (ι : Type) where
  dbi : ι → Dbi
  incorporated : ι → Set Write
  dumps : Set Dump

variable {ι : Type} [DecidableEq ι]

inductive Step : Net ι → Net ι → Prop
  /-- The application stores an entry that is new or has a higher timestamp. -/
  | write {s : Net ι} (i : ι) {k v app : Bytes} {h : Header} {t : Txn}
      (hp : parse v = .ok (h, app)) (hdel : isDeleted h.flags = true → app = [])
      (hnew : ∀ e, entryOf (s.dbi i) k = some e → e.1 < h.timestamp)
      (hput : (Txn.start (s.dbi i)).put k v = .ok t) :
      Step s { s with
        dbi := Function.update s.dbi i t.dbi
        incorporated := Function.update s.incorporated i
          (insert ⟨k, h.timestamp, h.flags, app⟩ (s.incorporated i)) }
  | dump {s : Net ι} (i : ι) {name : Bytes} {kvs : List Kv}
      (hread : readDBI name false (s.dbi i) = .ok kvs) :
      Step s { s with dumps := insert ⟨kvs, s.incorporated i⟩ s.dumps }
  | load {s : Net ι} (i : ι) {d : Dump} {padding : Bool} {txnID : TxnID} {t : Txn}
      (hd : d ∈ s.dumps) (htxn : txnID ≠ 0)
      (hload : load padding txnID d.kvs (s.dbi i) = .ok t) :
      Step s { s with
        dbi := Function.update s.dbi i t.dbi
        incorporated := Function.update s.incorporated i (s.incorporated i ∪ d.writes) }

/-- The entries of a DBI, as writes. -/
def writesOf (d : Dbi) : Set Write :=
  {w | ∃ v h, d.get w.key = some v ∧ parse v = .ok (h, w.value) ∧
    h.timestamp = w.timestamp ∧ h.flags = w.flags}

/-- A run starts from any native DBIs; what they hold counts as written. -/
structure Start (s : Net ι) : Prop where
  native : ∀ i, NativeDbi (s.dbi i)
  writes : ∀ i, s.incorporated i = writesOf (s.dbi i)
  dumps : s.dumps = ∅

/-! ### Refinement -/

def absWrites (W : Set Write) : Set (Bytes × Stamp) :=
  Set.image (fun w => (w.key, stamp (w.timestamp, w.value))) W

def absDbi (d : Dbi) (W : Set Write) : LastWriter.Copy Bytes Stamp :=
  ⟨fun k => rankOf (entryOf d k), absWrites W⟩

def absDump (d : Dump) : LastWriter.Copy Bytes Stamp :=
  ⟨fun k => rankOf (entryIn d.kvs k), absWrites d.writes⟩

/-- A run's state as a replicated map. -/
def absNet (s : Net ι) : LastWriter.Net ι Bytes Stamp :=
  ⟨fun i => absDbi (s.dbi i) (s.incorporated i), Set.image absDump s.dumps⟩

structure Native (s : Net ι) : Prop where
  dbis : ∀ i, NativeDbi (s.dbi i)
  dumps : ∀ d ∈ s.dumps, NativeMessage d.kvs

theorem absNet_replace (s : Net ι) (i : ι) (d : Dbi) (W : Set Write) :
    absNet { s with
      dbi := Function.update s.dbi i d
      incorporated := Function.update s.incorporated i W } =
    { absNet s with
      replica := Function.update (absNet s).replica i (absDbi d W) } := by
  unfold absNet
  congr 1
  funext j
  by_cases hj : j = i
  · subst hj
    simp
  · simp [hj]

theorem Native.replace {s : Net ι} (hs : Native s) (i : ι) {d : Dbi} (hd : NativeDbi d)
    (W : Set Write) :
    Native { s with
      dbi := Function.update s.dbi i d
      incorporated := Function.update s.incorporated i W } := by
  refine ⟨fun j => ?_, hs.dumps⟩
  show NativeDbi (Function.update s.dbi i d j)
  by_cases hj : j = i
  · subst hj
    rw [Function.update_self]
    exact hd
  · rw [Function.update_of_ne hj]
    exact hs.dbis j

/-- A step of a run is a step of the replicated map. -/
theorem step_refines {s s' : Net ι} (hs : Native s) (hstep : Step s s') :
    Native s' ∧ LastWriter.Step (absNet s) (absNet s') := by
  cases hstep with
  | write i hp hdel hnew hput =>
      rename_i k v app h t
      obtain ⟨hflags, hget⟩ := Txn.put_spec hput
      have hnat : NativeDbi t.dbi := by
        refine ⟨hflags.trans (hs.dbis i).flags, fun j w hw => ?_⟩
        rw [hget] at hw
        split at hw
        · rw [← Option.some.inj hw]
          exact ⟨h, app, hp, hdel⟩
        · exact (hs.dbis i).values j w hw
      refine ⟨hs.replace i hnat _, ?_⟩
      have habs : absDbi t.dbi (insert ⟨k, h.timestamp, h.flags, app⟩
          (s.incorporated i)) = ((absNet s).replica i).write k (stamp (h.timestamp, app)) := by
        unfold absDbi LastWriter.Copy.write
        congr 1
        · funext j
          unfold entryOf
          rw [hget]
          by_cases hj : j = k
          · subst hj
            rw [if_pos rfl, Option.bind_some, entryOfValue_of_parse hp, Function.update_self]
            rfl
          · rw [if_neg hj, Function.update_of_ne hj]
            rfl
        · exact Set.image_insert_eq ..
      rw [absNet_replace, habs]
      apply LastWriter.Step.write
      show rankOf (entryOf (s.dbi i) k) < _
      cases he : entryOf (s.dbi i) k with
      | none => exact WithBot.bot_lt_coe _
      | some e => exact WithBot.coe_lt_coe.mpr (stamp_lt_iff.mpr (Or.inl (hnew e he)))
  | dump i hread =>
      rename_i name kvs
      obtain ⟨hmsg, hentries⟩ := dump_native (hs.dbis i) hread
      refine ⟨⟨hs.dbis, ?_⟩, ?_⟩
      · rintro d (rfl | hd)
        · exact hmsg
        · exact hs.dumps d hd
      · have habs : absDump ⟨kvs, s.incorporated i⟩ = (absNet s).replica i := by
          unfold absDump absNet absDbi
          simp only [hentries]
        unfold absNet
        simp only [Set.image_insert_eq, habs]
        exact LastWriter.Step.publish i
  | load i hd htxn hload =>
      rename_i d padding txnID t
      obtain ⟨t', hload', hnat, hmax⟩ := load_max (hs.dbis i) (hs.dumps d hd) htxn
      rw [hload] at hload'
      obtain rfl := Except.ok.inj hload'
      refine ⟨hs.replace i hnat _, ?_⟩
      have habs : absDbi t.dbi (s.incorporated i ∪ d.writes) =
          ((absNet s).replica i).join (absDump d) := by
        unfold absDbi LastWriter.Copy.join
        congr 1
        · funext k
          exact hmax k
        · exact Set.image_union ..
      rw [absNet_replace, habs]
      exact LastWriter.Step.load i _ ⟨d, hd, rfl⟩

/-- What a DBI holds is the latest of its own entries. -/
theorem latest_writesOf {d : Dbi} (hd : NativeDbi d) (k : Bytes) :
    LastWriter.Latest (LastWriter.writesTo (absWrites (writesOf d)) k)
      (rankOf (entryOf d k)) := by
  have hset : ∀ a, a ∈ LastWriter.writesTo (absWrites (writesOf d)) k ↔
      ∃ e, entryOf d k = some e ∧ a = stamp e := by
    intro a
    constructor
    · rintro ⟨w, ⟨v, h, hv, hp, hts, -⟩, heq⟩
      obtain ⟨rfl, rfl⟩ := Prod.mk.inj heq
      refine ⟨(w.timestamp, w.value), ?_, rfl⟩
      rw [entryOf, hv, Option.bind_some, entryOfValue_of_parse hp, hts]
    · rintro ⟨e, he, rfl⟩
      obtain ⟨v, hv, hval⟩ := Option.bind_eq_some_iff.mp he
      obtain ⟨h, app, hp, -⟩ := hd.values k v hv
      rw [entryOfValue_of_parse hp] at hval
      obtain rfl := Option.some.inj hval
      exact ⟨⟨k, h.timestamp, h.flags, app⟩, ⟨v, h, hv, hp, rfl, rfl⟩, rfl⟩
  cases he : entryOf d k with
  | none =>
      rw [show rankOf none = ⊥ from rfl, LastWriter.latest_bot_iff]
      apply Set.eq_empty_of_forall_notMem
      intro a ha
      obtain ⟨e, he', -⟩ := (hset a).mp ha
      rw [he] at he'
      cases he'
  | some e =>
      rw [show rankOf (some e) = (stamp e : WithBot Stamp) from rfl,
        LastWriter.latest_coe_iff]
      refine ⟨(hset _).mpr ⟨e, he, rfl⟩, ?_⟩
      intro a ha
      obtain ⟨e', he', rfl⟩ := (hset a).mp ha
      rw [he] at he'
      rw [Option.some.inj he']

omit [DecidableEq ι] in
theorem Start.native_abs {s : Net ι} (hs : Start s) : Native s ∧ (absNet s).Sound := by
  refine ⟨⟨hs.native, ?_⟩, ?_, ?_⟩
  · rw [hs.dumps]
    simp
  · intro i k
    show LastWriter.Latest (LastWriter.writesTo (absWrites (s.incorporated i)) k)
      (rankOf (entryOf (s.dbi i) k))
    rw [hs.writes]
    exact latest_writesOf (hs.native i) k
  · simp [absNet, hs.dumps]

/-- A run of the instances is a run of replicas. -/
theorem run_refines {s s' : Net ι} (hs : Native s) (hr : Relation.ReflTransGen Step s s') :
    Native s' ∧ Relation.ReflTransGen LastWriter.Step (absNet s) (absNet s') := by
  induction hr with
  | refl => exact ⟨hs, .refl⟩
  | tail _ hstep ih =>
      obtain ⟨hnat, habs⟩ := step_refines ih.1 hstep
      exact ⟨hnat, ih.2.tail habs⟩

theorem run_sound {s s' : Net ι} (hs : Start s) (hr : Relation.ReflTransGen Step s s') :
    Native s' ∧ (absNet s').Sound := by
  obtain ⟨hnative, hsound⟩ := hs.native_abs
  obtain ⟨hnative', habs⟩ := run_refines hnative hr
  exact ⟨hnative', LastWriter.reachable_latest hsound habs⟩

/-! ## Convergence -/

/-- The entry is the best of the writes to its key: the highest timestamp and,
among those with that timestamp, the lowest value. A missing entry means that
there were none. -/
def IsBest (W : Set Write) (k : Bytes) : Option (Timestamp × Bytes) → Prop
  | none => ∀ w ∈ W, w.key ≠ k
  | some (ts, value) =>
      (∃ w ∈ W, w.key = k ∧ w.timestamp = ts ∧ w.value = value) ∧
      ∀ w ∈ W, w.key = k → w.timestamp ≤ ts ∧ (w.timestamp = ts → value ≤ w.value)

theorem isBest_of_latest {W : Set Write} {k : Bytes} {o : Option (Timestamp × Bytes)}
    (h : LastWriter.Latest (LastWriter.writesTo (absWrites W) k) (rankOf o)) :
    IsBest W k o := by
  cases o with
  | none =>
      have hempty := LastWriter.latest_bot_iff.mp h
      intro w hw hk
      have : stamp (w.timestamp, w.value) ∈ LastWriter.writesTo (absWrites W) k :=
        hk ▸ ⟨w, hw, rfl⟩
      rw [hempty] at this
      exact this
  | some e =>
      obtain ⟨⟨w, hw, heq⟩, hub⟩ := LastWriter.latest_coe_iff.mp h
      obtain ⟨hk, hst⟩ := Prod.mk.inj heq
      have hwe := stamp_injective hst
      refine ⟨⟨w, hw, hk, by rw [← hwe], by rw [← hwe]⟩, fun u hu huk => ?_⟩
      have hle : stamp (u.timestamp, u.value) ≤ stamp e := hub (huk ▸ ⟨u, hu, rfl⟩)
      rcases stamp_le_iff.mp hle with hlt | ⟨heq', hval⟩
      · exact ⟨hlt.le, fun h => absurd h hlt.ne⟩
      · exact ⟨heq'.le, fun _ => hval⟩

/-- **Native instances converge.** In every state a run reaches, any dump can
be loaded anywhere, every instance holds the best of the writes it has taken
in, and instances that have taken in the same writes hold the same entries. -/
theorem native_instances_converge {s s' : Net ι} (hs : Start s)
    (hr : Relation.ReflTransGen Step s s') :
    (∀ i, ∀ d ∈ s'.dumps, ∀ padding, ∀ txnID ≠ 0,
      ∃ t, load padding txnID d.kvs (s'.dbi i) = .ok t) ∧
    (∀ i k, IsBest (s'.incorporated i) k (entryOf (s'.dbi i) k)) ∧
    ∀ i j, s'.incorporated i = s'.incorporated j →
      ∀ k, entryOf (s'.dbi i) k = entryOf (s'.dbi j) k := by
  obtain ⟨hnat, hsound⟩ := run_sound hs hr
  have hlatest : ∀ i k, LastWriter.Latest
      (LastWriter.writesTo (absWrites (s'.incorporated i)) k)
      (rankOf (entryOf (s'.dbi i) k)) := hsound.replicas
  refine ⟨?_, fun i k => isBest_of_latest (hlatest i k), ?_⟩
  · intro i d hd padding txnID htxn
    obtain ⟨t, ht, -⟩ := load_max (hnat.dbis i) (hnat.dumps d hd) htxn
    exact ⟨t, ht⟩
  · intro i j hij k
    have hi := hlatest i k
    rw [hij] at hi
    exact rankOf_injective (hi.unique (hlatest j k))

/-- Two empty instances. -/
def blank : Net Bool :=
  ⟨fun _ => Dbi.empty KeyFlags.plain, fun _ => writesOf (Dbi.empty KeyFlags.plain), ∅⟩

theorem blank_start : Start blank :=
  ⟨fun _ => ⟨rfl, by simp [blank]⟩, fun _ => rfl, rfl⟩

/-- One instance writes and dumps, the other loads the dump. -/
theorem native_instances_converge_two :
    ∃ s', Relation.ReflTransGen Step blank s' ∧
      s'.incorporated true = s'.incorporated false ∧
      entryOf (s'.dbi true) [107] = some (5, [65]) ∧
      entryOf (s'.dbi false) [107] = some (5, [65]) := by
  have hp := parse_putBasic 5 1 noFlags [65]
  obtain ⟨t, hput⟩ : ∃ t, (Txn.start (blank.dbi true)).put [107]
      (putBasic 5 1 noFlags ++ [65]) = .ok t :=
    ⟨_, Txn.put_of_allowed (by decide)⟩
  have hwrite := Step.write (s := blank) true hp (by decide) (by simp [blank, entryOf]) hput
  obtain ⟨-, hget⟩ := Txn.put_spec hput
  have hvalid : HeadersValid t.dbi := by
    intro k v hv
    rw [hget] at hv
    split at hv
    · exact ⟨_, Option.some.inj hv ▸ hp⟩
    · cases hv
  have hdump := Step.dump true (readDBI_headers [] (d := t.dbi) hvalid)
    (s := { blank with
      dbi := Function.update blank.dbi true t.dbi
      incorporated := Function.update blank.incorporated true
        (insert ⟨[107], 5, noFlags, [65]⟩ (blank.incorporated true)) })
  have hrun := (Relation.ReflTransGen.single hwrite).tail hdump
  obtain ⟨t', hload⟩ := (native_instances_converge blank_start hrun).1 false _
    (Set.mem_insert _ _) false 1 (by decide)
  have hrun' := hrun.tail (Step.load false (Set.mem_insert _ _) (by decide) hload)
  have heq := (native_instances_converge blank_start hrun').2.2 true false (by simp [blank])
    [107]
  have htrue : entryOf t.dbi [107] = some (5, [65]) := by
    rw [entryOf, hget, if_pos rfl, Option.bind_some, entryOfValue_of_parse hp]
  exact ⟨_, hrun', by simp [blank], htrue, heq.symm.trans htrue⟩

end LightningStream.Syncer.Convergence
