import LightningStream.Base.Cells
import LightningStream.Lmdb.Tables
import LightningStream.Strategy.Put
import LightningStream.Syncer.DupSortHack
import LightningStream.Syncer.ShadowTxn

/-!
# Shadow mode on whole environments

The transactions of shadow mode as they run over all DBIs of an environment,
including those with `MDB_DUPSORT`. Such a DBI has a shadow without that flag, in
which the dupsort hack gives every pair a key of its own; on the way back the main
DBI is emptied and filled again.

Where the existing model of one DBI and its shadow says what happens, the rounds of
the loops are reduced to it: a DBI with `MDB_DUPSORT` that the hack accepts is
copied as the DBI without it that holds the encoded pairs (`image`).
-/

namespace LightningStream.Syncer.ShadowTables

open Lmdb Snapshot Strategy Header

/-- The options that shadow mode reads. -/
structure Options where
  dupSortHack : Bool
  headerExtraPaddingBlock : Bool
  /-- `OverrideCreateFlags` of the DBI's options. -/
  overrideCreateFlags : Bytes → Option UInt64

inductive Err (η : Type)
  /-- `OpenDBI` without `lmdb.Create`. -/
  | notFound (dbiName : Bytes)
  /-- "dupsort db found and dupsort_hack disabled". -/
  | dupSortDisabled (dbiName : Bytes)
  /-- "duplicate key detected in DBI without dupsort_hack". -/
  | duplicateKey (dbiName : Bytes)
  | entry (e : EntryErr)
  | dupSortHack (dbiName : Bytes) (e : DupSortHackErr)
  | create (e : LmdbErr)
  | iterator (e : IterErr Empty)
  | strategy (e : StratErr (IterErr Empty))
  | transform (e : TransformErr)
  /-- "DBI does not exist yet, and we cannot safely create it". -/
  | oldFormat (dbiName : Bytes) (formatVersion : UInt32)
  | apply (e : ApplyErr η)
  | flagsOutsideModel (flags : UInt64)
  /-- A shadow with `MDB_DUPSORT`, which the syncer never creates. -/
  | shadowOutsideModel (dbiName : Bytes)
deriving DecidableEq

variable {η : Type}

def shadowName (dbiName : Bytes) : Bytes := syncDBIShadowPrefix ++ dbiName

/-- `OpenDBI` without `lmdb.Create`. -/
def openDBI (c : Tables) (dbiName : Bytes) : Except (Err η) Table :=
  match c.get dbiName with
  | none => .error (.notFound dbiName)
  | some x => .ok x

/-! ## readDBI -/

/-- The loop of `readDBI`, with the previous key. -/
def readEntries (dbiName : Bytes) (isDupSort rawValues : Bool) :
    Option Bytes → List (Bytes × Bytes) → Except (Err η) (List Kv)
  | _, [] => .ok []
  | prev, e :: es =>
      if !isDupSort && decide (prev = some e.1) then .error (.duplicateKey dbiName)
      else do
        let kv ← (readEntry dbiName rawValues e).mapError .entry
        let kvs ← readEntries dbiName isDupSort rawValues (some e.1) es
        .ok (kv :: kvs)

/-- The flags a dump gets: those of the original DBI, also when the shadow is read. -/
def origFlags (c : Tables) (dbiName origDBIName : Bytes) (x : Table) : Except (Err η) DbiFlags :=
  if dbiName = origDBIName then .ok x.flags
  else (openDBI c origDBIName).map Table.flags

def readDBI (o : Options) (c : Tables) (dbiName origDBIName : Bytes) (rawValues : Bool) :
    Except (Err η) (DbiMsg η) := do
  let x ← openDBI c dbiName
  let flags ← origFlags c dbiName origDBIName x
  if flags.dupSort && !o.dupSortHack then .error (.dupSortDisabled dbiName)
  else do
    let kvs ← readEntries dbiName flags.dupSort rawValues none x.entries
    .ok ⟨origDBIName, flags.bits,
      if flags.dupSort then transformDupSortHackV1 else transformNone, Reading.ofList kvs⟩

/-! ## mainToShadow -/

/-- Work on a DBI without `MDB_DUPSORT`. -/
def onSingle (dbiName : Bytes) (f : Txn → Except (Err η) Txn) :
    Table → Bool → Except (Err η) (Table × Bool)
  | .single d, dirty => do
      let r ← f ⟨d, dirty⟩
      .ok (.single r.dbi, r.dirty)
  | .dup _, _ => .error (.shadowOutsideModel dbiName)

/-- The dupsort hack on the entries of a dump. -/
def encodeEntries (o : Options) (dbiName : Bytes) (flags : DbiFlags) (kvs : List Kv) :
    Except (Err η) (List Kv) :=
  if o.dupSortHack && flags.dupSort then
    (mapKvs encodeNext [] kvs).mapError (.dupSortHack dbiName)
  else .ok kvs

/-- One round of the loop in `mainToShadow`. The second check for a disabled hack comes
after `readDBI` has made the same one. -/
def shadowDbi (o : Options) (deletedCutoff ts : Timestamp) (txnID : TxnID) (t : TablesTxn)
    (dbiName : Bytes) : Except (Err η) TablesTxn :=
  if isPrivate dbiName then .ok t
  else do
    let msg ← readDBI o t.contents dbiName dbiName true
    let x ← openDBI t.contents dbiName
    if x.flags.dupSort && !o.dupSortHack then .error (.dupSortDisabled dbiName)
    else do
      let kvs ← encodeEntries o dbiName x.flags msg.reading.kvs
      let t ← (t.create (shadowName dbiName) ⟨shadowFlags x.flags.keys, false⟩).mapError .create
      let it ← (newNativeIterator currentFormatVersion compatFormatVersion ts txnID
        deletedCutoff).mapError .iterator
      t.onTable (shadowName dbiName) (.notFound (shadowName dbiName))
        (onSingle (shadowName dbiName) fun r =>
          (iterUpdate r (it.iterator (Reading.ofList kvs))).mapError .strategy)

def mainToShadow (o : Options) (deletedCutoff ts : Timestamp) (txnID : TxnID) (t : TablesTxn) :
    Except (Err η) TablesTxn :=
  t.contents.names.foldlM (shadowDbi o deletedCutoff ts txnID) t

/-! ## shadowToMain -/

/-- Put the entries of the shadow into the main DBI. -/
def putBack (dbiName : Bytes) (kvs : List Kv) : Table → Bool → Except (Err η) (Table × Bool)
  | .single d, dirty => do
      let r ← (iterUpdate ⟨d, dirty⟩ (plainIterator (Reading.ofList kvs))).mapError .strategy
      .ok (.single r.dbi, r.dirty)
  | .dup d, dirty => do
      let kvs ← (mapKvs decodeNext () kvs).mapError (.dupSortHack dbiName)
      let r ← (emptyPut dupTxnStore ⟨d, dirty⟩
        (plainIterator (Reading.ofList kvs))).mapError .strategy
      .ok (.dup r.dbi, r.dirty)

/-- One round of the loop in `shadowToMain`. -/
def mainDbi (o : Options) (t : TablesTxn) (dbiName : Bytes) : Except (Err η) TablesTxn :=
  if isPrivate dbiName then .ok t
  else do
    let x ← openDBI t.contents dbiName
    if x.flags.dupSort && !o.dupSortHack then .error (.dupSortDisabled dbiName)
    else do
      let msg ← readDBI o t.contents (shadowName dbiName) dbiName false
      t.onTable dbiName (.notFound dbiName) (putBack dbiName msg.reading.kvs)

def shadowToMain (o : Options) (t : TablesTxn) : Except (Err η) TablesTxn :=
  t.contents.names.foldlM (mainDbi o) t

/-! ## LoadOnce -/

/-- `OpenDBI` with `lmdb.Create` and the given flags. -/
def createDBI (t : TablesTxn) (dbiName : Bytes) (flags : UInt64) : Except (Err η) TablesTxn :=
  if (DbiFlags.ofBits flags).bits = flags then
    (t.create dbiName (DbiFlags.ofBits flags)).mapError .create
  else .error (.flagsOutsideModel flags)

/-- The flags of a DBI that a snapshot brings. -/
def Options.createFlags (o : Options) (d : DbiMsg η) : UInt64 :=
  (o.overrideCreateFlags d.name).getD d.flags

/-- Create the main DBI if it does not exist. Before format version 3 the flags in a
snapshot were those of the shadow. -/
def createMain (o : Options) (formatVersion : UInt32) (t : TablesTxn) (d : DbiMsg η) :
    Except (Err η) TablesTxn :=
  if (t.contents.get d.name).isSome then .ok t
  else if formatVersion < 3 ∧ o.overrideCreateFlags d.name = none then
    .error (.oldFormat d.name formatVersion)
  else createDBI t d.name (o.createFlags d)

/-- Create the shadow if it does not exist. -/
def createShadow (o : Options) (t : TablesTxn) (d : DbiMsg η) : Except (Err η) TablesTxn :=
  if (t.contents.get (shadowName d.name)).isSome then .ok t
  else (t.create (shadowName d.name)
    ⟨shadowFlags (KeyFlags.ofBits (o.createFlags d)), false⟩).mapError .create

/-- One round of the loop in `LoadOnce`. -/
def loadDbi (o : Options) (deletedCutoff : Timestamp) (formatVersion compatVersion : UInt32)
    (txnID : TxnID) (t : TablesTxn) (d : DbiMsg η) : Except (Err η) TablesTxn :=
  if isPrivate d.name then .ok t
  else do
    (d.validateTransform formatVersion false).mapError .transform
    let t ← createMain o formatVersion t d
    let t ← createShadow o t d
    t.onTable (shadowName d.name) (.notFound (shadowName d.name))
      (onSingle (shadowName d.name) fun r =>
        (applyMessage o.headerExtraPaddingBlock deletedCutoff formatVersion compatVersion txnID
          d.reading r).mapError .apply)

/-- The first copy of `LoadOnce`. -/
def copyIfChanged (o : Options) (localChanged : Bool) (deletedCutoff ts : Timestamp)
    (txnID : TxnID) (t : TablesTxn) : Except (Err η) TablesTxn :=
  if localChanged then mainToShadow o deletedCutoff ts txnID t else .ok t

/-- The transaction of `LoadOnce`. -/
def loadOnce (o : Options) (localChanged : Bool) (deletedCutoff ts : Timestamp) (txnID : TxnID)
    (m : Message η) (c : Tables) : Except (Err η) TablesTxn := do
  let t ← copyIfChanged o localChanged deletedCutoff ts txnID (TablesTxn.start c)
  let t ← m.databases.foldlM (loadDbi o deletedCutoff m.formatVersion m.compatVersion txnID) t
  shadowToMain o t

/-! ## SendOnce -/

/-- The names of the application's DBIs. -/
def appNames (c : Tables) : List Bytes := c.names.filter fun n => !isPrivate n

/-- The dump of all shadows, under the names of their main DBIs. -/
def dump (o : Options) (c : Tables) : Except (Err η) (Message η) := do
  let databases ← (appNames c).mapM fun n => readDBI o c (shadowName n) n false
  .ok ⟨currentFormatVersion, writeCompatFormatVersion, databases⟩

/-- The transaction of `SendOnce`. A receive-only instance dumps nothing. -/
def sendOnce (o : Options) (receiveOnly : Bool) (deletedCutoff ts : Timestamp) (txnID : TxnID)
    (c : Tables) : Except (Err η) (TablesTxn × Option (Message η)) := do
  let t ← mainToShadow o deletedCutoff ts txnID (TablesTxn.start c)
  if receiveOnly then .ok (t, none)
  else do
    let msg ← dump o t.contents
    .ok (t, some msg)

/-! ## What is read -/

theorem shadowName_inj {m n : Bytes} : shadowName m = shadowName n ↔ m = n := by
  unfold shadowName
  rw [List.append_cancel_left_eq]

theorem isPrivate_shadowName (n : Bytes) : isPrivate (shadowName n) = true := by
  unfold isPrivate shadowName syncDBIShadowPrefix syncDBIPrefix
  rw [decide_eq_true_eq]
  exact List.IsPrefix.trans (by decide) (List.prefix_append _ _)

theorem shadowName_ne {m n : Bytes} (h : isPrivate n = false) : shadowName m ≠ n := by
  rintro rfl
  rw [isPrivate_shadowName] at h
  cases h

theorem openDBI_eq_ok {c : Tables} {n : Bytes} {x : Table} :
    openDBI (η := η) c n = .ok x ↔ c.get n = some x := by
  unfold openDBI
  cases c.get n with
  | none => simp
  | some y => simp

/-- The check for duplicates has nothing to refuse in a DBI that is read as what it is. -/
theorem readEntries_eq {n : Bytes} {isDupSort raw : Bool} :
    ∀ {es : List (Bytes × Bytes)} {prev : Option Bytes},
      isDupSort = true ∨ (∀ e ∈ es, prev ≠ some e.1) ∧ (es.map Prod.fst).Nodup →
      readEntries (η := η) n isDupSort raw prev es =
        (es.mapM (readEntry n raw)).mapError .entry
  | [], _, _ => rfl
  | e :: es, prev, h => by
      have hcheck : (!isDupSort && decide (prev = some e.1)) = false := by
        rcases h with h | ⟨h, -⟩
        · simp [h]
        · simp [h e List.mem_cons_self]
      have hrest : isDupSort = true ∨
          (∀ x ∈ es, some e.1 ≠ some x.1) ∧ (es.map Prod.fst).Nodup := by
        refine h.imp_right fun hkeys => ?_
        obtain ⟨hnot, hnd⟩ := List.nodup_cons.mp hkeys.2
        refine ⟨fun x hx heq => hnot ?_, hnd⟩
        rw [Option.some.inj heq]
        exact List.mem_map.mpr ⟨x, hx, rfl⟩
      rw [readEntries, hcheck, readEntries_eq hrest, List.mapM_cons]
      cases readEntry n raw e with
      | error err => rfl
      | ok kv =>
          cases es.mapM (readEntry n raw) with
          | error err => rfl
          | ok kvs => rfl

/-- The transform that the flags of a DBI ask for. -/
def transformOf (f : DbiFlags) : Bytes :=
  if f.dupSort then transformDupSortHackV1 else transformNone

/-- The hack is enabled if the DBI needs it. -/
def Enabled (o : Options) (x : Table) : Prop := x.flags.dupSort = true → o.dupSortHack = true

theorem Enabled.check {o : Options} {x : Table} (h : Enabled o x) :
    (x.flags.dupSort && !o.dupSortHack) = false := by
  cases hd : x.flags.dupSort with
  | false => rfl
  | true => simp [h hd]

theorem enabled_of_check {o : Options} {x : Table}
    (h : ¬ (x.flags.dupSort && !o.dupSortHack) = true) : Enabled o x := by
  intro hd
  simpa [hd] using h

theorem readEntries_raw (n : Bytes) (x : Table) :
    readEntries (η := η) n x.flags.dupSort true none x.entries = .ok (x.entries.map rawKv) := by
  have hraw : x.entries.mapM (readEntry n true) = .ok (x.entries.map rawKv) :=
    mapM_eq_ok_map fun _ _ => rfl
  rw [readEntries_eq, hraw]
  · rfl
  · cases x with
    | single d => exact Or.inr ⟨by simp, d.keys_nodup⟩
    | dup d => exact Or.inl rfl

theorem origFlags_self (c : Tables) (n : Bytes) (x : Table) :
    origFlags (η := η) c n n x = .ok x.flags := if_pos rfl

theorem origFlags_shadow {c : Tables} {n : Bytes} {x : Table} (hpriv : isPrivate n = false)
    (hx : c.get n = some x) (y : Table) :
    origFlags (η := η) c (shadowName n) n y = .ok x.flags := by
  rw [origFlags, if_neg (shadowName_ne hpriv), openDBI_eq_ok.mpr hx]
  rfl

/-- `readDBI` by its parts: the DBI that is read is `y`, the one whose flags count is `x`. -/
theorem readDBI_eq {o : Options} {c : Tables} {n orig : Bytes} {raw : Bool} {x y : Table}
    {kvs : List Kv} (hy : c.get n = some y) (hf : origFlags (η := η) c n orig y = .ok x.flags)
    (ho : Enabled o x)
    (hkvs : readEntries (η := η) n x.flags.dupSort raw none y.entries = .ok kvs) :
    readDBI (η := η) o c n orig raw =
      .ok ⟨orig, x.flags.bits, transformOf x.flags, Reading.ofList kvs⟩ := by
  unfold readDBI
  rw [openDBI_eq_ok.mpr hy]
  simp only [bind, Except.bind, hf, ho.check, Bool.false_eq_true, if_false, hkvs]
  rfl

/-- The raw dump of a main DBI. -/
theorem readDBI_main {o : Options} {c : Tables} {n : Bytes} {x : Table}
    (hx : c.get n = some x) (ho : Enabled o x) :
    readDBI (η := η) o c n n true = .ok ⟨n, x.flags.bits, transformOf x.flags,
      Reading.ofList (x.entries.map rawKv)⟩ :=
  readDBI_eq hx (origFlags_self c n x) ho (readEntries_raw n x)

/-- The dump of a shadow, with the flags of its main DBI. -/
theorem readDBI_shadow {o : Options} {c : Tables} {n : Bytes} {x : Table} {s : Dbi}
    (hpriv : isPrivate n = false) (hx : c.get n = some x) (ho : Enabled o x)
    (hs : c.get (shadowName n) = some (.single s)) (hvalid : HeadersValid s) :
    readDBI (η := η) o c (shadowName n) n false = .ok ⟨n, x.flags.bits, transformOf x.flags,
      Reading.ofList (s.entries.map headerKv)⟩ := by
  have hdump : s.entries.mapM (readEntry (shadowName n) false) = .ok (s.entries.map headerKv) :=
    readDBI_headers (shadowName n) hvalid
  refine readDBI_eq hs (origFlags_shadow hpriv hx _) ho ?_
  show readEntries _ _ _ _ s.entries = _
  rw [readEntries_eq (Or.inr ⟨by simp, s.keys_nodup⟩), hdump]
  rfl

end LightningStream.Syncer.ShadowTables
