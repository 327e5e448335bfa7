import LightningStream.Lmdb.Environment
import LightningStream.Snapshot.Name
import LightningStream.Syncer.Load

/-!
# The transactions of native mode

With the native schema every value of the environment carries its header.
`LoadOnce` merges the DBI messages of a snapshot straight into the DBIs of
the same names, creating those that are missing, and `SendOnce` dumps all
DBIs. Names that start with `_sync` are the syncer's own and stay out of both.

A DBI with `MDB_DUPSORT` is outside this model: opening one fails.
-/

namespace LightningStream.Syncer

open Lmdb Snapshot Strategy Header

/-! ## Messages -/

/-- A DBI message as its readers see it. -/
structure DbiMsg (η : Type) where
  name : Bytes
  flags : UInt64
  transform : Bytes
  reading : Reading η
deriving DecidableEq

/-- The part of a snapshot that `LoadOnce` applies. -/
structure Message (η : Type) where
  formatVersion : UInt32
  compatVersion : UInt32
  databases : List (DbiMsg η)
deriving DecidableEq

def syncDBIPrefix : Bytes := ascii "_sync"

/-- The DBIs that belong to the syncer. -/
def isPrivate (dbiName : Bytes) : Bool := decide (syncDBIPrefix <+: dbiName)

/-! ## Transforms -/

def transformNone : Bytes := []

def transformDupSortHackV1 : Bytes := ascii "dupsort_hack_v1"

def transformSupported (transform : Bytes) : Bool :=
  transform = transformNone || transform = transformDupSortHackV1

inductive TransformErr
  | notSupported (dbiName transform : Bytes)
  | nativeSchema (dbiName transform : Bytes)
  | missingDupSort (dbiName transform : Bytes)
  | unexpectedDupSort (dbiName transform : Bytes)
deriving DecidableEq

/-- `MDB_DUPSORT`. -/
def dupSort : UInt64 := 0x04

def DbiMsg.validateTransform {η : Type} (d : DbiMsg η) (formatVersion : UInt32)
    (nativeSchema : Bool) : Except TransformErr Unit :=
  let flagsDupSort := d.flags &&& dupSort > 0
  let transformDupSort := d.transform = transformDupSortHackV1
  if !transformSupported d.transform then .error (.notSupported d.name d.transform)
  else if nativeSchema ∧ d.transform ≠ transformNone then
    .error (.nativeSchema d.name d.transform)
  else if formatVersion ≥ 3 ∧ flagsDupSort ∧ ¬ transformDupSort then
    .error (.missingDupSort d.name d.transform)
  else if formatVersion ≥ 3 ∧ ¬ flagsDupSort ∧ transformDupSort then
    .error (.unexpectedDupSort d.name d.transform)
  else .ok ()

/-! ## LoadOnce -/

/-- The options of the LMDB that `LoadOnce` reads in native mode. -/
structure LoadOptions where
  headerExtraPaddingBlock : Bool
  /-- `OverrideCreateFlags` of the DBI's options. -/
  overrideCreateFlags : Bytes → Option UInt64

inductive LoadErr (η : Type)
  | transform (e : TransformErr)
  | create (e : LmdbErr)
  | flagsOutsideModel (flags : UInt64)
  | notFound
  | apply (e : ApplyErr η)
deriving DecidableEq

variable {η : Type}

/-- Create the target DBI if it does not exist. -/
def createTarget (o : LoadOptions) (t : EnvTxn) (d : DbiMsg η) : Except (LoadErr η) EnvTxn :=
  if (t.contents.get d.name).isSome then .ok t
  else
    let flags := (o.overrideCreateFlags d.name).getD d.flags
    if (KeyFlags.ofBits flags).bits = flags then
      (t.create d.name (KeyFlags.ofBits flags)).mapError .create
    else .error (.flagsOutsideModel flags)

/-- One round of the loop in `LoadOnce`. -/
def loadDbi (o : LoadOptions) (deletedCutoff : Timestamp) (formatVersion compatVersion : UInt32)
    (txnID : TxnID) (t : EnvTxn) (d : DbiMsg η) : Except (LoadErr η) EnvTxn :=
  if isPrivate d.name then .ok t
  else do
    (d.validateTransform formatVersion true).mapError .transform
    let t ← createTarget o t d
    t.onDbi d.name
      (fun r => (applyMessage o.headerExtraPaddingBlock deletedCutoff formatVersion
        compatVersion txnID d.reading r).mapError .apply) .notFound

/-- The transaction of `LoadOnce`. -/
def loadOnce (o : LoadOptions) (deletedCutoff : Timestamp) (txnID : TxnID) (m : Message η)
    (c : Contents) : Except (LoadErr η) EnvTxn :=
  m.databases.foldlM (loadDbi o deletedCutoff m.formatVersion m.compatVersion txnID)
    (EnvTxn.start c)

/-! ## SendOnce -/

/-- One round of the loop in `SendOnce`. -/
def dumpDbi (e : Bytes × Dbi) : Except EntryErr (DbiMsg η) := do
  let kvs ← readDBI e.1 false e.2
  .ok ⟨e.1, e.2.flags.bits, transformNone, Reading.ofList kvs⟩

/-- The transaction of `SendOnce`: all DBIs in the order of their names. -/
def dump (c : Contents) : Except EntryErr (Message η) := do
  let databases ← (c.map.entries.filter fun e => !isPrivate e.1).mapM dumpDbi
  .ok ⟨currentFormatVersion, writeCompatFormatVersion, databases⟩

end LightningStream.Syncer
