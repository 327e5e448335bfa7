import LightningStream.Snapshot.BuildName

/-!
# The names of stored snapshots

`SendOnce` stores a snapshot under a name made of the name of the database, the
instance, the time and the generation. The instance is sanitised before, and
the name of the database is a key of the `lmdbs` section of the configuration,
where `Config.Check` looks at the settings but not at the names. So it may hold
the separators of the file name. A name with a dot gives snapshots that no
receiver recognises, one with an underscore at its end gives snapshots of
another database and instance.

Hooks that change the name are not set here.
-/

namespace LightningStream.Syncer

open Snapshot

/-! ## The configuration -/

/-- What the checks consult outside the configuration. -/
structure Checks where
  /-- `logrus.ParseLevel` succeeds. -/
  parseLevel : Bytes → Bool
  /-- `net.SplitHostPort` succeeds. -/
  splitHostPort : Bytes → Bool

structure LogConfig where
  level : Bytes
  format : Bytes
  timestamp : Bytes

/-- The settings of a database that are checked. -/
structure LMDB where
  path : Bytes
  fileMask : UInt32
  dirMask : UInt32
  schemaTracksChanges : Bool
  dupSortHack : Bool

/-- The settings that are checked, and the name of the instance, as runes. -/
structure Settings where
  instanceName : String
  log : LogConfig
  /-- The map from names to databases, in the order of the iteration. -/
  lmdbs : List (Bytes × LMDB)
  httpAddress : Bytes
  lmdbPollInterval : Duration
  storagePollInterval : Duration
  storageRetryInterval : Duration
  storageForceSnapshotInterval : Duration
  storageRetryCount : ℤ
  memoryDownloadedSnapshots : ℤ
  memoryDecompressedSnapshots : ℤ

inductive CheckErr
  /-- "log.level: must be one of". -/
  | logLevel
  /-- "log.format: must be one of". -/
  | logFormat
  /-- "log.timestamp: must be one of". -/
  | logTimestamp
  /-- "no LMDBs configured". -/
  | noLMDBs
  /-- "lmdb %q: no path configured". -/
  | noPath (name : Bytes)
  /-- "lmdb.options.file_mask: too large value". -/
  | fileMask (mask : UInt32)
  /-- "lmdb.options.dir_mask: too large value". -/
  | dirMask (mask : UInt32)
  /-- "lmdb.schema_tracks_changes: cannot be used together with the dupsort_hack option". -/
  | schemaTracksChanges
  /-- "http.address". -/
  | httpAddress
  /-- "lmdb_poll_interval: too short interval". -/
  | lmdbPollInterval
  /-- "storage_poll_interval: too short interval". -/
  | storagePollInterval
  /-- "storage_retry_interval: too short interval". -/
  | storageRetryInterval
  /-- "storage_force_snapshot_interval: too short interval (minimum 1m if enabled)". -/
  | storageForceSnapshotInterval
  /-- "storage_retry_count: positive number required". -/
  | storageRetryCount
  /-- "memory_downloaded_snapshots: positive number required". -/
  | memoryDownloadedSnapshots
  /-- "memory_decompressed_snapshots: positive number required". -/
  | memoryDecompressedSnapshots
deriving DecidableEq

def millisecond : Duration := 1000000
def minute : Duration := 60000000000

def logFormats : List Bytes := [ascii "human", ascii "logfmt", ascii "json"]
def logTimestamps : List Bytes := [ascii "short", ascii "disable", ascii "full"]

def LogConfig.check (x : Checks) (c : LogConfig) : Except CheckErr Unit := do
  if !x.parseLevel c.level then .error .logLevel
  if c.format ∉ logFormats then .error .logFormat
  if c.timestamp ≠ [] ∧ c.timestamp ∉ logTimestamps then .error .logTimestamp

/-- The body of the loop over the databases. -/
def LMDB.check (name : Bytes) (l : LMDB) : Except CheckErr Unit := do
  if l.path = [] then .error (.noPath name)
  if l.fileMask > 0o777 then .error (.fileMask l.fileMask)
  if l.dirMask > 0o777 then .error (.dirMask l.dirMask)
  if l.schemaTracksChanges ∧ l.dupSortHack then .error .schemaTracksChanges

def Settings.check (x : Checks) (c : Settings) : Except CheckErr Unit := do
  c.log.check x
  if c.lmdbs.length < 1 then .error .noLMDBs
  c.lmdbs.forM fun p => p.2.check p.1
  if c.httpAddress ≠ [] ∧ !x.splitHostPort c.httpAddress then .error .httpAddress
  if c.lmdbPollInterval < 100 * millisecond then .error .lmdbPollInterval
  if c.storagePollInterval < 100 * millisecond then .error .storagePollInterval
  if c.storageRetryInterval < 100 * millisecond then .error .storageRetryInterval
  if c.storageForceSnapshotInterval ≠ 0 ∧ c.storageForceSnapshotInterval < minute then
    .error .storageForceSnapshotInterval
  if c.storageRetryCount < 1 then .error .storageRetryCount
  if c.memoryDownloadedSnapshots < 1 then .error .memoryDownloadedSnapshots
  if c.memoryDecompressedSnapshots < 1 then .error .memoryDecompressedSnapshots

/-- A database of a configuration that passes the check. -/
structure Database (x : Checks) where
  conf : Settings
  checked : conf.check x = .ok ()
  name : Bytes
  options : LMDB
  configured : (name, options) ∈ conf.lmdbs

/-! ## The name in SendOnce -/

/-- A rune that `reUnsafe` does not match. -/
def safeRune (c : Char) : Bool :=
  ('a' ≤ c ∧ c ≤ 'z') ∨ ('A' ≤ c ∧ c ≤ 'Z') ∨ ('0' ≤ c ∧ c ≤ '9') ∨ c = '-'

/-- The regular expression works on runes; a byte that is not UTF-8 counts as
one. -/
def instanceID (instanceName hostname : String) : Bytes :=
  let n := if instanceName = "" then hostname else instanceName
  n.toList.map fun c => if safeRune c then UInt8.ofNat c.toNat else 45

def generationID : Bytes := ascii "GX"

/-- The name that `SendOnce` builds. -/
def Database.nameInfo {x : Checks} (db : Database x) (hostname : String) (ts : Time) :
    NameInfo where
  fullName := []
  baseName := []
  extension := defaultExtension
  kind := kindSnapshot
  syncerName := db.name
  instanceID := instanceID db.conf.instanceName hostname
  generationID := generationID
  timestampString := []
  timestamp := ts
  extra := []

/-- The extension is registered, and `time.Parse` reads what `Format` writes. -/
structure Reads (nm : Naming) : Prop where
  registered : nm.registeredExtensions defaultExtension = some kindSnapshot
  parse_format : ∀ ts : Time, ts.InYears → nm.timeParse (formatTime ts) = some ts

theorem reads_default : Reads defaultNaming where
  registered := by simp [defaultNaming]
  parse_format := fun _ h => readTimestamp_formatTime h

/-- A name with no separator in it and no underscore at its end. -/
structure Separable (name : Bytes) : Prop where
  noDot : 46 ∉ name
  noDunder : ¬ dunder <:+: name
  noUnderscore : name.getLast? ≠ some 95

theorem separable_iff {name : Bytes} : Separable name ↔ 46 ∉ name ∧ SafePart name := by
  rw [safePart_iff]
  constructor
  · rintro ⟨hdot, hdunder, hlast⟩
    exact ⟨hdot, hdunder, hlast⟩
  · rintro ⟨hdot, hdunder, hlast⟩
    exact ⟨hdot, hdunder, hlast⟩

theorem safeRune_toNat {c : Char} (h : safeRune c) :
    c.toNat < 128 ∧ c.toNat ≠ 46 ∧ c.toNat ≠ 95 := by
  simp only [safeRune, Char.le_def, decide_eq_true_eq, UInt32.le_iff_toNat_le] at h
  change ((97 ≤ c.toNat ∧ c.toNat ≤ 122) ∨ (65 ≤ c.toNat ∧ c.toNat ≤ 90) ∨
    (48 ≤ c.toNat ∧ c.toNat ≤ 57) ∨ c = '-') at h
  rcases h with h | h | h | rfl
  · omega
  · omega
  · omega
  · decide

/-- The sanitised instance holds no separator. -/
theorem instanceID_safe {instanceName hostname : String} {b : UInt8}
    (h : b ∈ instanceID instanceName hostname) : b ≠ 46 ∧ b ≠ 95 := by
  obtain ⟨c, -, rfl⟩ := List.mem_map.mp h
  split
  · rename_i hsafe
    obtain ⟨hlt, h46, h95⟩ := safeRune_toNat hsafe
    have hb : (UInt8.ofNat c.toNat).toNat = c.toNat :=
      UInt8.toNat_ofNat_of_lt' (show c.toNat < 256 by omega)
    constructor
    · intro heq
      exact h46 (hb ▸ congrArg UInt8.toNat heq)
    · intro heq
      exact h95 (hb ▸ congrArg UInt8.toNat heq)
  · decide

/-- **When a stored snapshot is recognised.** `ParseName` finds the database, the
instance, the time, the generation and the kind in the name of a snapshot iff
the name of the database is separable. -/
theorem sent_name_round_trips_iff {nm : Naming} (hnm : Reads nm) {x : Checks} (db : Database x)
    (hostname : String) {ts : Time} (hts : ts.InYears) :
    RoundTrips nm (db.nameInfo hostname ts) ↔ Separable db.name := by
  rw [separable_iff]
  constructor
  · rintro ⟨parsed, hparse, hname, -⟩
    have hsafe := parsed_syncerName hparse
    rw [hname] at hsafe
    exact hsafe
  · intro hname
    have hinst : 46 ∉ instanceID db.conf.instanceName hostname ∧
        SafePart (instanceID db.conf.instanceName hostname) :=
      ⟨fun hmem => (instanceID_safe hmem).1 rfl,
        safePart_of_not_mem fun hmem => (instanceID_safe hmem).2 rfl⟩
    have hgen : 46 ∉ generationID ∧ SafePart generationID :=
      ⟨by decide, safePart_of_not_mem (by decide)⟩
    have hbuild : Buildable (db.nameInfo hostname ts) := ⟨⟨rfl, rfl⟩, hname, hinst, hgen⟩
    exact hbuild.roundTrips hnm.registered (hnm.parse_format ts hts)

/-- Default settings with one database. -/
def sampleSettings (name : Bytes) : Settings where
  instanceName := "ns1.example"
  log := ⟨ascii "info", ascii "human", ascii "short"⟩
  lmdbs := [(name, ⟨ascii "/db", 0, 0, false, false⟩)]
  httpAddress := []
  lmdbPollInterval := 1000 * millisecond
  storagePollInterval := 1000 * millisecond
  storageRetryInterval := 5000 * millisecond
  storageForceSnapshotInterval := 4 * 60 * minute
  storageRetryCount := 100
  memoryDownloadedSnapshots := 3
  memoryDecompressedSnapshots := 2

/-- A runtime that accepts every log level and address. -/
def lenient : Checks := ⟨fun _ => true, fun _ => true⟩

/-- Every name passes the check. -/
def sampleDatabase (name : Bytes) : Database lenient where
  conf := sampleSettings name
  checked := rfl
  name := name
  options := ⟨ascii "/db", 0, 0, false, false⟩
  configured := List.mem_singleton.mpr rfl

theorem sent_name_round_trips_main :
    RoundTrips defaultNaming ((sampleDatabase (ascii "main")).nameInfo "host" 7) := by
  refine (sent_name_round_trips_iff reads_default (sampleDatabase (ascii "main")) "host"
    (by decide)).mpr ⟨by decide, by decide, by decide⟩

/-- Snapshots of a database "pdns.v2" are not recognised, and those of "pdns_" are
taken for snapshots of "pdns" by an instance with an underscore. -/
theorem dotted_name_unrecognised :
    parseName defaultNaming (buildName ((sampleDatabase (ascii "pdns.v2")).nameInfo "host" 7)) =
        .error .unknownExtension ∧
      ∃ ni, parseName defaultNaming
          (buildName ((sampleDatabase (ascii "pdns_")).nameInfo "host" 7)) = .ok ni ∧
        ni.syncerName = ascii "pdns" ∧ ni.instanceID = ascii "_ns1-example" := by
  refine ⟨by decide +kernel, _, rfl, by decide +kernel, by decide +kernel⟩

end LightningStream.Syncer
