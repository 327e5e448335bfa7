import LightningStream.Header
import LightningStream.Strategy.Update
import LightningStream.Strategy.IterUpdate
import LightningStream.Strategy.OtherOrder
import LightningStream.Base.LastWriter
import LightningStream.Snapshot.Kv
import LightningStream.Syncer.Iterators
import LightningStream.Syncer.ReadDbi
import LightningStream.Syncer.Load
import LightningStream.Syncer.Convergence
import LightningStream.Cleaner
import LightningStream.Syncer.Shadow
import LightningStream.Base.Versioned
import LightningStream.Lmdb.Environment
import LightningStream.Syncer.Native
import LightningStream.Syncer.Loop
import LightningStream.Syncer.NativeLoop
import LightningStream.Syncer.ShadowTxn
import LightningStream.Syncer.ShadowLoop
import LightningStream.Base.Rounds
import LightningStream.Base.Varint
import LightningStream.Snapshot.Wire
import LightningStream.Snapshot.Field
import LightningStream.Snapshot.Decoder
import LightningStream.Snapshot.Parts
import LightningStream.Snapshot.Encoder
import LightningStream.Snapshot.Builder
import LightningStream.Snapshot.Message
import LightningStream.Snapshot.DbiRoundTrip
import LightningStream.Snapshot.RoundTrip
import LightningStream.Snapshot.Codec
import LightningStream.Syncer.Fidelity
import LightningStream.Snapshot.Totality
import LightningStream.Snapshot.UnknownFields
import LightningStream.Lmdb.LimitScanner
import LightningStream.Sweeper
import LightningStream.Sweeper.Run
import LightningStream.Sweeper.Retention
import LightningStream.Syncer.StaleMarkers
import LightningStream.Base.Runs
import LightningStream.Receiver
import LightningStream.Syncer.Committed
import LightningStream.Syncer.OwnData
import LightningStream.Syncer.Echo
import LightningStream.Syncer.MergeLaws
import LightningStream.Syncer.ShadowCopies
import LightningStream.Strategy.SortedInput
import LightningStream.Sweeper.Chunks
import LightningStream.Syncer.ShadowTimes
import LightningStream.Cleaner.KeepInterval
import LightningStream.Snapshot.Map
import LightningStream.Syncer.DupSortHack
import LightningStream.Snapshot.BuildName
import LightningStream.Syncer.SentName
import LightningStream.Climit
import LightningStream.Receiver.Tokens
import LightningStream.Header.Codec
import LightningStream.Lmdb.ChainedScans
import LightningStream.Snapshot.NameOrder
import LightningStream.Receiver.Newest
import LightningStream.Snapshot.Storage
import LightningStream.Topics
import LightningStream.Commands.DomainKey
import LightningStream.Commands.FixDuplicateDomains
import LightningStream.Commands.OldestKept
import LightningStream.Commands.Repaired
import LightningStream.Lmdb.DupSort
import LightningStream.Lmdb.Tables
import LightningStream.Base.Cells
import LightningStream.Strategy.Put
import LightningStream.Syncer.ShadowTables
import LightningStream.Syncer.TableCopies
import LightningStream.Syncer.ShadowFidelity
import LightningStream.Syncer.ShadowConvergence
import LightningStream.Syncer.Passes
import LightningStream.Base.Archive
import LightningStream.Syncer.Instances
import LightningStream.Syncer.Instances.Archived
import LightningStream.Syncer.Instances.Followed
import LightningStream.Syncer.Instances.Settled
import LightningStream.Syncer.Durability
import LightningStream.Syncer.Agreement
import LightningStream.Sweeper.Environment
import LightningStream.Sweeper.Statistics
import LightningStream.Lmdb.Walk
import LightningStream.Commands.MigrateTimestamps
import LightningStream.Commands.Migrated
