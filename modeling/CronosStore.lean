import CronosStore.Memiavl.Traverse
import CronosStore.Memiavl.Rollback
import CronosStore.Memiavl.TimeTravel
import CronosStore.Memiavl.Coherence
import CronosStore.Memiavl.CommitOrder
import CronosStore.RootMulti.CacheProtocol
import CronosStore.Memiavl.HashBinding
import CronosStore.VersionDB.Skip
import CronosStore.Memiavl.MultiTreeRun
import CronosStore.Memiavl.Reload
import CronosStore.Memiavl.ImportStream
import CronosStore.Memiavl.ImportChannel
import CronosStore.VersionDB.DeltaEncoding
import CronosStore.VersionDB.DumpRanges
import CronosStore.VersionDB.RestoreAppDB
import CronosStore.VersionDB.Incremental
import CronosStore.Memiavl.StateChanges
import CronosStore.Memiavl.LatestVersion
import CronosStore.Memiavl.NodeCache
import CronosStore.VersionDB.Comparator
import CronosStore.Memiavl.NonMembership
import CronosStore.Memiavl.ExportOrder
import CronosStore.RootMulti.Streaming
import CronosStore.VersionDB.Restore
