import Fenix.Fallible
import Fenix.Window
import Fenix.IndexedSet
import Fenix.Region
import Fenix.OpLog
import Fenix.RankLog
import Fenix.RankLogInvariant
import Fenix.RankLogErase
import Fenix.RankLogSteps
import Fenix.RankLogReset
import Fenix.Consecutive
import Fenix.RankLogReplay
import Fenix.CommLog
import Fenix.CommLogInvariant
import Fenix.Reader
import Fenix.CommLogSerialize
import Fenix.CommLogRun
import Fenix.Endpoint
import Fenix.Pair
import Fenix.CommLogReset
import Fenix.CommLogSync
import Fenix.CommLogRestore
import Fenix.Uniform
import Fenix.Schedule
import Fenix.ConsistencySync
import Fenix.CollectiveResume
import Fenix.ResumeReplay
import Fenix.CommLogEndpoint
import Fenix.RankLogResume
import Fenix.SyncSchedule
import Fenix.CollectiveUniform
import Fenix.SyncProgress
import Fenix.CollectiveCompletion
import Fenix.ParityCode
import Fenix.ParityLayout
import Fenix.ParityRebuild
import Fenix.DataSnapshot
import Fenix.BufferStorage
import Fenix.DataMember
import Fenix.ParityMember
import Fenix.ParityProtect
import Fenix.ParityRepair
import Fenix.ParityRecovery
import Fenix.Latest
import Fenix.BuddyMember
import Fenix.DataGroup
import Fenix.LatestRecovery
import Fenix.Slots
import Fenix.ProcGroups
import Fenix.ProcAssignment
import Fenix.ProcRecovery
import Fenix.Ledger
import Fenix.Agreement
import Fenix.GroupState
import Fenix.RuntimeOptions
import Fenix.CommitBarrier
import Fenix.GroupHistory
import Fenix.GroupLedger
import Fenix.GroupTracking
import Fenix.GroupRun
import Fenix.SyncNewest
import Fenix.Matching
import Fenix.PairInvariant
import Fenix.RankLogFresh
import Fenix.PairReexecution
import Fenix.PairRollback
import Fenix.PairDelivery
import Fenix.PairCompletion
import Fenix.FinalizeLoop
import Fenix.UserMember
import Fenix.UserMemberStage
import Fenix.UserMemberLoad
import Fenix.UserMemberRun
import Fenix.MemberDefine
import Fenix.MemberRedefine
import Fenix.Blocks
import Fenix.Tiles
import Fenix.TileCount
import Fenix.DataRegionMerge
import Fenix.DataRegionSub
import Fenix.Sweep
import Fenix.RegionSubsetMerge
import Fenix.RegionSubsetQuery
import Fenix.RegionSubsetUnion
import Fenix.RegionSubsetDiff
import Fenix.RegionSubsetEqual
import Fenix.RegionSubsetBuilt
import Fenix.Pairing
import Fenix.Cohort
import Fenix.CohortPartition
import Fenix.GroupCreate
import Fenix.Gather
import Fenix.RegionBlocks
import Fenix.RegionRoundTrip
import Fenix.RegionRestage
import Fenix.RegionSubsetBounds
import Fenix.StageInplace
import Fenix.CollectiveFailure
import Fenix.MPIDatatype
import Fenix.DatatypeRoundTrip
import Fenix.RegionIndices
import Fenix.BuddyStore
import Fenix.StoreAgreement
import Fenix.BuddyCopy
import Fenix.SnapshotReuse
import Fenix.SnapshotReuseRun
import Fenix.ParityChunks
import Fenix.Callbacks
import Fenix.CallbackOrder
import Fenix.SubsetExchange
import Fenix.SubsetFraming
import Fenix.RankLogWindow
import Fenix.PairWindow
import Fenix.Growable
import Fenix.MmapStream
import Fenix.MmapStreamRun
import Fenix.RegionAlgebra
import Fenix.BuddyRebuild
import Fenix.BuddyDurability
import Fenix.BuddyRecovery
import Fenix.ProcRoles
import Fenix.BuddyStoreRun
import Fenix.Memory
import Fenix.OpBuffer
import Fenix.CollectiveOps
import Fenix.CollectiveReplay
import Fenix.CheckpointRun
import Fenix.MlogRegistry
import Fenix.ScopeGuard
import Fenix.RuntimeFrames
import Fenix.FrameLogs
import Fenix.FrameJumps
import Fenix.FrameRecovery
import Fenix.FrameReentry
import Fenix.ParityDurability
