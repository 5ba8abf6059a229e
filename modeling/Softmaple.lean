import Softmaple.Codec.CanonicalBytes
import Softmaple.DocSession.KnownBatches
import Softmaple.EventStore.MixedStores
import Softmaple.CollabHost.PresenceHibernation
import Softmaple.CollabHost.RestoreRetry
import Softmaple.Realtime.PresenceRefinement
import Softmaple.Realtime.LeaseExclusion
import Softmaple.Presence.ArrivalOrder
import Softmaple.Presence.LockProgress
import Softmaple.Snapshot.SnapshotTrust
import Softmaple.Presence.OwnRecords
import Softmaple.Graph.SpanColumn
import Softmaple.Graph.IdIndexBijection
import Softmaple.Graph.RepresentedGraph
import Softmaple.BlockModel.PlannedRuns
import Softmaple.Replay.CoalescedReplay
import Softmaple.BlockModel.EncodedSegment
import Softmaple.BlockModel.TextDiff
import Softmaple.Realtime.TopicDelivery
import Softmaple.BlockModel.OwnershipRuns
import Softmaple.Codec.EventIdOrder
import Softmaple.BlockModel.CausalQueries
import Softmaple.EgWalker.OrderMaintenance
import Softmaple.EgWalker.EventItemIndex
import Softmaple.EgWalker.PackedEulerRuns
import Softmaple.BlockModel.ReplicaConvergence
