import Flux.TornRecovery
import Flux.CrashSafety
import Flux.CommittedReads
import Flux.LostAcks
import Flux.FixedLeader
import Flux.RuntimeSteps
import Flux.FailoverDurability
import Flux.ClusterProgress
import Flux.LogMatching
import Flux.ClusterLogs
import Flux.ClusterSteps
import Flux.ClusterCalls
import Flux.ReplicaCluster
import Flux.FollowerWorkers
import Flux.MemoryLogs
import Flux.PartitionCoverage
import Flux.ReplicaIdentity
import Flux.AckQuorum
import Flux.Watermarks
import Flux.BrokerRuns
import Flux.RequestSafety
import Flux.BrokerSafety
import Flux.RequestHandlers
import Flux.ClusterRuntime
import Flux.BrokerNode
import Flux.GroupAllocations
import Flux.Interleavings
import Flux.ReplicationManager
import Flux.ClusterMetadata
import Flux.ConsumeCodec
import Flux.FetchCodec
import Flux.ResponseLines
import Flux.TCPTransport
import Flux.Protocol
import Flux.CommitFencing
import Flux.GroupRuns
import Flux.StorageReads
import Flux.BrokerContracts
import Flux.ControllerSteps
import Flux.HealthFencing
import Flux.LeaderAgreement
import Flux.ReplicaPlacement
import Flux.TopicRaces
import Flux.BadRequests
import Flux.LateChecks
import Flux.RejectedRequests
import Flux.LeadershipRecords
import Flux.AcknowledgedWrites
import Flux.AtLeastOnce
import Flux.CalmRequests
import Flux.GroupReplies
import Flux.GroupRestarts
import Flux.GenerationFences
import Flux.JoinRaces
import Flux.ClientResponses
import Flux.ControlCalls
import Flux.ProduceRequests
import Flux.ProduceRoundTrip
import Flux.ResponseFraming
import Flux.CaseMapping
import Flux.CleanRestarts
import Flux.ConfiguredDurations
import Flux.ElectionOutcomes
import Flux.FailedAppends
import Flux.HealthChecks
import Flux.OverlongRecords
import Flux.ProducerSends
import Flux.RequestLines
import Flux.SegmentReplays
import Flux.ChunkedLines
import Flux.ClientConnections
import Flux.MembershipAssignments
import Flux.ResponseStreams
import Flux.ChecksumErrors
import Flux.CorruptedLines
import Flux.FollowerWatermarks
import Flux.WorkerFailures
import Flux.IndexFiles
import Flux.IndexHistories
import Flux.RecoveredPartitions
import Flux.RetentionRuns
