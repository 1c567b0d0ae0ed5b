import MtcCa.Lib.MerkleLevels
import MtcCa.Lib.MerklePaths
import MtcCa.Lib.MerkleBinding
import MtcCa.Lib.Slices
import MtcCa.Lib.Outcome
import MtcCa.Lib.SelfDelimiting
import MtcCa.Lib.MerkleBlocks
import MtcCa.Lib.MerkleOpening
import MtcCa.Lib.MerkleExtension
import MtcCa.Lib.FiniteMap
import MtcCa.Lib.Transition
import MtcCa.Lib.Simulation
import MtcCa.Lib.Saturating
import MtcCa.Lib.Channel
import MtcCa.Lib.Text
import MtcCa.Tree.Digest
import MtcCa.Tree.Builder
import MtcCa.Tree.Decomposition
import MtcCa.Proof.Inclusion
import MtcCa.Proof.InclusionCorrect
import MtcCa.Proof.Consistency
import MtcCa.Proof.ConsistencyCorrect
import MtcCa.Tile.Coord
import MtcCa.Tile.Build
import MtcCa.Tile.BuildCorrect
import MtcCa.Read.Plan
import MtcCa.Read.PlanCorrect
import MtcCa.Read.PlanTiles
import MtcCa.Cloud.Types
import MtcCa.Cloud.ObjectStore
import MtcCa.Cloud.ObjectRetention
import MtcCa.Cloud.S3
import MtcCa.Cloud.S3ObjectStore
import MtcCa.Cloud.S3Refinement
import MtcCa.Cloud.S3Retention
import MtcCa.Cloud.ReplicatedKv
import MtcCa.Cloud.Transact
import MtcCa.Cloud.Dynamo
import MtcCa.Cloud.DynamoDbReplicatedKv
import MtcCa.Cloud.DynamoValues
import MtcCa.Cloud.DynamoExpressions
import MtcCa.Cloud.DynamoBuilder
import MtcCa.Cloud.DynamoRequests
import MtcCa.Cloud.DynamoRepresents
import MtcCa.Cloud.DynamoUpdate
import MtcCa.Cloud.DynamoRefinement
import MtcCa.Cloud.DynamoQuery
import MtcCa.Coordination.Protocol
import MtcCa.Coordination.Operations
import MtcCa.Coordination.Safety
import MtcCa.Coordination.Takeover
import MtcCa.Coordination.Fencing
import MtcCa.Lib.BigEndian
import MtcCa.Wire.Reader
import MtcCa.Wire.Writer
import MtcCa.Wire.Codec
import MtcCa.LogEntry.Claim
import MtcCa.LogEntry.Entry
import MtcCa.LogEntry.Canonical
import MtcCa.LogEntry.Commitment
import MtcCa.Checkpoint.Checkpoint
import MtcCa.Checkpoint.Canonical
import MtcCa.Checkpoint.Signer
import MtcCa.Verify.Inclusion
import MtcCa.Intake.Batch
import MtcCa.Intake.ExactlyOnce
import MtcCa.Replicator.Lag
import MtcCa.Replicator.Ddb
import MtcCa.Replicator.S3
import MtcCa.Replicator.Delivery
import MtcCa.Replicator.Discovery
import MtcCa.Replicator.LastWriter
import MtcCa.Replicator.VersionOrder
import MtcCa.Acme.Problem
import MtcCa.Acme.Nonce
import MtcCa.Acme.Jws
import MtcCa.Acme.Account
import MtcCa.Acme.Routes
import MtcCa.Acme.Server
import MtcCa.Acme.AccountIndex
import MtcCa.Acme.Thumbprint
import MtcCa.Acme.Chronicle
import MtcCa.Acme.AntiReplay
import MtcCa.Acme.AccountKeys
import MtcCa.Replicator.TwoWay
import MtcCa.Lib.FirstPerKey
import MtcCa.Replicator.Scheduling
import MtcCa.Lib.Checked
import MtcCa.Proof.Guards
import MtcCa.Tree.Partition
import MtcCa.Tile.Cover
import MtcCa.Checkpoint.Pruning
import MtcCa.Proof.Wire
import MtcCa.Lib.Decimal
import MtcCa.Tile.Path
import MtcCa.Tile.LeafRange
import MtcCa.LogEntry.Emission
import MtcCa.Wire.Faults
import MtcCa.LogEntry.Offsets
import MtcCa.Checkpoint.ObjectKey
import MtcCa.Checkpoint.Retry
import MtcCa.Wire.CursorRefinement
import MtcCa.Wire.ReaderSafety
import MtcCa.Clock.FakeClock
import MtcCa.Metrics.Deltas
import MtcCa.Proof.Openings
import MtcCa.Proof.Extension
import MtcCa.Verify.NoSplitView
import MtcCa.Coordination.OverDynamo
import MtcCa.Coordination.DynamoSafety
import MtcCa.Coordination.Renewal
import MtcCa.Tile.Served
import MtcCa.Read.Serve
import MtcCa.Tile.Reach
import MtcCa.Lib.Watch
import MtcCa.Clock.Sleepers
import MtcCa.Clock.Interval
import MtcCa.Intake.Cadence
import MtcCa.Retention.Policy
import MtcCa.Retention.Window
import MtcCa.Cloud.MemoryHsm
import MtcCa.Read.Published
import MtcCa.Acme.Client
import MtcCa.LogEntry.Subject
import MtcCa.Verify.SubjectKey
import MtcCa.Replicator.Link
import MtcCa.Replicator.Partition
import MtcCa.Replicator.Status
