import HaloVector.Agreement
import HaloVector.Assembly
import HaloVector.Communicator
import HaloVector.DistributedVector
import HaloVector.Exchange
import HaloVector.Exchange.ByRank
import HaloVector.Exchange.Counts
import HaloVector.Extents
import HaloVector.Extents.Collective
import HaloVector.Form
import HaloVector.GhostedShard
import HaloVector.Group
import HaloVector.Halo
import HaloVector.Halo.Plan
import HaloVector.Layout
import HaloVector.Mailbox
import HaloVector.OpQueue
import HaloVector.Program
import HaloVector.Program.Script
import HaloVector.Proofs.Schedule
import HaloVector.QueueMode
import HaloVector.RankMap
import HaloVector.Scalar
import HaloVector.Scalar.Decimal
import HaloVector.Shard
import HaloVector.Shard.Arithmetic
import HaloVector.Shard.Deferred
import HaloVector.Tag
import HaloVector.Topology
import HaloVector.Topology.Membership
import HaloVector.VectorError
import HaloVector.Wire
import HaloVector.Wire.Record
import HaloVector.Proofs.Lockstep
import HaloVector.Proofs.Checks
import HaloVector.Proofs.Tiling
import HaloVector.Proofs.Delivery
import HaloVector.Proofs.Consensus
import HaloVector.Proofs.Ownership
import HaloVector.Proofs.Routing
import HaloVector.Proofs.Assembling
import HaloVector.Proofs.GroupAssembly
import HaloVector.Proofs.AllOrNothing
import HaloVector.Proofs.GhostPlan
import HaloVector.Proofs.GhostExchange
import HaloVector.Proofs.Construction
import HaloVector.Proofs.Session
import HaloVector.Proofs.SafeCalls
import HaloVector.Proofs.VectorCalls
import HaloVector.Proofs.DeadlockFreedom
import HaloVector.Proofs.Histories
import HaloVector.Proofs.Transposition
import HaloVector.Proofs.PlanDuality
import HaloVector.Proofs.GhostCalls
import HaloVector.Proofs.Snapshots
import HaloVector.Proofs.Slices
import HaloVector.Proofs.Verdicts
import HaloVector.Proofs.Severity
import HaloVector.Proofs.Answers
import HaloVector.Proofs.Bounds
import HaloVector.Proofs.AssemblySafety
import HaloVector.Proofs.Indifference
import HaloVector.Proofs.CommonKnowledge
import HaloVector.Proofs.GhostSafety
import HaloVector.Proofs.ModeVerdicts
import HaloVector.Proofs.Transcripts
import HaloVector.Proofs.FirstFaults
import HaloVector.Proofs.Reception
import HaloVector.Proofs.Provenance
import HaloVector.Proofs.PrefixSums
import HaloVector.Proofs.Partition
import HaloVector.Proofs.QueueHistory
import HaloVector.Proofs.Batches
import HaloVector.Proofs.Endings
import HaloVector.Proofs.Reachable
import HaloVector.Proofs.Records
import HaloVector.Proofs.MatchingLayouts
import HaloVector.Proofs.GhostChecks
import HaloVector.Proofs.SetConflicts
import HaloVector.Proofs.PackedLayouts
import HaloVector.Proofs.BlockUpdates
import HaloVector.Proofs.MaximumNorm
import HaloVector.Proofs.LoneRank
