import DistLabs.Schemes.Slice
import DistLabs.Schemes.Run
import DistLabs.Schemes.Fairness
import DistLabs.Schemes.Quorum
import DistLabs.Schemes.Replication
import DistLabs.Schemes.Linearize
import DistLabs.Schemes.Grouping
import DistLabs.Schemes.Search
import DistLabs.Schemes.Links
import DistLabs.Schemes.Intervals
import DistLabs.Raft.Types
import DistLabs.Raft.Server
import DistLabs.Raft.Cluster
import DistLabs.Raft.Moves
import DistLabs.Raft.Specs
import DistLabs.Raft.WholeLog
import DistLabs.Raft.Threads
import DistLabs.Raft.Ballot
import DistLabs.Raft.Votes
import DistLabs.Raft.Interleaved
import DistLabs.Raft.Reduction
import DistLabs.Raft.Election
import DistLabs.Raft.Promise
import DistLabs.Raft.Sound
import DistLabs.Raft.Shadow
import DistLabs.Raft.Refine
import DistLabs.Raft.Replicate
import DistLabs.Raft.Simulation
import DistLabs.Raft.Safety
import DistLabs.Raft.Leaders
import DistLabs.Raft.Compaction
import DistLabs.Raft.Backtrack
import DistLabs.Raft.Edits
import DistLabs.Raft.LogTerms
import DistLabs.Raft.Marker
import DistLabs.Raft.Bookkeeping
import DistLabs.Raft.Bounds
import DistLabs.Raft.Delivery
import DistLabs.Raft.Exchange
import DistLabs.Raft.Catchup
import DistLabs.Raft.Refusals
import DistLabs.Porcupine.Bitset
import DistLabs.Porcupine.Checker
import DistLabs.Porcupine.Order
import DistLabs.Porcupine.Nodes
import DistLabs.Porcupine.Single
import DistLabs.Porcupine.Operations
import DistLabs.Porcupine.KvModel
import DistLabs.Porcupine.Parallel
import DistLabs.Porcupine.Check
import DistLabs.Labrpc.Network
import DistLabs.Labrpc.Calls
import DistLabs.Labrpc.Calm
import DistLabs.Labrpc.Progress
import DistLabs.KV.Service
import DistLabs.KV.ExactlyOnce
import DistLabs.KV.AppendOrder
import DistLabs.KV.Linear
import DistLabs.KV.Checked
import DistLabs.KV.Deployed
import DistLabs.MR.Coordinator
import DistLabs.MR.Counting
import DistLabs.MR.Lease
import DistLabs.MR.Worker
import DistLabs.MR.Files
import DistLabs.MR.Job
import DistLabs.MR.Control
import DistLabs.MR.Recovery
import DistLabs.MR.Output
