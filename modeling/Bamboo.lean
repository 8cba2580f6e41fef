import Bamboo.Library.Outcome
import Bamboo.Library.FiniteMap
import Bamboo.Library.LockedVoting
import Bamboo.Library.Collector
import Bamboo.Library.Expansion
import Bamboo.Library.Positions
import Bamboo.Library.RoundRobin
import Bamboo.Library.BalancedFold
import Bamboo.Library.BinaryHeap
import Bamboo.Library.Relay
import Bamboo.Library.Int64
import Bamboo.Identity
import Bamboo.Group
import Bamboo.Assignment
import Bamboo.Crypto.Sign
import Bamboo.Crypto.Merkle
import Bamboo.Crypto.MerkleProof
import Bamboo.PriorityQueue
import Bamboo.Limiter
import Bamboo.Blockchain.Quorum
import Bamboo.Blockchain.Block
import Bamboo.Blockchain.Forest
import Bamboo.Blockchain.Chain
import Bamboo.Blockchain.Index
import Bamboo.Blockchain.Insertion
import Bamboo.Blockchain.Verification
import Bamboo.Blockchain.Commit
import Bamboo.Blockchain.Totality
import Bamboo.Blockchain.Splitting
import Bamboo.Blockchain.Spine
import Bamboo.Blockchain.Children
import Bamboo.Blockchain.Failure
import Bamboo.Streamlet.Notarization
import Bamboo.Pacemaker
import Bamboo.Aggregation
import Bamboo.HotStuff.Model
import Bamboo.Streamlet.Replica
import Bamboo.Streamlet.Bounds
import Bamboo.Election
import Bamboo.HotStuff.Certificate
import Bamboo.HotStuff.Frame
import Bamboo.HotStuff.Quorums
import Bamboo.HotStuff.Voting
import Bamboo.HotStuff.Buffering
import Bamboo.HotStuff.Robustness
import Bamboo.HotStuff.Record
import Bamboo.HotStuff.Provenance
import Bamboo.HotStuff.Lock
import Bamboo.HotStuff.Network
import Bamboo.HotStuff.NetworkInvariant
import Bamboo.HotStuff.Agreement
import Bamboo.HotStuff.Actions
import Bamboo.HotStuff.Range
import Bamboo.HotStuff.Chunks
import Bamboo.HotStuff.HighQC
import Bamboo.HotStuff.Waiting
import Bamboo.HotStuff.Release
import Bamboo.HotStuff.HonestChain
import Bamboo.HotStuff.Committing
import Bamboo.HotStuff.Delivery
import Bamboo.HotStuff.Forking
import Bamboo.HotStuff.SafetyState
import Bamboo.HotStuff.FaultFree
import Bamboo.HotStuff.Progress
import Bamboo.HotStuff.AnyOrder
import Bamboo.Mempool.Transactions
import Bamboo.Mempool.AckMem
import Bamboo.Mempool.NaiveMem
import Bamboo.Mempool.TimeMem
import Bamboo.Mempool.Batching
import Bamboo.Mempool.Calls
import Bamboo.Mempool.Bounds
import Bamboo.Mempool.Binding
import Bamboo.Mempool.Arrival
import Bamboo.Mempool.Invariant
import Bamboo.Mempool.Completion
import Bamboo.Mempool.Records
import Bamboo.HotStuff.Authenticity
import Bamboo.Mempool.Stability
import Bamboo.Mempool.Reproposal
import Bamboo.Mempool.Rebuilding
import Bamboo.Execute.Executor
import Bamboo.Replica.Model
import Bamboo.Replica.Inversion
import Bamboo.Execute.Progress
import Bamboo.Replica.Execution
import Bamboo.Execute.Sample
import Bamboo.Replica.Dissemination
import Bamboo.Execute.Requests
import Bamboo.Mempool.Holders
import Bamboo.Replica.Handlers
import Bamboo.Replica.Availability
import Bamboo.Replica.GroupCount
import Bamboo.Replica.Carrying
import Bamboo.Replica.Retransmission
import Bamboo.Replica.Counts
import Bamboo.Replica.Pool
import Bamboo.Replica.Numbering
import Bamboo.Replica.Replication
import Bamboo.Replica.EventLoop
import Bamboo.Replica.CatchingUp
import Bamboo.Replica.Results
import Bamboo.Replica.Confirmation
import Bamboo.Replica.Effects
import Bamboo.Replica.Team
import Bamboo.Replica.Teamwork
import Bamboo.Replica.Process
import Bamboo.Replica.Content
import Bamboo.Replica.ContentAddressing
import Bamboo.Monitor
