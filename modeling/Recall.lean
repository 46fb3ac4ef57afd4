import Recall.Basic
import Recall.Lib.FiniteMap
import Recall.Lib.Decimal
import Recall.Reply
import Recall.Operation
import Recall.Expiry
import Recall.Store
import Recall.Proof.ExpiryIndex
import Recall.Lib.HeapOrder
import Recall.Proof.Heap
import Recall.Proof.Store
import Recall.Proof.Evaluate
import Recall.ShardRun
import Recall.Proof.Accounting
import Recall.Lib.TimedMap
import Recall.Reference
import Recall.Proof.Refinement
import Recall.Routing
import Recall.Lib.Incremental
import Recall.Decoder
import Recall.Proof.Decoder
import Recall.Proof.Grammar
import Recall.Command
import Recall.Config
import Recall.Session
import Recall.Proof.Session
import Recall.Proof.Reply
import Recall.Proof.Footprint
import Recall.Proof.Routing
import Recall.Proof.Pieces
import Recall.Proof.Sharding
import Recall.Lib.Interleaving
import Recall.Engine
import Recall.Proof.Engine
import Recall.Proof.Shutdown
import Recall.Proof.Queues
import Recall.Proof.Calls
import Recall.Proof.Reservation
import Recall.Proof.Safety
import Recall.Proof.Answers
import Recall.Proof.ExactlyOnce
import Recall.Proof.Linearizable
import Recall.Connection
import Recall.Proof.Wire
import Recall.Proof.Evolution
import Recall.Proof.Budgets
import Recall.Proof.Streams
import Recall.Proof.Credits
import Recall.Proof.Expiration
import Recall.Proof.Sequence
import Recall.Proof.HashOrder
import Recall.Proof.Fairness
import Recall.Proof.Integers
import Recall.Proof.Options
import Recall.Proof.Metadata
import Recall.Proof.Bounds
import Recall.Lib.Trimming
import Recall.Settings
import Recall.Proof.Settings
import Recall.Lib.Draining
import Recall.Proof.Work
import Recall.Proof.Progress
import Recall.Server
import Recall.Proof.Server
import Recall.Proof.Connections
import Recall.Proof.Attended
import Recall.Proof.Graceful
import Recall.Proof.Sequential
import Recall.Proof.Info
import Recall.Proof.Conversation
import Recall.Proof.Gate
import Recall.Startup
import Recall.Proof.CommandLine
import Recall.Proof.Startup
import Recall.Proof.Secrets
import Recall.Proof.Canonical
import Recall.Proof.Client
import Recall.Proof.Received
