import LinkProxy.Foundations.Bytes
import LinkProxy.Foundations.Text
import LinkProxy.Foundations.Transition
import LinkProxy.Foundations.Program
import LinkProxy.Foundations.Loads
import LinkProxy.Foundations.LinkedList
import LinkProxy.Foundations.SinglyLinked
import LinkProxy.Rio.System
import LinkProxy.Rio.Reader
import LinkProxy.Rio.Writer
import LinkProxy.Rio.Concurrent
import LinkProxy.Rio.Stream
import LinkProxy.Rio.Signals
import LinkProxy.Rio.WriteLock
import LinkProxy.Rio.Closing
import LinkProxy.Wire.Layout
import LinkProxy.Wire.Packets
import LinkProxy.Handlers.EthHandler
import LinkProxy.Handlers.Framing
import LinkProxy.Handlers.Truncation
import LinkProxy.Lock.ReadersWriters
import LinkProxy.Uthash.Table
import LinkProxy.Uthash.Rep
import LinkProxy.Uthash.Iteration
import LinkProxy.Uthash.Counters
import LinkProxy.Uthash.Runs
import LinkProxy.Peers.Members
import LinkProxy.Peers.Membership
import LinkProxy.Peers.Removal
import LinkProxy.Gossip.Broadcast
import LinkProxy.Gossip.Receive
import LinkProxy.Gossip.RoundTrip
import LinkProxy.Gossip.Timestamps
import LinkProxy.Gossip.Reordering
import LinkProxy.Gossip.Interleaving
import LinkProxy.Handlers.Senders
import LinkProxy.Join.Exchange
import LinkProxy.Join.Admission
import LinkProxy.Join.Link
import LinkProxy.Lock.Sections
import LinkProxy.Lock.Progress
import LinkProxy.Lock.Ownership
import LinkProxy.Lock.Workload
import LinkProxy.Route.Network
import LinkProxy.Route.Heap
import LinkProxy.Route.Search
import LinkProxy.Operations.LockBalance
import LinkProxy.Operations.Program
import LinkProxy.Operations.Reentry
import LinkProxy.Operations.Passes
import LinkProxy.Operations.Stability
import LinkProxy.Operations.Extents
import LinkProxy.Operations.Discovery
import LinkProxy.Timeout.Handler
import LinkProxy.Timeout.Deadline
import LinkProxy.Handlers.Probe
import LinkProxy.Peers.Connections
import LinkProxy.Operations.Cancellation
import LinkProxy.Route.Sequence
import LinkProxy.Route.Evaluation
import LinkProxy.Route.Release
import LinkProxy.Handlers.Forward
import LinkProxy.Handlers.TapBuffer
import LinkProxy.Handlers.Delivery
import LinkProxy.Handlers.BroadcastRound
import LinkProxy.Handlers.Tunnel
import LinkProxy.Handlers.Departure
import LinkProxy.Gossip.Mesh
import LinkProxy.Gossip.MeshSteps
import LinkProxy.Gossip.MeshRuns
import LinkProxy.Gossip.Provenance
import LinkProxy.Operations.LengthCheck
import LinkProxy.Foundations.Marks
import LinkProxy.Operations.Dialling
import LinkProxy.Operations.KnownProxies
import LinkProxy.Timeout.Elapsed
import LinkProxy.Timeout.Silence
import LinkProxy.Timeout.KeepAlive
import LinkProxy.Startup.PeerList
import LinkProxy.Startup.Configuration
import LinkProxy.Startup.Directives
import LinkProxy.Startup.Reading
import LinkProxy.Operations.NetworkRemoval
import LinkProxy.Foundations.ArrayHeap
import LinkProxy.Route.HeapCells
import LinkProxy.Route.HeapOrder
import LinkProxy.Route.HeapIndex
import LinkProxy.Route.SearchQueue
