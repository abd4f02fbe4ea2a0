import ActiveBsp.Actor.BroadcastDv
import ActiveBsp.Actor.DistrResult
import ActiveBsp.Actor.GetPart
import ActiveBsp.Actor.ProxyBuffers
import ActiveBsp.Actor.SpmdDispatch
import ActiveBsp.Actormsg.EnvelopeRoundTrip
import ActiveBsp.Actormsg.Envelopes
import ActiveBsp.Actormsg.Messages
import ActiveBsp.Distributions.BlockDistribution
import ActiveBsp.Distributions.DivRange
import ActiveBsp.Fault
import ActiveBsp.Future.DataStore
import ActiveBsp.Future.DataStoreRuns
import ActiveBsp.Future.FutureKeyManager
import ActiveBsp.Future.PartTable
import ActiveBsp.Future.PreparedPart
import ActiveBsp.Library.Act
import ActiveBsp.Library.Backlog
import ActiveBsp.Library.Buffer
import ActiveBsp.Library.Emits
import ActiveBsp.Library.Family
import ActiveBsp.Library.Heap
import ActiveBsp.Library.Lists
import ActiveBsp.Library.LittleEndian
import ActiveBsp.Library.MachineInt
import ActiveBsp.Library.Monitor
import ActiveBsp.Library.PartialMap
import ActiveBsp.Library.PendingSends
import ActiveBsp.Library.Ranks
import ActiveBsp.Library.Tiling
import ActiveBsp.Library.Triple
import ActiveBsp.Library.WaitFor
import ActiveBsp.Management.ActorServer
import ActiveBsp.Management.Collectives
import ActiveBsp.Management.Distribute
import ActiveBsp.Management.EarlyRelease
import ActiveBsp.Management.Frames
import ActiveBsp.Management.FutureReads
import ActiveBsp.Management.FutureSlot
import ActiveBsp.Management.Futures
import ActiveBsp.Management.Installation
import ActiveBsp.Management.IntactServer
import ActiveBsp.Management.KeyReuse
import ActiveBsp.Management.LateRequests
import ActiveBsp.Management.MessageMemory
import ActiveBsp.Management.MessageRetention
import ActiveBsp.Management.Network
import ActiveBsp.Management.ParkedRequests
import ActiveBsp.Management.PartKeys
import ActiveBsp.Management.Parts
import ActiveBsp.Management.PieceDelivery
import ActiveBsp.Management.Prefetch
import ActiveBsp.Management.PrefetchBookkeeping
import ActiveBsp.Management.PrefetchCompletion
import ActiveBsp.Management.PrefetchContent
import ActiveBsp.Management.PrefetchPlan
import ActiveBsp.Management.PrefetchRelease
import ActiveBsp.Management.PrefetchSteps
import ActiveBsp.Management.Recipients
import ActiveBsp.Management.Recreation
import ActiveBsp.Management.ReplyOrder
import ActiveBsp.Management.ReplyPlaces
import ActiveBsp.Management.ResultStoreLock
import ActiveBsp.Management.SendDeadlock
import ActiveBsp.Management.SharedFetch
import ActiveBsp.Management.Specs
import ActiveBsp.Mpi.AsyncMessages
import ActiveBsp.Mpi.CallBooks
import ActiveBsp.Mpi.CallHandling
import ActiveBsp.Mpi.CallLedger
import ActiveBsp.Mpi.CallRuns
import ActiveBsp.Mpi.ExactReads
import ActiveBsp.Mpi.MPIActorCommunicator
import ActiveBsp.Mpi.Reads
import ActiveBsp.Mpi.SharedReads
import ActiveBsp.Mpi.Tags
import ActiveBsp.Mpi.TypedCalls
import ActiveBsp.Mpi.VectorRuns
import ActiveBsp.Procassign.ContiguousAssign
import ActiveBsp.Serialization.Archive
import ActiveBsp.Serialization.ContiguousSerialization
import ActiveBsp.Serialization.DistributionBuffer
import ActiveBsp.Serialization.RoundTrip
import ActiveBsp.Serialization.Transports
import ActiveBsp.VectorDistribution
import ActiveBsp.Worker.ActorWorker
import ActiveBsp.Worker.CallOrder
import ActiveBsp.Worker.Ledger
import ActiveBsp.Worker.LocalReads
import ActiveBsp.Worker.RequestIds
import ActiveBsp.Worker.Shutdown
