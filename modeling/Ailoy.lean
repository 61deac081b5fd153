import Ailoy.Lib.Transition
import Ailoy.Lib.History
import Ailoy.Lib.UnorderedMap
import Ailoy.Lib.Except
import Ailoy.Lib.SequentialObject
import Ailoy.Lib.StopsAt
import Ailoy.Core.Packet
import Ailoy.Core.PacketCodec
import Ailoy.Broker.Disconnect
import Ailoy.Broker.Isolation
import Ailoy.Broker.Routing
import Ailoy.Vm.Components
import Ailoy.Vm.Faults
import Ailoy.Vm.Process
import Ailoy.System.Defs
import Ailoy.Vm.Moves
import Ailoy.Vm.Service
import Ailoy.Vm.Methods
import Ailoy.Vm.Offers
import Ailoy.System.Traffic
import Ailoy.System.Channels
import Ailoy.System.Transaction
import Ailoy.System.Delivery
import Ailoy.System.Responses
import Ailoy.System.Lifecycle
import Ailoy.Broker.Ownership
import Ailoy.Core.ValueEncoding
import Ailoy.Core.ValueRoundTrip
import Ailoy.Core.PacketRoundTrip
import Ailoy.Lib.Coverage
import Ailoy.Vm.SplitText
import Ailoy.Vm.SplitCover
import Ailoy.Vm.ChatEngine
import Ailoy.Vm.ChatStream
import Ailoy.Vm.InferEnds
import Ailoy.Vm.EngineHistory
import Ailoy.Core.IntegerText
import Ailoy.Core.Ndarray
import Ailoy.Core.NdarraySafety
import Ailoy.Lib.Collection
import Ailoy.Vm.FaissStore
import Ailoy.Vm.StoreRefinement
import Ailoy.Vm.StoreRuns
import Ailoy.Vm.StoreIds
import Ailoy.Vm.EmbeddingFidelity
import Ailoy.Vm.StoreBatch
import Ailoy.Vm.StoreRetrieve
import Ailoy.Vm.StoreOperators
import Ailoy.Vm.Messages
import Ailoy.Vm.OutputModes
import Ailoy.Vm.NoMarkers
import Ailoy.Vm.TextLoss
import Ailoy.Vm.OpenAi
import Ailoy.Vm.OpenAiRoundTrip
import Ailoy.Broker.Dial
import Ailoy.Broker.DialRuns
import Ailoy.Broker.ChannelNames
import Ailoy.Lib.CharCode
import Ailoy.Lib.Fifo
import Ailoy.Vm.SplitTextOps
import Ailoy.Vm.SplitUtf8
import Ailoy.Vm.SplitBounds
import Ailoy.Vm.SplitLoops
import Ailoy.Vm.SplitArguments
import Ailoy.Vm.StopSignal
import Ailoy.Broker.Wakeups
import Ailoy.Bindings.Threads
import Ailoy.Bindings.Replies
import Ailoy.Bindings.SyncRuntime
import Ailoy.Lib.SingleFlight
import Ailoy.Bindings.AsyncRuntime
import Ailoy.Bindings.AsyncStreams
import Ailoy.Bindings.JsRuntime
import Ailoy.Bindings.Wrappers
import Ailoy.Lib.Coroutine
import Ailoy.Bindings.Conversation
import Ailoy.Bindings.AgentQuery
import Ailoy.Bindings.QueryHistory
import Ailoy.Lib.Effects
import Ailoy.Lib.Erasure
import Ailoy.Vm.HttpRequest
import Ailoy.Lib.FormUrlencoded
import Ailoy.Lib.Template
import Ailoy.Bindings.RestTool
import Ailoy.Lib.FirstFault
import Ailoy.Bindings.TypeHints
import Ailoy.Bindings.VectorStore
import Ailoy.Vm.EmbeddingModel
import Ailoy.Bindings.EmbeddedTexts
import Ailoy.Bindings.HostValues
import Ailoy.Bindings.HostRoundTrip
import Ailoy.Lib.StridedView
import Ailoy.Bindings.HostArrays
import Ailoy.Bindings.HostArrayCopies
import Ailoy.Bindings.ToolSchema
import Ailoy.Lib.FileTree
import Ailoy.Vm.ModelCache
import Ailoy.Vm.Download
import Ailoy.Vm.DownloadRuns
import Ailoy.Bindings.ResponseTable
import Ailoy.System.Order
import Ailoy.System.Linearizable
import Ailoy.System.Progress
import Ailoy.System.Rest
import Ailoy.System.HostRuntimes
import Ailoy.System.SharedComponent
import Ailoy.Vm.DebugModule
import Ailoy.System.SharedAccumulator
import Ailoy.Vm.StoreComponent
import Ailoy.System.SharedStore
