import RttHttp.Machine.Run
import RttHttp.Executor.Machine
import RttHttp.Executor.Stage
import RttHttp.Executor.Simulation
import RttHttp.Executor.ExactlyOnce
import RttHttp.Executor.Capacity
import RttHttp.Text.Bytes
import RttHttp.Server.Options
import RttHttp.Server.Machine
import RttHttp.Server.Lifecycle
import RttHttp.Server.Retention
import RttHttp.Server.Drain
import RttHttp.Text.Utf8
import RttHttp.Route.Path
import RttHttp.Route.Grammar
import RttHttp.Json.Value
import RttHttp.Model.Interface
import RttHttp.Model.Describe
import RttHttp.Model.Addressing
import RttHttp.Model.Resolve
import RttHttp.Text.Number
import RttHttp.Codec.Context
import RttHttp.Codec.Typed
import RttHttp.Codec.Measure
import RttHttp.Codec.RoundTrip
import RttHttp.Json.Serialize
import RttHttp.Codec.Reflected
import RttHttp.Codec.ReflectedMeasure
import RttHttp.Codec.ResponseBudget
import RttHttp.Json.Spelling
import RttHttp.Codec.RequestBudget
import RttHttp.Http.Message
import RttHttp.Executor.Prepare
import RttHttp.Server.Handle
import RttHttp.Graph.Search
import RttHttp.Machine.OrderedMap
import RttHttp.Json.Output
import RttHttp.Registry.Protocol
import RttHttp.Registry.Machine
import RttHttp.Registry.History
import RttHttp.Registry.Freeze
import RttHttp.Machine.Saturation
import RttHttp.Registry.Reflect
import RttHttp.Registry.Layout
import RttHttp.Registry.Attempt
import RttHttp.Registry.Passes
import RttHttp.Registry.Fixpoint
import RttHttp.Registry.Canonical
import RttHttp.Codec.Depth
import RttHttp.Model.Shape
import RttHttp.Model.Types
import RttHttp.Model.Schemas
import RttHttp.Model.Unfold
import RttHttp.Codec.Integers
import RttHttp.Codec.Storage
import RttHttp.Json.Events
import RttHttp.Json.Equality
import RttHttp.Registry.Fingerprint
import RttHttp.Registry.Schemas
import RttHttp.Executor.Shutdown
import RttHttp.Executor.OutputStorage
import RttHttp.Model.Items
import RttHttp.Model.Ledger
import RttHttp.Model.Growth
import RttHttp.Server.Effects
import RttHttp.Codec.Narrow
import RttHttp.Http.MediaType
import RttHttp.Http.Problem
import RttHttp.Codec.Budget
import RttHttp.Executor.Slots
import RttHttp.Executor.Dispatch
import RttHttp.Server.Answers
import RttHttp.Server.Atomicity
import RttHttp.Machine.Queue
import RttHttp.Network.Pool
import RttHttp.Network.Wakeups
import RttHttp.Executor.Order
import RttHttp.Server.Listener
import RttHttp.Server.Connections
import RttHttp.Registry.Startup
import RttHttp.Server.Variables
import RttHttp.Server.Linearized
import RttHttp.Server.Returns
