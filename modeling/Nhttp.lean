import Nhttp.Async.Handles
import Nhttp.Async.IoContext
import Nhttp.Async.MpmcEffect
import Nhttp.Async.MpmcFailures
import Nhttp.Async.MpmcQueue
import Nhttp.Async.MpmcRuns
import Nhttp.Async.MpmcStep
import Nhttp.Async.PoolJobs
import Nhttp.Async.PoolRuns
import Nhttp.Async.PoolWakeups
import Nhttp.Async.ReactorCalls
import Nhttp.Async.ReadyEvents
import Nhttp.Async.Registration
import Nhttp.Async.ThreadPool
import Nhttp.Http2.DynamicTable
import Nhttp.Http2.Frame
import Nhttp.Http2.Hpack
import Nhttp.Http2.HpackPeer
import Nhttp.Http2.HpackRoundTrip
import Nhttp.Http2.HpackTables
import Nhttp.Http2.Huffman
import Nhttp.Http2.HuffmanExact
import Nhttp.Http2.Integers
import Nhttp.Io.FileStream
import Nhttp.Io.MemoryStream
import Nhttp.Io.RangeSeek
import Nhttp.Io.RangeStream
import Nhttp.Lib.Below
import Nhttp.Lib.Bits
import Nhttp.Lib.Calendar
import Nhttp.Lib.ExactReads
import Nhttp.Lib.FifoLock
import Nhttp.Lib.Find
import Nhttp.Lib.FirstMax
import Nhttp.Lib.Lines
import Nhttp.Lib.Lists
import Nhttp.Lib.Loops
import Nhttp.Lib.Octets
import Nhttp.Lib.Reading
import Nhttp.Lib.Run
import Nhttp.Lib.Slices
import Nhttp.Lib.StableInsert
import Nhttp.Lib.Tasks
import Nhttp.Lib.Tickets
import Nhttp.Lib.Trie
import Nhttp.Lib.Writing
import Nhttp.Platform.FileMapping
import Nhttp.Plugin.PluginManager
import Nhttp.Plugin.PluginScope
import Nhttp.Protocol.Chunked
import Nhttp.Protocol.ChunkedBody
import Nhttp.Protocol.ChunkedScan
import Nhttp.Protocol.EmptyReads
import Nhttp.Protocol.Header
import Nhttp.Protocol.HeaderParameters
import Nhttp.Protocol.HttpDate
import Nhttp.Protocol.Multipart
import Nhttp.Protocol.MultipartParts
import Nhttp.Protocol.MultipartWindow
import Nhttp.Protocol.Resource
import Nhttp.Protocol.Status
import Nhttp.Protocol.UrlEncode
import Nhttp.Router.Group
import Nhttp.Router.Match
import Nhttp.Router.Middleware
import Nhttp.Router.Priority
import Nhttp.Router.Route
import Nhttp.Router.Trie
import Nhttp.Router.WellFormed
import Nhttp.Server.BodyYields
import Nhttp.Server.Connection
import Nhttp.Server.ConnectionBody
import Nhttp.Server.Extension
import Nhttp.Server.Extensions.Conditional
import Nhttp.Server.Extensions.Overlay
import Nhttp.Server.Extensions.OverlayCache
import Nhttp.Server.Extensions.Qualified
import Nhttp.Server.Extensions.Ranges
import Nhttp.Server.Extensions.StaticContent
import Nhttp.Server.Extensions.Validators
import Nhttp.Server.Extensions.Vpath
import Nhttp.Server.Framing
import Nhttp.Server.H2.Basic
import Nhttp.Server.H2.Buffers
import Nhttp.Server.H2.Client
import Nhttp.Server.H2.Continuation
import Nhttp.Server.H2.Credit
import Nhttp.Server.H2.DataFrames
import Nhttp.Server.H2.DataRuns
import Nhttp.Server.H2.Delivery
import Nhttp.Server.H2.Dispatch
import Nhttp.Server.H2.Frames
import Nhttp.Server.H2.Handed
import Nhttp.Server.H2.Handlers
import Nhttp.Server.H2.Join
import Nhttp.Server.H2.Lock
import Nhttp.Server.H2.LostLock
import Nhttp.Server.H2.Memory
import Nhttp.Server.H2.Moves
import Nhttp.Server.H2.Once
import Nhttp.Server.H2.Progress
import Nhttp.Server.H2.Reset
import Nhttp.Server.H2.Serves
import Nhttp.Server.H2.State
import Nhttp.Server.H2.Step
import Nhttp.Server.H2.Trailers
import Nhttp.Server.H2.Undecodable
import Nhttp.Server.H2.Wakeups
import Nhttp.Server.H2.Windows
import Nhttp.Server.HeaderBlock
import Nhttp.Server.HeaderBounds
import Nhttp.Server.Http1Io
import Nhttp.Server.Lengths
import Nhttp.Server.Listener.Admission
import Nhttp.Server.Listener.Detached
import Nhttp.Server.Listener.RunStop
import Nhttp.Server.Message
import Nhttp.Server.MessageBody
import Nhttp.Server.Proxy.Basic
import Nhttp.Server.Proxy.Body
import Nhttp.Server.Proxy.Head
import Nhttp.Server.Proxy.Pump
import Nhttp.Server.Proxy.PumpRuns
import Nhttp.Server.Proxy.Response
import Nhttp.Server.Registry
import Nhttp.Server.SameRequest
import Nhttp.Server.Segmentation
import Nhttp.Server.SendFile
import Nhttp.Server.WriteLoops
import Nhttp.Server.WriteResponse
import Nhttp.Tls.Stream
import Nhttp.Ws.Alone
import Nhttp.Ws.Connection
import Nhttp.Ws.ControlFrames
import Nhttp.Ws.Frame
import Nhttp.Ws.Legal
import Nhttp.Ws.Receive
import Nhttp.Ws.Step
import Nhttp.Ws.Writers
