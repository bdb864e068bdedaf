import HyperNet.Core.Transition
import HyperNet.Core.Settling
import HyperNet.Core.Simulation
import HyperNet.Core.History
import HyperNet.Core.Ring
import HyperNet.Core.Framing
import HyperNet.Core.Bytes
import HyperNet.Core.Tagged
import HyperNet.Core.Refinement
import HyperNet.Core.Commuting
import HyperNet.Public.CycleQueue
import HyperNet.Public.BoundedFifo
import HyperNet.Public.SharedQueue
import HyperNet.Public.Util
import HyperNet.Public.ThreadModule
import HyperNet.Api.PacketParser
import HyperNet.Logic.Frame
import HyperNet.Net.Buffer
import HyperNet.Net.States
import HyperNet.Net.NetWorker
import HyperNet.Net.Connection
import HyperNet.Net.Steps
import HyperNet.Net.Items
import HyperNet.Net.ProcessPacket
import HyperNet.Net.SendView
import HyperNet.Net.SendStream
import HyperNet.Net.SendWakeup
import HyperNet.Net.Closing
import HyperNet.Net.Coupling
import HyperNet.Net.Release
import HyperNet.Net.Flush
import HyperNet.Net.RecvView
import HyperNet.Net.RecvStream
import HyperNet.Net.Reassembly
import HyperNet.Net.Link
import HyperNet.Net.Delivery
import HyperNet.Net.Rest
import HyperNet.Net.Shutdown
import HyperNet.Net.Copies
import HyperNet.Net.Capacity
import HyperNet.Net.RecvWakeup
import HyperNet.Net.NetEngine
import HyperNet.Net.Custody
import HyperNet.Net.Requests
import HyperNet.Net.Workers
import HyperNet.Net.Sharing
import HyperNet.Net.Alone
import HyperNet.Net.Peers
import HyperNet.Net.Quiet
import HyperNet.Logic.NodeSession
import HyperNet.Logic.Harbor
import HyperNet.Logic.Cluster
import HyperNet.Logic.Chunking
import HyperNet.Logic.RoundTrip
import HyperNet.Logic.HarborLink
import HyperNet.Logic.Malformed
import HyperNet.Logic.Registry
import HyperNet.Logic.Master
import HyperNet.Logic.Mesh
import HyperNet.Logic.Reconnect
import HyperNet.Logic.Address
import HyperNet.Logic.Senders
import HyperNet.ScriptEngine.Lua
import HyperNet.ScriptEngine.Serialize
import HyperNet.ScriptEngine.Format
import HyperNet.ScriptEngine.Outside
import HyperNet.ScriptEngine.PrefixFree
import HyperNet.ScriptEngine.Values
import HyperNet.ScriptEngine.Fields
import HyperNet.ScriptEngine.Writing
import HyperNet.ScriptEngine.Slots
import HyperNet.ScriptEngine.Bounds
import HyperNet.ScriptEngine.RoundTrip
import HyperNet.ScriptEngine.Accepts
import HyperNet.ScriptEngine.Heights
import HyperNet.ScriptEngine.Discipline
import HyperNet.ScriptEngine.Depths
import HyperNet.ScriptEngine.Trees
import HyperNet.ScriptEngine.Call
import HyperNet.ScriptEngine.Balanced
import HyperNet.Script.Co
import HyperNet.Script.Scheduler
import HyperNet.Script.Told
import HyperNet.Script.Orderly
import HyperNet.Script.Harbor
import HyperNet.Script.Response
import HyperNet.Script.Network
import HyperNet.Script.Correlation
import HyperNet.Script.Transparency
import HyperNet.Script.Rpc
import HyperNet.Script.RpcLink
import HyperNet.Script.Nodes
import HyperNet.Script.Timer
import HyperNet.Kernel.LogicMgr
import HyperNet.Kernel.ConfigMgr
import HyperNet.Kernel.Started
