import TuyulNet.Framework.Machine
import TuyulNet.Framework.Temporal
import TuyulNet.Framework.Ledger
import TuyulNet.Framework.Poll
import TuyulNet.Framework.Pipe
import TuyulNet.Framework.Merge
import TuyulNet.Framework.Service
import TuyulNet.Framework.Independent
import TuyulNet.Kernel.Call
import TuyulNet.Kernel.State
import TuyulNet.Kernel.Effect
import TuyulNet.Kernel.Sound
import TuyulNet.Kernel.Veil
import TuyulNet.Kernel.Streams
import TuyulNet.Kernel.Supply
import TuyulNet.Kernel.Custody
import TuyulNet.Kernel.Readiness
import TuyulNet.Kernel.Output
import TuyulNet.Options
import TuyulNet.Server.Reactor
import TuyulNet.Server.System
import TuyulNet.Server.Descriptors
import TuyulNet.Server.Ownership
import TuyulNet.Server.Release
import TuyulNet.Server.Registration
import TuyulNet.Server.StopRequest
import TuyulNet.Server.Streams
import TuyulNet.Server.Readiness
import TuyulNet.Server.Batch
import TuyulNet.Server.Outcomes
import TuyulNet.Server.Turns
import TuyulNet.Server.Order
import TuyulNet.Server.Verdict
import TuyulNet.Server.Liveness
import TuyulNet.Server.Progress
import TuyulNet.Server.Admission
import TuyulNet.Server.Return
import TuyulNet.Server.Service
import TuyulNet.Server.Delivery
import TuyulNet.Server.Restart
import TuyulNet.Server.Sequence
import TuyulNet.Server.Flood
import TuyulNet.Server.Limits
import TuyulNet.Client.Threads
import TuyulNet.Client.System
import TuyulNet.Client.Control
import TuyulNet.Client.Lifecycle
import TuyulNet.Client.Descriptors
import TuyulNet.Client.Holding
import TuyulNet.Client.Attempts
import TuyulNet.Client.Disconnect
import TuyulNet.Client.Quiescence
import TuyulNet.Client.Sending
import TuyulNet.Client.Connection
import TuyulNet.Client.Reader
import TuyulNet.Client.Streams
import TuyulNet.Client.Flood
import TuyulNet.Client.Limits
import TuyulNet.Client.Objects
import TuyulNet.Client.Moves
import TuyulNet.Client.Readiness
import TuyulNet.Client.Senders
import TuyulNet.Client.PeerLoss
import TuyulNet.Client.Reconnect
import TuyulNet.Client.Liveness
import TuyulNet.Client.Return
import TuyulNet.Client.Progress
import TuyulNet.Link.System
import TuyulNet.Link.Delivery
import TuyulNet.Link.Network
import TuyulNet.Link.Liveness
