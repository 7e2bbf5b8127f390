import ChainingBox.Lib.Bytes
import ChainingBox.Lib.BoundedMap
import ChainingBox.Lib.Loops
import ChainingBox.Lib.Interleave
import ChainingBox.Lib.OnesComplement
import ChainingBox.Lib.Threads
import ChainingBox.Lib.Schedules
import ChainingBox.Lib.ChaCha
import ChainingBox.Lib.Overwrite
import ChainingBox.Lib.Walk
import ChainingBox.Dataplane.Common
import ChainingBox.Dataplane.Stages
import ChainingBox.Dataplane.StagesSpec
import ChainingBox.Dataplane.SavedHeaders
import ChainingBox.Dataplane.OneHop
import ChainingBox.Dataplane.Classifier
import ChainingBox.Dataplane.Stats
import ChainingBox.Dataplane.Builds
import ChainingBox.Dataplane.Framing
import ChainingBox.Dataplane.ServicePath
import ChainingBox.Dataplane.Egress
import ChainingBox.Dataplane.Travel
import ChainingBox.Dataplane.Crowd
import ChainingBox.Dataplane.Packet
import ChainingBox.Dataplane.FlowKey
import ChainingBox.Functions.Rules
import ChainingBox.Functions.RuleLines
import ChainingBox.Functions.Firewall
import ChainingBox.Functions.Chacha
import ChainingBox.Functions.Keystream
import ChainingBox.Functions.ChachaBlocks
import ChainingBox.Functions.OuterHeader
import ChainingBox.Functions.RemoveIpip
import ChainingBox.Functions.FlowMonitor
import ChainingBox.Functions.FlowCounters
import ChainingBox.Functions.LoadBalancer
import ChainingBox.Functions.UserRedirect
import ChainingBox.Control.Config
import ChainingBox.Control.Manager
import ChainingBox.Control.Install
import ChainingBox.Control.Exact
import ChainingBox.Control.Handled
import ChainingBox.Control.Listen
import ChainingBox.Control.Flows
import ChainingBox.Control.Keys
import ChainingBox.Control.Deploy
import ChainingBox.Control.Loading
import ChainingBox.Control.LoadingSpec
import ChainingBox.Control.IfName
import ChainingBox.Control.Inspector
import ChainingBox.Network.Net
import ChainingBox.Network.Hops
import ChainingBox.Network.Loops
import ChainingBox.Network.EndToEnd
import ChainingBox.Network.Swarm
import ChainingBox.Control.Server
import ChainingBox.Network.Service
import ChainingBox.Functions.Redirect
import ChainingBox.Functions.XdpRedirect
import ChainingBox.Network.Serving
import ChainingBox.Network.Programs
import ChainingBox.Network.Splice
