import GateControl.Library.Transition
import GateControl.Library.OrderedMap
import GateControl.Library.Text
import GateControl.Library.Bytes
import GateControl.Library.Utf8
import GateControl.Library.Utf8Pieces
import GateControl.Library.Cells
import GateControl.Library.Patches
import GateControl.Library.PlainObject
import GateControl.Library.FileSystem
import GateControl.Library.Framing
import GateControl.Library.Gather
import GateControl.Library.RuleChain
import GateControl.Library.Keeps
import GateControl.Library.Outbox
import GateControl.Library.Ledger
import GateControl.Library.Keyed
import GateControl.Library.Slots
import GateControl.Library.Recency
import GateControl.Edge.Topics
import GateControl.Edge.Mqtt
import GateControl.Cache.Store
import GateControl.Cache.Report
import GateControl.Cache.Room
import GateControl.Cache.Books
import GateControl.Cache.Sync
import GateControl.Cache.Running
import GateControl.Cache.Eviction
import GateControl.Cache.Limit
import GateControl.Dns.DomainSet
import GateControl.Dns.ListParser
import GateControl.Dns.ListChunks
import GateControl.Dns.ListSize
import GateControl.Dns.DistinctNames
import GateControl.Dns.Lists
import GateControl.Dns.ListProvenance
import GateControl.Dns.ListBudget
import GateControl.Dns.ListOverrun
import GateControl.Dns.Wire
import GateControl.Dns.ResponseCache
import GateControl.Dns.ServedTtl
import GateControl.Dns.Resolver
import GateControl.Dns.SharedQueries
import GateControl.Dns.Stats
import GateControl.Dns.Questions
import GateControl.Dns.Messages
import GateControl.Dns.Names
import GateControl.Dns.RoundTrip
import GateControl.Dns.Config
import GateControl.Dns.Policy
import GateControl.Dns.Patterns
import GateControl.Dns.Replies
import GateControl.Dns.WrittenSize
import GateControl.Dns.ReplySize
import GateControl.Dns.FilterDecision
import GateControl.Dns.References
import GateControl.Dns.CheckedReads
import GateControl.Dns.BlockingTimes
import GateControl.Dns.CompactLists
import GateControl.Dns.FastCheck
import GateControl.Dns.TcpStream
import GateControl.Dns.CacheBooks
import GateControl.Edge.MqttPackets
import GateControl.Edge.MqttRequests
import GateControl.Edge.PackageFormat
import GateControl.Edge.PackageSignature
import GateControl.Edge.PackageStore
import GateControl.Edge.Host
import GateControl.Edge.FailClosed
import GateControl.Dns.Listeners
import GateControl.Edge.Processes
import GateControl.Edge.OneProcess
import GateControl.Edge.Boundary
import GateControl.Edge.Pruning
import GateControl.Edge.Caps
import GateControl.Edge.Limits
import GateControl.Edge.LanGuard
import GateControl.Edge.Addresses
import GateControl.Edge.FenceRules
import GateControl.Edge.PluginNet
import GateControl.Edge.Bridge
import GateControl.Edge.Sockets
import GateControl.Edge.Ownership
import GateControl.Edge.NetClose
import GateControl.Edge.Confinement
import GateControl.Edge.Revocation
import GateControl.Edge.SocketLimits
import GateControl.Edge.Subscriptions
import GateControl.Library.Blocks
import GateControl.Edge.Interfaces
import GateControl.Edge.PrivateTargets
import GateControl.Edge.Protocol
import GateControl.Edge.StateFrames
import GateControl.Edge.Events
import GateControl.Edge.EventBuffer
import GateControl.Sync.Poller
import GateControl.Proxy.ListenerManager
import GateControl.Proxy.Calls
import GateControl.Proxy.Servers
import GateControl.Proxy.Orderly
import GateControl.Proxy.Sequential
import GateControl.Proxy.Tcp
import GateControl.Proxy.Allowlist
import GateControl.Proxy.Egress
import GateControl.Proxy.Overlap
import GateControl.Proxy.TlsPin
import GateControl.Proxy.PinnedRoutes
import GateControl.Features.Loop
import GateControl.Features.StableJson
import GateControl.Cameras.EventQueue
import GateControl.Cameras.Events
import GateControl.Cameras.Endings
import GateControl.Cameras.Times
import GateControl.Cameras.Boxes
import GateControl.Cameras.Mehd
import GateControl.Cameras.Rebase
import GateControl.Cameras.Rebased
import GateControl.Cameras.DecodeTimes
import GateControl.Cameras.ClipTimes
import GateControl.Cameras.Xml
import GateControl.Cameras.XmlPrint
import GateControl.Cameras.XmlRoundTrip
import GateControl.Cameras.XmlDepth
import GateControl.Cameras.Challenges
import GateControl.Cameras.ChallengeCuts
import GateControl.Cameras.ChallengeRoundTrip
import GateControl.Inetq.Buffer
import GateControl.Inetq.Outages
import GateControl.Presence.Presence
import GateControl.Presence.Reports
import GateControl.Print.Jobs
import GateControl.Print.Guards
import GateControl.Print.Journal
import GateControl.Print.Devices
import GateControl.Print.Busy
import GateControl.Print.Hosts
import GateControl.Print.Raster
import GateControl.Print.Pages
import GateControl.Print.Ipp
import GateControl.Print.IppRoundTrip
import GateControl.Print.IppTotal
import GateControl.Library.Reading
import GateControl.Library.Reconcile
import GateControl.Library.Doubles
import GateControl.Library.JsonText
import GateControl.Library.JsonFuel
import GateControl.Library.JsonRoundTrip
import GateControl.Library.JsonDecode
import GateControl.Library.JsonOrder
import GateControl.Netwatch.DnsWire
import GateControl.Netwatch.NetWatch
import GateControl.Discovery.Hosts
import GateControl.Discovery.ScanManager
import GateControl.Near.Redirects
import GateControl.Near.Converge
import GateControl.Ups.Nut
import GateControl.Ups.Segments
import GateControl.Ups.NutLists
import GateControl.Ai.Ai
import GateControl.Ai.AnswerSlots
import GateControl.Ai.CalledOff
import GateControl.Radio.Ble
import GateControl.Radio.OldHelpers
import GateControl.Radio.Zigbee
import GateControl.Radio.NewDevices
import GateControl.Library.Requests
import GateControl.Library.Exchange
import GateControl.Edge.GatewayRpc
import GateControl.Edge.RpcAnswers
import GateControl.Edge.RpcLinks
import GateControl.Edge.ChildCalls
import GateControl.Edge.ChildAnswers
import GateControl.Edge.GcCalls
import GateControl.Library.Simulation
import GateControl.Library.Der
import GateControl.Cache.Certificate
import GateControl.Edge.PluginStore
import GateControl.Cache.LanServer
import GateControl.Cache.Downloads
import GateControl.Cache.Resumes
import GateControl.Edge.BrokerWatch
