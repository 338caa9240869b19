import AttestP2P.Lib.Machine
import AttestP2P.Lib.BigEndian
import AttestP2P.Lib.Framing
import AttestP2P.Lib.OrderedMap
import AttestP2P.Lib.Clocked
import AttestP2P.Buffer
import AttestP2P.Config
import AttestP2P.Crypto.Primitives
import AttestP2P.Crypto.Handshake
import AttestP2P.Crypto.Symbolic
import AttestP2P.Crypto.Reactions
import AttestP2P.Crypto.Agreement
import AttestP2P.Crypto.Impersonation
import AttestP2P.Crypto.Identities
import AttestP2P.Protocol.Packet
import AttestP2P.Protocol.Message
import AttestP2P.Protocol.Replay
import AttestP2P.Protocol.ReplaySafety
import AttestP2P.Protocol.Frame
import AttestP2P.Protocol.FrameStream
import AttestP2P.Network.IpRateLimiter
import AttestP2P.Network.IpBlacklist
import AttestP2P.Network.TcpServer
import AttestP2P.Network.TcpSockets
import AttestP2P.Network.PacketStream
import AttestP2P.Network.Isolation
import AttestP2P.Network.Segmentation
import AttestP2P.Session.SecureConnection
import AttestP2P.Session.Octets
import AttestP2P.Session.Link
import AttestP2P.Session.Way
import AttestP2P.Session.Joined
import AttestP2P.Session.Delivery
import AttestP2P.Session.AntiReplay
import AttestP2P.Session.EventLoop
import AttestP2P.Session.Closed
import AttestP2P.Session.Clockless
import AttestP2P.Session.Chunks
import AttestP2P.Session.LateFrames
import AttestP2P.Session.Segmentation
import AttestP2P.Network.SecureServer
import AttestP2P.Network.Bans
import AttestP2P.Js.Number
import AttestP2P.Js.Json
import AttestP2P.Network.UdpDiscovery
import AttestP2P.Session.PeerManager
import AttestP2P.Node.AttestP2PNode
import AttestP2P.Js.PlainObject
import AttestP2P.File.FileSystem
import AttestP2P.File.Manifest
import AttestP2P.File.ChunkStore
import AttestP2P.File.Protocol
import AttestP2P.File.FileNode
import AttestP2P.File.Availability
import AttestP2P.Network.BanLifetime
import AttestP2P.Network.RateBound
import AttestP2P.Network.StrikeThreshold
import AttestP2P.Protocol.ReplayPurge
import AttestP2P.Session.Sending
import AttestP2P.Session.FrameBound
import AttestP2P.Session.Closing
import AttestP2P.Lib.Slices
import AttestP2P.File.RoundTrip
import AttestP2P.File.Scheduler
import AttestP2P.File.Effects
import AttestP2P.File.Footprint
import AttestP2P.File.Containment
import AttestP2P.File.Coherence
import AttestP2P.Protocol.PacketLayout
import AttestP2P.File.ManifestShape
import AttestP2P.File.Assignments
import AttestP2P.File.Turns
import AttestP2P.File.EventTurns
import AttestP2P.File.Timers
import AttestP2P.File.RequestLife
import AttestP2P.File.Requests
import AttestP2P.File.Retries
import AttestP2P.File.Progress
import AttestP2P.File.Knowledge
import AttestP2P.File.RarestFirst
import AttestP2P.File.Promises
import AttestP2P.Lib.Increasing
import AttestP2P.File.StoreIndex
import AttestP2P.Session.KeyUsage
import AttestP2P.File.Layout
import AttestP2P.Network.PartialPackets
import AttestP2P.Lib.Utf8
import AttestP2P.Node.ControlServer
import AttestP2P.Js.NumberText
import AttestP2P.Js.JsonText
import AttestP2P.Js.JsonValue
import AttestP2P.File.Tampering
import AttestP2P.File.Integrity
import AttestP2P.File.Saturation
import AttestP2P.Lib.Network
import AttestP2P.Lib.Exchange
import AttestP2P.File.Terms
import AttestP2P.File.Catalogue
import AttestP2P.File.Speech
import AttestP2P.File.Hearing
import AttestP2P.File.Deeds
import AttestP2P.File.Conduct
import AttestP2P.File.Lacking
import AttestP2P.File.Swarm
import AttestP2P.File.Settling
import AttestP2P.Lib.Dialogue
import AttestP2P.Session.Identity
import AttestP2P.Session.Stack
import AttestP2P.Node.Chat
