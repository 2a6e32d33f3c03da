import AetherLite.Lib.Machine
import AetherLite.Lib.JsMap
import AetherLite.Lib.JsValue
import AetherLite.Lib.Bytes
import AetherLite.Lib.JsonText
import AetherLite.Common.JsonBinary
import AetherLite.Crypto.PowPolicy
import AetherLite.Gossip.PacketValidator
import AetherLite.Hint.HintPacket
import AetherLite.Mailbox.MailboxEntry
import AetherLite.Gossip.SeenCache
import AetherLite.Gossip.ZoneGossipRouter
import AetherLite.Crypto.PacketBuilder
import AetherLite.Logic.BoardOrchestrator
import AetherLite.Lib.JsOps
import AetherLite.Logic.ThreadDAGManager
import AetherLite.Logic.ThreadOrchestrator
import AetherLite.Hint.HintCrypto
import AetherLite.Hint.HintRouter
import AetherLite.Hint.SchrodingerMailbox
import AetherLite.Lib.Program
import AetherLite.Logic.Authorship
import AetherLite.Logic.HintDelivery
import AetherLite.Storage.DataVault
import AetherLite.Storage.IndexedDBStore
import AetherLite.Storage.Migration
import AetherLite.Crypto.NodeIdentity
import AetherLite.Network.WebRTCPeer
import AetherLite.Wire.WireCodec
import AetherLite.Network.PeerManager
import AetherLite.Network.FrameCaps
import AetherLite.Network.Admission
import AetherLite.Network.DispatchGate
import AetherLite.Network.Rebalance
import AetherLite.Network.JoinAuthentication
import AetherLite.Hint.Backlog
import AetherLite.Lib.TopologicalSort
import AetherLite.Logic.ThreadOrder
import AetherLite.Logic.ThreadSnapshot
import AetherLite.Storage.ThreadStats
import AetherLite.Logic.ThreadWeight
import AetherLite.Logic.BoardBacking
import AetherLite.Logic.ThreadBacking
import AetherLite.Logic.WeightRuns
import AetherLite.Crypto.Commitment
import AetherLite.Network.StreamRoundTrip
import AetherLite.Onion.OnionLayers
import AetherLite.Onion.GuardPinning
import AetherLite.Onion.CoverTraffic
import AetherLite.Mailbox.FetchAnswers
import AetherLite.Crypto.PacketRoundTrip
import AetherLite.Logic.Submission
import AetherLite.Cache.SameTraffic
import AetherLite.Hint.BodyFetch
import AetherLite.Hint.HintCodec
import AetherLite.Hint.HintArrivals
import AetherLite.Hint.Reflood
import AetherLite.Network.ZoneManager
import AetherLite.Trust.SignatureCollection
import AetherLite.Tracker.SessionSafety
import AetherLite.Storage.RowBinding
import AetherLite.Storage.PassphraseChange
import AetherLite.Cache.Retention
import AetherLite.Cache.HintRelay
import AetherLite.Logic.CanonicalOrder
import AetherLite.Logic.BoardDelivery
import AetherLite.Logic.ThreadList
import AetherLite.Mailbox.StorageBounds
import AetherLite.Mailbox.FailedPut
import AetherLite.Network.DegreeBound
import AetherLite.Mailbox.BodyReaders
import AetherLite.Network.RateLimiter
import AetherLite.Network.TopicWatches
import AetherLite.Network.AssemblyBounds
import AetherLite.Trust.Transcripts
import AetherLite.Onion.Deferral
import AetherLite.Onion.GuardPex
import AetherLite.Gossip.EchoWaiters
import AetherLite.Hint.RefloodSchedule
import AetherLite.Hint.HintRelease
import AetherLite.Logic.Registrations
import AetherLite.Cache.JoinRelay
import AetherLite.Cache.SeenRetention
import AetherLite.Network.Misbehavior
import AetherLite.Storage.TripFailure
import AetherLite.Network.NetGroup
import AetherLite.Cache.SessionAgreement
import AetherLite.Gossip.GossipNet
import AetherLite.Worker.WorkerBridge
import AetherLite.Network.PEXHandler
import AetherLite.Tracker.RandomPeers
import AetherLite.Tracker.SignalingClient
import AetherLite.Common.JsonBinaryRoundTrip
import AetherLite.Mailbox.Placement
import AetherLite.Wire.WireRoundTrip
import AetherLite.Network.DataChannel
import AetherLite.Network.ChannelDelivery
import AetherLite.Mailbox.HeldEntries
import AetherLite.Mailbox.ServedEntries
