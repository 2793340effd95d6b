import CockroachChat.Foundations.Backlog
import CockroachChat.Foundations.Bytes
import CockroachChat.Foundations.Eviction
import CockroachChat.Foundations.Flooding
import CockroachChat.Foundations.Forests
import CockroachChat.Foundations.Grouping
import CockroachChat.Foundations.Interleavings
import CockroachChat.Foundations.Maps
import CockroachChat.Foundations.Matching
import CockroachChat.Foundations.Runs
import CockroachChat.Foundations.Slices
import CockroachChat.Foundations.SlidingWindow
import CockroachChat.Foundations.Sorting
import CockroachChat.Foundations.TokenBucket
import CockroachChat.Foundations.Trimming
import CockroachChat.Foundations.Truncation
import CockroachChat.Foundations.Utf8
import CockroachChat.Core.Announces
import CockroachChat.Core.ChannelPayloads
import CockroachChat.Core.Config
import CockroachChat.Core.Fingerprints
import CockroachChat.Core.Frag
import CockroachChat.Core.Noise
import CockroachChat.Core.PacketCodec
import CockroachChat.Core.Payloads
import CockroachChat.Core.Prims
import CockroachChat.Core.Reference
import CockroachChat.Core.Relay
import CockroachChat.Core.SignedRegion
import CockroachChat.Core.Sqlite
import CockroachChat.Core.Store
import CockroachChat.Core.Wire
import CockroachChat.Core.WireFormat
import CockroachChat.Node.DirectMessages
import CockroachChat.Node.Inbound
import CockroachChat.Node.ReferenceNodes
import CockroachChat.Node.State
import CockroachChat.Node.Steps
import CockroachChat.Sessions.Agreement
import CockroachChat.Sessions.Beats
import CockroachChat.Sessions.Binding
import CockroachChat.Sessions.Calls
import CockroachChat.Sessions.Chains
import CockroachChat.Sessions.Errands
import CockroachChat.Sessions.Forgery
import CockroachChat.Sessions.Handshakes
import CockroachChat.Sessions.Moves
import CockroachChat.Sessions.Outbound
import CockroachChat.Sessions.Overtaking
import CockroachChat.Sessions.Phases
import CockroachChat.Sessions.Recast
import CockroachChat.Sessions.Retries
import CockroachChat.Sessions.Scans
import CockroachChat.Sessions.SendOrder
import CockroachChat.Sessions.SessionSpec
import CockroachChat.Sessions.Surroundings
import CockroachChat.Sessions.Transfers
import CockroachChat.Sessions.Window
import CockroachChat.Flood.Answers
import CockroachChat.Flood.Budget
import CockroachChat.Flood.Copies
import CockroachChat.Flood.Countdown
import CockroachChat.Flood.Coverage
import CockroachChat.Flood.Dedup
import CockroachChat.Flood.Delivery
import CockroachChat.Flood.Idle
import CockroachChat.Flood.Inventory
import CockroachChat.Flood.Limits
import CockroachChat.Flood.LinkLocal
import CockroachChat.Flood.Masking
import CockroachChat.Flood.Network
import CockroachChat.Flood.Origination
import CockroachChat.Flood.Pacing
import CockroachChat.Flood.Reassembly
import CockroachChat.Flood.Relaying
import CockroachChat.Flood.Slots
import CockroachChat.Flood.Suppression
import CockroachChat.Peers.Bindings
import CockroachChat.Peers.Commands
import CockroachChat.Peers.LinkTable
import CockroachChat.Peers.Links
import CockroachChat.Peers.OnAir
import CockroachChat.Peers.Pairing
import CockroachChat.Peers.Staleness
import CockroachChat.Peers.Trust
import CockroachChat.Stores.Arrears
import CockroachChat.Stores.Authorship
import CockroachChat.Stores.ChannelNames
import CockroachChat.Stores.Envelopes
import CockroachChat.Stores.Interchange
import CockroachChat.Stores.Journal
import CockroachChat.Stores.Markers
import CockroachChat.Stores.Requests
import CockroachChat.Stores.Retention
import CockroachChat.Stores.Rows
import CockroachChat.Stores.Tables
import CockroachChat.Stores.Threads
import CockroachChat.Stores.Untouched
import CockroachChat.Privacy.Forget
import CockroachChat.Privacy.Past
import CockroachChat.Privacy.Wipe
import CockroachChat.App.BleMeshTransport
import CockroachChat.App.LinkAgreement
import CockroachChat.App.Radio
import CockroachChat.Sim.Lanes
import CockroachChat.Sim.Mirror
import CockroachChat.Sim.Tables
import CockroachChat.Sim.Topology
import CockroachChat.Sim.UnionFind
import CockroachChat.Sim.World
