import Beachedmesh.Codec
import Beachedmesh.Authenticity
import Beachedmesh.Dedup
import Beachedmesh.ColdStore
import Beachedmesh.FlushTiming
import Beachedmesh.RouteTable
import Beachedmesh.Judgement
import Beachedmesh.Tiers
import Beachedmesh.Eviction
import Beachedmesh.Node
import Beachedmesh.Provenance
import Beachedmesh.Unverified
import Beachedmesh.Receive
import Beachedmesh.Noninterference
import Beachedmesh.Control
import Beachedmesh.Replay
import Beachedmesh.Network
import Beachedmesh.HopCount
import Beachedmesh.Entries
import Beachedmesh.Ledger
import Beachedmesh.Suppression
import Beachedmesh.Fates
import Beachedmesh.Neighbourhood
import Beachedmesh.Reach
import Beachedmesh.BestCopy
import Beachedmesh.FloodGuard
import Beachedmesh.RelayFates
import Beachedmesh.RadioError
import Beachedmesh.Radiotap
import Beachedmesh.Warming
import Beachedmesh.History
import Beachedmesh.Ageing
import Beachedmesh.Expiry
import Beachedmesh.Waiting
import Beachedmesh.Signals
import Beachedmesh.Recency
import Beachedmesh.RouteListing
import Beachedmesh.AdapterNames
import Beachedmesh.Monitor
import Beachedmesh.Service
import Beachedmesh.Restart
import Beachedmesh.Daemon
import Beachedmesh.Delivery
import Beachedmesh.FloodCost
import Beachedmesh.Latency
import Beachedmesh.FarFirst
import Beachedmesh.Schedule
import Beachedmesh.Books
import Beachedmesh.Stack
import Beachedmesh.Installation
import Beachedmesh.Query
import Beachedmesh.Recovery
import Beachedmesh.Reset
