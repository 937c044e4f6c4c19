import Roots.Bytes
import Roots.Crypto
import Roots.Session.Basic
import Roots.Wire.Uvarint
import Roots.Session.Flight
import Roots.Session.InOrder
import Roots.Session.Replay
import Roots.Session.Endpoint
import Roots.Session.Nonces
import Roots.Session.Crossed
import Roots.Address
import Roots.Lib.Assoc
import Roots.Lib.Prog
import Roots.Wire.Messages
import Roots.Bloom
import Roots.Wire.Frame
import Roots.Router.State
import Roots.Router.Tree
import Roots.Router.Forward
import Roots.Router.Session
import Roots.Router.Driver
import Roots.Router.Step
import Roots.Router.Rules.Tree
import Roots.Router.Rules.Net
import Roots.Router.Rules.Driver
import Roots.Router.Abort
import Roots.Router.Fix
import Roots.Router.OwnInfo
import Roots.Router.Owner
import Roots.Router.Parent
import Roots.Router.Root
import Roots.Router.Rumor
import Roots.Router.Retry
import Roots.Router.Greedy
import Roots.Lib.PortTree
import Roots.Router.Settled
import Roots.Rendezvous
import Roots.Router.Converge
import Roots.Router.Tables
import Roots.Router.Fanout
import Roots.Router.Requests
import Roots.Router.Announced
import Roots.Router.Advertised
import Roots.Client.Links
import Roots.Client.Node
import Roots.Client.Rows
import Roots.Multicast
import Roots.Client.Discovery
import Roots.Router.Selection
import Roots.Router.Leaders
import Roots.Client.Served
import Roots.Router.Broken
import Roots.Router.Learned
import Roots.Router.Ends
import Roots.Router.Contact
import Roots.Session.Recover
import Roots.Router.Priority
import Roots.Session.KeySeq
import Roots.Wire.Stream
import Roots.Client.Tun
import Roots.Lib.Visits
import Roots.Router.Serve
import Roots.Client.Loop
import Roots.Lib.Str
import Roots.Uri.Escape
import Roots.Uri.Duration
import Roots.Uri.Link
import Roots.Handshake
import Roots.Bloom.Travel
import Roots.Multicast.Trace
import Roots.Client.Rebind
import Roots.Client.Dials
import Roots.Router.Books
import Roots.Router.Ports
import Roots.Router.Lag
import Roots.Router.Outbox
import Roots.Lib.Slice
import Roots.Wire.Fill
import Roots.Lib.Delimit
import Roots.Wire.Signed
import Roots.Bloom.Murmur
import Roots.Lib.Walk
import Roots.Router.Walks
import Roots.Client.Sorting
import Roots.Client.Pump
import Roots.Lib.Destutter
import Roots.Client.Adapters
import Roots.Client.Remote
import Roots.Client.Asking
import Roots.Lib.Flood
import Roots.Router.Filters
import Roots.Router.Flood
import Roots.Router.CatchUp
