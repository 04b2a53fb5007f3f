import Zql.Lib.Runs
import Zql.Lib.Dyadic
import Zql.Lib.Loop
import Zql.Lib.Scan
import Zql.Lib.SearchTree
import Zql.Basic
import Zql.Objects
import Zql.BTree
import Zql.Heap
import Zql.Traverse
import Zql.Codes
import Zql.Cbor
import Zql.Serialize
import Zql.Database
import Zql.Worker
import Zql.Service
import Zql.Strings
import Zql.Fields
import Zql.Client
import Zql.Protocol
import Zql.Insertion
import Zql.Dangling
import Zql.Order
import Zql.Progress
import Zql.Interleaved
import Zql.Sequential
import Zql.Depth
import Zql.Stored
import Zql.Once
import Zql.Isolation
import Zql.Framing
import Zql.Reading
import Zql.ObjectParser
import Zql.Grammar
import Zql.Parsing
import Zql.Lockstep
import Zql.Wire
import Zql.RoundTrip
import Zql.Passes
import Zql.Bounds
import Zql.Items
import Zql.Tokens
import Zql.Overflow
import Zql.Delivery
import Zql.Truncation
import Zql.Headers
import Zql.Requests
import Zql.Replies
import Zql.Unknown
import Zql.Pointers
import Zql.Productions
import Zql.Lib.Spelling
import Zql.Taking
import Zql.Tables
import Zql.Rows
import Zql.OpeField
import Zql.MainLoop
import Zql.Letters
import Zql.Sockets
import Zql.Network
import Zql.Mail
import Zql.Completion
import Zql.Ranking
import Zql.Stale
import Zql.Incomplete
import Zql.Sessions
import Zql.SendQueue
import Zql.Permanent
import Zql.Daemon
import Zql.Atomic
import Zql.Linearize
import Zql.Overtaken
import Zql.Memory
import Zql.Program
