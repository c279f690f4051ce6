import Srn.Admission
import Srn.Controller
import Srn.Controller.Affected
import Srn.Controller.Below
import Srn.Controller.Bsid
import Srn.Controller.Config
import Srn.Controller.Delay
import Srn.Controller.Fastest
import Srn.Controller.Lifetime
import Srn.Controller.Recompute
import Srn.Controller.Refs
import Srn.Controller.Request
import Srn.Controller.Rules
import Srn.Controller.Sweep
import Srn.Flowstate
import Srn.Flowstate.Reject
import Srn.Flowstate.Reply
import Srn.Flowstate.Sent
import Srn.Flowstate.Srh
import Srn.Graph
import Srn.Graph.Additive
import Srn.Graph.Built
import Srn.Graph.Callbacks
import Srn.Graph.Objects
import Srn.Graph.Refs
import Srn.Graph.Search
import Srn.Graph.Shortest
import Srn.Graph.Tables
import Srn.Graph.Wrap
import Srn.Hashmap
import Srn.Hashmap.Refine
import Srn.In6Addr
import Srn.Json
import Srn.Json.Text
import Srn.Lib.Block
import Srn.Lib.CString
import Srn.Lib.DList
import Srn.Lib.Dns
import Srn.Lib.Fault
import Srn.Lib.Least
import Srn.Lib.Memory
import Srn.Lib.OMap
import Srn.Lib.Pool
import Srn.Lib.Refcount
import Srn.Lib.Ring
import Srn.Lib.Route
import Srn.Lib.Transition
import Srn.Lib.Wire
import Srn.Lpm
import Srn.Lpm.Alloc
import Srn.Lpm.Default
import Srn.Lpm.Delete
import Srn.Lpm.Exact
import Srn.Lpm.Heap
import Srn.Lpm.Insert
import Srn.Lpm.Lookup
import Srn.Lpm.Loose
import Srn.Lpm.Remove
import Srn.Lpm.Wf
import Srn.Misc
import Srn.Misc.Buffer
import Srn.Monitor
import Srn.Mqueue
import Srn.NetState
import Srn.NetState.Identity
import Srn.NetState.Metrics
import Srn.NetState.Publish
import Srn.NetState.Rebuild
import Srn.NetState.Sync
import Srn.Proxy
import Srn.Proxy.Edns
import Srn.Proxy.Pipeline
import Srn.Routed
import Srn.Routed.Fib
import Srn.Routed.Header
import Srn.Sbuf
import Srn.Segpath
import Srn.Segpath.Build
import Srn.Segpath.Forward
import Srn.Segpath.Least
import Srn.Segpath.Refs
import Srn.Segpath.Waypoints
import Srn.Srdb
import Srn.Srdb.Entry
import Srn.Srdb.Memory
import Srn.Srdb.Refine
import Srn.Srdb.Send
import Srn.Srdb.Tables
import Srn.Srdns
import Srn.Transaction
import Srn.Transaction.Wakeup
