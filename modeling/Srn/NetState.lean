import Srn.Lib.Transition
import Srn.Lpm
import Srn.Segpath

/-!
# Srn.NetState

The network state of `sr-ctrl/sr-ctrl.c`: the staging graph, which the callbacks for `NodeState`
and `LinkState` rows change, and the published graph, which `netstate_graph_sync` replaces by a
deep copy of the staging graph.

Nodes, edges and links are objects in a heap, and a graph is a list of pointers to them: what
one graph changes through a pointer the other sees if it has the same pointer.  Each kind of
object has its own heap, a list in which a pointer is an index.  Freed objects stay in it, and
`malloc` never returns an address again.

A callback changes the graph in one critical section, under the lock of the staging graph, and
the routers it looks up before are protected by the lock of the network state, so a callback is
one step.  The texts of a row are given as the values that `inet_pton`, `pref_pton` and
`strsplit` read from them.
-/

namespace Srn

/-! ## Objects -/

/-- A pointer into one of the heaps. -/
abbrev Ptr := ℕ

/-- `struct node`, with the name of its router as `data`. -/
structure NodeObj where
  id : UInt32
  data : String
  deriving DecidableEq, Repr

/-- `struct edge`. -/
structure EdgeObj where
  localNode : Ptr
  remoteNode : Ptr
  id : UInt32
  metric : UInt32
  data : Ptr
  deriving DecidableEq, Repr

/-- The objects allocated so far. -/
structure Heap where
  nodes : List NodeObj
  edges : List EdgeObj
  links : List Link
  deriving DecidableEq, Repr

/-- The lists, counters and flag of `struct graph`. -/
structure GraphObj where
  nodes : List Ptr
  edges : List Ptr
  lastNode : UInt32
  lastEdge : UInt32
  dirty : Bool
  deriving DecidableEq, Repr

/-- `edge->metric = metric`. -/
def Heap.setMetric (h : Heap) (edge : Ptr) (metric : UInt32) : Heap :=
  { h with edges := h.edges.modify edge fun e => { e with metric := metric } }

/-- An assignment to a field of a link. -/
def Heap.modifyLink (h : Heap) (link : Ptr) (f : Link → Link) : Heap :=
  { h with links := h.links.modify link f }

/-- What an edge pointer stands for: the edge with the ids of its ends and its link. -/
def Heap.edge? (h : Heap) (p : Ptr) : Option (Edge Link) := do
  let e ← h.edges[p]?
  let localNode ← h.nodes[e.localNode]?
  let remoteNode ← h.nodes[e.remoteNode]?
  let link ← h.links[e.data]?
  return ⟨e.id, localNode.id, remoteNode.id, e.metric, link⟩

/-- The ways in which a callback can go wrong. -/
inductive NetFault where
  | assertion
  | nullDereference
  | lpm (fault : LpmFault)
  | graph (fault : GraphFault)
  deriving DecidableEq, Repr

/-! ## Operations on graph objects -/

/-- `graph_new`. -/
def graphNew : GraphObj := ⟨[], [], 0, 0, false⟩

/-- `graph_add_node`, with the new pointer; `mem` tells whether `malloc` succeeds. -/
def graphAddNode (h : Heap) (g : GraphObj) (data : String) (mem : Bool) :
    Option (Heap × GraphObj × Ptr) :=
  if mem then
    some ({ h with nodes := h.nodes ++ [⟨g.lastNode + 1, data⟩] },
      { g with lastNode := g.lastNode + 1, nodes := g.nodes ++ [h.nodes.length], dirty := true },
      h.nodes.length)
  else none

/-- `graph_get_node_noref`. -/
def graphGetNodeNoref (h : Heap) (nodes : List Ptr) (id : UInt32) : Option Ptr :=
  nodes.find? fun p => h.nodes[p]?.any fun n => n.id = id

/-- `link_edge_data_equals` for the link of an edge and a pair of addresses. -/
def linkEdgeDataEquals (h : Heap) (localAddr remoteAddr : In6Addr) (edge : Ptr) : Bool :=
  h.edges[edge]?.any fun e => h.links[e.data]?.any fun l =>
    l.localAddr = localAddr ∧ l.remoteAddr = remoteAddr

/-- `graph_get_edge_data`, for the link or `struct linkpair` with the given addresses. -/
def graphGetEdgeData (h : Heap) (g : GraphObj) (localAddr remoteAddr : In6Addr) : Option Ptr :=
  g.edges.find? (linkEdgeDataEquals h localAddr remoteAddr)

/-- `graph_add_edge` for a new link; without memory the graph keeps its edges. -/
def graphAddEdge (h : Heap) (g : GraphObj) (localNode remoteNode : Ptr) (metric : UInt32)
    (link : Link) (mem : Bool) : Heap × GraphObj :=
  if mem then
    ({ h with
        edges := h.edges ++ [⟨localNode, remoteNode, g.lastEdge + 1, metric, h.links.length⟩]
        links := h.links ++ [link] },
      { g with lastEdge := g.lastEdge + 1, edges := g.edges ++ [h.edges.length], dirty := true })
  else (h, g)

/-- `graph_remove_edge`. -/
def graphRemoveEdge (g : GraphObj) (edge : Ptr) : GraphObj :=
  if edge ∈ g.edges then { g with edges := g.edges.erase edge, dirty := true } else g

/-- The body of the loop of `graph_deepcopy` over the nodes. -/
def copyNode (acc : Heap × List Ptr) (p : Ptr) : Except NetFault (Heap × List Ptr) :=
  match acc.1.nodes[p]? with
  | none => .error .nullDereference
  | some n =>
    .ok ({ acc.1 with nodes := acc.1.nodes ++ [n] }, acc.2 ++ [acc.1.nodes.length])

/-- The body of the loop of `graph_deepcopy` over the edges: the ends are looked up by id among
the copied nodes, and the link is copied by `link_edge_data_copy`. -/
def copyEdge (nodes : List Ptr) (acc : Heap × List Ptr) (p : Ptr) :
    Except NetFault (Heap × List Ptr) :=
  match acc.1.edge? p with
  | none => .error .nullDereference
  | some e =>
    match graphGetNodeNoref acc.1 nodes e.localId, graphGetNodeNoref acc.1 nodes e.remoteId with
    | some localNode, some remoteNode =>
      .ok ({ acc.1 with
          edges := acc.1.edges ++ [⟨localNode, remoteNode, e.id, e.metric, acc.1.links.length⟩]
          links := acc.1.links ++ [e.data] }, acc.2 ++ [acc.1.edges.length])
    | _, _ => .error .nullDereference

/-- `graph_deepcopy`, when `graph_new` succeeds. -/
def graphDeepcopy (h : Heap) (g : GraphObj) : Except NetFault (Heap × GraphObj) := do
  let (h, nodes) ← g.nodes.foldlM copyNode (h, [])
  let (h, edges) ← g.edges.foldlM (copyEdge nodes) (h, [])
  return (h, { graphNew with nodes, edges, lastNode := g.lastNode, lastEdge := g.lastEdge })

/-- The nodes and edges behind the pointers of a graph. -/
def view (h : Heap) (g : GraphObj) : List (Option NodeObj) × List (Option (Edge Link)) :=
  (g.nodes.map fun p => h.nodes[p]?, g.edges.map h.edge?)

/-- The graph object as a graph, before `graph_finalize`. -/
def graphValue (h : Heap) (g : GraphObj) : Option (Graph Link) := do
  let nodes ← (view h g).1.mapM id
  let edges ← (view h g).2.mapM id
  return ⟨nodes.map NodeObj.id, edges, .empty, .empty, .empty, false, false⟩

/-! ## Rows -/

/-- `struct prefix`. -/
structure Prefix where
  addr : In6Addr
  len : Int32
  deriving DecidableEq, Repr

/-- `struct srdb_nodestate_entry`; `pbsid` is `none` when the text is empty. -/
structure NodeEntry where
  name : String
  addr : In6Addr
  prefixes : List Prefix
  pbsid : Option Prefix
  deriving DecidableEq, Repr

/-- `struct srdb_linkstate_entry`. -/
structure LinkEntry where
  name1 : String
  addr1 : In6Addr
  name2 : String
  addr2 : In6Addr
  metric : Int32
  bw : Int32
  avaBw : Int32
  delay : Int32
  deriving DecidableEq, Repr

/-- `(uint32_t)link_entry->metric ?: UINT32_MAX`. -/
def LinkEntry.metricOf (entry : LinkEntry) : UInt32 :=
  if entry.metric.toUInt32 = 0 then uint32Max else entry.metric.toUInt32

/-- The link from the first router of a row to the second. -/
def LinkEntry.link (entry : LinkEntry) : Link :=
  ⟨entry.addr1, entry.addr2, entry.bw.toUInt32, entry.avaBw.toUInt32, entry.delay.toUInt32⟩

/-- The link in the other direction. -/
def LinkEntry.link2 (entry : LinkEntry) : Link :=
  ⟨entry.addr2, entry.addr1, entry.bw.toUInt32, entry.avaBw.toUInt32, entry.delay.toUInt32⟩

/-- The index of a column in a field mask. -/
inductive LinkField where
  | metric
  | bw
  | avaBw
  | delay
  deriving DecidableEq, Repr

/-- `LS_METRIC`, `LS_BW`, `LS_AVA_BW` and `LS_DELAY`. -/
def LinkField.index : LinkField → UInt32
  | .metric => 5
  | .bw => 6
  | .avaBw => 7
  | .delay => 8

/-- `fmask & ENTRY_MASK(field)`. -/
def hasField (fmask : UInt32) (field : LinkField) : Bool := fmask &&& (1 <<< field.index) ≠ 0

/-! ## The callbacks -/

/-- `struct router`. -/
structure Router where
  name : String
  addr : In6Addr
  pbsid : Option Prefix
  prefixes : List Prefix
  nodeId : UInt32
  deriving DecidableEq, Repr

/-- `struct netstate`; the tables of the published graph are those of `tables`. -/
structure NetState where
  heap : Heap
  graph : GraphObj
  graphStaging : GraphObj
  routers : Table String Router
  prefixes : LpmTree String
  tables : Graph Link

/-- `init_netstate`. -/
def netInit : NetState :=
  ⟨⟨[], [], []⟩, graphNew, graphNew, .empty, lpmNew, ⟨[], [], .empty, .empty, .empty, false, false⟩⟩

/-- `mark_graph_dirty`, on the staging graph. -/
def markGraphDirty (g : GraphObj) : GraphObj := { g with dirty := true }

/-- The allocations of `nodestate_read` that can fail. -/
structure NodeMem where
  rt : Bool
  node : Bool
  deriving DecidableEq, Repr

/-- `nodestate_read`. -/
def nodestateRead (s : NetState) (entry : NodeEntry) (mem : NodeMem) :
    Except NetFault (NetState × Int) :=
  match s.routers.get entry.name with
  | some _ => .ok (s, -1)
  | none =>
    if !mem.rt then .ok (s, -1)
    else
      match lpmRun s.prefixes (entry.prefixes.map fun p =>
          ⟨p.addr, p.len.toUInt32.toUInt8.toNat, entry.name⟩) with
      | .error fault => .error (.lpm fault)
      | .ok prefixes =>
        match graphAddNode s.heap (markGraphDirty s.graphStaging) entry.name mem.node with
        | none => .error .nullDereference
        | some (heap, graphStaging, rtNode) =>
          match heap.nodes[rtNode]? with
          | none => .error .nullDereference
          | some node =>
            let rt := ⟨entry.name, entry.addr, entry.pbsid, entry.prefixes, node.id⟩
            .ok ({ s with
              heap, graphStaging, prefixes
              routers := s.routers.set entry.name rt }, 0)

/-- The allocations of `linkstate_read` that can fail. -/
structure LinkMem where
  link : Bool
  link2 : Bool
  edge : Bool
  edge2 : Bool
  deriving DecidableEq, Repr

/-- `linkstate_read`. -/
def linkstateRead (s : NetState) (entry : LinkEntry) (mem : LinkMem) :
    Except NetFault (NetState × Int) :=
  if !mem.link then .ok (s, -1)
  else if !mem.link2 then .ok (s, -1)
  else
    match s.routers.get entry.name1, s.routers.get entry.name2 with
    | some rt1, some rt2 =>
      if (graphGetEdgeData s.heap s.graphStaging entry.addr1 entry.addr2).isSome then .ok (s, -1)
      else if (graphGetEdgeData s.heap s.graphStaging entry.addr2 entry.addr1).isSome then
        .ok (s, -1)
      else
        let g := markGraphDirty s.graphStaging
        match graphGetNodeNoref s.heap g.nodes rt1.nodeId,
          graphGetNodeNoref s.heap g.nodes rt2.nodeId with
        | some rt1Node, some rt2Node =>
          let (heap, g) :=
            graphAddEdge s.heap g rt1Node rt2Node entry.metricOf entry.link mem.edge
          let (heap, g) :=
            graphAddEdge heap g rt2Node rt1Node entry.metricOf entry.link2 mem.edge2
          .ok ({ s with heap, graphStaging := g }, 0)
        | _, _ => .error .assertion
    | _, _ => .ok (s, -1)

/-- The assignments of `linkstate_update`. -/
def updateFields (h : Heap) (entry : LinkEntry) (fmask : UInt32) (edge edge2 link link2 : Ptr) :
    Heap :=
  let both (h : Heap) (field : LinkField) (f : Link → Link) : Heap :=
    if hasField fmask field then (h.modifyLink link f).modifyLink link2 f else h
  let h := if hasField fmask .metric then
      (h.setMetric edge entry.metricOf).setMetric edge2 entry.metricOf
    else h
  let h := both h .bw fun l => { l with bw := entry.bw.toUInt32 }
  let h := both h .avaBw fun l => { l with avaBw := entry.avaBw.toUInt32 }
  both h .delay fun l => { l with delay := entry.delay.toUInt32 }

/-- `linkstate_update`; the second link is read from the first edge, as in the source. -/
def linkstateUpdate (s : NetState) (entry : LinkEntry) (fmask : UInt32) :
    Except NetFault (NetState × Int) :=
  match graphGetEdgeData s.heap s.graphStaging entry.addr1 entry.addr2 with
  | none => .ok (s, -1)
  | some edge =>
    match s.heap.edges[edge]? with
    | none => .error .nullDereference
    | some e =>
      match graphGetEdgeData s.heap s.graphStaging entry.addr2 entry.addr1 with
      | none => .ok (s, -1)
      | some edge2 =>
        .ok ({ s with
          heap := updateFields s.heap entry fmask edge edge2 e.data e.data
          graphStaging := markGraphDirty s.graphStaging }, 0)

/-- The lookup and removal of one direction in `linkstate_delete`. -/
def removeEdgeData (h : Heap) (g : GraphObj) (localAddr remoteAddr : In6Addr) : GraphObj :=
  match graphGetEdgeData h g localAddr remoteAddr with
  | none => g
  | some edge => graphRemoveEdge g edge

/-- `linkstate_delete`. -/
def linkstateDelete (s : NetState) (entry : LinkEntry) : Except NetFault (NetState × Int) :=
  let g := removeEdgeData s.heap s.graphStaging entry.addr1 entry.addr2
  let g := removeEdgeData s.heap g entry.addr2 entry.addr1
  .ok ({ s with graphStaging := markGraphDirty g }, 0)

/-- `netstate_graph_sync`; `mem` tells whether `graph_new` succeeds. -/
def netstateGraphSync (s : NetState) (mem : Bool) : Except NetFault (NetState × Int) :=
  if !s.graphStaging.dirty then .ok (s, 0)
  else if !mem then .ok (s, -1)
  else
    match graphDeepcopy s.heap s.graphStaging with
    | .error fault => .error fault
    | .ok (heap, graph) =>
      match graphValue heap graph with
      | none => .error .nullDereference
      | some value =>
        match graphBuildCache (graphFinalize value) with
        | .error fault => .error (.graph fault)
        | .ok tables =>
          let graphStaging := { s.graphStaging with dirty := false }
          .ok ({ s with heap, graph, tables, graphStaging }, 0)

/-! ## Runs -/

/-- A call of one of the functions above. -/
inductive NetEvent where
  | nodestateRead (entry : NodeEntry) (mem : NodeMem)
  | linkstateRead (entry : LinkEntry) (mem : LinkMem)
  | linkstateUpdate (entry : LinkEntry) (fmask : UInt32)
  | linkstateDelete (entry : LinkEntry)
  | graphSync (mem : Bool)
  deriving DecidableEq, Repr

/-- A call, with the new state and the returned value. -/
def netCall (s : NetState) : NetEvent → Except NetFault (NetState × Int)
  | .nodestateRead entry mem => nodestateRead s entry mem
  | .linkstateRead entry mem => linkstateRead s entry mem
  | .linkstateUpdate entry fmask => linkstateUpdate s entry fmask
  | .linkstateDelete entry => linkstateDelete s entry
  | .graphSync mem => netstateGraphSync s mem

/-- A call as a step, which is not there when the call goes wrong. -/
def netStep (s : NetState) (ev : NetEvent) : Option NetState :=
  (netCall s ev).toOption.map Prod.fst

/-- The state after a sequence of calls. -/
abbrev netRun : NetState → List NetEvent → Option NetState := Transition.run netStep

end Srn
