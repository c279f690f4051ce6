import Srn.Graph
import Srn.In6Addr

/-!
# Srn.Segpath

Segment lists: `graph_minseg` and `build_segpath` of `sr-ctrl/graph.c`, and the constraints of
a flow that `sr-ctrl/sr-ctrl.c` passes to them.

`build_segpath` searches a path in a constrained copy of the graph, encodes it with
`graph_minseg` over the shortest paths of the graph itself, and resolves its hops to edges.
A result of `none` is the `NULL` or `-1` the code returns.
-/

namespace Srn

variable {ε σ : Type}

/-! ## Segments -/

/-- `struct segment`. -/
inductive Segment (ε : Type) where
  | node (n : NodeId)
  | adjacency (e : Edge ε)
  deriving DecidableEq, Repr

/-- `insert_node_segment`. -/
def insertNodeSegment (nodeI : NodeId) (res : List (Segment ε)) : List (Segment ε) :=
  res ++ [.node nodeI]

/-- `insert_adj_segment`. -/
def insertAdjSegment (g : Graph ε) (nodeI nodeII : NodeId) (res : List (Segment ε)) :
    Option (List (Segment ε)) :=
  (g.minEdges.get (nodeI, nodeII)).map fun edge => res ++ [.adjacency edge]

/-- The pairs of consecutive nodes of a path. -/
def hops : List NodeId → List (NodeId × NodeId)
  | nodeI :: nodeII :: path => (nodeI, nodeII) :: hops (nodeII :: path)
  | _ => []

/-! ## Minimal segment lists -/

/-- The result of `graph_dijkstra` for a node, from the cache if it is there. -/
def cachedDijkstra (g : Graph ε) (node : NodeId) : Except GraphFault Dres :=
  match g.dcache.get node with
  | some res => .ok res
  | none => graphDijkstra g node defaultOps

/-- `hmap_get(res.prev, node)`, for a caller that follows the pointer. -/
def prevOf (res : Dres) (node : NodeId) : Except GraphFault (List NodeId) :=
  match res.prev.get node with
  | some prev => .ok prev
  | none => .error .nullDereference

/-- The body of the loop of `graph_minseg`, with the new `node_r`. -/
def minsegStep (g : Graph ε) (nodeR nodeI nodeII : NodeId) (res : List (Segment ε)) :
    Except GraphFault (Option (NodeId × List (Segment ε))) := do
  let resI ← cachedDijkstra g nodeI
  let resR ← cachedDijkstra g nodeR
  let prevR ← prevOf resR nodeII
  if nodeI ∉ prevR then
    let prevI ← prevOf resI nodeII
    if prevI.length = 1 then
      return some (nodeI, insertNodeSegment nodeI res)
    else
      return (insertAdjSegment g nodeI nodeII (insertNodeSegment nodeI res)).map (nodeII, ·)
  else if prevR.length ≤ 1 then
    return some (nodeR, res)
  else
    let prevI ← prevOf resI nodeII
    if prevI.length > 1 then
      return (insertAdjSegment g nodeI nodeII (insertNodeSegment nodeI res)).map (nodeII, ·)
    else
      return some (nodeI, insertNodeSegment nodeI res)

/-- The loop of `graph_minseg`. -/
def minsegLoop (g : Graph ε) : Option NodeId → List (Segment ε) → List (NodeId × NodeId) →
    Except GraphFault (Option (List (Segment ε)))
  | _, res, [] => .ok (some res)
  | nodeR, res, (nodeI, nodeII) :: path => do
    match ← minsegStep g (nodeR.getD nodeI) nodeI nodeII res with
    | none => return none
    | some (nodeR, res) => minsegLoop g (some nodeR) res path

/-- `graph_minseg`. -/
def graphMinseg (g : Graph ε) (path : List NodeId) (res : List (Segment ε)) :
    Except GraphFault (Option (List (Segment ε))) :=
  minsegLoop g none res (hops path)

/-- `nodes_to_edges`. -/
def nodesToEdges (g : Graph ε) (path : List NodeId) : Option (List (Edge ε)) :=
  (hops path).mapM fun pair => g.minEdges.get pair

/-! ## Segment paths -/

/-- `struct pathspec`, with the callbacks' `data` argument inside the functions. -/
structure Pathspec (ε σ : Type) where
  src : NodeId
  dst : NodeId
  via : List NodeId
  prune : Option (Graph ε → Graph ε)
  dOps : DOps ε σ

/-- The graph in which `build_segpath` searches. -/
def Pathspec.constrained (pspec : Pathspec ε σ) (g : Graph ε) : Graph ε :=
  match pspec.prune with
  | none => g
  | some prune => graphFinalize (prune (graphClone g))

/-- The path selected by `build_segpath`, without its first node: the first one recorded. -/
def selectPath (gc : Graph ε) (dOps : DOps ε σ) (curNode tmpNode : NodeId) :
    Except GraphFault (Option (List NodeId)) := do
  let gres ← graphDijkstra gc curNode dOps
  match gres.path.get tmpNode with
  | none => .error .nullDereference
  | some tmpPaths => return tmpPaths.head?.map List.reverse

/-- The waypoint segment, unless the last segment is an adjacency that ends there. -/
def insertWaypoint (tmpNode : NodeId) (res : List (Segment ε)) : List (Segment ε) :=
  match res.getLast? with
  | some (.adjacency edge) =>
    if edge.remoteId = tmpNode then res else insertNodeSegment tmpNode res
  | _ => insertNodeSegment tmpNode res

/-- The loop of `build_segpath` over the waypoints. -/
def segpathLoop (g gc : Graph ε) (dOps : DOps ε σ) :
    NodeId → List (Segment ε) → List NodeId → List NodeId →
      Except GraphFault (Option (List (Segment ε) × List NodeId))
  | _, res, fpath, [] => .ok (some (res, fpath))
  | curNode, res, fpath, tmpNode :: path => do
    match ← selectPath gc dOps curNode tmpNode with
    | none => return none
    | some revPath =>
      match ← graphMinseg g (curNode :: revPath) res with
      | none => return none
      | some res =>
        segpathLoop g gc dOps tmpNode (insertWaypoint tmpNode res)
          (fpath ++ curNode :: revPath) path

/-- `build_segpath`, for a caller that asks for `epath`: the segments and the edges. -/
def buildSegpath (g : Graph ε) (pspec : Pathspec ε σ) :
    Except GraphFault (Option (List (Segment ε) × Option (List (Edge ε)))) := do
  let gc := pspec.constrained g
  match ← segpathLoop g gc pspec.dOps pspec.src [] [] (pspec.via ++ [pspec.dst]) with
  | none => return none
  | some (res, fpath) => return some (res, nodesToEdges g fpath)

/-! ## The constraints of a flow -/

/-- `struct link`. -/
structure Link where
  localAddr : In6Addr
  remoteAddr : In6Addr
  bw : UInt32
  avaBw : UInt32
  delay : UInt32
  deriving DecidableEq, Repr

/-- The constraints in `struct flow`. -/
structure Flow where
  bw : UInt32
  delay : UInt32
  deriving DecidableEq, Repr

/-- `prune_bw`. -/
def pruneBw (bw : UInt32) (e : Edge Link) : Bool := e.data.avaBw < bw

/-- `pre_prune`. -/
def prePrune (fl : Flow) (g : Graph Link) : Graph Link :=
  if fl.bw ≠ 0 then graphPrune g (pruneBw fl.bw) else g

/-- `delay_min_ops`. -/
def delayMinOps : DOps Link Unit where
  init _ _ := ()
  cost curCost edge _ := curCost + edge.data.delay
  update _ s := s

/-- The `pathspec` that `process_request` fills in for a flow. -/
def flowPathspec (fl : Flow) (src dst : NodeId) (via : List NodeId) : Pathspec Link Unit where
  src := src
  dst := dst
  via := via
  prune := some (prePrune fl)
  dOps := if fl.delay ≠ 0 then delayMinOps else defaultOps

end Srn
