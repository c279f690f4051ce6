import Mathlib.Data.List.Basic
import Srn.Lib.OMap

/-!
# Srn.Graph

The graph of `sr-ctrl/graph.c`: nodes and edges, the tables of minimal edges and of
neighbours that `graph_finalize` computes, and `graph_dijkstra`.

A node is identified by its id and an edge is a value with its two ends, its metric and
the data attached to it, over which the graph is generic.  The hash tables are
`Table`s: what `hmap_set` and `hmap_get` do to the insertion-ordered map that
`Srn.Hashmap.Refine` shows them to implement, with memory available.

An operation returns a `GraphFault` where the code would fail an assertion or follow a
`NULL` pointer, or when a loop or recursion has not ended within the given fuel.
-/

namespace Srn

/-! ## Tables -/

/-- A hash table as its callers see it. -/
structure Table (κ α : Type) where
  entries : List (κ × α)
  deriving DecidableEq, Repr

namespace Table

variable {κ α : Type} [DecidableEq κ]

/-- The table after `hmap_new` or `hmap_flush`. -/
def empty : Table κ α := ⟨[]⟩

/-- `hmap_get`. -/
def get (t : Table κ α) (k : κ) : Option α := OMap.get (fun a b => a == b) t.entries k

/-- `hmap_set`. -/
def set (t : Table κ α) (k : κ) (v : α) : Table κ α :=
  ⟨OMap.set (fun a b => a == b) t.entries k v⟩

/-- `hmap_delete`. -/
def erase (t : Table κ α) (k : κ) : Table κ α := ⟨OMap.erase (fun a b => a == b) t.entries k⟩

@[simp] theorem get_empty (k : κ) : (empty : Table κ α).get k = none := rfl

@[simp] theorem get_set (t : Table κ α) (k l : κ) (v : α) :
    (t.set k v).get l = if k = l then some v else t.get l := by
  simp [get, set, OMap.get_set OMap.isKeyTest_beq]

end Table

/-! ## Graphs -/

/-- `UINT32_MAX`. -/
def uint32Max : UInt32 := 0xffffffff

/-- The `id` of a node. -/
abbrev NodeId := UInt32

/-- `struct edge`, with the ids of its two ends. -/
structure Edge (ε : Type) where
  id : UInt32
  localId : NodeId
  remoteId : NodeId
  metric : UInt32
  data : ε
  deriving DecidableEq, Repr

/-- `struct dres`. -/
structure Dres where
  dist : Table NodeId UInt32
  path : Table NodeId (List (List NodeId))
  prev : Table NodeId (List NodeId)
  deriving DecidableEq, Repr

/-- `struct graph`. -/
structure Graph (ε : Type) where
  nodes : List NodeId
  edges : List (Edge ε)
  minEdges : Table (NodeId × NodeId) (Edge ε)
  neighs : Table NodeId (List NodeId)
  dcache : Table NodeId Dres
  dirty : Bool
  cloned : Bool

/-- The ways in which an operation on a graph can go wrong. -/
inductive GraphFault where
  | assertion
  | nullDereference
  | outOfFuel
  deriving DecidableEq, Repr

variable {ε σ : Type}

/-- `graph_get_minimal_edge`. -/
def graphGetMinimalEdge (g : Graph ε) (localId remoteId : NodeId) : Option (Edge ε) :=
  (g.edges.foldl (fun (res : Option (Edge ε) × UInt32) edge =>
    if edge.localId ≠ localId ∨ edge.remoteId ≠ remoteId then res
    else if edge.metric < res.2 then (some edge, edge.metric)
    else res) (none, uint32Max)).1

/-- The body of the inner loop of `graph_compute_minimal_edges`. -/
def setMinimalEdge (g : Graph ε) (node1 : NodeId) (minEdges : Table (NodeId × NodeId) (Edge ε))
    (node2 : NodeId) : Table (NodeId × NodeId) (Edge ε) :=
  if node1 = node2 then minEdges
  else match graphGetMinimalEdge g node1 node2 with
    | none => minEdges
    | some edge => minEdges.set (edge.localId, edge.remoteId) edge

/-- `graph_compute_minimal_edges`. -/
def graphComputeMinimalEdges (g : Graph ε) : Graph ε :=
  let minEdges := g.nodes.foldl
    (fun minEdges node1 => g.nodes.foldl (setMinimalEdge g node1) minEdges) .empty
  { g with minEdges := minEdges }

/-- The body of the loop of `graph_compute_neighbors`. -/
def addNeighbor (node : NodeId) (neighs : List NodeId) (edge : Edge ε) : List NodeId :=
  if edge.localId ≠ node then neighs
  else if edge.metric = uint32Max then neighs
  else if edge.remoteId ∈ neighs then neighs
  else neighs ++ [edge.remoteId]

/-- `graph_compute_neighbors`. -/
def graphComputeNeighbors (g : Graph ε) (node : NodeId) : List NodeId :=
  g.edges.foldl (addNeighbor node) []

/-- `graph_compute_all_neighbors`. -/
def graphComputeAllNeighbors (g : Graph ε) : Graph ε :=
  let neighs := g.nodes.foldl
    (fun neighs node => neighs.set node (graphComputeNeighbors g node)) .empty
  { g with neighs := neighs }

/-- `graph_finalize`. -/
def graphFinalize (g : Graph ε) : Graph ε :=
  { graphComputeAllNeighbors (graphComputeMinimalEdges g) with dirty := false }

/-- `graph_clone`: the nodes and edges, without the tables. -/
def graphClone (g : Graph ε) : Graph ε where
  nodes := g.nodes
  edges := g.edges
  minEdges := .empty
  neighs := .empty
  dcache := .empty
  dirty := false
  cloned := true

/-- `graph_prune`: drop the edges the test selects. -/
def graphPrune (g : Graph ε) (prune : Edge ε → Bool) : Graph ε :=
  { g with edges := g.edges.filter fun e => !prune e }

/-! ## Shortest paths -/

/-- `struct d_ops`, with the callbacks' `data` argument inside the functions. -/
structure DOps (ε σ : Type) where
  init : Graph ε → NodeId → σ
  cost : UInt32 → Edge ε → σ → UInt32
  update : Edge ε → σ → σ

/-- What `graph_dijkstra` does with no callbacks. -/
def defaultOps : DOps ε Unit where
  init _ _ := ()
  cost curCost edge _ := curCost + edge.metric
  update _ s := s

/-- `__compute_paths`, with the list of paths it appends to `res`. -/
def computePathsFrom (prev : Table NodeId (List NodeId)) :
    ℕ → List NodeId → NodeId → Except GraphFault (List (List NodeId))
  | 0, _, _ => .error .outOfFuel
  | fuel + 1, tmp, u =>
    match prev.get u with
    | none => .error .nullDereference
    | some [] => .ok [tmp]
    | some w => do
      let ps ← w.mapM fun p => computePathsFrom prev fuel (tmp ++ [u]) p
      return ps.flatten

/-- `compute_paths`. -/
def computePaths (prev : Table NodeId (List NodeId)) (fuel : ℕ) (u : NodeId) :
    Except GraphFault (List (List NodeId)) :=
  computePathsFrom prev fuel [] u

/-- The variables of the main loop of `graph_dijkstra`. -/
structure DState (σ : Type) where
  dist : Table NodeId UInt32
  prev : Table NodeId (List NodeId)
  path : Table NodeId (List (List NodeId))
  queue : List NodeId
  state : σ

/-- `(uintptr_t)hmap_get(dist, v)`: zero for a key without entry. -/
def distOf (dist : Table NodeId UInt32) (v : NodeId) : UInt32 := (dist.get v).getD 0

/-- The state before the loop. -/
def dijkstraInit (g : Graph ε) (src : NodeId) (ops : DOps ε σ) : DState σ where
  dist := g.nodes.foldl (fun dist node => dist.set node (if node = src then 0 else uint32Max))
    .empty
  prev := g.nodes.foldl (fun prev node => prev.set node []) .empty
  path := g.nodes.foldl (fun path node => path.set node []) .empty
  queue := g.nodes
  state := ops.init g src

/-- The search for the node with the least distance in the queue. -/
def leastNode (dist : Table NodeId UInt32) (queue : List NodeId) : Option NodeId :=
  (queue.foldl (fun (best : Option NodeId × UInt32) v =>
    if distOf dist v < best.2 then (some v, distOf dist v) else best) (none, uint32Max)).1

/-- A path of cost `alt` to the node `v`, by way of `u`: the entries of `v` afterwards, and whether
its distance is a new one. -/
def offer {ν : Type} (dist : Table NodeId UInt32) (prev : Table NodeId (List ν)) (v : NodeId)
    (u : ν) (alt : UInt32) :
    Except GraphFault (Table NodeId UInt32 × Table NodeId (List ν) × Bool) :=
  if alt < distOf dist v then
    match prev.get v with
    | none => .error .nullDereference
    | some _ => .ok (dist.set v alt, prev.set v [u], true)
  else if alt = distOf dist v then
    match prev.get v with
    | none => .error .nullDereference
    | some prevList => .ok (dist, prev.set v (prevList ++ [u]), false)
  else .ok (dist, prev, false)

/-- The body of the loop over the neighbours `v` of the node `u`. -/
def relax (g : Graph ε) (ops : DOps ε σ) (u : NodeId) (st : DState σ) (v : NodeId) :
    Except GraphFault (DState σ) :=
  if v ∉ st.queue then .ok st
  else match g.minEdges.get (u, v) with
    | none => .error .assertion
    | some minEdge =>
      (offer st.dist st.prev v u (ops.cost (distOf st.dist u) minEdge st.state)).map
        fun (dist, prev, new) =>
          { st with dist, prev, state := if new then ops.update minEdge st.state else st.state }

/-- One round of the main loop, for the node `u` found in the queue. -/
def dijkstraRound (g : Graph ε) (ops : DOps ε σ) (u : NodeId) (st : DState σ) :
    Except GraphFault (DState σ) := do
  let paths ← computePaths st.prev (g.nodes.length + 1) u
  match g.neighs.get u with
  | none => .error .nullDereference
  | some neighs =>
    neighs.foldlM (relax g ops u)
      { st with path := st.path.set u paths, queue := st.queue.erase u }

/-- The main loop: until the queue is empty or holds only unreachable nodes. -/
def dijkstraLoop (g : Graph ε) (ops : DOps ε σ) : ℕ → DState σ → Except GraphFault (DState σ)
  | 0, _ => .error .outOfFuel
  | fuel + 1, st =>
    match leastNode st.dist st.queue with
    | none => .ok st
    | some u => do
      let st' ← dijkstraRound g ops u st
      dijkstraLoop g ops fuel st'

/-- `graph_dijkstra`. -/
def graphDijkstra (g : Graph ε) (src : NodeId) (ops : DOps ε σ) : Except GraphFault Dres := do
  let st ← dijkstraLoop g ops (g.nodes.length + 1) (dijkstraInit g src ops)
  return { dist := st.dist, path := st.path, prev := st.prev }

/-- `graph_build_cache_one`. -/
def graphBuildCacheOne (g : Graph ε) (node : NodeId) : Except GraphFault (Graph ε) := do
  let res ← graphDijkstra g node defaultOps
  return { g with dcache := g.dcache.set node res }

/-- `graph_build_cache`. -/
def graphBuildCache (g : Graph ε) : Except GraphFault (Graph ε) :=
  g.nodes.foldlM graphBuildCacheOne g

end Srn
