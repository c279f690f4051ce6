import Srn.Graph.Callbacks
import Srn.Lib.Fault
import Srn.NetState

/-!
# Srn.Graph.Objects

`graph_finalize` and `graph_dijkstra` on pointers.  The code compares some nodes by address and
others by id: the loops over pairs of nodes, the lists of neighbours and the queue of a search hold
addresses, and the hash tables compare ids.

Where the ids of the nodes of a graph are distinct the two comparisons agree, and the search on
pointers is the search of `Srn.Graph` on the ids (`PtrGraph.value_graphDijkstra`).  Where two nodes
have one id, a search can follow its `prev` lists in a circle.
-/

namespace Srn

/-! ## Mapping tables -/

namespace Table

variable {κ α β : Type} [DecidableEq κ]

/-- The table with other values. -/
def map (f : α → β) (t : Table κ α) : Table κ β := ⟨t.entries.map fun e => (e.1, f e.2)⟩

@[simp] theorem get_map (f : α → β) (t : Table κ α) (k : κ) :
    (t.map f).get k = (t.get k).map f := by
  obtain ⟨entries⟩ := t
  simp only [get, map, OMap.get, List.find?_map, Option.map_map]
  rfl

@[simp] theorem map_set (f : α → β) (t : Table κ α) (k : κ) (v : α) :
    (t.set k v).map f = (t.map f).set k (f v) := by
  obtain ⟨entries⟩ := t
  simp only [set, map, mk.injEq]
  induction entries with
  | nil => rfl
  | cons e entries ih =>
    obtain ⟨l, w⟩ := e
    simp only [OMap.set, List.map_cons]
    split_ifs
    · rfl
    · rw [List.map_cons, ih]

end Table

/-! ## Pointers -/

/-- A `struct node *` with the id of the node it points to.  Pointers into one heap with the same
address have the same id, so that equality here is comparison of addresses. -/
structure NodePtr where
  addr : Ptr
  id : NodeId
  deriving DecidableEq, Repr

/-- A `struct edge *` with what the graph reads through it. -/
structure EdgePtr where
  addr : Ptr
  localNode : NodePtr
  remoteNode : NodePtr
  id : UInt32
  metric : UInt32
  deriving DecidableEq, Repr

/-- The lists and tables of `struct graph`. -/
structure PtrGraph where
  nodes : List NodePtr
  edges : List EdgePtr
  minEdges : Table (NodeId × NodeId) EdgePtr
  neighs : Table NodeId (List NodePtr)
  deriving DecidableEq, Repr

namespace PtrGraph

/-- `graph_get_minimal_edge`. -/
def graphGetMinimalEdge (g : PtrGraph) (localNode remoteNode : NodePtr) : Option EdgePtr :=
  (g.edges.foldl (fun (res : Option EdgePtr × UInt32) edge =>
    if edge.localNode.id ≠ localNode.id ∨ edge.remoteNode.id ≠ remoteNode.id then res
    else if edge.metric < res.2 then (some edge, edge.metric)
    else res) (none, uint32Max)).1

/-- The body of the inner loop of `graph_compute_minimal_edges`. -/
def setMinimalEdge (g : PtrGraph) (node1 : NodePtr) (minEdges : Table (NodeId × NodeId) EdgePtr)
    (node2 : NodePtr) : Table (NodeId × NodeId) EdgePtr :=
  if node1 = node2 then minEdges
  else match g.graphGetMinimalEdge node1 node2 with
    | none => minEdges
    | some edge => minEdges.set (edge.localNode.id, edge.remoteNode.id) edge

/-- `graph_compute_minimal_edges`. -/
def graphComputeMinimalEdges (g : PtrGraph) : PtrGraph :=
  let minEdges := g.nodes.foldl
    (fun minEdges node1 => g.nodes.foldl (g.setMinimalEdge node1) minEdges) .empty
  { g with minEdges := minEdges }

/-- The body of the loop of `graph_compute_neighbors`. -/
def addNeighbor (node : NodePtr) (neighs : List NodePtr) (edge : EdgePtr) : List NodePtr :=
  if edge.localNode.id ≠ node.id then neighs
  else if edge.metric = uint32Max then neighs
  else if edge.remoteNode ∈ neighs then neighs
  else neighs ++ [edge.remoteNode]

/-- `graph_compute_neighbors`. -/
def graphComputeNeighbors (g : PtrGraph) (node : NodePtr) : List NodePtr :=
  g.edges.foldl (addNeighbor node) []

/-- `graph_compute_all_neighbors`. -/
def graphComputeAllNeighbors (g : PtrGraph) : PtrGraph :=
  let neighs := g.nodes.foldl
    (fun neighs node => neighs.set node.id (g.graphComputeNeighbors node)) .empty
  { g with neighs := neighs }

/-- `graph_finalize`. -/
def graphFinalize (g : PtrGraph) : PtrGraph := g.graphComputeMinimalEdges.graphComputeAllNeighbors

/-- `graph_clone`: the same nodes and edges, without the tables. -/
def graphClone (g : PtrGraph) : PtrGraph := ⟨g.nodes, g.edges, .empty, .empty⟩

/-- `graph_prune`. -/
def graphPrune (g : PtrGraph) (prune : EdgePtr → Bool) : PtrGraph :=
  { g with edges := g.edges.filter fun e => !prune e }

end PtrGraph

/-! ## The search -/

/-- `struct d_ops`: `cost` returns a cost, and both callbacks may change what `state` points to. -/
structure PtrOps (σ : Type) where
  init : PtrGraph → NodePtr → σ
  cost : UInt32 → EdgePtr → σ → UInt32 × σ
  update : EdgePtr → σ → σ

/-- The variables of the main loop of `graph_dijkstra`. -/
structure PtrState (σ : Type) where
  dist : Table NodeId UInt32
  prev : Table NodeId (List NodePtr)
  path : Table NodeId (List (List NodePtr))
  queue : List NodePtr
  state : σ

/-- `struct dres`. -/
structure PtrDres where
  dist : Table NodeId UInt32
  path : Table NodeId (List (List NodePtr))
  prev : Table NodeId (List NodePtr)
  deriving DecidableEq, Repr

namespace PtrGraph

variable {σ : Type}

/-- `__compute_paths`, with the list of paths it appends to `res`. -/
def computePathsFrom (prev : Table NodeId (List NodePtr)) :
    ℕ → List NodePtr → NodePtr → Except GraphFault (List (List NodePtr))
  | 0, _, _ => .error .outOfFuel
  | fuel + 1, tmp, u =>
    match prev.get u.id with
    | none => .error .nullDereference
    | some [] => .ok [tmp]
    | some w => do
      let ps ← w.mapM fun p => computePathsFrom prev fuel (tmp ++ [u]) p
      return ps.flatten

/-- The state before the loop. -/
def dijkstraInit (g : PtrGraph) (src : NodePtr) (ops : PtrOps σ) : PtrState σ where
  dist := g.nodes.foldl
    (fun dist node => dist.set node.id (if node.id = src.id then 0 else uint32Max)) .empty
  prev := g.nodes.foldl (fun prev node => prev.set node.id []) .empty
  path := g.nodes.foldl (fun path node => path.set node.id []) .empty
  queue := g.nodes
  state := ops.init g src

/-- The search for the node with the least distance in the queue. -/
def leastNode (dist : Table NodeId UInt32) (queue : List NodePtr) : Option NodePtr :=
  (queue.foldl (fun (best : Option NodePtr × UInt32) v =>
    if distOf dist v.id < best.2 then (some v, distOf dist v.id) else best) (none, uint32Max)).1

/-- The body of the loop over the neighbours `v` of the node `u`. -/
def relax (g : PtrGraph) (ops : PtrOps σ) (u : NodePtr) (st : PtrState σ) (v : NodePtr) :
    Except GraphFault (PtrState σ) :=
  if v ∉ st.queue then .ok st
  else match g.minEdges.get (u.id, v.id) with
    | none => .error .assertion
    | some minEdge =>
      let alt := ops.cost (distOf st.dist u.id) minEdge st.state
      (offer st.dist st.prev v.id u alt.1).map fun (dist, prev, new) =>
        { st with dist, prev, state := if new then ops.update minEdge alt.2 else alt.2 }

/-- One round of the main loop, for the node `u` found in the queue. -/
def dijkstraRound (g : PtrGraph) (ops : PtrOps σ) (fuel : ℕ) (u : NodePtr) (st : PtrState σ) :
    Except GraphFault (PtrState σ) := do
  let paths ← computePathsFrom st.prev fuel [] u
  match g.neighs.get u.id with
  | none => .error .nullDereference
  | some neighs =>
    neighs.foldlM (g.relax ops u)
      { st with path := st.path.set u.id paths, queue := st.queue.erase u }

/-- The main loop. -/
def dijkstraLoop (g : PtrGraph) (ops : PtrOps σ) (fuel : ℕ) :
    ℕ → PtrState σ → Except GraphFault (PtrState σ)
  | 0, _ => .error .outOfFuel
  | rounds + 1, st =>
    match leastNode st.dist st.queue with
    | none => .ok st
    | some u => do
      let st' ← g.dijkstraRound ops fuel u st
      dijkstraLoop g ops fuel rounds st'

/-- `graph_dijkstra`, with a bound for the number of rounds and for the depth of the recursion. -/
def graphDijkstra (g : PtrGraph) (fuel : ℕ) (src : NodePtr) (ops : PtrOps σ) :
    Except GraphFault PtrDres := do
  let st ← g.dijkstraLoop ops fuel fuel (g.dijkstraInit src ops)
  return { dist := st.dist, path := st.path, prev := st.prev }

/-! ## Well-formed graphs -/

/-- Each node is listed once, and the edges join nodes of the graph. -/
structure Wf (g : PtrGraph) : Prop where
  nodup : g.nodes.Nodup
  ends : ∀ e ∈ g.edges, e.localNode ∈ g.nodes ∧ e.remoteNode ∈ g.nodes

/-- No two nodes have the same id. -/
def DistinctIds (g : PtrGraph) : Prop := (g.nodes.map NodePtr.id).Nodup

theorem Wf.graphPrune {g : PtrGraph} (hg : g.Wf) (prune : EdgePtr → Bool) :
    (g.graphPrune prune).Wf where
  nodup := hg.nodup
  ends e he := hg.ends e (List.mem_filter.mp he).1

variable {g : PtrGraph} {u v : NodePtr}

/-- The id tells nodes of the graph apart. -/
theorem DistinctIds.inj (hids : g.DistinctIds) (hu : u ∈ g.nodes) (hv : v ∈ g.nodes)
    (heq : u.id = v.id) : u = v :=
  List.inj_on_of_nodup_map hids hu hv heq

/-! ## The tables -/

/-- The edge is a link from `u` to `v`. -/
structure IsLink (g : PtrGraph) (u v : NodePtr) (e : EdgePtr) : Prop where
  mem : e ∈ g.edges
  localNode : e.localNode = u
  remoteNode : e.remoteNode = v
  metric : e.metric < uint32Max

/-- The search loop of `graph_get_minimal_edge` goes over the edges with these ends. -/
def edgesBetween (g : PtrGraph) (u v : NodePtr) : List EdgePtr :=
  g.edges.filter fun e => e.localNode.id == u.id && e.remoteNode.id == v.id

theorem graphGetMinimalEdge_eq (g : PtrGraph) (u v : NodePtr) :
    g.graphGetMinimalEdge u v =
      ((g.edgesBetween u v).foldl (Least.step EdgePtr.metric) (none, uint32Max)).1 := by
  rw [edgesBetween, List.foldl_filter, graphGetMinimalEdge]
  congr 2
  funext res edge
  by_cases h : edge.localNode.id = u.id ∧ edge.remoteNode.id = v.id
  · simp [h, Least.step]
  · rw [if_pos (by rw [← not_and_or]; exact h), if_neg (by simpa using h)]

/-- `graph_get_minimal_edge` finds the first edge of least metric. -/
theorem graphGetMinimalEdge_eq_some_iff {e : EdgePtr} :
    g.graphGetMinimalEdge u v = some e ↔
      Least.IsFirst EdgePtr.metric uint32Max (g.edgesBetween u v) e := by
  rw [graphGetMinimalEdge_eq]
  exact Least.foldl_step_eq_some_iff fun _ _ => UInt32.lt_iff_toNat_lt

theorem mem_edgesBetween {e : EdgePtr} : e ∈ g.edgesBetween u v ↔
    e ∈ g.edges ∧ e.localNode.id = u.id ∧ e.remoteNode.id = v.id := by
  simp [edgesBetween]

/-- It looks at the ids of the nodes only. -/
theorem graphGetMinimalEdge_congr (g : PtrGraph) {n m : NodePtr} (hn : n.id = u.id)
    (hm : m.id = v.id) : g.graphGetMinimalEdge n m = g.graphGetMinimalEdge u v := by
  rw [graphGetMinimalEdge, graphGetMinimalEdge, hn, hm]

theorem get_setMinimalEdge (g : PtrGraph) (n m u v : NodePtr)
    (t : Table (NodeId × NodeId) EdgePtr) :
    (g.setMinimalEdge n t m).get (u.id, v.id) =
      if n != m && n.id == u.id && m.id == v.id then
        (g.graphGetMinimalEdge u v).or (t.get (u.id, v.id))
      else t.get (u.id, v.id) := by
  unfold setMinimalEdge
  by_cases hne : n = m
  · simp [hne]
  · rw [if_neg hne]
    by_cases hkey : n.id = u.id ∧ m.id = v.id
    · rw [g.graphGetMinimalEdge_congr hkey.1 hkey.2, if_pos (by simp [hne, hkey])]
      cases hmin : g.graphGetMinimalEdge u v with
      | none => rfl
      | some e =>
        have he := mem_edgesBetween.mp (graphGetMinimalEdge_eq_some_iff.mp hmin).mem
        simp [he.2.1, he.2.2]
    · rw [if_neg (by simpa [hne] using hkey)]
      cases hmin : g.graphGetMinimalEdge n m with
      | none => rfl
      | some e =>
        have he := mem_edgesBetween.mp (graphGetMinimalEdge_eq_some_iff.mp hmin).mem
        simp [he.2.1, he.2.2, hkey]

/-- **The table of minimal edges** after `graph_finalize`, for two different nodes. -/
theorem graphFinalize_minEdges_get (hu : u ∈ g.nodes) (hv : v ∈ g.nodes) (hne : u ≠ v) :
    g.graphFinalize.minEdges.get (u.id, v.id) = g.graphGetMinimalEdge u v := by
  have hinner := fun t n =>
    Table.get_foldl_or (fun t m => get_setMinimalEdge g n m u v t) g.nodes t
  have houter := Table.get_foldl_or (F := fun t n => g.nodes.foldl (g.setMinimalEdge n) t)
    hinner g.nodes .empty
  refine houter.trans ?_
  rw [if_pos, Table.get_empty, Option.or_none]
  simp only [List.any_eq_true, Bool.and_eq_true, beq_iff_eq, bne_iff_ne]
  exact ⟨u, hu, v, hv, ⟨hne, rfl⟩, rfl⟩

/-- The neighbours depend on the id of the node only. -/
theorem graphComputeNeighbors_congr (g : PtrGraph) (heq : u.id = v.id) :
    g.graphComputeNeighbors u = g.graphComputeNeighbors v := by
  have hadd : addNeighbor u = addNeighbor v := by
    funext neighs edge
    simp only [addNeighbor, heq]
  rw [graphComputeNeighbors, graphComputeNeighbors, hadd]

/-- **The table of neighbours** after `graph_finalize`. -/
theorem graphFinalize_neighs_get (hu : u ∈ g.nodes) :
    g.graphFinalize.neighs.get u.id = some (g.graphComputeNeighbors u) := by
  have hF : ∀ (t : Table NodeId (List NodePtr)) n,
      (t.set n.id (g.graphComputeNeighbors n)).get u.id =
        if n.id == u.id then (some (g.graphComputeNeighbors u)).or (t.get u.id)
        else t.get u.id := by
    intro t n
    by_cases hn : n.id = u.id
    · simp [hn, g.graphComputeNeighbors_congr hn]
    · simp [hn]
  refine (Table.get_foldl_or hF g.nodes .empty).trans (if_pos ?_)
  simp only [List.any_eq_true, beq_iff_eq]
  exact ⟨u, hu, rfl⟩

/-- One round adds the end of a link. -/
theorem mem_addNeighbor {l : List NodePtr} {e : EdgePtr} : v ∈ addNeighbor u l e ↔
    v ∈ l ∨ (e.localNode.id = u.id ∧ e.remoteNode = v ∧ e.metric < uint32Max) := by
  unfold addNeighbor
  split_ifs with hlocal hmetric hmem
  · simp [hlocal]
  · simp [hmetric]
  · refine ⟨.inl, ?_⟩
    rintro (hv | ⟨-, rfl, -⟩)
    · exact hv
    · exact hmem
  · simp [not_not.mp hlocal, lt_uint32Max_iff.mpr hmetric, eq_comm]

theorem mem_graphComputeNeighbors : v ∈ g.graphComputeNeighbors u ↔
    ∃ e ∈ g.edges, e.localNode.id = u.id ∧ e.remoteNode = v ∧ e.metric < uint32Max := by
  have hfold : ∀ (edges : List EdgePtr) (l : List NodePtr), v ∈ edges.foldl (addNeighbor u) l ↔
      v ∈ l ∨ ∃ e ∈ edges, e.localNode.id = u.id ∧ e.remoteNode = v ∧ e.metric < uint32Max := by
    intro edges
    induction edges with
    | nil => simp
    | cons e edges ih =>
      intro l
      rw [List.foldl_cons, ih, mem_addNeighbor, or_assoc]
      simp
  simpa [graphComputeNeighbors] using hfold g.edges []

/-- Another node among the neighbours has a minimal edge. -/
theorem exists_minEdge (hu : u ∈ g.nodes) (hv : v ∈ g.nodes) (hne : u ≠ v)
    (hmem : v ∈ g.graphComputeNeighbors u) :
    ∃ e, g.graphFinalize.minEdges.get (u.id, v.id) = some e := by
  obtain ⟨e, he, hlocal, hremote, hmetric⟩ := mem_graphComputeNeighbors.mp hmem
  rw [graphFinalize_minEdges_get hu hv hne, ← Option.ne_none_iff_exists']
  intro hnone
  rw [graphGetMinimalEdge_eq,
    Least.foldl_step_eq_none_iff fun _ _ => UInt32.lt_iff_toNat_lt] at hnone
  exact hnone e (mem_edgesBetween.mpr ⟨he, hlocal, congrArg NodePtr.id hremote⟩) hmetric

end PtrGraph

/-! ## Ids in the place of pointers -/

/-- The edge as a value, which keeps the pointer. -/
def EdgePtr.value (e : EdgePtr) : Edge EdgePtr :=
  ⟨e.id, e.localNode.id, e.remoteNode.id, e.metric, e⟩

/-- The finalized graph on the ids. -/
def PtrGraph.value (g : PtrGraph) : Graph EdgePtr :=
  graphOf (g.nodes.map NodePtr.id) (g.edges.map EdgePtr.value)

/-- The callbacks of a search over the ids. -/
def PtrOps.value {σ : Type} (ops : PtrOps σ) (init : σ) : DCallbacks EdgePtr σ where
  init _ _ := init
  cost curCost edge state := ops.cost curCost edge.data state
  update edge state := ops.update edge.data state

def PtrState.value {σ : Type} (st : PtrState σ) : DState σ where
  dist := st.dist
  prev := st.prev.map (List.map NodePtr.id)
  path := st.path.map (List.map (List.map NodePtr.id))
  queue := st.queue.map NodePtr.id
  state := st.state

def PtrDres.value (d : PtrDres) : Dres where
  dist := d.dist
  path := d.path.map (List.map (List.map NodePtr.id))
  prev := d.prev.map (List.map NodePtr.id)

namespace PtrGraph

variable {σ : Type} {g : PtrGraph} {u v : NodePtr}

theorem finalized_value (hg : g.Wf) (hids : g.DistinctIds) : Finalized g.value := by
  refine finalized_graphOf hids fun x hx => ?_
  obtain ⟨e, he, rfl⟩ := List.mem_map.mp hx
  exact ⟨List.mem_map_of_mem (hg.ends e he).1, List.mem_map_of_mem (hg.ends e he).2⟩

theorem edgesBetween_value (g : PtrGraph) (u v : NodePtr) :
    Srn.edgesBetween g.value u.id v.id = (g.edgesBetween u v).map EdgePtr.value :=
  List.filter_map.trans rfl

theorem graphGetMinimalEdge_value (g : PtrGraph) (u v : NodePtr) :
    Srn.graphGetMinimalEdge g.value u.id v.id =
      (g.graphGetMinimalEdge u v).map EdgePtr.value := by
  rw [Srn.graphGetMinimalEdge_eq, graphGetMinimalEdge_eq, edgesBetween_value]
  exact congrArg Prod.fst
    (Least.foldl_step_map EdgePtr.value (fun _ => rfl) (g.edgesBetween u v) (none, uint32Max))

/-- The entries of the table of minimal edges. -/
theorem minEdges_get_value (hids : g.DistinctIds) (hu : u ∈ g.nodes) (hv : v ∈ g.nodes)
    (hne : u ≠ v) : g.value.minEdges.get (u.id, v.id) =
      (g.graphFinalize.minEdges.get (u.id, v.id)).map EdgePtr.value := by
  rw [graphFinalize_minEdges_get hu hv hne, ← graphGetMinimalEdge_value]
  refine (Srn.graphFinalize_minEdges_get _ _ _).trans (if_pos ?_)
  exact ⟨List.mem_map_of_mem hu, List.mem_map_of_mem hv, fun heq => hne (hids.inj hu hv heq)⟩

theorem mem_map_id_iff (hids : g.DistinctIds) {l : List NodePtr} (hl : l ⊆ g.nodes)
    (hv : v ∈ g.nodes) : v.id ∈ l.map NodePtr.id ↔ v ∈ l := by
  refine ⟨fun hmem => ?_, List.mem_map_of_mem⟩
  obtain ⟨w, hw, heq⟩ := List.mem_map.mp hmem
  rwa [← hids.inj (hl hw) hv heq]

/-- The neighbours of a node. -/
theorem graphComputeNeighbors_value (hg : g.Wf) (hids : g.DistinctIds) (u : NodePtr) :
    Srn.graphComputeNeighbors g.value u.id = (g.graphComputeNeighbors u).map NodePtr.id := by
  have hfold : ∀ (edges : List EdgePtr) (l : List NodePtr), edges ⊆ g.edges → l ⊆ g.nodes →
      (edges.map EdgePtr.value).foldl (Srn.addNeighbor u.id) (l.map NodePtr.id) =
        (edges.foldl (addNeighbor u) l).map NodePtr.id := by
    intro edges
    induction edges with
    | nil => exact fun _ _ _ => rfl
    | cons e edges ih =>
      intro l hedges hl
      obtain ⟨he, hedges⟩ := List.cons_subset.mp hedges
      have hmem := mem_map_id_iff hids hl (hg.ends e he).2
      rw [List.map_cons, List.foldl_cons, List.foldl_cons, ← ih _ hedges]
      · congr 1
        simp only [addNeighbor, Srn.addNeighbor, EdgePtr.value, hmem]
        split_ifs <;> simp
      · intro w hw
        rcases mem_addNeighbor.mp hw with hw | ⟨-, rfl, -⟩
        · exact hl hw
        · exact (hg.ends e he).2
  exact hfold g.edges [] (List.Subset.refl _) (List.nil_subset _)

/-- The entries of the table of neighbours. -/
theorem neighs_get_value (hg : g.Wf) (hids : g.DistinctIds) (hu : u ∈ g.nodes) :
    g.value.neighs.get u.id =
      (g.graphFinalize.neighs.get u.id).map (List.map NodePtr.id) := by
  rw [graphFinalize_neighs_get hu, Option.map_some, ← graphComputeNeighbors_value hg hids]
  exact (Srn.graphFinalize_neighs_get _ _).trans (if_pos (List.mem_map_of_mem hu))

/-! ## The search on the ids -/

/-- `__compute_paths` follows ids. -/
theorem computePathsFrom_value (prev : Table NodeId (List NodePtr)) (fuel : ℕ)
    (tmp : List NodePtr) (u : NodePtr) :
    Srn.computePathsFrom (prev.map (List.map NodePtr.id)) fuel (tmp.map NodePtr.id) u.id =
      (computePathsFrom prev fuel tmp u).map (List.map (List.map NodePtr.id)) := by
  induction fuel generalizing tmp u with
  | zero => rfl
  | succ fuel ih =>
    have hstep : ∀ p : NodePtr,
        Srn.computePathsFrom (prev.map (List.map NodePtr.id)) fuel (tmp.map NodePtr.id ++ [u.id])
          p.id = (computePathsFrom prev fuel (tmp ++ [u]) p).map
            (List.map (List.map NodePtr.id)) := by
      intro p
      rw [← ih (tmp ++ [u]) p, List.map_append, List.map_singleton]
    rw [Srn.computePathsFrom, computePathsFrom, Table.get_map]
    rcases prev.get u.id with _ | _ | ⟨p, w⟩
    · rfl
    · rfl
    · have hw := Fault.mapM_map_eq (l := p :: w) hstep
      rw [List.map_cons] at hw
      simp only [Option.map_some, List.map_cons, hw]
      cases (p :: w).mapM fun p => computePathsFrom prev fuel (tmp ++ [u]) p with
      | error e => rfl
      | ok ps => simp [Except.map, bind, Except.bind, pure, Except.pure]

/-- The paths lead over the nodes in the table. -/
theorem computePathsFrom_subset {prev : Table NodeId (List NodePtr)} {nodes : List NodePtr}
    (hprev : ∀ k ps, prev.get k = some ps → ps ⊆ nodes) (fuel : ℕ) (tmp : List NodePtr)
    (u : NodePtr) (htmp : tmp ⊆ nodes) (hu : u ∈ nodes) {paths : List (List NodePtr)}
    (hpaths : computePathsFrom prev fuel tmp u = .ok paths) : ∀ r ∈ paths, r ⊆ nodes := by
  induction fuel generalizing tmp u paths with
  | zero => cases hpaths
  | succ fuel ih =>
    rw [computePathsFrom] at hpaths
    rcases hget : prev.get u.id with _ | _ | ⟨p, w⟩
    · simp [hget] at hpaths
    · simp only [hget, Except.ok.injEq] at hpaths
      subst hpaths
      simpa using htmp
    · simp only [hget] at hpaths
      obtain ⟨ps, hmap, hpaths⟩ := Fault.bind_eq_ok_iff.mp hpaths
      obtain rfl := Except.ok.inj hpaths
      intro r hr
      obtain ⟨q, hq, hrq⟩ := List.mem_flatten.mp hr
      obtain ⟨x, hx, hrun⟩ := Fault.exists_of_mapM_eq_ok hmap hq
      have htmp' : tmp ++ [u] ⊆ nodes :=
        List.append_subset.mpr ⟨htmp, List.cons_subset.mpr ⟨hu, List.nil_subset _⟩⟩
      exact ih _ x htmp' (hprev _ _ hget hx) hrun r hrq

/-- All pointers of a state of the search lead to nodes of the graph. -/
structure InGraph (g : PtrGraph) (st : PtrState σ) : Prop where
  nodup : st.queue.Nodup
  queue : st.queue ⊆ g.nodes
  prev : ∀ k ps, st.prev.get k = some ps → ps ⊆ g.nodes
  path : ∀ k paths, st.path.get k = some paths → ∀ r ∈ paths, r ⊆ g.nodes

/-- A step on pointers does what a step on ids does. -/
def Matches (g : PtrGraph) (x : Except GraphFault (PtrState σ)) (y : Except GraphFault (DState σ)) :
    Prop :=
  y = x.map PtrState.value ∧ ∀ st, x = .ok st → g.InGraph st

theorem Matches.error (e : GraphFault) :
    g.Matches (.error e : Except GraphFault (PtrState σ)) (.error e) := ⟨rfl, by simp⟩

theorem Matches.bind {x : Except GraphFault (PtrState σ)} {y : Except GraphFault (DState σ)}
    {f : PtrState σ → Except GraphFault (PtrState σ)} {f' : DState σ → Except GraphFault (DState σ)}
    (hx : g.Matches x y) (hf : ∀ st, x = .ok st → g.InGraph st → g.Matches (f st) (f' st.value)) :
    g.Matches (x >>= f) (y >>= f') := by
  obtain ⟨rfl, hin⟩ := hx
  cases x with
  | error e => exact .error _
  | ok st => exact hf st rfl (hin st rfl)

/-- Only the nodes of the graph are entered into the `prev` lists. -/
theorem InGraph.setPrev {st : PtrState σ} (hin : g.InGraph st) (k : NodeId) {ps : List NodePtr}
    (hps : ps ⊆ g.nodes) (dist : Table NodeId UInt32) (state : σ) :
    g.InGraph { st with prev := st.prev.set k ps, dist, state } := by
  refine ⟨hin.nodup, hin.queue, fun l qs hget => ?_, hin.path⟩
  rw [Table.get_set] at hget
  split_ifs at hget with heq
  · exact Option.some.inj hget ▸ hps
  · exact hin.prev l qs hget

/-- What an offer makes of the entries of a node. -/
theorem offer_cases {ν : Type} (dist : Table NodeId UInt32) (prev : Table NodeId (List ν))
    (v : NodeId) (u : ν) (alt : UInt32) :
    offer dist prev v u alt = .error .nullDereference ∨
      offer dist prev v u alt = .ok (dist.set v alt, prev.set v [u], true) ∨
      (∃ ps, prev.get v = some ps ∧
        offer dist prev v u alt = .ok (dist, prev.set v (ps ++ [u]), false)) ∨
      offer dist prev v u alt = .ok (dist, prev, false) := by
  unfold offer
  cases prev.get v <;> split_ifs <;> simp

/-- It is the same by pointers and by ids. -/
theorem offer_value (dist : Table NodeId UInt32) (prev : Table NodeId (List NodePtr))
    (v : NodeId) (u : NodePtr) (alt : UInt32) :
    offer dist (prev.map (List.map NodePtr.id)) v u.id alt =
      (offer dist prev v u alt).map fun (dist, prev, new) =>
        (dist, prev.map (List.map NodePtr.id), new) := by
  unfold offer
  rw [Table.get_map]
  cases prev.get v <;> split_ifs <;> simp [Except.map]

/-- What one neighbour can lead to. -/
theorem relax_cases (g : PtrGraph) (ops : PtrOps σ) (u v : NodePtr) (st : PtrState σ) :
    (v ∈ st.queue ∧ g.minEdges.get (u.id, v.id) = none ∧
        g.relax ops u st v = .error .assertion) ∨
      g.relax ops u st v = .error .nullDereference ∨
      ∃ dist prev state, g.relax ops u st v = .ok { st with dist, prev, state } := by
  unfold relax
  by_cases hmem : v ∈ st.queue
  · rw [if_neg (not_not.mpr hmem)]
    cases g.minEdges.get (u.id, v.id) with
    | none => exact .inl ⟨hmem, rfl, rfl⟩
    | some e =>
      refine .inr ?_
      obtain hoffer | hoffer | ⟨ps, -, hoffer⟩ | hoffer := offer_cases st.dist st.prev v.id u
        (ops.cost (distOf st.dist u.id) e st.state).1 <;> simp only [hoffer]
      · exact .inl rfl
      all_goals exact .inr ⟨_, _, _, rfl⟩
  · exact .inr (.inr ⟨_, _, _, if_pos hmem⟩)

theorem relax_queue {ops : PtrOps σ} {st st' : PtrState σ} (h : g.relax ops u st v = .ok st') :
    st'.queue = st.queue := by
  rcases g.relax_cases ops u v st with ⟨-, -, herror⟩ | herror | ⟨dist, prev, state, hok⟩
  · cases herror.symm.trans h
  · cases herror.symm.trans h
  · cases hok.symm.trans h
    rfl

/-- **One neighbour.** -/
theorem relax_matches (hids : g.DistinctIds) (ops : PtrOps σ) (init : σ) {st : PtrState σ}
    (hin : g.InGraph st) (hu : u ∈ g.nodes) (hv : v ∈ g.nodes) (hpopped : u ∉ st.queue) :
    g.Matches (g.graphFinalize.relax ops u st v)
      (relaxWith g.value (ops.value init) u.id st.value v.id) := by
  have hu' : [u] ⊆ g.nodes := List.cons_subset.mpr ⟨hu, List.nil_subset _⟩
  have hqueue : v.id ∈ st.value.queue ↔ v ∈ st.queue := mem_map_id_iff hids hin.queue hv
  have hprev : st.value.prev = st.prev.map (List.map NodePtr.id) := rfl
  have hdist : st.value.dist = st.dist := rfl
  unfold relax relaxWith
  by_cases hmem : v ∈ st.queue
  · have hne : u ≠ v := fun heq => hpopped (heq ▸ hmem)
    rw [if_neg (not_not.mpr hmem), if_neg (not_not.mpr (hqueue.mpr hmem)),
      minEdges_get_value hids hu hv hne]
    cases hmin : g.graphFinalize.minEdges.get (u.id, v.id) with
    | none => exact .error _
    | some e =>
      have hcost : (ops.value init).cost (distOf st.dist u.id) e.value st.value.state =
          ops.cost (distOf st.dist u.id) e st.state := rfl
      simp only [Option.map_some, hdist, hprev, hcost, offer_value]
      obtain hoffer | hoffer | ⟨ps, hget, hoffer⟩ | hoffer := offer_cases st.dist st.prev v.id u
        (ops.cost (distOf st.dist u.id) e st.state).1 <;> simp only [hoffer]
      · exact .error _
      · refine ⟨rfl, fun st' hst => ?_⟩
        cases hst
        exact hin.setPrev _ hu' _ _
      · refine ⟨rfl, fun st' hst => ?_⟩
        cases hst
        exact hin.setPrev _ (List.append_subset.mpr ⟨hin.prev _ _ hget, hu'⟩) _ _
      · refine ⟨rfl, fun st' hst => ?_⟩
        cases hst
        exact ⟨hin.nodup, hin.queue, hin.prev, hin.path⟩
  · rw [if_pos hmem, if_pos (mt hqueue.mp hmem)]
    refine ⟨rfl, fun st' hst => ?_⟩
    cases hst
    exact hin

/-- **The loop over the neighbours.** -/
theorem foldlM_relax_matches (hids : g.DistinctIds) (ops : PtrOps σ) (init : σ)
    (hu : u ∈ g.nodes) (ns : List NodePtr) (hns : ns ⊆ g.nodes) (st : PtrState σ)
    (hin : g.InGraph st) (hpopped : u ∉ st.queue) :
    g.Matches (ns.foldlM (g.graphFinalize.relax ops u) st)
      ((ns.map NodePtr.id).foldlM (relaxWith g.value (ops.value init) u.id) st.value) := by
  induction ns generalizing st with
  | nil =>
    refine ⟨rfl, fun st' hst => ?_⟩
    cases hst
    exact hin
  | cons v ns ih =>
    obtain ⟨hv, hns⟩ := List.cons_subset.mp hns
    rw [List.map_cons, List.foldlM_cons, List.foldlM_cons]
    refine (relax_matches hids ops init hin hu hv hpopped).bind fun st' hst' hin' => ?_
    exact ih hns st' hin' (by rwa [relax_queue hst'])

theorem map_id_erase (hids : g.DistinctIds) (hu : u ∈ g.nodes) {l : List NodePtr}
    (hl : l ⊆ g.nodes) : (l.erase u).map NodePtr.id = (l.map NodePtr.id).erase u.id := by
  induction l with
  | nil => rfl
  | cons v l ih =>
    obtain ⟨hv, hl⟩ := List.cons_subset.mp hl
    rw [List.map_cons, List.erase_cons, List.erase_cons]
    by_cases heq : v = u
    · simp [heq]
    · have hid : v.id ≠ u.id := fun hid => heq (hids.inj hv hu hid)
      simp [heq, hid, ih hl]

/-- **One round** of the main loop. -/
theorem dijkstraRound_matches (hg : g.Wf) (hids : g.DistinctIds) (ops : PtrOps σ) (init : σ)
    {st : PtrState σ} (hin : g.InGraph st) (hu : u ∈ st.queue) :
    g.Matches (g.graphFinalize.dijkstraRound ops (g.nodes.length + 1) u st)
      (dijkstraRoundWith g.value (ops.value init) u.id st.value) := by
  have hmem := hin.queue hu
  have hlength : g.value.nodes.length = g.nodes.length := List.length_map ..
  have hpaths := computePathsFrom_value st.prev (g.nodes.length + 1) [] u
  rw [dijkstraRound, dijkstraRoundWith, computePaths, hlength]
  rw [List.map_nil] at hpaths
  rw [show st.value.prev = st.prev.map (List.map NodePtr.id) from rfl, hpaths,
    neighs_get_value hg hids hmem, graphFinalize_neighs_get hmem]
  cases hcompute : computePathsFrom st.prev (g.nodes.length + 1) [] u with
  | error e => exact .error _
  | ok paths =>
    have hin' : g.InGraph
        { st with path := st.path.set u.id paths, queue := st.queue.erase u } := by
      refine ⟨hin.nodup.erase u, fun w hw => hin.queue (List.mem_of_mem_erase hw), hin.prev,
        fun k rs hget => ?_⟩
      rw [Table.get_set] at hget
      split_ifs at hget
      · exact Option.some.inj hget ▸
          computePathsFrom_subset hin.prev _ _ _ (List.nil_subset _) hmem hcompute
      · exact hin.path k rs hget
    have hns : g.graphComputeNeighbors u ⊆ g.nodes := by
      intro w hw
      obtain ⟨e, he, -, rfl, -⟩ := mem_graphComputeNeighbors.mp hw
      exact (hg.ends e he).2
    have hfold := foldlM_relax_matches hids ops init hmem _ hns _ hin' hin.nodup.not_mem_erase
    have hvalue :
        PtrState.value { st with path := st.path.set u.id paths, queue := st.queue.erase u } =
          { st.value with
            path := st.value.path.set u.id (paths.map (List.map NodePtr.id))
            queue := st.value.queue.erase u.id } := by
      simp [PtrState.value, map_id_erase hids hmem hin.queue]
    rw [hvalue] at hfold
    exact hfold

theorem leastNode_value (dist : Table NodeId UInt32) (queue : List NodePtr) :
    Srn.leastNode dist (queue.map NodePtr.id) = (leastNode dist queue).map NodePtr.id :=
  congrArg Prod.fst (Least.foldl_step_map NodePtr.id (fun _ => rfl) queue (none, uint32Max))

theorem mem_of_leastNode {dist : Table NodeId UInt32} {queue : List NodePtr}
    (h : leastNode dist queue = some u) : u ∈ queue := by
  have hfirst : Least.IsFirst (fun v : NodePtr => distOf dist v.id) uint32Max queue u :=
    (Least.foldl_step_eq_some_iff fun _ _ => UInt32.lt_iff_toNat_lt).mp h
  exact hfirst.mem

/-- **The main loop.** -/
theorem dijkstraLoop_matches (hg : g.Wf) (hids : g.DistinctIds) (ops : PtrOps σ) (init : σ)
    (rounds : ℕ) (st : PtrState σ) (hin : g.InGraph st) :
    g.Matches (g.graphFinalize.dijkstraLoop ops (g.nodes.length + 1) rounds st)
      (dijkstraLoopWith g.value (ops.value init) rounds st.value) := by
  induction rounds generalizing st with
  | zero => exact .error _
  | succ rounds ih =>
    rw [dijkstraLoop, dijkstraLoopWith,
      show Srn.leastNode st.value.dist st.value.queue = _ from leastNode_value st.dist st.queue]
    cases hleast : leastNode st.dist st.queue with
    | none =>
      refine ⟨rfl, fun st' hst => ?_⟩
      cases hst
      exact hin
    | some u =>
      refine (dijkstraRound_matches hg hids ops init hin (mem_of_leastNode hleast)).bind ?_
      exact fun st' _ hin' => ih st' hin'

/-- Tables that start with empty lists. -/
theorem get_foldl_nil {α : Type} (nodes : List NodePtr) (t : Table NodeId (List α))
    (ht : ∀ k l, t.get k = some l → l = []) (k : NodeId) (l : List α)
    (hget : (nodes.foldl (fun t n => t.set n.id []) t).get k = some l) : l = [] := by
  induction nodes generalizing t with
  | nil => exact ht k l hget
  | cons n nodes ih =>
    refine ih _ (fun k' l' hget' => ?_) hget
    rw [Table.get_set] at hget'
    split_ifs at hget'
    · exact (Option.some.inj hget').symm
    · exact ht k' l' hget'

theorem inGraph_dijkstraInit (hg : g.Wf) (src : NodePtr) (ops : PtrOps σ) :
    g.InGraph (g.graphFinalize.dijkstraInit src ops) where
  nodup := hg.nodup
  queue := List.Subset.refl _
  prev k ps hget := by simp [get_foldl_nil g.nodes .empty (by simp) k ps hget]
  path k paths hget := by simp [get_foldl_nil g.nodes .empty (by simp) k paths hget]

/-- The lists on the ids start empty, too. -/
theorem map_foldl_nil {α β : Type} (f : α → β) (nodes : List NodePtr) :
    (nodes.map NodePtr.id).foldl (fun t k => t.set k []) .empty =
      Table.map (List.map f)
        (nodes.foldl (fun t n => t.set n.id []) (.empty : Table NodeId (List α))) := by
  rw [List.foldl_map, ← List.foldl_hom (Table.map (List.map f))]
  · rfl
  · exact fun t n => (Table.map_set (List.map f) t n.id []).symm

theorem dijkstraInit_value (g : PtrGraph) (src : NodePtr) (ops : PtrOps σ) :
    dijkstraInitWith g.value src.id (ops.value (ops.init g.graphFinalize src)) =
      (g.graphFinalize.dijkstraInit src ops).value := by
  simp only [dijkstraInitWith, Srn.dijkstraInit, dijkstraInit, PtrState.value, PtrOps.value,
    DState.mk.injEq, and_true]
  exact ⟨List.foldl_map, map_foldl_nil _ g.nodes, map_foldl_nil _ g.nodes, rfl⟩

/-- **Simulation.**  Where ids are distinct, a search on pointers is the search on the ids. -/
theorem graphDijkstra_value (hg : g.Wf) (hids : g.DistinctIds) (src : NodePtr) (ops : PtrOps σ) :
    graphDijkstraWith g.value src.id (ops.value (ops.init g.graphFinalize src)) =
      (g.graphFinalize.graphDijkstra (g.nodes.length + 1) src ops).map PtrDres.value ∧
    ∀ d, g.graphFinalize.graphDijkstra (g.nodes.length + 1) src ops = .ok d →
      ∀ k paths, d.path.get k = some paths → ∀ r ∈ paths, r ⊆ g.nodes := by
  obtain ⟨hvalue, hin⟩ := dijkstraLoop_matches hg hids ops (ops.init g.graphFinalize src)
    (g.nodes.length + 1) _ (inGraph_dijkstraInit hg src ops)
  have hlength : g.value.nodes.length = g.nodes.length := List.length_map ..
  rw [graphDijkstraWith, graphDijkstra, hlength, dijkstraInit_value, hvalue]
  cases hloop : g.graphFinalize.dijkstraLoop ops (g.nodes.length + 1) (g.nodes.length + 1)
      (g.graphFinalize.dijkstraInit src ops) with
  | error e => exact ⟨rfl, by simp [bind, Except.bind]⟩
  | ok st =>
    refine ⟨rfl, fun d hd => ?_⟩
    cases hd
    exact (hin st hloop).path

/-! ## Simple paths -/

/-- There is a link from one node to the other. -/
def Joined (g : PtrGraph) (u v : NodePtr) : Prop := ∃ e, g.IsLink u v e

theorem joined_of_linked (hg : g.Wf) (hids : g.DistinctIds) (hu : u ∈ g.nodes) (hv : v ∈ g.nodes)
    (h : Linked g.value u.id v.id) : g.Joined u v := by
  obtain ⟨x, hmem, hlocal, hremote, hmetric⟩ := h
  obtain ⟨e, he, rfl⟩ := List.mem_map.mp hmem
  exact ⟨e, he, hids.inj (hg.ends e he).1 hu hlocal, hids.inj (hg.ends e he).2 hv hremote, hmetric⟩

/-- A simple path of the ids is one of the nodes. -/
theorem simplePath_of_value (hg : g.Wf) (hids : g.DistinctIds) {src : NodePtr}
    {nodes : List NodePtr} (hnodes : src :: nodes ⊆ g.nodes) (hv : v ∈ g.nodes)
    (h : SimplePath (Linked g.value) src.id v.id ((src :: nodes).map NodePtr.id)) :
    SimplePath g.Joined src v (src :: nodes) where
  first := rfl
  last := by
    have hlast := h.last
    rw [List.getLast?_map, Option.map_eq_some_iff] at hlast
    obtain ⟨w, hw, heq⟩ := hlast
    rw [hw, hids.inj (hnodes (List.mem_of_getLast? hw)) hv heq]
  linked := by
    have hchain := (List.isChain_map NodePtr.id).mp h.linked
    exact hchain.imp_of_mem_imp fun a b ha hb hlinked =>
      joined_of_linked hg hids (hnodes ha) (hnodes hb) hlinked
  nodup := h.nodup.of_map

/-- **Main theorem.**  Whatever the callbacks return, `graph_dijkstra` ends on a graph with
distinct ids after `graph_finalize`, and each list that it records for a node is, reversed and with
the source in front of it, a simple path to this node. -/
theorem graph_dijkstra_simple_paths (hg : g.Wf) (hids : g.DistinctIds) {src : NodePtr}
    (hsrc : src ∈ g.nodes) (ops : PtrOps σ) :
    ∃ d, g.graphFinalize.graphDijkstra (g.nodes.length + 1) src ops = .ok d ∧
      ∀ v ∈ g.nodes, ∃ paths, d.path.get v.id = some paths ∧
        ∀ r ∈ paths, SimplePath g.Joined src v (src :: r.reverse) := by
  obtain ⟨hvalue, hin⟩ := graphDijkstra_value hg hids src ops
  obtain ⟨d', hd', hpaths⟩ := graphDijkstraWith_path (finalized_value hg hids)
    (ops.value (ops.init g.graphFinalize src)) src.id
  rw [hvalue] at hd'
  cases hd : g.graphFinalize.graphDijkstra (g.nodes.length + 1) src ops with
  | error e =>
    rw [hd] at hd'
    cases hd'
  | ok d =>
    rw [hd] at hd'
    obtain rfl := Except.ok.inj hd'
    refine ⟨d, rfl, fun v hv => ?_⟩
    obtain ⟨ids, hget, hsimple⟩ := hpaths v.id (List.mem_map_of_mem hv)
    rw [show d.value.path.get v.id = _ from Table.get_map .., Option.map_eq_some_iff] at hget
    obtain ⟨paths, hget, rfl⟩ := hget
    refine ⟨paths, hget, fun r hr => ?_⟩
    have hsub : src :: r.reverse ⊆ g.nodes := by
      refine List.cons_subset.mpr ⟨hsrc, fun w hw => ?_⟩
      exact hin d hd _ _ hget r hr (List.mem_reverse.mp hw)
    refine simplePath_of_value hg hids hsub hv ?_
    rw [List.map_cons, List.map_reverse]
    exact hsimple _ (List.mem_map_of_mem hr)

/-- Callbacks whose cost is the number of calls so far. -/
def countingOps : PtrOps UInt32 where
  init _ _ := 0
  cost _ _ calls := (calls, calls + 1)
  update _ calls := calls

/-- Three nodes in a circle. -/
def circle : PtrGraph :=
  ⟨[⟨0, 1⟩, ⟨1, 2⟩, ⟨2, 3⟩],
    [⟨0, ⟨0, 1⟩, ⟨1, 2⟩, 1, 7⟩, ⟨1, ⟨1, 2⟩, ⟨2, 3⟩, 2, 0⟩, ⟨2, ⟨2, 3⟩, ⟨0, 1⟩, 3, 0xfffffffe⟩],
    .empty, .empty⟩

theorem graph_dijkstra_simple_paths_circle :
    circle.Wf ∧ circle.DistinctIds ∧
      ∃ d, circle.graphFinalize.graphDijkstra 4 ⟨0, 1⟩ countingOps = .ok d ∧
        ∀ v ∈ circle.nodes, ∃ paths, d.path.get v.id = some paths ∧
          ∀ r ∈ paths, SimplePath circle.Joined ⟨0, 1⟩ v (⟨0, 1⟩ :: r.reverse) := by
  have hg : circle.Wf := ⟨by decide, by decide⟩
  have hids : circle.DistinctIds := by
    unfold DistinctIds
    decide
  exact ⟨hg, hids, graph_dijkstra_simple_paths hg hids (by decide) countingOps⟩

end PtrGraph

/-! ## Two nodes with one id -/

/-- What a pointer to a node leads to. -/
def Heap.nodePtr? (h : Heap) (p : Ptr) : Option NodePtr := h.nodes[p]?.map fun n => ⟨p, n.id⟩

/-- What a pointer to an edge leads to. -/
def Heap.edgePtr? (h : Heap) (p : Ptr) : Option EdgePtr := do
  let e ← h.edges[p]?
  let localNode ← h.nodePtr? e.localNode
  let remoteNode ← h.nodePtr? e.remoteNode
  return ⟨p, localNode, remoteNode, e.id, e.metric⟩

/-- The pointers of a graph object, before `graph_finalize`. -/
def graphPtrs (h : Heap) (g : GraphObj) : Option PtrGraph := do
  let nodes ← g.nodes.mapM h.nodePtr?
  let edges ← g.edges.mapM h.edgePtr?
  return ⟨nodes, edges, .empty, .empty⟩

/-- `graph_clone`: the clone counts its nodes and edges from one again. -/
def GraphObj.graphClone (g : GraphObj) : GraphObj :=
  { graphNew with nodes := g.nodes, edges := g.edges }

namespace PtrGraph

/-- The recursion of `__compute_paths` does not end where each list leads to another one. -/
theorem computePathsFrom_outOfFuel {prev : Table NodeId (List NodePtr)} {s : List NodePtr}
    (hs : ∀ u ∈ s, ∃ p w, prev.get u.id = some (p :: w) ∧ p ∈ s) (fuel : ℕ) (tmp : List NodePtr)
    (u : NodePtr) (hu : u ∈ s) : computePathsFrom prev fuel tmp u = .error .outOfFuel := by
  induction fuel generalizing tmp u with
  | zero => rfl
  | succ fuel ih =>
    obtain ⟨p, w, hget, hp⟩ := hs u hu
    rw [computePathsFrom, hget]
    simp only [List.mapM_cons, ih (tmp ++ [u]) p hp]
    rfl

/-- Two nodes and, in a clone of their graph, a third one, which gets the id of the first. -/
def sharedId : PtrGraph :=
  ⟨[⟨0, 1⟩, ⟨1, 2⟩, ⟨2, 1⟩], [⟨0, ⟨0, 1⟩, ⟨1, 2⟩, 1, 5⟩, ⟨1, ⟨1, 2⟩, ⟨2, 1⟩, 2, 5⟩], .empty, .empty⟩

/-- The calls that build it. -/
def buildSharedId : Option PtrGraph := do
  let (h, g, a) ← graphAddNode ⟨[], [], []⟩ graphNew "A" true
  let (h, g, x) ← graphAddNode h g "X" true
  let (h, g, b) ← graphAddNode h g.graphClone "B" true
  let (h, g) := graphAddEdge h g a x 5 ⟨0, 0, 0, 0, 0⟩ true
  let (h, g) := graphAddEdge h g x b 5 ⟨0, 0, 0, 0, 0⟩ true
  graphPtrs h g

/-- Callbacks that charge nothing. -/
def freeOps : PtrOps Unit where
  init _ _ := ()
  cost _ _ _ := (0, ())
  update _ _ := ()

/-- The state of the search over this graph when it comes to the third node.  The `prev` list of the
first node, which has the same id, was changed after that node had been taken from the queue. -/
def sharedIdState : PtrState Unit where
  dist := ⟨[(1, 0), (2, 0)]⟩
  prev := ⟨[(1, [⟨1, 2⟩]), (2, [⟨0, 1⟩])]⟩
  path := ⟨[(1, [[]]), (2, [[⟨1, 2⟩]])]⟩
  queue := [⟨2, 1⟩]
  state := ()

/-- Without distinct ids a search need not end. -/
theorem graph_dijkstra_diverges :
    buildSharedId = some sharedId ∧ sharedId.Wf ∧
      ∀ fuel, sharedId.graphFinalize.graphDijkstra fuel ⟨0, 1⟩ freeOps = .error .outOfFuel := by
  refine ⟨by decide, ⟨by decide, by decide⟩, fun fuel => ?_⟩
  match fuel with
  | 0 => rfl
  | 1 => rfl
  | 2 => rfl
  | fuel + 3 =>
    have hrounds : sharedId.graphFinalize.dijkstraLoop freeOps (fuel + 3) (fuel + 3)
        (sharedId.graphFinalize.dijkstraInit ⟨0, 1⟩ freeOps) =
          sharedId.graphFinalize.dijkstraLoop freeOps (fuel + 3) (fuel + 1) sharedIdState := rfl
    have hleast : leastNode sharedIdState.dist sharedIdState.queue = some ⟨2, 1⟩ := rfl
    have hcircle : computePathsFrom sharedIdState.prev (fuel + 3) [] ⟨2, 1⟩ =
        .error .outOfFuel :=
      computePathsFrom_outOfFuel (s := sharedId.nodes)
        (by simp [sharedId, sharedIdState, Table.get, OMap.get]) _ _ _ (by decide)
    rw [graphDijkstra, hrounds, dijkstraLoop, hleast]
    simp only [dijkstraRound, hcircle]
    rfl

end PtrGraph

end Srn
