import Srn.Graph.Objects
import Srn.NetState.Sync

/-!
# Srn.Graph.Built

The graphs that calls of `sr-ctrl/graph.c` build: nodes and edges added and removed, deep copies,
and at last a clone with some of its edges pruned.

`graph_finalize` computes two tables for such a graph with different loops.  They agree as long as
no two nodes have the same id, which is so until the counter of the nodes has come round
(`finalize_tables_agree`).  The assertion of `graph_dijkstra` does not depend on this: a node that
is compared by address with the entries of the queue is another one than the node just taken from
it.
-/

namespace Srn

/-! ## Removing nodes -/

/-- `node_equals` of `struct graph_ops`, which holds for a node and itself. -/
structure NodeEquals where
  equals : NodeObj → NodeObj → Bool
  refl : ∀ n, equals n n

/-- `rt_node_equals`: the names of the routers are equal, ignoring case. -/
def rtNodeEquals : NodeEquals where
  equals n1 n2 := n1.data.toLower = n2.data.toLower
  refl n := by simp

/-- The body of the loop of `graph_remove_node`. -/
def removeIfEnd (ops : NodeEquals) (h : Heap) (node : NodeObj) (g : GraphObj) (edge : Ptr) :
    Except NetFault GraphObj :=
  match h.edges[edge]? with
  | none => .error .nullDereference
  | some e =>
    match h.nodes[e.localNode]?, h.nodes[e.remoteNode]? with
    | some localNode, some remoteNode =>
      if ops.equals localNode node || ops.equals remoteNode node then
        .ok (graphRemoveEdge g edge)
      else .ok g
    | _, _ => .error .nullDereference

/-- `graph_remove_node`.  The loop fetches the next entry of the list before it removes one, so it
visits the edges that are there when it starts. -/
def graphRemoveNode (ops : NodeEquals) (h : Heap) (g : GraphObj) (node : Ptr) :
    Except NetFault GraphObj :=
  if node ∉ g.nodes then .ok g
  else match h.nodes[node]? with
    | none => .error .nullDereference
    | some n => do
      let g ← g.edges.foldlM (removeIfEnd ops h n) g
      return { g with nodes := g.nodes.erase node, dirty := true }

/-! ## Building graphs -/

/-- A call that builds a graph.  With `sym`, `graph_add_edge` adds two edges. -/
inductive GraphEvent where
  | addNode (data : String) (mem : Bool)
  | addEdge (localNode remoteNode : Ptr) (metric : UInt32) (link : Link) (mem : Bool)
  | removeEdge (edge : Ptr)
  | removeNode (node : Ptr)
  | deepcopy

/-- A graph, the heap that it is in, and how many nodes were added to it and to the graphs that it
was copied from. -/
structure GraphState where
  heap : Heap
  graph : GraphObj
  added : ℕ
  deriving DecidableEq, Repr

/-- After `graph_new`. -/
def graphStart : GraphState := ⟨⟨[], [], []⟩, graphNew, 0⟩

/-- One call; an edge joins nodes of the graph. -/
def graphStep (ops : NodeEquals) (s : GraphState) : GraphEvent → Option GraphState
  | .addNode data mem =>
    match graphAddNode s.heap s.graph data mem with
    | none => some s
    | some (heap, graph, _) => some ⟨heap, graph, s.added + 1⟩
  | .addEdge localNode remoteNode metric link mem =>
    if localNode ∈ s.graph.nodes ∧ remoteNode ∈ s.graph.nodes then
      match graphAddEdge s.heap s.graph localNode remoteNode metric link mem with
      | (heap, graph) => some { s with heap, graph }
    else none
  | .removeEdge edge => some { s with graph := graphRemoveEdge s.graph edge }
  | .removeNode node =>
    match graphRemoveNode ops s.heap s.graph node with
    | .error _ => none
    | .ok graph => some { s with graph }
  | .deepcopy =>
    match graphDeepcopy s.heap s.graph with
    | .error _ => none
    | .ok (heap, graph) => some { s with heap, graph }

/-- A sequence of calls after `graph_new`. -/
def graphRun (ops : NodeEquals) (events : List GraphEvent) : Option GraphState :=
  Transition.run (graphStep ops) graphStart events

/-! ## The invariant -/

/-- The ids behind the pointers to the nodes. -/
def nodeIds (h : Heap) (g : GraphObj) : List (Option NodeId) :=
  g.nodes.map fun p => h.nodes[p]?.map NodeObj.id

/-- What holds of a graph that was built. -/
structure WellBuilt (s : GraphState) : Prop where
  separated : Separated s.heap s.graph graphNew
  nodup : s.graph.nodes.Nodup
  lastNode : s.graph.lastNode = UInt32.ofNat s.added
  given : ∀ i ∈ nodeIds s.heap s.graph, ∃ k, 0 < k ∧ k ≤ s.added ∧ i = some (UInt32.ofNat k)
  distinct : s.added ≤ UInt32.size → (nodeIds s.heap s.graph).Nodup

theorem wellBuilt_graphStart : WellBuilt graphStart where
  separated := ⟨⟨by simp [graphStart, graphNew], by simp [graphStart, graphNew]⟩,
    ⟨by simp [graphNew], by simp [graphNew]⟩, by simp [graphStart, graphNew]⟩
  nodup := List.nodup_nil
  lastNode := rfl
  given := by simp [graphStart, graphNew, nodeIds]
  distinct _ := List.nodup_nil

/-- A number that has not been given, before the counter comes round. -/
theorem ofNat_succ_ne {n k : ℕ} (hn : n + 1 ≤ UInt32.size) (hpos : 0 < k) (hk : k ≤ n) :
    UInt32.ofNat (n + 1) ≠ UInt32.ofNat k := by
  intro heq
  have hmod : (n + 1) % UInt32.size = k % UInt32.size := congrArg UInt32.toNat heq
  rw [Nat.mod_eq_of_lt (show k < UInt32.size by omega)] at hmod
  obtain hlt | hsize := Nat.lt_or_eq_of_le hn
  · rw [Nat.mod_eq_of_lt hlt] at hmod
    omega
  · rw [hsize, Nat.mod_self] at hmod
    omega

variable {s : GraphState}

/-- The same ids in a graph that keeps some of its nodes. -/
theorem WellBuilt.of_nodeIds (hs : WellBuilt s) {heap : Heap} {graph : GraphObj}
    (hsep : Separated heap graph graphNew) (hnodup : graph.nodes.Nodup)
    (hlast : graph.lastNode = s.graph.lastNode)
    (hids : (nodeIds heap graph).Sublist (nodeIds s.heap s.graph)) :
    WellBuilt ⟨heap, graph, s.added⟩ where
  separated := hsep
  nodup := hnodup
  lastNode := hlast.trans hs.lastNode
  given i hi := hs.given i (hids.subset hi)
  distinct hle := (hs.distinct hle).sublist hids

theorem Grows.nodeIds {h h' : Heap} {g : GraphObj} (hgrow : Grows h h') (hg : GraphWf h g) :
    nodeIds h' g = nodeIds h g := by
  refine List.map_congr_left fun p hp => ?_
  obtain ⟨n, hn⟩ := hg.nodes p hp
  rw [hn, hgrow.nodes p n hn]

theorem WellBuilt.addNode (hs : WellBuilt s) {data : String} {mem : Bool} {heap : Heap}
    {graph : GraphObj} {p : Ptr}
    (hadd : graphAddNode s.heap s.graph data mem = some (heap, graph, p)) :
    WellBuilt ⟨heap, graph, s.added + 1⟩ := by
  obtain ⟨hsep, hgrow, -, hnodes, -⟩ := hs.separated.graphAddNode hadd
  rw [graphAddNode] at hadd
  split_ifs at hadd
  simp only [Option.some.injEq, Prod.mk.injEq] at hadd
  obtain ⟨rfl, rfl, rfl⟩ := hadd
  have hids : nodeIds { s.heap with nodes := s.heap.nodes ++ [⟨s.graph.lastNode + 1, data⟩] }
      { s.graph with
        lastNode := s.graph.lastNode + 1
        nodes := s.graph.nodes ++ [s.heap.nodes.length]
        dirty := true } =
      nodeIds s.heap s.graph ++ [some (UInt32.ofNat (s.added + 1))] := by
    rw [← hgrow.nodeIds hs.separated.left, nodeIds, nodeIds, List.map_append, List.map_singleton,
      List.getElem?_concat_length, Option.map_some, hs.lastNode, UInt32.ofNat_add]
    rfl
  refine ⟨hsep, ?_, ?_, fun i hi => ?_, fun hle => ?_⟩
  · refine List.nodup_append.mpr ⟨hs.nodup, List.nodup_singleton _, fun q hq r hr => ?_⟩
    obtain ⟨n, hn⟩ := hs.separated.left.nodes q hq
    rw [List.mem_singleton.mp hr]
    exact Nat.ne_of_lt (List.getElem?_eq_some_iff.mp hn).1
  · rw [UInt32.ofNat_add, ← hs.lastNode]
    rfl
  · rw [hids, List.mem_append, List.mem_singleton] at hi
    rcases hi with hi | rfl
    · obtain ⟨k, hpos, hk, rfl⟩ := hs.given i hi
      exact ⟨k, hpos, Nat.le_succ_of_le hk, rfl⟩
    · exact ⟨s.added + 1, Nat.succ_pos _, Nat.le_refl _, rfl⟩
  · rw [hids, List.nodup_append]
    refine ⟨hs.distinct (Nat.le_of_succ_le hle), List.nodup_singleton _, fun i hi j hj heq => ?_⟩
    obtain ⟨k, hpos, hk, rfl⟩ := hs.given i hi
    rw [List.mem_singleton.mp hj, Option.some.injEq] at heq
    exact ofNat_succ_ne hle hpos hk heq.symm

theorem graphRemoveEdge_spec (g : GraphObj) (edge : Ptr) :
    (graphRemoveEdge g edge).nodes = g.nodes ∧ (graphRemoveEdge g edge).lastNode = g.lastNode ∧
      (graphRemoveEdge g edge).edges = g.edges.erase edge := by
  rw [graphRemoveEdge]
  split_ifs with hmem
  · exact ⟨rfl, rfl, rfl⟩
  · exact ⟨rfl, rfl, (List.erase_of_not_mem hmem).symm⟩

/-- One round of the loop of `graph_remove_node`. -/
theorem removeIfEnd_spec (ops : NodeEquals) {h : Heap} {g : GraphObj} (hg : GraphWf h g)
    (g' : GraphObj) {node edge : Ptr} {n : NodeObj} (hn : h.nodes[node]? = some n)
    (hedge : edge ∈ g.edges) :
    removeIfEnd ops h n g' edge = .ok (graphRemoveEdge g' edge) ∨
      (removeIfEnd ops h n g' edge = .ok g' ∧
        ∀ e, h.edges[edge]? = some e → e.localNode ≠ node ∧ e.remoteNode ≠ node) := by
  obtain ⟨e, a, b, -, he, -, -, ha, hb, -, -⟩ := hg.edge? hedge
  rw [removeIfEnd, he]
  simp only [ha, hb]
  split_ifs with hends
  · exact .inl rfl
  · refine .inr ⟨rfl, fun e' he' => ?_⟩
    cases he'
    simp only [Bool.or_eq_true, not_or] at hends
    constructor
    · intro heq
      rw [heq, hn, Option.some.injEq] at ha
      exact hends.1 (ha ▸ ops.refl n)
    · intro heq
      rw [heq, hn, Option.some.injEq] at hb
      exact hends.2 (hb ▸ ops.refl n)

/-- The loop of `graph_remove_node`: no edge that it has visited ends at the node any more. -/
theorem foldlM_removeIfEnd (ops : NodeEquals) {h : Heap} {g : GraphObj} (hg : GraphWf h g)
    {node : Ptr} {n : NodeObj} (hn : h.nodes[node]? = some n) (edges : List Ptr)
    (hedges : edges ⊆ g.edges) (g₁ : GraphObj) (hnodup : g₁.edges.Nodup) :
    ∃ g₂, edges.foldlM (removeIfEnd ops h n) g₁ = .ok g₂ ∧ g₂.nodes = g₁.nodes ∧
      g₂.lastNode = g₁.lastNode ∧ g₂.edges.Sublist g₁.edges ∧
      ∀ edge ∈ edges, edge ∈ g₂.edges →
        ∀ e, h.edges[edge]? = some e → e.localNode ≠ node ∧ e.remoteNode ≠ node := by
  induction edges generalizing g₁ with
  | nil => exact ⟨g₁, rfl, rfl, rfl, .refl _, by simp⟩
  | cons edge edges ih =>
    obtain ⟨hedge, hedges⟩ := List.cons_subset.mp hedges
    rcases removeIfEnd_spec ops hg g₁ hn hedge with hround | ⟨hround, hends⟩
    · obtain ⟨hnodes, hlast, hremoved⟩ := graphRemoveEdge_spec g₁ edge
      have hsub : (graphRemoveEdge g₁ edge).edges.Sublist g₁.edges :=
        hremoved ▸ List.erase_sublist
      have hgone : edge ∉ (graphRemoveEdge g₁ edge).edges := hremoved ▸ hnodup.not_mem_erase
      obtain ⟨g₂, hfold, hnodes₂, hlast₂, hsub₂, hrest⟩ := ih hedges _ (hnodup.sublist hsub)
      refine ⟨g₂, ?_, hnodes₂.trans hnodes, hlast₂.trans hlast, hsub₂.trans hsub, ?_⟩
      · rw [List.foldlM_cons, hround]
        exact hfold
      · refine List.forall_mem_cons.mpr ⟨fun hmem => ?_, hrest⟩
        exact absurd (hsub₂.subset hmem) hgone
    · obtain ⟨g₂, hfold, hnodes₂, hlast₂, hsub₂, hrest⟩ := ih hedges g₁ hnodup
      refine ⟨g₂, ?_, hnodes₂, hlast₂, hsub₂, List.forall_mem_cons.mpr ⟨fun _ => hends, hrest⟩⟩
      rw [List.foldlM_cons, hround]
      exact hfold

/-- `graph_remove_node` does not go wrong and leaves no edge at the node. -/
theorem graphRemoveNode_spec (ops : NodeEquals) {h : Heap} {g : GraphObj}
    (hsep : Separated h g graphNew) {node : Ptr} (hnode : node ∈ g.nodes) :
    ∃ g', graphRemoveNode ops h g node = .ok g' ∧ g'.nodes = g.nodes.erase node ∧
      g'.lastNode = g.lastNode ∧ g'.edges.Sublist g.edges ∧
      ∀ edge ∈ g'.edges, ∀ e, h.edges[edge]? = some e →
        e.localNode ≠ node ∧ e.remoteNode ≠ node := by
  obtain ⟨n, hn⟩ := hsep.left.nodes node hnode
  obtain ⟨g₂, hfold, hnodes, hlast, hsub, hends⟩ :=
    foldlM_removeIfEnd ops hsep.left hn g.edges (List.Subset.refl _) g hsep.nodup
  refine ⟨{ g₂ with nodes := g₂.nodes.erase node, dirty := true }, ?_, by rw [hnodes], hlast, hsub,
    fun edge hedge => ?_⟩
  · rw [graphRemoveNode, if_neg (not_not.mpr hnode), hn]
    simp only [hfold]
    rfl
  · exact hends edge (hsub.subset hedge) hedge

theorem WellBuilt.removeNode (ops : NodeEquals) (hs : WellBuilt s) {node : Ptr} {graph : GraphObj}
    (hremove : graphRemoveNode ops s.heap s.graph node = .ok graph) :
    WellBuilt { s with graph } := by
  by_cases hnode : node ∈ s.graph.nodes
  · obtain ⟨g', hok, hnodes, hlast, hsub, hends⟩ := graphRemoveNode_spec ops hs.separated hnode
    cases hremove.symm.trans hok
    refine hs.of_nodeIds ⟨⟨fun p hp => ?_, fun p hp => ?_⟩, hs.separated.right, ?_⟩ ?_ hlast ?_
    · rw [hnodes] at hp
      exact hs.separated.left.nodes p (List.mem_of_mem_erase hp)
    · obtain ⟨e, l, he, hlocal, hremote, hl⟩ := hs.separated.left.edges p (hsub.subset hp)
      obtain ⟨hneLocal, hneRemote⟩ := hends p hp e he
      rw [hnodes]
      exact ⟨e, l, he, (List.mem_erase_of_ne hneLocal).mpr hlocal,
        (List.mem_erase_of_ne hneRemote).mpr hremote, hl⟩
    · exact hs.separated.links.sublist ((hsub.append_right _).map _)
    · rw [hnodes]
      exact hs.nodup.erase node
    · rw [nodeIds, hnodes]
      exact List.erase_sublist.map _
  · rw [graphRemoveNode, if_pos hnode] at hremove
    cases hremove
    exact hs

theorem WellBuilt.addEdge (hs : WellBuilt s) {localNode remoteNode : Ptr} {metric : UInt32}
    {link : Link} {mem : Bool} {heap : Heap} {graph : GraphObj}
    (hlocal : localNode ∈ s.graph.nodes) (hremote : remoteNode ∈ s.graph.nodes)
    (hadd : graphAddEdge s.heap s.graph localNode remoteNode metric link mem = (heap, graph)) :
    WellBuilt { s with heap, graph } := by
  obtain ⟨hsep, hgrow, hnodes, -⟩ := hs.separated.graphAddEdge hlocal hremote hadd
  have hlast := lastNode_graphAddEdge s.heap s.graph localNode remoteNode metric link mem
  rw [hadd] at hlast
  refine hs.of_nodeIds hsep (hnodes ▸ hs.nodup) hlast ?_
  rw [← hgrow.nodeIds hs.separated.left, nodeIds, nodeIds, hnodes]

theorem WellBuilt.removeEdge (hs : WellBuilt s) (edge : Ptr) :
    WellBuilt { s with graph := graphRemoveEdge s.graph edge } := by
  obtain ⟨hnodes, hlast, hremoved⟩ := graphRemoveEdge_spec s.graph edge
  have hsub : (graphRemoveEdge s.graph edge).edges.Sublist s.graph.edges :=
    hremoved ▸ List.erase_sublist
  refine hs.of_nodeIds (hs.separated.of_sublist hnodes hsub) (hnodes ▸ hs.nodup) hlast ?_
  rw [nodeIds, hnodes]
  exact .refl _

theorem WellBuilt.deepcopy (hs : WellBuilt s) {heap : Heap} {graph : GraphObj}
    (hcopy : graphDeepcopy s.heap s.graph = .ok (heap, graph)) :
    WellBuilt { s with heap, graph } := by
  obtain ⟨heap', graph', hok, hgrow, hsep, hview, -, hnodup, hlast⟩ :=
    graphDeepcopy_spec hs.separated.left hs.separated.nodup_links
  cases hcopy.symm.trans hok
  refine hs.of_nodeIds ⟨hsep.right, hgrow.graphWf hs.separated.right, ?_⟩ hnodup hlast ?_
  · have hlinks := hsep.links
    rw [List.map_append, List.nodup_append] at hlinks
    simpa [graphNew] using hlinks.2.1
  · have hids := congrArg (fun v => v.1.map (Option.map NodeObj.id)) hview
    simp only [view, List.map_map] at hids
    exact (show nodeIds heap graph = nodeIds s.heap s.graph from hids) ▸ List.Sublist.refl _

/-- **Step lemma.** -/
theorem WellBuilt.step (ops : NodeEquals) {s s' : GraphState} {event : GraphEvent}
    (hs : WellBuilt s) (hstep : graphStep ops s event = some s') : WellBuilt s' := by
  cases event with
  | addNode data mem =>
    rw [graphStep] at hstep
    split at hstep
    · cases hstep
      exact hs
    · next hadd =>
      cases hstep
      exact hs.addNode hadd
  | addEdge localNode remoteNode metric link mem =>
    rw [graphStep] at hstep
    split_ifs at hstep with hends
    cases hadd : graphAddEdge s.heap s.graph localNode remoteNode metric link mem with
    | mk heap graph =>
      rw [hadd] at hstep
      cases hstep
      exact hs.addEdge hends.1 hends.2 hadd
  | removeEdge edge =>
    cases hstep
    exact hs.removeEdge edge
  | removeNode node =>
    rw [graphStep] at hstep
    split at hstep
    · cases hstep
    · next hremove =>
      cases hstep
      exact hs.removeNode ops hremove
  | deepcopy =>
    rw [graphStep] at hstep
    split at hstep
    · cases hstep
    · next hcopy =>
      cases hstep
      exact hs.deepcopy hcopy

/-- **Run lemma.** -/
theorem wellBuilt_of_graphRun {ops : NodeEquals} {events : List GraphEvent}
    (hrun : graphRun ops events = some s) : WellBuilt s :=
  Transition.run_invariant (fun _ _ _ hs hstep => hs.step ops hstep) wellBuilt_graphStart hrun

/-! ## Its pointers -/

section

variable {h : Heap} {g : GraphObj} {nodes : List NodePtr}

/-- The pointers to the nodes of a graph. -/
theorem GraphWf.exists_nodePtrs (hg : GraphWf h g) :
    ∃ nodes, g.nodes.mapM h.nodePtr? = some nodes ∧ g.nodes.map h.nodePtr? = nodes.map some := by
  obtain ⟨nodes, hnodes⟩ := Fault.exists_map_some (f := h.nodePtr?) (l := g.nodes) fun p hp => by
    obtain ⟨n, hn⟩ := hg.nodes p hp
    exact ⟨⟨p, n.id⟩, by simp [Heap.nodePtr?, hn]⟩
  exact ⟨nodes, Fault.mapM_eq_some_iff.mpr hnodes, hnodes⟩

/-- They have the addresses and the ids of the nodes. -/
theorem GraphWf.map_addr (hg : GraphWf h g) (hmap : g.nodes.map h.nodePtr? = nodes.map some) :
    (nodes.map NodePtr.addr).map some = g.nodes.map some := by
  have haddr := congrArg (List.map (Option.map NodePtr.addr)) hmap
  rw [List.map_map, List.map_map] at haddr
  rw [List.map_map]
  refine Eq.trans haddr.symm (List.map_congr_left fun p hp => ?_)
  obtain ⟨n, hn⟩ := hg.nodes p hp
  simp [Heap.nodePtr?, hn]

theorem map_id_nodePtrs (hmap : g.nodes.map h.nodePtr? = nodes.map some) :
    (nodes.map NodePtr.id).map some = nodeIds h g := by
  have hids := congrArg (List.map (Option.map NodePtr.id)) hmap
  rw [List.map_map, List.map_map] at hids
  rw [List.map_map]
  refine Eq.trans hids.symm (List.map_congr_left fun p _ => ?_)
  simp [Heap.nodePtr?, Function.comp_def]

/-- The pointer to an edge leads to nodes of the graph. -/
theorem GraphWf.exists_edgePtr (hg : GraphWf h g) (hmap : g.nodes.map h.nodePtr? = nodes.map some)
    {p : Ptr} (hp : p ∈ g.edges) :
    ∃ e, h.edgePtr? p = some e ∧ e.localNode ∈ nodes ∧ e.remoteNode ∈ nodes := by
  have hmem : ∀ q ∈ g.nodes, ∀ x, h.nodePtr? q = some x → x ∈ nodes := by
    intro q hq x hx
    have hsome : some x ∈ nodes.map some := by
      rw [← hmap, ← hx]
      exact List.mem_map_of_mem hq
    simpa using hsome
  obtain ⟨e, a, b, -, he, hlocal, hremote, ha, hb, -, -⟩ := hg.edge? hp
  have ha' : h.nodePtr? e.localNode = some ⟨e.localNode, a.id⟩ := by
    simp [Heap.nodePtr?, ha]
  have hb' : h.nodePtr? e.remoteNode = some ⟨e.remoteNode, b.id⟩ := by
    simp [Heap.nodePtr?, hb]
  exact ⟨_, by simp [Heap.edgePtr?, he, ha', hb']; rfl, hmem _ hlocal _ ha', hmem _ hremote _ hb'⟩

end

/-- The pointers of a built graph lead to objects, and its edges to its nodes. -/
theorem WellBuilt.exists_graphPtrs (hs : WellBuilt s) :
    ∃ g, graphPtrs s.heap s.graph = some g ∧ g.Wf ∧ (s.added ≤ UInt32.size → g.DistinctIds) := by
  have hwf := hs.separated.left
  obtain ⟨nodes, hnodes, hmap⟩ := hwf.exists_nodePtrs
  obtain ⟨edges, hmapEdges⟩ := Fault.exists_map_some fun p hp =>
    (hwf.exists_edgePtr hmap hp).imp fun _ he => he.1
  have hedges := Fault.mapM_eq_some_iff.mpr hmapEdges
  refine ⟨⟨nodes, edges, .empty, .empty⟩, by simp [graphPtrs, hnodes, hedges], ⟨?_, ?_⟩, ?_⟩
  · have hnodup : ((nodes.map NodePtr.addr).map some).Nodup := by
      rw [hwf.map_addr hmap]
      exact hs.nodup.map fun _ _ heq => Option.some.inj heq
    exact hnodup.of_map.of_map
  · intro x hx
    have hsome : some x ∈ s.graph.edges.map s.heap.edgePtr? := by
      rw [hmapEdges]
      exact List.mem_map_of_mem hx
    obtain ⟨p, hp, hpx⟩ := List.mem_map.mp hsome
    obtain ⟨e, he, hends⟩ := hwf.exists_edgePtr hmap hp
    rw [hpx, Option.some.injEq] at he
    exact he ▸ hends
  · intro hle
    have hnodup := hs.distinct hle
    rw [← map_id_nodePtrs hmap] at hnodup
    exact hnodup.of_map

/-! ## The assertion -/

namespace PtrGraph

variable {σ : Type} {g : PtrGraph} {u : NodePtr}

/-- `__compute_paths` makes no assertion. -/
theorem computePathsFrom_ne_assertion (prev : Table NodeId (List NodePtr)) (fuel : ℕ)
    (tmp : List NodePtr) (u : NodePtr) :
    computePathsFrom prev fuel tmp u ≠ .error .assertion := by
  induction fuel generalizing tmp u with
  | zero => simp [computePathsFrom]
  | succ fuel ih =>
    rw [computePathsFrom]
    rcases prev.get u.id with _ | _ | ⟨p, w⟩
    · simp
    · simp
    · refine Fault.bind_ne_error (Fault.mapM_ne_error fun q => ih (tmp ++ [u]) q) fun ps _ => ?_
      simp [pure, Except.pure]

/-- The loop over neighbours of a node that is not in the queue. -/
theorem foldlM_relax_ne_assertion (ops : PtrOps σ) (hu : u ∈ g.nodes) (ns : List NodePtr)
    (hns : ns ⊆ g.graphComputeNeighbors u) (st : PtrState σ) (hqueue : st.queue ⊆ g.nodes)
    (hpopped : u ∉ st.queue) :
    ns.foldlM (g.graphFinalize.relax ops u) st ≠ .error .assertion ∧
      ∀ st', ns.foldlM (g.graphFinalize.relax ops u) st = .ok st' → st'.queue = st.queue := by
  induction ns generalizing st with
  | nil =>
    refine ⟨by simp [pure, Except.pure], fun st' hst' => ?_⟩
    cases hst'
    rfl
  | cons v ns ih =>
    obtain ⟨hv, hns⟩ := List.cons_subset.mp hns
    rw [List.foldlM_cons]
    rcases g.graphFinalize.relax_cases ops u v st with
      ⟨hmem, hnone, -⟩ | herror | ⟨dist, prev, state, hok⟩
    · have hne : u ≠ v := fun heq => hpopped (heq ▸ hmem)
      obtain ⟨e, he⟩ := exists_minEdge hu (hqueue hmem) hne hv
      rw [he] at hnone
      contradiction
    · rw [herror]
      simp [bind, Except.bind]
    · rw [hok]
      exact ih hns _ hqueue hpopped

/-- One round of the main loop. -/
theorem dijkstraRound_ne_assertion (hg : g.Wf) (ops : PtrOps σ) (fuel : ℕ) {st : PtrState σ}
    (hsub : st.queue.Sublist g.nodes) (hu : u ∈ st.queue) :
    g.graphFinalize.dijkstraRound ops fuel u st ≠ .error .assertion ∧
      ∀ st', g.graphFinalize.dijkstraRound ops fuel u st = .ok st' →
        st'.queue = st.queue.erase u := by
  have hmem := hsub.subset hu
  have hpopped : u ∉ st.queue.erase u := (hg.nodup.sublist hsub).not_mem_erase
  have hcompute := computePathsFrom_ne_assertion st.prev fuel [] u
  rw [dijkstraRound, graphFinalize_neighs_get hmem]
  cases hpaths : computePathsFrom st.prev fuel [] u with
  | error e =>
    rw [hpaths] at hcompute
    simpa [bind, Except.bind] using hcompute
  | ok paths =>
    exact foldlM_relax_ne_assertion ops hmem _ (List.Subset.refl _)
      { st with path := st.path.set u.id paths, queue := st.queue.erase u }
      (List.erase_sublist.trans hsub).subset hpopped

/-- **The assertion** of `graph_dijkstra` holds whenever it is made. -/
theorem graphDijkstra_ne_assertion (hg : g.Wf) (ops : PtrOps σ) (fuel : ℕ) (src : NodePtr) :
    g.graphFinalize.graphDijkstra fuel src ops ≠ .error .assertion := by
  -- the queue of every round is a sublist of the nodes
  have hloop : ∀ rounds (st : PtrState σ), st.queue.Sublist g.nodes →
      g.graphFinalize.dijkstraLoop ops fuel rounds st ≠ .error .assertion := by
    intro rounds
    induction rounds with
    | zero => simp [dijkstraLoop]
    | succ rounds ih =>
      intro st hsub
      rw [dijkstraLoop]
      cases hleast : leastNode st.dist st.queue with
      | none => simp
      | some u =>
        obtain ⟨hround, hqueue⟩ :=
          dijkstraRound_ne_assertion hg ops fuel hsub (mem_of_leastNode hleast)
        refine Fault.bind_ne_error hround fun st' hst' => ih st' ?_
        rw [hqueue st' hst']
        exact List.erase_sublist.trans hsub
  refine Fault.bind_ne_error (hloop fuel _ (.refl _)) fun st _ => ?_
  simp [pure, Except.pure]

/-! ## The tables agree -/

/-- `graph_finalize`, with some of the edges pruned from a clone before. -/
def finalizePruned (g : PtrGraph) : Option (EdgePtr → Bool) → PtrGraph
  | none => g.graphFinalize
  | some prune => (g.graphClone.graphPrune prune).graphFinalize

/-- What the two tables say about each other and about the edges. -/
structure TablesAgree (g : PtrGraph) : Prop where
  neighs : ∀ u ∈ g.nodes, ∀ v ∈ g.nodes, u ≠ v →
    ((∃ ns, g.neighs.get u.id = some ns ∧ v ∈ ns) ↔ ∃ e, g.minEdges.get (u.id, v.id) = some e)
  least : ∀ u ∈ g.nodes, ∀ v ∈ g.nodes, u ≠ v → ∀ e, g.minEdges.get (u.id, v.id) = some e ↔
    Least.IsFirst EdgePtr.metric uint32Max
      (g.edges.filter fun e => e.localNode = u ∧ e.remoteNode = v) e

/-- Between nodes with distinct ids, edges with the ids of two nodes are edges between them. -/
theorem edgesBetween_eq (hg : g.Wf) (hids : g.DistinctIds) {v : NodePtr} (hu : u ∈ g.nodes)
    (hv : v ∈ g.nodes) : g.edgesBetween u v =
      g.edges.filter fun e => e.localNode = u ∧ e.remoteNode = v := by
  refine List.filter_congr fun e he => ?_
  have hlocal : e.localNode.id = u.id ↔ e.localNode = u :=
    ⟨hids.inj (hg.ends e he).1 hu, congrArg NodePtr.id⟩
  have hremote : e.remoteNode.id = v.id ↔ e.remoteNode = v :=
    ⟨hids.inj (hg.ends e he).2 hv, congrArg NodePtr.id⟩
  rw [Bool.eq_iff_iff]
  simp [hlocal, hremote]

theorem tablesAgree_graphFinalize (hg : g.Wf) (hids : g.DistinctIds) :
    g.graphFinalize.TablesAgree where
  neighs u hu v hv hne := by
    replace hu : u ∈ g.nodes := hu
    replace hv : v ∈ g.nodes := hv
    constructor
    · rintro ⟨ns, hns, hmem⟩
      rw [graphFinalize_neighs_get hu, Option.some.injEq] at hns
      exact exists_minEdge hu hv hne (hns ▸ hmem)
    · rintro ⟨e, he⟩
      rw [graphFinalize_minEdges_get hu hv hne, graphGetMinimalEdge_eq_some_iff,
        edgesBetween_eq hg hids hu hv] at he
      have hmem := List.mem_filter.mp he.mem
      simp only [decide_eq_true_eq] at hmem
      obtain ⟨-, -, -, hmetric, -⟩ := he
      exact ⟨_, graphFinalize_neighs_get hu, mem_graphComputeNeighbors.mpr
        ⟨e, hmem.1, congrArg NodePtr.id hmem.2.1, hmem.2.2, hmetric⟩⟩
  least u hu v hv hne e := by
    replace hu : u ∈ g.nodes := hu
    replace hv : v ∈ g.nodes := hv
    rw [graphFinalize_minEdges_get hu hv hne, graphGetMinimalEdge_eq_some_iff,
      edgesBetween_eq hg hids hu hv]
    rfl

end PtrGraph

/-- **Main theorem.**  However a graph was built and whatever tables it had, after `graph_finalize`
the assertion of `graph_dijkstra` holds whenever it is made, and the tables agree as long as no more
than 2^32 nodes were added. -/
theorem finalize_tables_agree {ops : NodeEquals} {events : List GraphEvent}
    (hrun : graphRun ops events = some s) :
    ∃ g, graphPtrs s.heap s.graph = some g ∧ ∀ minEdges neighs prune,
      let f := { g with minEdges, neighs }.finalizePruned prune
      (∀ (σ : Type) (dops : PtrOps σ) fuel src, f.graphDijkstra fuel src dops ≠ .error .assertion) ∧
        (s.added ≤ UInt32.size → f.TablesAgree) := by
  obtain ⟨g, hptrs, hg, hids⟩ := (wellBuilt_of_graphRun hrun).exists_graphPtrs
  refine ⟨g, hptrs, fun minEdges neighs prune => ?_⟩
  have hwf : PtrGraph.Wf { g with minEdges, neighs } := ⟨hg.nodup, hg.ends⟩
  have hids' : s.added ≤ UInt32.size → PtrGraph.DistinctIds { g with minEdges, neighs } := hids
  cases prune with
  | none =>
    exact ⟨fun σ dops fuel src => PtrGraph.graphDijkstra_ne_assertion hwf dops fuel src,
      fun hadded => PtrGraph.tablesAgree_graphFinalize hwf (hids' hadded)⟩
  | some prune =>
    have hclone : (PtrGraph.graphClone { g with minEdges, neighs }).Wf := ⟨hg.nodup, hg.ends⟩
    exact ⟨fun σ dops fuel src =>
        PtrGraph.graphDijkstra_ne_assertion (hclone.graphPrune prune) dops fuel src,
      fun hadded =>
        PtrGraph.tablesAgree_graphFinalize (hclone.graphPrune prune) (hids' hadded)⟩

/-- Two parallel edges, one that is absent and one to a node that is removed; then a copy. -/
def parallelEdges : List GraphEvent :=
  [.addNode "A" true, .addNode "B" true, .addNode "C" true,
    .addEdge 0 1 5 ⟨0, 0, 0, 0, 0⟩ true, .addEdge 0 1 3 ⟨0, 0, 0, 0, 0⟩ true,
    .addEdge 1 0 uint32Max ⟨0, 0, 0, 0, 0⟩ true, .addEdge 2 1 1 ⟨0, 0, 0, 0, 0⟩ true,
    .removeNode 2, .deepcopy]

theorem finalize_tables_agree_parallelEdges :
    ∃ s, graphRun rtNodeEquals parallelEdges = some s ∧ s.graph.nodes = [3, 4] ∧
      s.graph.edges = [4, 5, 6] ∧ s.added = 3 ∧
      ∃ g, graphPtrs s.heap s.graph = some g ∧ ∀ minEdges neighs prune,
        let f := { g with minEdges, neighs }.finalizePruned prune
        (∀ (σ : Type) (dops : PtrOps σ) fuel src,
          f.graphDijkstra fuel src dops ≠ .error .assertion) ∧ f.TablesAgree := by
  have hfacts : (graphRun rtNodeEquals parallelEdges).map (fun s =>
      (s.graph.nodes, s.graph.edges, s.added)) = some ([3, 4], [4, 5, 6], 3) := by decide +kernel
  obtain ⟨s, hrun, heq⟩ := Option.map_eq_some_iff.mp hfacts
  simp only [Prod.mk.injEq] at heq
  obtain ⟨hnodes, hedges, hadded⟩ := heq
  obtain ⟨g, hptrs, hagree⟩ := finalize_tables_agree hrun
  refine ⟨s, hrun, hnodes, hedges, hadded, g, hptrs, fun minEdges neighs prune => ?_⟩
  obtain ⟨hassert, htables⟩ := hagree minEdges neighs prune
  exact ⟨hassert, htables (hadded ▸ by decide)⟩

/-! ## When the counter has come round -/

/-- Two nodes, and an edge from the second to the first. -/
def twoJoined : List GraphEvent :=
  [.addNode "A" true, .addNode "X" true, .addEdge 1 0 5 ⟨0, 0, 0, 0, 0⟩ true]

/-- A third node is added and removed again, `n` times. -/
def churn (n : ℕ) : List GraphEvent :=
  (List.range n).flatMap fun i => [.addNode "C" true, .removeNode (i + 2)]

/-- The graph is the same after each time, but for its counter. -/
def churned (n : ℕ) : GraphState where
  heap := {
    nodes := ⟨1, "A"⟩ :: ⟨2, "X"⟩ :: (List.range n).map fun i => ⟨UInt32.ofNat (i + 2) + 1, "C"⟩
    edges := [⟨1, 0, 1, 5, 0⟩]
    links := [⟨0, 0, 0, 0, 0⟩] }
  graph := ⟨[0, 1], [0], UInt32.ofNat (n + 2), 1, true⟩
  added := n + 2

/-- The heap and the graph with one more node. -/
def grown (n : ℕ) (data : String) : Heap × GraphObj :=
  ({ (churned n).heap with
      nodes := (churned n).heap.nodes ++ [⟨UInt32.ofNat (n + 2) + 1, data⟩] },
    ⟨[0, 1, n + 2], [0], UInt32.ofNat (n + 2) + 1, 1, true⟩)

theorem length_nodes_churned (n : ℕ) : (churned n).heap.nodes.length = n + 2 := by
  simp [churned]

theorem getElem?_nodes_grown (n : ℕ) (data : String) :
    (grown n data).1.nodes[n + 2]? = some ⟨UInt32.ofNat (n + 2) + 1, data⟩ := by
  have hnew := List.getElem?_concat_length (l := (churned n).heap.nodes)
    (a := (⟨UInt32.ofNat (n + 2) + 1, data⟩ : NodeObj))
  rw [length_nodes_churned] at hnew
  exact hnew

theorem graphAddNode_churned (n : ℕ) (data : String) :
    graphAddNode (churned n).heap (churned n).graph data true =
      some ((grown n data).1, (grown n data).2, n + 2) := by
  rw [graphAddNode, if_pos rfl, length_nodes_churned]
  rfl

/-- The third node takes no edge along when it is removed. -/
theorem graphRemoveNode_grown (n : ℕ) :
    graphRemoveNode rtNodeEquals (grown n "C").1 (grown n "C").2 (n + 2) =
      .ok (churned (n + 1)).graph := by
  have hround : removeIfEnd rtNodeEquals (grown n "C").1 ⟨UInt32.ofNat (n + 2) + 1, "C"⟩
      (grown n "C").2 0 = .ok (grown n "C").2 := by
    have hnames : ¬ "X".toLower = "C".toLower ∧ ¬ "A".toLower = "C".toLower := by decide +kernel
    simp [removeIfEnd, rtNodeEquals, grown, churned, hnames]
  have herase : [0, 1, n + 2].erase (n + 2) = [0, 1] := by
    simp
  rw [graphRemoveNode, if_neg (by simp [grown]), getElem?_nodes_grown]
  simp only [show (grown n "C").2.edges = [0] from rfl, List.foldlM_cons, List.foldlM_nil, hround]
  simp only [grown, bind, Except.bind, pure, Except.pure, herase]
  rw [churned, UInt32.ofNat_add (n + 2) 1]
  rfl

/-- **Step lemma.** -/
theorem run_churned (n : ℕ) :
    Transition.run (graphStep rtNodeEquals) (churned n) [.addNode "C" true, .removeNode (n + 2)] =
      some (churned (n + 1)) := by
  have hheap : (grown n "C").1 = (churned (n + 1)).heap := by
    simp [grown, churned, List.range_succ]
  simp only [Transition.run, graphStep, graphAddNode_churned, Option.bind_some,
    graphRemoveNode_grown]
  rw [hheap]
  rfl

/-- **Run lemma.** -/
theorem run_churn (n : ℕ) : graphRun rtNodeEquals (twoJoined ++ churn n) = some (churned n) := by
  induction n with
  | zero => rfl
  | succ n ih =>
    have hchurn : churn (n + 1) = churn n ++ [.addNode "C" true, .removeNode (n + 2)] := by
      simp [churn, List.range_succ]
    rw [graphRun] at ih
    rw [graphRun, hchurn, ← List.append_assoc, Transition.run_append, ih]
    exact run_churned n

/-- The graph with a third node of the id of the first. -/
def sharedFirst (n : ℕ) : PtrGraph :=
  ⟨[⟨0, 1⟩, ⟨1, 2⟩, ⟨n + 2, 1⟩], [⟨0, ⟨1, 2⟩, ⟨0, 1⟩, 1, 5⟩], .empty, .empty⟩

theorem graphPtrs_grown {n : ℕ} (hid : UInt32.ofNat (n + 2) + 1 = 1) :
    graphPtrs (grown n "B").1 (grown n "B").2 = some (sharedFirst n) := by
  have hthird : (grown n "B").1.nodePtr? (n + 2) = some ⟨n + 2, 1⟩ := by
    rw [Heap.nodePtr?, getElem?_nodes_grown, hid]
    rfl
  have hnodes : (grown n "B").2.nodes = [0, 1, n + 2] := rfl
  have hedges : (grown n "B").2.edges.mapM (grown n "B").1.edgePtr? =
      some [⟨0, ⟨1, 2⟩, ⟨0, 1⟩, 1, 5⟩] := rfl
  rw [graphPtrs, hnodes, hedges]
  simp only [List.mapM_cons, hthird]
  rfl

/-- The tables disagree about the edge to the first of two nodes with one id. -/
theorem not_tablesAgree_sharedFirst (n : ℕ) : ¬ (sharedFirst n).graphFinalize.TablesAgree := by
  intro hagree
  have hx : (⟨1, 2⟩ : NodePtr) ∈ (sharedFirst n).nodes := by simp [sharedFirst]
  have hb : (⟨n + 2, 1⟩ : NodePtr) ∈ (sharedFirst n).nodes := by simp [sharedFirst]
  have hne : (⟨1, 2⟩ : NodePtr) ≠ ⟨n + 2, 1⟩ := by simp
  obtain ⟨ns, hns, hmem⟩ := (hagree.neighs _ hx _ hb hne).mpr
    ⟨_, PtrGraph.graphFinalize_minEdges_get hx hb hne⟩
  rw [PtrGraph.graphFinalize_neighs_get hx, Option.some.injEq] at hns
  have hneighs : (sharedFirst n).graphComputeNeighbors ⟨1, 2⟩ = [⟨0, 1⟩] := rfl
  rw [← hns, hneighs, List.mem_singleton] at hmem
  cases hmem

/-- After 2^32 nodes a graph can have two nodes with one id, and then its tables disagree. -/
theorem finalize_tables_disagree :
    ∃ events s g, graphRun rtNodeEquals events = some s ∧ graphPtrs s.heap s.graph = some g ∧
      ¬ g.graphFinalize.TablesAgree := by
  obtain ⟨n, hn⟩ : ∃ n, n = 4294967294 := ⟨_, rfl⟩
  have hid : UInt32.ofNat (n + 2) + 1 = 1 := by
    rw [hn]
    rfl
  refine ⟨twoJoined ++ churn n ++ [.addNode "B" true],
    ⟨(grown n "B").1, (grown n "B").2, n + 3⟩, sharedFirst n, ?_, graphPtrs_grown hid,
    not_tablesAgree_sharedFirst n⟩
  have hchurn := run_churn n
  rw [graphRun] at hchurn
  rw [graphRun, Transition.run_append, hchurn]
  simp only [Option.bind_some, Transition.run, graphStep, graphAddNode_churned]
  rfl

end Srn
