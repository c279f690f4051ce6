import Srn.Graph.Search
import Srn.Segpath

/-!
# Srn.Segpath.Build

What `build_segpath` computes for a flow without waypoints, on any finalised graph: it fails
exactly when the search in the constrained graph finds no path, and otherwise returns the
segments of `graph_minseg` for the selected path, closed by the destination, and the minimal
edges of the path's hops.

The last section is about bandwidth: the path is searched among links that carry the flow,
but its hops are resolved among all links.
-/

namespace Srn

open Route

variable {ε σ : Type} {g gc : Graph ε} {u v : NodeId}

/-! ## Hops -/

theorem hops_concat (s v : NodeId) (path : List NodeId) :
    hops (s :: (path ++ [v])) = hops (s :: path) ++ [(path.getLastD s, v)] := by
  induction path generalizing s with
  | nil => rfl
  | cons a path ih =>
    show (s, a) :: hops (a :: (path ++ [v])) = (s, a) :: hops (a :: path) ++ _
    rw [ih, List.getLastD_cons]
    rfl

/-- The hops of a route extended by one edge. -/
theorem hops_of_isRoute {w : NodeId → NodeId → Option ℕ} {s : NodeId} {r : List NodeId} {c : ℕ}
    (h : IsRoute w s u r c) (v : NodeId) :
    hops (s :: (v :: r).reverse) = hops (s :: r.reverse) ++ [(u, v)] := by
  rw [List.reverse_cons, hops_concat, List.getLastD_eq_getLast?, List.getLast?_reverse, h.end_eq,
    List.headD_eq_head?_getD]

/-- The hops of a route are edges. -/
theorem weight_of_isRoute {w : NodeId → NodeId → Option ℕ} {s t : NodeId} {r : List NodeId} {c : ℕ}
    (h : IsRoute w s t r c) (huv : (u, v) ∈ hops (s :: r.reverse)) : ∃ m, w u v = some m := by
  induction h with
  | refl => simp [hops] at huv
  | snoc hr hw ih =>
    rw [hops_of_isRoute hr, List.mem_append, List.mem_singleton] at huv
    rcases huv with huv | huv
    · exact ih huv
    · obtain ⟨rfl, rfl⟩ := Prod.mk.inj huv
      exact ⟨_, hw⟩

/-! ## Constrained graphs -/

/-- A finalised graph over the nodes of `g` and some of its edges. -/
structure IsSubgraph (gc g : Graph ε) : Prop where
  finalized : Finalized gc
  nodes : gc.nodes = g.nodes
  edges : gc.edges ⊆ g.edges

theorem isSubgraph_graphFinalize (hg : Finalized g) {edges : List (Edge ε)}
    (hedges : edges ⊆ g.edges) :
    IsSubgraph (graphFinalize { graphClone g with edges := edges }) g where
  finalized := finalized_graphFinalize hg.nodup (fun e he => hg.ends e (hedges he)) rfl
  nodes := rfl
  edges := hedges

/-- An edge of the constrained graph leaves a minimal edge in the graph. -/
theorem IsSubgraph.exists_minEdge (h : IsSubgraph gc g) (hg : Finalized g) {m : ℕ}
    (hm : gc.weight u v = some m) : ∃ e, g.minEdges.get (u, v) = some e := by
  rw [Graph.weight, Option.map_eq_some_iff] at hm
  obtain ⟨e, he, -⟩ := hm
  obtain ⟨hne, hmin⟩ := h.finalized.minEdges_get_eq_some_iff.mp he
  have hlink := hmin.isLink
  have : IsLink g u v e := ⟨h.edges hlink.mem, hlink.localId, hlink.remoteId, hlink.metric⟩
  obtain ⟨e', he'⟩ := this.exists_isMinEdge
  exact ⟨e', hg.minEdges_get_eq_some_iff.mpr ⟨hne, he'⟩⟩

/-- The prune callback, if there is one, is built on `graph_prune`: it calls it any number of times
with tests of its choice. -/
def Pathspec.PrunesOnly (pspec : Pathspec ε σ) : Prop :=
  ∀ prune, pspec.prune = some prune →
    ∀ g, ∃ tests : List (Edge ε → Bool), prune g = tests.foldl graphPrune g

/-- Several prunings are one. -/
theorem foldl_graphPrune (tests : List (Edge ε → Bool)) (g : Graph ε) :
    tests.foldl graphPrune g = graphPrune g fun e => tests.any fun test => test e := by
  induction tests generalizing g with
  | nil => simp [graphPrune]
  | cons test tests ih =>
    rw [List.foldl_cons, ih]
    simp only [graphPrune, List.filter_filter, List.any_cons, Bool.not_or, Bool.and_comm]

/-- The callback leaves some of the edges, in their order. -/
theorem exists_edges_constrained {pspec : Pathspec ε σ} (hprune : pspec.PrunesOnly)
    (g : Graph ε) : ∃ keep, (pspec.constrained g).edges = g.edges.filter keep := by
  unfold Pathspec.constrained
  cases hspec : pspec.prune with
  | none => exact ⟨fun _ => true, by simp⟩
  | some prune =>
    obtain ⟨tests, htests⟩ := hprune prune hspec (graphClone g)
    refine ⟨fun e => !tests.any fun test => test e, ?_⟩
    show (prune (graphClone g)).edges = _
    rw [htests, foldl_graphPrune]
    rfl

/-- The graph in which a path is searched. -/
theorem isSubgraph_constrained (hg : Finalized g) {pspec : Pathspec ε σ} (h : pspec.PrunesOnly) :
    IsSubgraph (pspec.constrained g) g := by
  unfold Pathspec.constrained
  cases hprune : pspec.prune with
  | none => exact ⟨hg, rfl, List.Subset.refl _⟩
  | some prune =>
    obtain ⟨tests, htests⟩ := h prune hprune (graphClone g)
    show IsSubgraph (graphFinalize (prune (graphClone g))) g
    rw [htests, foldl_graphPrune]
    exact isSubgraph_graphFinalize hg (List.filter_subset_self _)

theorem prunesOnly_flowPathspec (fl : Flow) (src dst : NodeId) (via : List NodeId) :
    (flowPathspec fl src dst via).PrunesOnly := by
  intro prune hprune g
  obtain rfl := Option.some.inj hprune
  by_cases hbw : fl.bw = 0
  · exact ⟨[], by simp [prePrune, hbw]⟩
  · exact ⟨[pruneBw fl.bw], by simp [prePrune, hbw]⟩

/-- The graph a flow is routed on. -/
theorem isSubgraph_flow {g : Graph Link} (hg : Finalized g) (fl : Flow) (src dst : NodeId)
    (via : List NodeId) : IsSubgraph ((flowPathspec fl src dst via).constrained g) g :=
  isSubgraph_constrained hg (prunesOnly_flowPathspec fl src dst via)

/-! ## The parts of `build_segpath` -/

/-- The selected path is the first one that the search recorded. -/
theorem selectPath_eq {dOps : DOps ε σ} {src dst : NodeId} {res : Dres} {paths : List (List NodeId)}
    (hrun : graphDijkstra g src dOps = .ok res) (hget : res.path.get dst = some paths) :
    selectPath g dOps src dst = .ok (paths.head?.map List.reverse) := by
  simp only [selectPath, hrun, bind, Except.bind, hget]
  rfl

/-- The search ends without a fault, and a selected path is a simple route. -/
theorem selectPath_spec (hg : Finalized g) (dOps : DOps ε σ) (src : NodeId) {dst : NodeId}
    (hdst : dst ∈ g.nodes) :
    ∃ out, selectPath g dOps src dst = .ok out ∧ ∀ path, out = some path →
      (src :: path).Nodup ∧ ∃ c, IsRoute g.weight src dst path.reverse c := by
  obtain ⟨res, hrun, hres⟩ := graphDijkstra_path hg dOps src
  obtain ⟨-, paths, hget, hpaths⟩ := hres dst hdst
  refine ⟨_, selectPath_eq hrun hget, fun path hpath => ?_⟩
  rw [Option.map_eq_some_iff] at hpath
  obtain ⟨r, hr, rfl⟩ := hpath
  obtain ⟨hnodup, hroute⟩ := hpaths r (List.mem_of_head? hr)
  rw [List.reverse_reverse]
  exact ⟨by simpa using hnodup, hroute⟩

/-- The search has entries for the nodes of the graph only. -/
theorem mem_nodes_of_selectPath {dOps : DOps ε σ} (hg : Finalized g) {src dst : NodeId}
    {out : Option (List NodeId)} (h : selectPath g dOps src dst = .ok out) : dst ∈ g.nodes := by
  have hstep : ∀ order (st : DState σ) u paths st', SearchInv g src order st →
      (∀ v, v ∉ g.nodes → st.path.get v = none) → leastNode st.dist st.queue = some u →
      SearchInv g src (u :: order) st' → dijkstraRound g dOps u st = .ok st' →
      Popped g dOps u paths st st' → ∀ v, v ∉ g.nodes → st'.path.get v = none := by
    intro order st u paths st' hs hpath hleast _ _ hpop v hv
    have hu := hs.mem_nodes (leastNode_eq_some_iff.mp hleast).mem
    have hne : u ≠ v := fun heq => hv (heq ▸ hu)
    rw [hpop.path, Table.get_set, if_neg hne, hpath v hv]
  have hinit : ∀ v, v ∉ g.nodes → (dijkstraInit g src dOps).path.get v = none := by
    intro v hv
    rw [dijkstraInit, Table.get_foldl_set (fun _ => []), if_neg hv, Table.get_empty]
  obtain ⟨order, st, hloop, -, hpath, -⟩ := SearchInv.loop hg _ hstep (g.nodes.length + 1)
    (SearchInv.init g src dOps) hinit (Nat.lt_succ_self _)
  by_contra hdst
  simp [selectPath, graphDijkstra, hloop, hpath dst hdst, bind, Except.bind, pure, Except.pure] at h

/-- The list that `graph_dijkstra` from `r` records for `v`. -/
def PrevList (g : Graph ε) (r v : NodeId) (ps : List NodeId) : Prop :=
  ∃ res, graphDijkstra g r defaultOps = .ok res ∧ res.prev.get v = some ps

theorem cachedDijkstra_eq (hg : Finalized g) (r : NodeId) :
    cachedDijkstra g r = graphDijkstra g r defaultOps := by
  rw [cachedDijkstra]
  split
  · next res hres => exact (hg.dcache r res hres).symm
  · rfl

theorem exists_prevList (hg : Finalized g) (r : NodeId) (hv : v ∈ g.nodes) :
    ∃ ps, PrevList g r v ps := by
  obtain ⟨res, hrun, hres⟩ := graphDijkstra_path hg defaultOps r
  obtain ⟨⟨ps, hps⟩, -⟩ := hres v hv
  exact ⟨ps, res, hrun, hps⟩

theorem PrevList.run (hg : Finalized g) {r : NodeId} {ps : List NodeId} (h : PrevList g r v ps) :
    ∃ res, cachedDijkstra g r = .ok res ∧ prevOf res v = .ok ps := by
  obtain ⟨res, hrun, hget⟩ := h
  exact ⟨res, (cachedDijkstra_eq hg r).trans hrun, by rw [prevOf, hget]⟩

/-- What one round of `graph_minseg` does to `node_r` and appends to the segments, given the
minimal edge of the hop and the two lists of predecessors. -/
def minsegChoice (nodeR nodeI nodeII : NodeId) (edge : Edge ε) (prevR prevI : List NodeId) :
    NodeId × List (Segment ε) :=
  if nodeI ∉ prevR then
    if prevI.length = 1 then (nodeI, [.node nodeI]) else (nodeII, [.node nodeI, .adjacency edge])
  else if prevR.length ≤ 1 then (nodeR, [])
  else if prevI.length > 1 then (nodeII, [.node nodeI, .adjacency edge])
  else (nodeI, [.node nodeI])

theorem minsegStep_eq (hg : Finalized g) {nodeR nodeI nodeII : NodeId} {edge : Edge ε}
    {prevR prevI : List NodeId} (hR : PrevList g nodeR nodeII prevR)
    (hI : PrevList g nodeI nodeII prevI) (hedge : g.minEdges.get (nodeI, nodeII) = some edge)
    (res : List (Segment ε)) :
    minsegStep g nodeR nodeI nodeII res =
      .ok (some ((minsegChoice nodeR nodeI nodeII edge prevR prevI).1,
        res ++ (minsegChoice nodeR nodeI nodeII edge prevR prevI).2)) := by
  obtain ⟨resR, hrunR, hprevR⟩ := hR.run hg
  obtain ⟨resI, hrunI, hprevI⟩ := hI.run hg
  simp only [minsegStep, minsegChoice, hrunR, hrunI, hprevR, hprevI, insertAdjSegment, hedge,
    insertNodeSegment, bind, Except.bind, pure, Except.pure, Option.map_some]
  split_ifs <;> simp

/-- The segments that `graph_minseg` appends for the rest of a path, from `node_r` on. -/
inductive Minseg (g : Graph ε) : NodeId → List NodeId → List (Segment ε) → Prop
  | last {nodeR nodeI} : Minseg g nodeR [nodeI] []
  | hop {nodeR nodeI nodeII edge prevR prevI path segs} :
      PrevList g nodeR nodeII prevR → PrevList g nodeI nodeII prevI →
      g.minEdges.get (nodeI, nodeII) = some edge →
      Minseg g (minsegChoice nodeR nodeI nodeII edge prevR prevI).1 (nodeII :: path) segs →
      Minseg g nodeR (nodeI :: nodeII :: path)
        ((minsegChoice nodeR nodeI nodeII edge prevR prevI).2 ++ segs)

/-- The loop of `graph_minseg` ends without a fault. -/
theorem minsegLoop_spec (hg : Finalized g) (nodeR nodeI : NodeId) (path : List NodeId)
    (hpath : ∀ u v, (u, v) ∈ hops (nodeI :: path) → ∃ e, g.minEdges.get (u, v) = some e) :
    ∃ segs, Minseg g nodeR (nodeI :: path) segs ∧ ∀ res,
      minsegLoop g (some nodeR) res (hops (nodeI :: path)) = .ok (some (res ++ segs)) := by
  induction path generalizing nodeR nodeI with
  | nil => exact ⟨[], .last, fun res => by simp [hops, minsegLoop]⟩
  | cons nodeII path ih =>
    obtain ⟨edge, hedge⟩ := hpath nodeI nodeII (by simp [hops])
    have hmem : nodeII ∈ g.nodes :=
      ((hg.minEdges_get_eq_some_iff.mp hedge).2.isLink.ends hg).2
    obtain ⟨prevR, hR⟩ := exists_prevList hg nodeR hmem
    obtain ⟨prevI, hI⟩ := exists_prevList hg nodeI hmem
    obtain ⟨segs, hsegs, hrun⟩ := ih (minsegChoice nodeR nodeI nodeII edge prevR prevI).1 nodeII
      fun u v huv => hpath u v (by simp [hops, huv])
    refine ⟨_, .hop hR hI hedge hsegs, fun res => ?_⟩
    simp only [hops, minsegLoop, Option.getD_some, minsegStep_eq hg hR hI hedge, bind,
      Except.bind, hrun, List.append_assoc]

theorem graphMinseg_spec (hg : Finalized g) (src : NodeId) (path : List NodeId)
    (hpath : ∀ u v, (u, v) ∈ hops (src :: path) → ∃ e, g.minEdges.get (u, v) = some e) :
    ∃ segs, Minseg g src (src :: path) segs ∧
      ∀ res, graphMinseg g (src :: path) res = .ok (some (res ++ segs)) := by
  obtain ⟨segs, hsegs, hrun⟩ := minsegLoop_spec hg src src path hpath
  refine ⟨segs, hsegs, fun res => ?_⟩
  rw [← hrun, graphMinseg]
  cases path <;> rfl

/-- The edges of a path are the minimal edges of its hops. -/
theorem nodesToEdges_spec (path : List NodeId)
    (hpath : ∀ u v, (u, v) ∈ hops path → ∃ e, g.minEdges.get (u, v) = some e) :
    ∃ es, nodesToEdges g path = some es ∧ (hops path).map g.minEdges.get = es.map some := by
  rw [nodesToEdges]
  generalize hops path = pairs at hpath ⊢
  induction pairs with
  | nil => exact ⟨[], rfl, rfl⟩
  | cons pair pairs ih =>
    obtain ⟨e, he⟩ := hpath pair.1 pair.2 (List.mem_cons_self)
    obtain ⟨es, hes, hmap⟩ := ih fun u v huv => hpath u v (List.mem_cons_of_mem _ huv)
    exact ⟨e :: es, by simp [List.mapM_cons, he, hes], by simp [he, hmap]⟩

/-- The waypoint is left out only behind an adjacency that ends there. -/
theorem insertWaypoint_eq (t : NodeId) (res : List (Segment ε)) :
    (insertWaypoint t res = res ∧ ∃ e, res.getLast? = some (.adjacency e) ∧ e.remoteId = t) ∨
      insertWaypoint t res = res ++ [.node t] := by
  rw [insertWaypoint]
  split
  · next e he =>
    split_ifs with ht
    · exact .inl ⟨rfl, e, he, ht⟩
    · exact .inr rfl
  · exact .inr rfl

/-- One leg of the path that `build_segpath` puts together: the path selected in the constrained
graph, and the segments that `graph_minseg` appends for it. -/
structure Leg (g gc : Graph ε) (dOps : DOps ε σ) (curNode tmpNode : NodeId) (path : List NodeId)
    (segs : List (Segment ε)) : Prop where
  select : selectPath gc dOps curNode tmpNode = .ok (some path)
  nodup : (curNode :: path).Nodup
  route : ∃ c, IsRoute gc.weight curNode tmpNode path.reverse c
  links : ∀ u v, (u, v) ∈ hops (curNode :: path) → ∃ e, g.minEdges.get (u, v) = some e
  minseg : Minseg g curNode (curNode :: path) segs

/-- One round of the loop: either no path is selected and the loop fails, or it goes on behind the
segments of a leg. -/
theorem segpathLoop_leg (hg : Finalized g) (hgc : IsSubgraph gc g) (dOps : DOps ε σ)
    (curNode : NodeId) {tmpNode : NodeId} (ht : tmpNode ∈ g.nodes) :
    (selectPath gc dOps curNode tmpNode = .ok none ∧ ∀ res fpath ts,
      segpathLoop g gc dOps curNode res fpath (tmpNode :: ts) = .ok none) ∨
    ∃ path segs, Leg g gc dOps curNode tmpNode path segs ∧ ∀ res fpath ts,
      segpathLoop g gc dOps curNode res fpath (tmpNode :: ts) =
        segpathLoop g gc dOps tmpNode (insertWaypoint tmpNode (res ++ segs))
          (fpath ++ curNode :: path) ts := by
  obtain ⟨out, hselect, hout⟩ := selectPath_spec hgc.finalized dOps curNode (hgc.nodes.symm ▸ ht)
  cases out with
  | none =>
    refine .inl ⟨hselect, fun res fpath ts => ?_⟩
    simp only [segpathLoop, hselect, bind, Except.bind, pure, Except.pure]
  | some path =>
    obtain ⟨hnodup, c, hroute⟩ := hout path rfl
    have hpath : ∀ u v, (u, v) ∈ hops (curNode :: path) →
        ∃ e, g.minEdges.get (u, v) = some e := by
      intro u v huv
      rw [← List.reverse_reverse path] at huv
      obtain ⟨m, hm⟩ := weight_of_isRoute hroute huv
      exact hgc.exists_minEdge hg hm
    obtain ⟨segs, hsegs, hminseg⟩ := graphMinseg_spec hg curNode path hpath
    refine .inr ⟨path, segs, ⟨hselect, hnodup, ⟨c, hroute⟩, hpath, hsegs⟩, fun res fpath ts => ?_⟩
    simp only [segpathLoop, hselect, hminseg, bind, Except.bind]

/-! ## The result -/

/-- The edges that `build_segpath` returns are those of the path its loop puts together. -/
theorem exists_segpathLoop_of_buildSegpath {pspec : Pathspec ε σ} {segs : List (Segment ε)}
    {epath : Option (List (Edge ε))} (h : buildSegpath g pspec = .ok (some (segs, epath))) :
    ∃ fpath, segpathLoop g (pspec.constrained g) pspec.dOps pspec.src [] []
      (pspec.via ++ [pspec.dst]) = .ok (some (segs, fpath)) ∧ nodesToEdges g fpath = epath := by
  obtain ⟨out, hloop, h⟩ := Fault.bind_eq_ok_iff.mp h
  cases out with
  | none => simp [pure, Except.pure] at h
  | some res =>
    obtain ⟨segs', fpath⟩ := res
    simp only [pure, Except.pure, Except.ok.injEq, Option.some.injEq, Prod.mk.injEq] at h
    exact ⟨fpath, by rw [hloop, h.1], h.2⟩

/-- A successful `build_segpath` without waypoints: the path selected in the constrained
graph, its segments and its edges. -/
structure Built (g : Graph ε) (pspec : Pathspec ε σ) (path : List NodeId)
    (segs : List (Segment ε)) (es : List (Edge ε)) : Prop where
  select : selectPath (pspec.constrained g) pspec.dOps pspec.src pspec.dst = .ok (some path)
  nodup : (pspec.src :: path).Nodup
  route : ∃ c, IsRoute (pspec.constrained g).weight pspec.src pspec.dst path.reverse c
  minseg : Minseg g pspec.src (pspec.src :: path) segs
  epath : (hops (pspec.src :: path)).map g.minEdges.get = es.map some
  result : buildSegpath g pspec = .ok (some (insertWaypoint pspec.dst segs, some es))

/-- The hops of the path have minimal edges in the graph itself. -/
theorem Built.exists_minEdge {pspec : Pathspec ε σ} {path : List NodeId}
    {segs : List (Segment ε)} {es : List (Edge ε)} (h : Built g pspec path segs es)
    (huv : (u, v) ∈ hops (pspec.src :: path)) : ∃ e ∈ es, g.minEdges.get (u, v) = some e := by
  have hmem := List.mem_map_of_mem (f := g.minEdges.get) huv
  rw [h.epath, List.mem_map] at hmem
  obtain ⟨e, he, heq⟩ := hmem
  exact ⟨e, he, heq.symm⟩

/-- `build_segpath` without waypoints fails when no path is selected, and else succeeds. -/
theorem buildSegpath_cases (hg : Finalized g) {pspec : Pathspec ε σ}
    (hgc : IsSubgraph (pspec.constrained g) g) (hvia : pspec.via = [])
    (hdst : pspec.dst ∈ g.nodes) :
    (selectPath (pspec.constrained g) pspec.dOps pspec.src pspec.dst = .ok none ∧
      buildSegpath g pspec = .ok none) ∨ ∃ path segs es, Built g pspec path segs es := by
  obtain ⟨hselect, hloop⟩ | ⟨path, segs, hleg, hloop⟩ :=
    segpathLoop_leg hg hgc pspec.dOps pspec.src hdst
  · refine .inl ⟨hselect, ?_⟩
    simp only [buildSegpath, hvia, List.nil_append, hloop, bind, Except.bind, pure, Except.pure]
  · obtain ⟨es, hes, hmap⟩ := nodesToEdges_spec (pspec.src :: path) hleg.links
    refine .inr ⟨path, segs, es, hleg.select, hleg.nodup, hleg.route, hleg.minseg, hmap, ?_⟩
    simp only [buildSegpath, hvia, List.nil_append, hloop, segpathLoop, hes, bind, Except.bind,
      pure, Except.pure]

/-! ## Bandwidth -/

/-- Every edge of the segments and of the edge path carries the bandwidth. -/
def CarriesBw (bw : UInt32) (segs : List (Segment Link)) (epath : Option (List (Edge Link))) :
    Prop :=
  (∀ e, .adjacency e ∈ segs → bw ≤ e.data.avaBw) ∧
    ∃ es, epath = some es ∧ ∀ e ∈ es, bw ≤ e.data.avaBw

theorem mem_minsegChoice {nodeR nodeI nodeII : NodeId} {edge e : Edge ε} {prevR prevI : List NodeId}
    (h : .adjacency e ∈ (minsegChoice nodeR nodeI nodeII edge prevR prevI).2) : e = edge := by
  revert h
  rw [minsegChoice]
  split_ifs <;> simp

/-- Adjacency segments are minimal edges of hops. -/
theorem Minseg.adjacency {nodeR : NodeId} {path : List NodeId} {segs : List (Segment ε)}
    (h : Minseg g nodeR path segs) {e : Edge ε} (he : .adjacency e ∈ segs) :
    ∃ u v, (u, v) ∈ hops path ∧ g.minEdges.get (u, v) = some e := by
  induction h with
  | last => simp at he
  | @hop nodeR nodeI nodeII edge prevR prevI path segs hR hI hedge _ ih =>
    rcases List.mem_append.mp he with he | he
    · rw [mem_minsegChoice he]
      exact ⟨nodeI, nodeII, by simp [hops], hedge⟩
    · obtain ⟨u, v, huv, hget⟩ := ih he
      exact ⟨u, v, by simp [hops, huv], hget⟩

theorem mem_insertWaypoint {t : NodeId} {res : List (Segment ε)} {e : Edge ε} :
    .adjacency e ∈ insertWaypoint t res ↔ .adjacency e ∈ res := by
  rcases insertWaypoint_eq t res with ⟨h, -⟩ | h <;> simp [h]

/-- The minimal edge among the links that carry a bandwidth. -/
theorem IsMinEdge.prune {g : Graph Link} {e : Edge Link} (h : IsMinEdge g u v e) {bw : UInt32}
    (hbw : bw ≤ e.data.avaBw) : IsMinEdge (graphPrune g (pruneBw bw)) u v e := by
  have hkeep : (!pruneBw bw e) = true := by
    rw [pruneBw, Bool.not_eq_true', decide_eq_false_iff_not, UInt32.not_lt]
    exact hbw
  have := Least.IsFirst.filter h (fun e => !pruneBw bw e) hkeep
  rwa [edgesBetween, List.filter_comm] at this

theorem le_of_isMinEdge_prune {g : Graph Link} {e : Edge Link} {bw : UInt32}
    (h : IsMinEdge (graphPrune g (pruneBw bw)) u v e) : bw ≤ e.data.avaBw := by
  have := (List.mem_filter.mp h.isLink.mem).2
  rwa [pruneBw, Bool.not_eq_true', decide_eq_false_iff_not, UInt32.not_lt] at this

/-- A hop carries the bandwidth when its minimal edge survives the pruning. -/
theorem minimalEdge_prune_iff {g : Graph Link} {e : Edge Link} {bw : UInt32}
    (h : IsMinEdge g u v e) :
    graphGetMinimalEdge (graphPrune g (pruneBw bw)) u v = graphGetMinimalEdge g u v ↔
      bw ≤ e.data.avaBw := by
  rw [graphGetMinimalEdge_eq_some_iff.mpr h, graphGetMinimalEdge_eq_some_iff]
  exact ⟨le_of_isMinEdge_prune, h.prune⟩

/-- **Main theorem.** The edges that `build_segpath` returns for a flow carry the flow's
bandwidth exactly when, on every hop of the selected path, pruning the links with less
bandwidth does not change the minimal edge. -/
theorem buildSegpath_carriesBw_iff (g : Graph Link) (fl : Flow) (src dst : NodeId)
    (hg : Finalized g) (hdst : dst ∈ g.nodes) :
    ∃ out, buildSegpath g (flowPathspec fl src dst []) = .ok out ∧
      ∀ segs epath, out = some (segs, epath) → ∃ path,
        selectPath ((flowPathspec fl src dst []).constrained g) (flowPathspec fl src dst []).dOps
          src dst = .ok (some path) ∧
        (CarriesBw fl.bw segs epath ↔ ∀ u v, (u, v) ∈ hops (src :: path) →
          graphGetMinimalEdge (graphPrune g (pruneBw fl.bw)) u v = graphGetMinimalEdge g u v) := by
  rcases buildSegpath_cases hg (isSubgraph_flow hg fl src dst []) rfl hdst with
    ⟨-, hnone⟩ | ⟨path, segs, es, hbuilt⟩
  · exact ⟨none, hnone, by simp⟩
  refine ⟨_, hbuilt.result, fun segs' epath heq => ⟨path, hbuilt.select, ?_⟩⟩
  obtain ⟨rfl, rfl⟩ := Prod.mk.inj (Option.some.inj heq)
  have hmin : ∀ {u v e}, g.minEdges.get (u, v) = some e → IsMinEdge g u v e :=
    fun he => (hg.minEdges_get_eq_some_iff.mp he).2
  constructor
  · rintro ⟨-, es', hes', hcarries⟩ u v huv
    obtain ⟨e, he, hget⟩ := hbuilt.exists_minEdge huv
    obtain rfl := Option.some.inj hes'
    exact (minimalEdge_prune_iff (hmin hget)).mpr (hcarries e he)
  · intro hsame
    refine ⟨fun e he => ?_, es, rfl, fun e he => ?_⟩
    · obtain ⟨u, v, huv, hget⟩ := hbuilt.minseg.adjacency (mem_insertWaypoint.mp he)
      exact (minimalEdge_prune_iff (hmin hget)).mp (hsame u v huv)
    · have hmem : some e ∈ es.map some := List.mem_map_of_mem he
      rw [← hbuilt.epath, List.mem_map] at hmem
      obtain ⟨⟨u, v⟩, huv, hget⟩ := hmem
      exact (minimalEdge_prune_iff (hmin hget)).mp (hsame u v huv)

/-- Two routers joined by a short link without free bandwidth and a long one with plenty. -/
def bundle : Graph Link :=
  graphOf [1, 2] [⟨1, 1, 2, 1, ⟨1, 2, 100, 0, 1⟩⟩, ⟨2, 1, 2, 10, ⟨3, 4, 100, 100, 1⟩⟩]

theorem finalized_bundle : Finalized bundle := finalized_graphOf (by decide) (by decide)

/-- A flow of bandwidth 50 is routed on the long link and assigned the short one. -/
theorem buildSegpath_ignores_bw :
    Finalized bundle ∧ 2 ∈ bundle.nodes ∧
      buildSegpath bundle (flowPathspec ⟨50, 0⟩ 1 2 []) =
        .ok (some ([.node 2], some [⟨1, 1, 2, 1, ⟨1, 2, 100, 0, 1⟩⟩])) ∧
      ¬ CarriesBw 50 [.node 2] (some [⟨1, 1, 2, 1, ⟨1, 2, 100, 0, 1⟩⟩]) := by
  refine ⟨finalized_bundle, by decide, by decide +kernel, ?_⟩
  rintro ⟨-, es, hes, hcarries⟩
  obtain rfl := Option.some.inj hes
  exact absurd (hcarries _ (List.mem_singleton.mpr rfl)) (by decide)

/-- The same two links with the bandwidth on the short one. -/
def bundleShort : Graph Link :=
  graphOf [1, 2] [⟨1, 1, 2, 1, ⟨1, 2, 100, 100, 1⟩⟩, ⟨2, 1, 2, 10, ⟨3, 4, 100, 0, 1⟩⟩]

theorem finalized_bundleShort : Finalized bundleShort := finalized_graphOf (by decide) (by decide)

/-- There the condition holds, and the flow gets a link that carries it. -/
theorem buildSegpath_carriesBw_bundleShort :
    Finalized bundleShort ∧ 2 ∈ bundleShort.nodes ∧
      buildSegpath bundleShort (flowPathspec ⟨50, 0⟩ 1 2 []) =
        .ok (some ([.node 2], some [⟨1, 1, 2, 1, ⟨1, 2, 100, 100, 1⟩⟩])) ∧
      CarriesBw 50 [.node 2] (some [⟨1, 1, 2, 1, ⟨1, 2, 100, 100, 1⟩⟩]) := by
  have hrun : buildSegpath bundleShort (flowPathspec ⟨50, 0⟩ 1 2 []) =
      .ok (some ([.node 2], some [⟨1, 1, 2, 1, ⟨1, 2, 100, 100, 1⟩⟩])) := by decide +kernel
  obtain ⟨out, hout, hspec⟩ :=
    buildSegpath_carriesBw_iff bundleShort ⟨50, 0⟩ 1 2 finalized_bundleShort (by decide)
  obtain ⟨path, hselect, hiff⟩ := hspec _ _ (Except.ok.inj (hout.symm.trans hrun))
  have hpath : path = [2] :=
    Option.some.inj (Except.ok.inj (hselect.symm.trans (by decide +kernel)))
  refine ⟨finalized_bundleShort, by decide, hrun, hiff.mpr fun u v huv => ?_⟩
  rw [hpath] at huv
  obtain ⟨rfl, rfl⟩ := Prod.mk.inj (List.mem_singleton.mp huv)
  decide +kernel

end Srn
