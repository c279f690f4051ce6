import Srn.NetState.Sync
import Srn.Segpath.Build

/-!
# Srn.NetState.Publish

What the controller routes on: as long as no node id has come round, the published graph is a
finalized graph with the nodes and edges behind the published pointers, every known router has a
node in it once the staging graph is clean, and neither `netstate_graph_sync` nor
`build_segpath` on it goes wrong.
-/

namespace Srn

variable {h h' : Heap} {g g' : GraphObj} {p : Ptr}

/-! ## Node ids -/

/-- The nodes of the staging graph have the ids 1, 2, 3 and so on, in the order in which they
were added, and those of the published graph are the first of them. -/
structure Numbered (s : NetState) : Prop where
  ids : (view s.heap s.graphStaging).1.map (Option.map NodeObj.id) =
    (List.range s.graphStaging.nodes.length).map fun i => some (UInt32.ofNat (i + 1))
  lastNode : s.graphStaging.lastNode = UInt32.ofNat s.graphStaging.nodes.length
  published : (view s.heap s.graph).1 <+: (view s.heap s.graphStaging).1

theorem numbered_netInit : Numbered netInit := ⟨rfl, rfl, List.prefix_rfl⟩

/-- A step that leaves the nodes of the staging graph. -/
theorem Numbered.of_view {s s' : NetState} (hs : Numbered s)
    (hnodes : s'.graphStaging.nodes = s.graphStaging.nodes)
    (hlast : s'.graphStaging.lastNode = s.graphStaging.lastNode)
    (hstaging : (view s'.heap s'.graphStaging).1 = (view s.heap s.graphStaging).1)
    (hgraph : (view s'.heap s'.graph).1 <+: (view s.heap s.graphStaging).1) : Numbered s' where
  ids := by rw [hstaging, hnodes, hs.ids]
  lastNode := by rw [hlast, hnodes, hs.lastNode]
  published := by rw [hstaging]; exact hgraph

/-- The nodes seen through a larger heap. -/
theorem nodes_view_of_grows (hgrow : Grows h h') (hg : GraphWf h g) (hnodes : g'.nodes = g.nodes) :
    (view h' g').1 = (view h g).1 := by
  rw [← hgrow.view hg, view, view, hnodes]

/-- **Step lemma** for the node ids. -/
theorem Numbered.change {s s' : NetState} {ev : NetEvent} {ret : Int} (hs : NetWf s)
    (hn : Numbered s) (hchange : NetChange s ev s' ret) : Numbered s' := by
  have hwf := hs.separated.left
  cases hchange with
  | reject => exact hn
  | idle => exact hn
  | @addNode entry mem heap g p node prefixes rt hadd hnode hrt =>
    obtain ⟨-, hgrow, -, hnodes, -⟩ := (hs.separated.setDirty true).graphAddNode hadd
    obtain ⟨hp, hlast⟩ := graphAddNode_spec hadd
    have hstaging : (view heap g).1 = (view s.heap s.graphStaging).1 ++
        [some ⟨s.graphStaging.lastNode + 1, entry.name⟩] := by
      rw [← hgrow.view hwf, view, hnodes, List.map_append, List.map_singleton, hp]
      rfl
    have hsucc : s.graphStaging.lastNode + 1 =
        UInt32.ofNat (s.graphStaging.nodes.length + 1) := by
      rw [hn.lastNode, UInt32.ofNat_add]
      rfl
    refine ⟨?_, ?_, ?_⟩
    · rw [hstaging, List.map_append, hn.ids, hnodes, List.length_append, List.length_singleton,
        List.range_succ, List.map_append, List.map_singleton, List.map_singleton,
        Option.map_some, hsucc]
    · rw [hlast, hnodes, List.length_append]
      exact hsucc
    · rw [hstaging, nodes_view_of_grows hgrow hs.separated.right rfl]
      exact hn.published.trans (List.prefix_append _ _)
  | @addLink entry mem heap₁ g₁ heap₂ g₂ p q hp hq h₁ h₂ =>
    obtain ⟨hsep₁, hgrow₁, hnodes₁, -⟩ := (hs.separated.setDirty true).graphAddEdge hp hq h₁
    obtain ⟨-, hgrow₂, hnodes₂, -⟩ := hsep₁.graphAddEdge (hnodes₁ ▸ hq) (hnodes₁ ▸ hp) h₂
    have hgrow := hgrow₁.trans hgrow₂
    have hnodes := hnodes₂.trans hnodes₁
    have hlast₁ := lastNode_graphAddEdge s.heap (markGraphDirty s.graphStaging) p q
      entry.metricOf entry.link mem.edge
    have hlast₂ := lastNode_graphAddEdge heap₁ g₁ q p entry.metricOf entry.link2 mem.edge2
    rw [h₁] at hlast₁
    rw [h₂] at hlast₂
    refine hn.of_view hnodes (hlast₂.trans hlast₁) (nodes_view_of_grows hgrow hwf hnodes) ?_
    rw [nodes_view_of_grows hgrow hs.separated.right rfl]
    exact hn.published
  | @update entry fmask edge edge2 e hedge hedge2 he =>
    refine hn.of_view rfl rfl ?_ ?_
    · simp only [view, nodes_updateFields, markGraphDirty]
    · simp only [view, nodes_updateFields]
      exact hn.published
  | @delete entry g hnodes hlast hsub =>
    refine hn.of_view hnodes hlast ?_ hn.published
    rw [view, view, markGraphDirty, hnodes]
  | @sync heap graph value tables hcopy hvalue hcache =>
    obtain ⟨h₁, gc, hrun, hgrow, -, hview, -⟩ := graphDeepcopy_spec hwf hs.separated.nodup_links
    cases hcopy.symm.trans hrun
    exact hn.of_view rfl rfl (nodes_view_of_grows hgrow hwf rfl)
      ⟨[], by rw [List.append_nil, hview]⟩

theorem numbered_of_netRun {events : List NetEvent} {s : NetState}
    (hrun : netRun netInit events = some s) : Numbered s := by
  have hstep : ∀ s ev s', NetWf s ∧ Numbered s → netStep s ev = some s' →
      NetWf s' ∧ Numbered s' := by
    intro s ev s' hs hstep
    obtain ⟨ret, hcall⟩ := exists_netCall hstep
    have hchange := netCall_change hcall
    exact ⟨(hs.1.change hchange).1, hs.2.change hs.1 hchange⟩
  exact (Transition.run_invariant hstep ⟨netWf_netInit, numbered_netInit⟩ hrun).2

/-- No id has come round while there are fewer nodes than ids. -/
theorem Numbered.nodup {s : NetState} (hn : Numbered s)
    (hlt : s.graphStaging.nodes.length < UInt32.size) :
    ((view s.heap s.graphStaging).1.map (Option.map NodeObj.id)).Nodup := by
  rw [hn.ids]
  refine List.Nodup.map_on (fun i hi j hj hij => ?_) List.nodup_range
  rw [List.mem_range] at hi hj
  have heq := congrArg UInt32.toNat (Option.some.inj hij)
  rw [UInt32.toNat_ofNat_of_lt' (show i + 1 < UInt32.size by omega),
    UInt32.toNat_ofNat_of_lt' (show j + 1 < UInt32.size by omega)] at heq
  omega

/-! ## The published graph -/

/-- A sound graph object with distinct node ids is a graph that `graph_finalize` finalizes. -/
theorem GraphWf.finalized (hg : GraphWf h g)
    (hnodup : ((view h g).1.map (Option.map NodeObj.id)).Nodup) :
    ∃ value, ∃ nodes : List NodeObj, graphValue h g = some value ∧
      view h g = (nodes.map some, value.edges.map some) ∧ value.nodes = nodes.map NodeObj.id ∧
      Finalized (graphFinalize value) := by
  obtain ⟨nodes, edges, hview⟩ := hg.exists_view
  refine ⟨⟨nodes.map NodeObj.id, edges, .empty, .empty, .empty, false, false⟩, nodes, ?_, hview,
    rfl, finalized_graphFinalize ?_ (fun e he => ?_) rfl⟩
  · have hvalues : ∀ {α : Type} (l : List α), (l.map some).mapM id = some l := fun l =>
      Fault.mapM_eq_some_iff.mpr (List.map_id _)
    rw [graphValue, hview, hvalues, hvalues]
    rfl
  · rw [hview, List.map_map] at hnodup
    refine List.Nodup.of_map some ?_
    rw [List.map_map]
    exact hnodup
  · have hmem : ∀ p ∈ g.nodes, ∀ n, h.nodes[p]? = some n → n.id ∈ nodes.map NodeObj.id := by
      intro p hp n hn
      have hin : some n ∈ (view h g).1 := hn ▸ List.mem_map_of_mem hp
      rw [hview] at hin
      obtain ⟨m, hm, heq⟩ := List.mem_map.mp hin
      exact List.mem_map.mpr ⟨m, hm, congrArg NodeObj.id (Option.some.inj heq)⟩
    have hin : some e ∈ (view h g).2 := by
      rw [hview]
      exact List.mem_map_of_mem he
    obtain ⟨p, hp, hpe⟩ := List.mem_map.mp hin
    obtain ⟨x, n, m, l, -, hlocal, hremote, hn, hm, -, hedge⟩ := hg.edge? hp
    rw [hedge, Option.some.injEq] at hpe
    subst hpe
    exact ⟨hmem _ hlocal n hn, hmem _ hremote m hm⟩

/-- `netstate_graph_sync` does not go wrong. -/
theorem netstateGraphSync_ok {s : NetState} (hs : NetWf s) (hn : Numbered s)
    (hlt : s.graphStaging.nodes.length < UInt32.size) (mem : Bool) :
    ∃ out, netstateGraphSync s mem = .ok out := by
  rw [netstateGraphSync]
  split_ifs
  · exact ⟨_, rfl⟩
  · exact ⟨_, rfl⟩
  · obtain ⟨h', gc, hcopy, -, hsep, hview, -⟩ :=
      graphDeepcopy_spec hs.separated.left hs.separated.nodup_links
    obtain ⟨value, nodes, hvalue, -, -, hfinal⟩ :=
      hsep.right.finalized (by rw [hview]; exact hn.nodup hlt)
    obtain ⟨tables, hcache, -, -⟩ := finalized_graphBuildCache hfinal
    simp only [hcopy, hvalue, hcache]
    exact ⟨_, rfl⟩

/-- **Published graph.** In every reachable state with fewer than 2^32 nodes the tables that
were published with the graph are those of a finalized graph with the published nodes and
edges, the next synchronisation does not go wrong, and neither does `build_segpath` for a flow
between nodes of the published graph.  When the staging graph is clean these include the node
of every known router. -/
theorem netRun_finalized {events : List NetEvent} {s : NetState}
    (hrun : netRun netInit events = some s) (hlt : s.graphStaging.nodes.length < UInt32.size) :
    Finalized s.tables ∧
      (∃ nodes : List NodeObj, view s.heap s.graph = (nodes.map some, s.tables.edges.map some) ∧
        s.tables.nodes = nodes.map NodeObj.id) ∧
      (∀ mem, ∃ out, netstateGraphSync s mem = .ok out) ∧
      (∀ fl src, ∀ dst ∈ s.tables.nodes,
        ∃ out, buildSegpath s.tables (flowPathspec fl src dst []) = .ok out) ∧
      (s.graphStaging.dirty = false →
        ∀ name rt, s.routers.get name = some rt → rt.nodeId ∈ s.tables.nodes) := by
  have hs := netWf_of_netRun netWf_netInit hrun
  have hn := numbered_of_netRun hrun
  have hnodup := (hn.published.map (Option.map NodeObj.id)).sublist.nodup (hn.nodup hlt)
  obtain ⟨value, nodes, hvalue, hview, hnodes, hfinal⟩ := hs.separated.right.finalized hnodup
  obtain ⟨tables, hcache, htables, heq⟩ := finalized_graphBuildCache hfinal
  obtain ⟨value', hvalue', hcache'⟩ := hs.tables
  obtain rfl := Option.some.inj (hvalue.symm.trans hvalue')
  obtain rfl := Except.ok.inj (hcache.symm.trans hcache')
  have hedges : s.tables.edges = value.edges := by rw [heq]; rfl
  have hids : s.tables.nodes = nodes.map NodeObj.id := by rw [heq, ← hnodes]; rfl
  refine ⟨htables, ⟨nodes, hedges ▸ hview, hids⟩, netstateGraphSync_ok hs hn hlt,
    fun fl src dst hdst => ?_, fun hclean name rt hrt => ?_⟩
  · rcases buildSegpath_cases htables (isSubgraph_flow htables fl src dst []) rfl hdst with
      ⟨-, hnone⟩ | ⟨path, segs, es, hbuilt⟩
    · exact ⟨none, hnone⟩
    · exact ⟨_, hbuilt.result⟩
  · obtain ⟨p, hp, n, hnp, hid⟩ := hs.routers name rt hrt
    have hin : some n ∈ (view s.heap s.graphStaging).1 := hnp ▸ List.mem_map_of_mem hp
    rw [← hs.synced hclean, hview] at hin
    obtain ⟨m, hm, hmn⟩ := List.mem_map.mp hin
    rw [hids, ← hid, ← Option.some.inj hmn]
    exact List.mem_map_of_mem hm

end Srn
