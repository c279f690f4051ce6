import Srn.Graph.Wrap
import Srn.NetState.Publish

/-!
# Srn.NetState.Metrics

The metrics of the graph that is built from `LinkState` rows.  The column holds any integer, and
`linkstate_read` and `linkstate_update` convert it to 32 bits, with `UINT32_MAX` in the place of
zero.  So all metrics are positive (`netRun_positiveMetrics`), but a negative one becomes so large
that sums wrap.
-/

namespace Srn

variable {h h' : Heap} {g g' : GraphObj}

/-! ## Positive metrics -/

/-- `linkstate_read` and `linkstate_update` never set a metric of zero. -/
theorem LinkEntry.one_le_metricOf (entry : LinkEntry) : 1 ≤ entry.metricOf := by
  unfold LinkEntry.metricOf
  split_ifs with hzero
  · decide
  · have hne : entry.metric.toUInt32.toNat ≠ 0 := fun heq => hzero (UInt32.toNat_inj.mp heq)
    exact UInt32.le_iff_toNat_le.mpr (Nat.one_le_iff_ne_zero.mpr hne)

/-- The metrics of the edges of a graph are at least one. -/
def PositiveEdges (h : Heap) (g : GraphObj) : Prop :=
  ∀ p ∈ g.edges, ∀ e, h.edges[p]? = some e → 1 ≤ e.metric

namespace PositiveEdges

theorem of_subset (hpos : PositiveEdges h g) (hsub : g'.edges ⊆ g.edges) : PositiveEdges h g' :=
  fun p hp => hpos p (hsub hp)

theorem of_grows (hpos : PositiveEdges h g) (hgrow : Grows h h') (hg : GraphWf h g) :
    PositiveEdges h' g := by
  intro p hp e he
  obtain ⟨e', -, he', -⟩ := hg.edges p hp
  rw [hgrow.edges p e' he', Option.some.injEq] at he
  exact he ▸ hpos p hp e' he'

/-- A graph that shows the same edges. -/
theorem of_view (hpos : PositiveEdges h g) (hg' : GraphWf h' g') (hview : view h' g' = view h g) :
    PositiveEdges h' g' := by
  intro p hp e he
  obtain ⟨e', n, m, l, he', -, -, -, -, -, hedge⟩ := hg'.edge? hp
  obtain rfl := Option.some.inj (he'.symm.trans he)
  have hmem : h'.edge? p ∈ (view h g).2 := hview ▸ List.mem_map_of_mem hp
  obtain ⟨q, hq, hqx⟩ := List.mem_map.mp hmem
  obtain ⟨e₀, n₀, m₀, l₀, he₀, -, -, -, hx⟩ := exists_of_edge? (hqx.trans hedge)
  have hmetric : e'.metric = e₀.metric := congrArg Edge.metric hx
  exact hmetric ▸ hpos q hq e₀ he₀

theorem graphAddEdge (hpos : PositiveEdges h g) (hg : GraphWf h g) {a b : Ptr} {metric : UInt32}
    {link : Link} {mem : Bool} (hmetric : 1 ≤ metric)
    (hadd : Srn.graphAddEdge h g a b metric link mem = (h', g')) : PositiveEdges h' g' := by
  rw [Srn.graphAddEdge] at hadd
  split_ifs at hadd
  · simp only [Prod.mk.injEq] at hadd
    obtain ⟨rfl, rfl⟩ := hadd
    intro p hp e he
    rcases List.mem_append.mp hp with hp | hp
    · obtain ⟨e', -, he', -⟩ := hg.edges p hp
      rw [getElem?_append_of_some he', Option.some.injEq] at he
      exact he ▸ hpos p hp e' he'
    · rw [List.mem_singleton.mp hp, List.getElem?_concat_length, Option.some.injEq] at he
      exact he ▸ hmetric
  · simp only [Prod.mk.injEq] at hadd
    obtain ⟨rfl, rfl⟩ := hadd
    exact hpos

theorem updateFields (hpos : PositiveEdges h g) (entry : LinkEntry) (fmask : UInt32)
    (edge edge2 link : Ptr) :
    PositiveEdges (Srn.updateFields h entry fmask edge edge2 link link) g := by
  intro p hp e he
  rw [edges_updateFields, Option.map_eq_some_iff] at he
  obtain ⟨e', he', rfl⟩ := he
  split_ifs
  · exact entry.one_le_metricOf
  · exact hpos p hp e' he'

end PositiveEdges

/-- **Step lemma** for the metrics. -/
theorem positiveEdges_change {s s' : NetState} {ev : NetEvent} {ret : Int} (hs : NetWf s)
    (hchange : NetChange s ev s' ret)
    (hpos : PositiveEdges s.heap s.graphStaging ∧ PositiveEdges s.heap s.graph) :
    PositiveEdges s'.heap s'.graphStaging ∧ PositiveEdges s'.heap s'.graph := by
  obtain ⟨hstaging, hgraph⟩ := hpos
  have hwf := hs.separated.left
  cases hchange with
  | reject => exact ⟨hstaging, hgraph⟩
  | idle => exact ⟨hstaging, hgraph⟩
  | @addNode entry mem heap g p node prefixes rt hadd hnode hrt =>
    obtain ⟨-, hgrow, -⟩ := (hs.separated.setDirty true).graphAddNode hadd
    refine ⟨?_, hgraph.of_grows hgrow hs.separated.right⟩
    rw [graphAddNode] at hadd
    split_ifs at hadd
    cases hadd
    exact hstaging
  | @addLink entry mem heap₁ g₁ heap₂ g₂ p q hp hq h₁ h₂ =>
    obtain ⟨hsep₁, hgrow₁, hnodes₁, -⟩ := (hs.separated.setDirty true).graphAddEdge hp hq h₁
    obtain ⟨-, hgrow₂, -⟩ := hsep₁.graphAddEdge (hnodes₁ ▸ hq) (hnodes₁ ▸ hp) h₂
    have hpos₁ := hstaging.graphAddEdge (g := markGraphDirty s.graphStaging)
      (hs.separated.setDirty true).left entry.one_le_metricOf h₁
    exact ⟨hpos₁.graphAddEdge hsep₁.left entry.one_le_metricOf h₂,
      hgraph.of_grows (hgrow₁.trans hgrow₂) hs.separated.right⟩
  | @update entry fmask edge edge2 e hedge hedge2 he =>
    exact ⟨hstaging.updateFields entry fmask edge edge2 e.data,
      hgraph.updateFields entry fmask edge edge2 e.data⟩
  | @delete entry g hnodes hlast hsub => exact ⟨hstaging.of_subset hsub.subset, hgraph⟩
  | @sync heap graph value tables hcopy hvalue hcache =>
    obtain ⟨h₁, gc, hrun, hgrow, hsep, hview, -⟩ :=
      graphDeepcopy_spec hwf hs.separated.nodup_links
    cases hcopy.symm.trans hrun
    exact ⟨hstaging.of_grows hgrow hwf, hstaging.of_view hsep.right hview⟩

/-- **Run lemma.**  The published graph has positive metrics. -/
theorem netRun_positiveMetrics {events : List NetEvent} {s : NetState}
    (hrun : netRun netInit events = some s) (hlt : s.graphStaging.nodes.length < UInt32.size) :
    PositiveMetrics s.tables := by
  have hstep : ∀ s ev s', (NetWf s ∧ PositiveEdges s.heap s.graphStaging ∧
      PositiveEdges s.heap s.graph) → netStep s ev = some s' →
      NetWf s' ∧ PositiveEdges s'.heap s'.graphStaging ∧ PositiveEdges s'.heap s'.graph := by
    intro s ev s' hs hstep
    obtain ⟨ret, hcall⟩ := exists_netCall hstep
    have hchange := netCall_change hcall
    exact ⟨(hs.1.change hchange).1, positiveEdges_change hs.1 hchange hs.2⟩
  have hinit : PositiveEdges netInit.heap netInit.graphStaging ∧
      PositiveEdges netInit.heap netInit.graph := by
    simp [PositiveEdges, netInit, graphNew]
  obtain ⟨-, -, hpos⟩ := Transition.run_invariant hstep ⟨netWf_netInit, hinit⟩ hrun
  obtain ⟨-, ⟨nodes, hview, -⟩, -⟩ := netRun_finalized hrun hlt
  intro e he
  have hmem : some e ∈ (view s.heap s.graph).2 := hview ▸ List.mem_map_of_mem he
  obtain ⟨p, hp, hpe⟩ := List.mem_map.mp hmem
  obtain ⟨obj, -, -, -, hobj, -, -, -, rfl⟩ := exists_of_edge? hpe
  exact hpos p hp obj hobj

/-! ## Distances -/

/-- **Main theorem.**  In a graph built from rows, `graph_dijkstra` without callbacks reports no
distance that is too small exactly if no sum wraps in time. -/
theorem rows_neverCheaper_iff {events : List NetEvent} {s : NetState}
    (hrun : netRun netInit events = some s) (hlt : s.graphStaging.nodes.length < UInt32.size)
    {src : NodeId} (hsrc : src ∈ s.tables.nodes) :
    ∃ res, graphDijkstra s.tables src defaultOps = .ok res ∧
      (NeverCheaper s.tables src res ↔ NoWrap s.tables src) :=
  graphDijkstra_neverCheaper_iff (netRun_finalized hrun hlt).1 (netRun_positiveMetrics hrun hlt)
    hsrc

/-- Three routers and rows for links between them. -/
def threeRouters (links : List LinkEntry) : List NetEvent :=
  [.nodestateRead ⟨"A", 1, [], none⟩ ⟨true, true⟩, .nodestateRead ⟨"B", 2, [], none⟩ ⟨true, true⟩,
    .nodestateRead ⟨"C", 3, [], none⟩ ⟨true, true⟩] ++
  links.map (fun entry => .linkstateRead entry ⟨true, true, true, true⟩) ++ [.graphSync true]

/-- A negative metric between two routers for which there is a cheaper way. -/
def negativeDetour : List LinkEntry :=
  [⟨"A", 4, "B", 5, 10, 100, 50, 7⟩, ⟨"B", 6, "C", 7, 20, 100, 50, 7⟩,
    ⟨"C", 8, "A", 9, -5, 100, 50, 7⟩]

theorem rows_neverCheaper_negativeDetour :
    ∃ s, netRun netInit (threeRouters negativeDetour) = some s ∧
      s.graphStaging.nodes.length = 3 ∧ 1 ∈ s.tables.nodes ∧
      ∃ res, graphDijkstra s.tables 1 defaultOps = .ok res ∧
        (NeverCheaper s.tables 1 res ↔ NoWrap s.tables 1) := by
  have hfacts : (netRun netInit (threeRouters negativeDetour)).map (fun s =>
      (s.graphStaging.nodes.length, s.tables.nodes)) = some (3, [1, 2, 3]) := by decide +kernel
  obtain ⟨s, hrun, heq⟩ := Option.map_eq_some_iff.mp hfacts
  simp only [Prod.mk.injEq] at heq
  have hsrc : 1 ∈ s.tables.nodes := by simp [heq.2]
  exact ⟨s, hrun, heq.1, hsrc, rows_neverCheaper_iff hrun (by rw [heq.1]; decide) hsrc⟩

/-- A potential that no link exceeds bounds the total metric of walks. -/
theorem EdgeWalk.potential_le {ε : Type} {g : Graph ε} {u v : NodeId} {es : List (Edge ε)}
    (h : EdgeWalk g u es v) (pot : NodeId → ℕ)
    (hpot : ∀ e ∈ g.edges, pot e.remoteId ≤ pot e.localId + e.metric.toNat) :
    pot v ≤ pot u + walkCost es := by
  induction h with
  | nil => exact Nat.le_add_right _ _
  | @snoc es x v e _ he ih =>
    have hedge := hpot e he.mem
    rw [he.localId, he.remoteId] at hedge
    rw [walkCost_snoc]
    omega

/-- A row of three routers with the metrics -2 and 5. -/
def negativeFirst : List LinkEntry :=
  [⟨"A", 4, "B", 5, -2, 100, 50, 7⟩, ⟨"B", 6, "C", 7, 5, 100, 50, 7⟩]

/-- The distances of its routers from the first. -/
def rowDistance (v : NodeId) : ℕ := if v = 2 then 4294967294 else if v = 3 then 4294967299 else 0

/-- The third router is reported to be at distance 3. -/
theorem rows_report_cheaper :
    ∃ s res, netRun netInit (threeRouters negativeFirst) = some s ∧
      graphDijkstra s.tables 1 defaultOps = .ok res ∧ res.dist.get 3 = some 3 ∧
      (∀ es, EdgeWalk s.tables 1 es 3 → 4294967299 ≤ walkCost es) ∧
      ¬ NeverCheaper s.tables 1 res := by
  have hfacts : (netRun netInit (threeRouters negativeFirst)).map (fun s =>
      (s.tables.nodes, s.tables.edges.map fun e => (e.localId, e.remoteId, e.metric),
        (graphDijkstra s.tables 1 defaultOps).toOption.map fun res => res.dist.get 3)) =
      some ([1, 2, 3], [(1, 2, 0xfffffffe), (2, 1, 0xfffffffe), (2, 3, 5), (3, 2, 5)],
        some (some 3)) := by decide +kernel
  obtain ⟨s, hrun, heq⟩ := Option.map_eq_some_iff.mp hfacts
  simp only [Prod.mk.injEq] at heq
  obtain ⟨hnodes, hedges, hdist⟩ := heq
  obtain ⟨res, hres, hget⟩ := Option.map_eq_some_iff.mp hdist
  have hwalk : ∀ es, EdgeWalk s.tables 1 es 3 → 4294967299 ≤ walkCost es := by
    intro es hes
    have hpot : ∀ e ∈ s.tables.edges,
        rowDistance e.remoteId ≤ rowDistance e.localId + e.metric.toNat := by
      intro e he
      have hmem : (e.localId, e.remoteId, e.metric) ∈ s.tables.edges.map fun e =>
          (e.localId, e.remoteId, e.metric) := List.mem_map_of_mem he
      rw [hedges] at hmem
      have hrows : ∀ x ∈ [(1, 2, 0xfffffffe), (2, 1, 0xfffffffe), (2, 3, 5), (3, 2, 5)],
          rowDistance x.2.1 ≤ rowDistance x.1 + (x.2.2 : UInt32).toNat := by
        simp [rowDistance]
      exact hrows _ hmem
    have hle := hes.potential_le rowDistance hpot
    rwa [show rowDistance 1 = 0 from rfl, Nat.zero_add] at hle
  refine ⟨s, res, hrun, ?_, hget, hwalk, fun hnever => ?_⟩
  · cases hrun' : graphDijkstra s.tables 1 defaultOps with
    | error e =>
      rw [hrun'] at hres
      cases hres
    | ok res' =>
      rw [hrun'] at hres
      exact congrArg Except.ok (Option.some.inj hres)
  · rcases hnever 3 (by simp [hnodes]) 3 hget with hmax | ⟨c, ⟨⟨es, hes, rfl⟩, -⟩, hle⟩
    · exact absurd hmax (by decide)
    · exact absurd (Nat.le_trans (hwalk es hes) hle) (by decide)

end Srn
