import Mathlib.Algebra.GroupWithZero.Nat
import Srn.Graph.Additive
import Srn.Segpath.Build

/-!
# Srn.Segpath.Least

The path that `build_segpath` selects for a flow, as a route: in the graph without the links that
lack the flow's bandwidth it has the least total delay if the flow asks for a delay, and else the
least total metric; and there is no path only when there is no route.
-/

namespace Srn

open Route

variable {ε σ : Type} {g : Graph ε} {cost : Edge ε → UInt32} {u v : NodeId}

/-! ## Costs of paths -/

/-- The total cost of the minimal edges along a path. -/
def pathCost (g : Graph ε) (cost : Edge ε → UInt32) (path : List NodeId) : ℕ :=
  ((hops path).map fun hop => (g.hopCost cost hop.1 hop.2).getD 0).sum

theorem pathCost_of_isRoute {s : NodeId} {r : List NodeId} {c : ℕ}
    (h : IsRoute (g.hopCost cost) s v r c) : pathCost g cost (s :: r.reverse) = c := by
  induction h with
  | refl => rfl
  | @snoc u v r c m hr hm ih =>
    rw [pathCost] at ih
    rw [pathCost, hops_of_isRoute hr, List.map_append, List.sum_append, ih]
    simp [hm]

/-- A route is a route for any cost. -/
theorem exists_isRoute_hopCost {s : NodeId} {r : List NodeId} {c : ℕ}
    (h : IsRoute (g.hopCost cost) s v r c) (cost' : Edge ε → UInt32) :
    ∃ c', IsRoute (g.hopCost cost') s v r c' := by
  induction h with
  | refl => exact ⟨0, .refl⟩
  | snoc _ hm ih =>
    obtain ⟨c', hr⟩ := ih
    obtain ⟨e, he, -⟩ := Option.map_eq_some_iff.mp hm
    exact ⟨_, hr.snoc (m := (cost' e).toNat) (by simp [Graph.hopCost, he])⟩

/-- Whenever the sums of a cost fit in 32 bits, a selected path has the least cost. -/
theorem selectPath_shortest {dOps : DOps ε σ} (hg : Finalized g) (hadds : dOps.Adds cost)
    (hfit : CostsNoWrap g cost) {src dst : NodeId} {path : List NodeId}
    (h : selectPath g dOps src dst = .ok (some path)) :
    Shortest (g.hopCost cost) src dst path.reverse := by
  obtain ⟨res, hrun, hres⟩ := graphDijkstra_shortest hg hadds hfit src
  obtain ⟨paths, hget, hshort⟩ := hres dst (mem_nodes_of_selectPath hg h)
  have hhead := Except.ok.inj ((selectPath_eq hrun hget).symm.trans h)
  obtain ⟨r, hr, rfl⟩ := Option.map_eq_some_iff.mp hhead
  rw [List.reverse_reverse]
  exact hshort r (List.mem_of_head? hr)

/-- **Selected path.** It has the least cost, and there is none only without a route. -/
theorem selectPath_least {dOps : DOps ε σ} (hg : Finalized g) (hadds : dOps.Adds cost)
    (hfit : CostsFit g cost) {src dst : NodeId} (hsrc : src ∈ g.nodes) (hdst : dst ∈ g.nodes)
    {out : Option (List NodeId)} (h : selectPath g dOps src dst = .ok out) :
    (∀ path, out = some path → Shortest (g.hopCost cost) src dst path.reverse) ∧
      (out = none → ∀ r c, ¬ IsRoute (g.hopCost cost) src dst r c) := by
  refine ⟨fun path hpath => selectPath_shortest hg hadds hfit.noWrap (hpath ▸ h),
    fun hout => ?_⟩
  obtain ⟨res, hrun, hres⟩ := graphDijkstra_least hg hadds hfit hsrc
  obtain ⟨paths, hget, -, hnone⟩ := hres dst hdst
  have hhead := Except.ok.inj ((selectPath_eq hrun hget).symm.trans (hout ▸ h))
  exact hnone (by simpa using hhead)

/-! ## Flows -/

/-- The cost that the search for a flow adds up. -/
def flowCost (fl : Flow) (e : Edge Link) : UInt32 :=
  if fl.delay ≠ 0 then e.data.delay else e.metric

/-- The graph without the links that lack the flow's bandwidth. -/
def flowGraph (g : Graph Link) (fl : Flow) : Graph Link :=
  graphFinalize (prePrune fl (graphClone g))

theorem flowPathspec_adds (fl : Flow) (src dst : NodeId) (via : List NodeId) :
    (flowPathspec fl src dst via).dOps.Adds (flowCost fl) := by
  intro curCost e x
  unfold flowPathspec flowCost
  split_ifs <;> rfl

/-- Where `build_segpath` finds no path for a flow without waypoints there is no route. -/
theorem not_isRoute_of_buildSegpath {g : Graph Link} {fl : Flow} {src dst : NodeId}
    (hg : Finalized g) (hfit : CostsFit (flowGraph g fl) (flowCost fl)) (hsrc : src ∈ g.nodes)
    (hdst : dst ∈ g.nodes) (hnone : buildSegpath g (flowPathspec fl src dst []) = .ok none)
    (r : List NodeId) (c : ℕ) : ¬ IsRoute (flowGraph g fl).weight src dst r c := by
  intro hroute
  have hgc := isSubgraph_flow hg fl src dst []
  obtain ⟨hselect, -⟩ | ⟨path, segs, es, hbuilt⟩ := buildSegpath_cases hg hgc rfl hdst
  · obtain ⟨-, hno⟩ := selectPath_least hgc.finalized (flowPathspec_adds fl src dst []) hfit
      (hgc.nodes.symm ▸ hsrc) (hgc.nodes.symm ▸ hdst) hselect
    have hmetric : IsRoute ((flowGraph g fl).hopCost Edge.metric) src dst r c := hroute
    obtain ⟨c', hroute'⟩ := exists_isRoute_hopCost hmetric (flowCost fl)
    exact hno rfl r c' hroute'
  · simp [hbuilt.result] at hnone

/-- **A flow without waypoints gets a path exactly when there is a route** over links that have
its bandwidth. -/
theorem buildSegpath_eq_none_iff {g : Graph Link} {fl : Flow} {src dst : NodeId} (hg : Finalized g)
    (hfit : CostsFit (flowGraph g fl) (flowCost fl)) (hsrc : src ∈ g.nodes) (hdst : dst ∈ g.nodes) :
    buildSegpath g (flowPathspec fl src dst []) = .ok none ↔
      ∀ r c, ¬ IsRoute (flowGraph g fl).weight src dst r c := by
  refine ⟨not_isRoute_of_buildSegpath hg hfit hsrc hdst, fun hno => ?_⟩
  have hgc := isSubgraph_flow hg fl src dst []
  obtain ⟨-, hbuild⟩ | ⟨path, segs, es, hbuilt⟩ := buildSegpath_cases hg hgc rfl hdst
  · exact hbuild
  · obtain ⟨c, hroute⟩ := hbuilt.route
    exact absurd hroute (hno _ c)

/-- Links with 100 units of bandwidth carry no flow of 150. -/
theorem buildSegpath_eq_none_bundle :
    buildSegpath bundleShort (flowPathspec ⟨150, 0⟩ 1 2 []) = .ok none ∧
      ¬ ∃ r c, IsRoute (flowGraph bundleShort ⟨150, 0⟩).weight 1 2 r c := by
  have hg := finalized_bundleShort
  have hrun : buildSegpath bundleShort (flowPathspec ⟨150, 0⟩ 1 2 []) = .ok none := by
    decide +kernel
  have hfit : CostsFit (flowGraph bundleShort ⟨150, 0⟩) (flowCost ⟨150, 0⟩) :=
    costsFit_of_le (b := 1) (isSubgraph_flow hg _ 1 2 []).finalized (by decide) (by decide)
  have hno := (buildSegpath_eq_none_iff hg hfit (by decide) (by decide)).mp hrun
  exact ⟨hrun, by simpa using hno⟩

end Srn
