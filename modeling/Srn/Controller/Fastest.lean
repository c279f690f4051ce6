import Srn.Controller.Delay
import Srn.Graph.Shortest

/-!
# Srn.Controller.Fastest

Whether a flow that asks for a delay gets the fastest path.  `delay_min_ops` adds up delays, but
`graph_dijkstra` offers it a single link for each pair of neighbours, the one of least metric;
and `nodes_to_edges` then takes the link of least metric in the graph before pruning.  So the
delay of the edges can differ from the least delay for two reasons: a slow link of least metric
hides a faster one beside it, and a link that lacks the bandwidth comes back.
-/

namespace Srn

open Route

variable {g : Graph Link} {fl : Flow} {src dst u v : NodeId} {es : List (Edge Link)} {c d : ℕ}

/-! ## Walks of a flow -/

/-- A walk over links that carry the flow's bandwidth. -/
def FlowWalk (g : Graph Link) (fl : Flow) (u : NodeId) (es : List (Edge Link)) (v : NodeId) :
    Prop :=
  EdgeWalk g u es v ∧ ∀ e ∈ es, fl.bw ≤ e.data.avaBw

/-- The links of the graph that a flow is routed on. -/
theorem isLink_flowGraph_iff {e : Edge Link} :
    IsLink (flowGraph g fl) u v e ↔ IsLink g u v e ∧ fl.bw ≤ e.data.avaBw := by
  have hmem : e ∈ (flowGraph g fl).edges ↔ e ∈ g.edges ∧ fl.bw ≤ e.data.avaBw := by
    show e ∈ (prePrune fl (graphClone g)).edges ↔ _
    rw [prePrune]
    split_ifs with hbw
    · simp [graphPrune, graphClone, pruneBw]
    · rw [not_not.mp hbw]
      exact ⟨fun he => ⟨he, UInt32.zero_le⟩, And.left⟩
  constructor
  · rintro ⟨he, hlocal, hremote, hmetric⟩
    obtain ⟨he, hbw⟩ := hmem.mp he
    exact ⟨⟨he, hlocal, hremote, hmetric⟩, hbw⟩
  · rintro ⟨⟨he, hlocal, hremote, hmetric⟩, hbw⟩
    exact ⟨hmem.mpr ⟨he, hbw⟩, hlocal, hremote, hmetric⟩

/-- The walks of a flow are those of its graph. -/
theorem edgeWalk_flowGraph_iff : EdgeWalk (flowGraph g fl) u es v ↔ FlowWalk g fl u es v := by
  constructor
  · intro h
    induction h with
    | nil => exact ⟨.nil, by simp⟩
    | @snoc es x v e _ he ih =>
      obtain ⟨hlink, hbw⟩ := isLink_flowGraph_iff.mp he
      refine ⟨ih.1.snoc hlink, fun f hf => ?_⟩
      obtain hf | hf := List.mem_append.mp hf
      · exact ih.2 f hf
      · exact List.mem_singleton.mp hf ▸ hbw
  · rintro ⟨h, hcarries⟩
    induction h with
    | nil => exact .nil
    | @snoc es x v e _ he ih =>
      refine (ih fun f hf => hcarries f (List.mem_append_left _ hf)).snoc ?_
      exact isLink_flowGraph_iff.mpr ⟨he, hcarries e (by simp)⟩

/-! ## Minimal edges -/

/-- No link with the flow's bandwidth is faster than the minimal edge beside it. -/
def FastestLinks (g : Graph Link) (fl : Flow) : Prop :=
  ∀ e ∈ (flowGraph g fl).edges, ∀ f ∈ (flowGraph g fl).edges,
    (flowGraph g fl).minEdges.get (e.localId, e.remoteId) = some e →
    f.localId = e.localId → f.remoteId = e.remoteId → f.metric < uint32Max →
    linkDelay e ≤ linkDelay f

/-- Then some route is no slower than a walk. -/
theorem FastestLinks.exists_isRoute (hfast : FastestLinks g fl) (hg : Finalized g)
    (h : EdgeWalk (flowGraph g fl) u es v) :
    ∃ r c, IsRoute ((flowGraph g fl).hopCost linkDelay) u v r c ∧ c ≤ totalDelay es := by
  induction h with
  | nil => exact ⟨[], 0, .refl, Nat.le_refl _⟩
  | @snoc es x v f _ hf ih =>
    obtain ⟨r, c, hroute, hle⟩ := ih
    have htotal : totalDelay (es ++ [f]) = totalDelay es + (linkDelay f).toNat := by
      simp [totalDelay]
    by_cases hxv : x = v
    · -- a link back to its own node is left out
      exact ⟨r, c, hxv ▸ hroute, by omega⟩
    · obtain ⟨e, he⟩ := hf.exists_isMinEdge
      have hlink := he.isLink
      have hget := (isSubgraph_flow hg fl x v []).finalized.minEdges_get_eq_some_iff.mpr ⟨hxv, he⟩
      have hdelay : linkDelay e ≤ linkDelay f := by
        refine hfast e hlink.mem f hf.mem ?_ (hf.localId.trans hlink.localId.symm)
          (hf.remoteId.trans hlink.remoteId.symm) hf.metric
        rw [hlink.localId, hlink.remoteId]
        exact hget
      have hhop : (flowGraph g fl).hopCost linkDelay x v = some (linkDelay e).toNat :=
        Option.map_eq_some_iff.mpr ⟨e, hget, rfl⟩
      refine ⟨_, _, hroute.snoc hhop, ?_⟩
      have := UInt32.le_iff_toNat_le.mp hdelay
      omega

end Srn
