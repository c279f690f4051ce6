import Srn.Controller
import Srn.NetState.Publish
import Srn.Segpath.Least
import Srn.Segpath.Waypoints

/-!
# Srn.Controller.Delay

The delay that a flow asks for.  `process_request` has the path of such a flow searched with
`delay_min_ops`, which minimises the delay, and admits the flow on whatever path comes out: the
bound itself is never compared with anything.
-/

namespace Srn

open Route

/-! ## Delays -/

/-- The delay of an edge. -/
def linkDelay (e : Edge Link) : UInt32 := e.data.delay

/-- The sum of the link delays. -/
def totalDelay (es : List (Edge Link)) : ℕ := (es.map fun e => (linkDelay e).toNat).sum

/-- The routers between which a request is to be routed. -/
def RoutedBetween (net : NetState) (req : FlowreqEntry) (src dst : NodeId) : Prop :=
  (∃ rt, lookupRouter net req.srcaddr = .ok (some rt) ∧ rt.nodeId = src) ∧
    ∃ rt, lookupRouter net req.dstaddr = .ok (some rt) ∧ rt.nodeId = dst

theorem RoutedBetween.unique {net : NetState} {req : FlowreqEntry} {src dst src' dst' : NodeId}
    (h : RoutedBetween net req src dst) (h' : RoutedBetween net req src' dst') :
    src = src' ∧ dst = dst' := by
  obtain ⟨⟨rt, hrt, rfl⟩, dstrt, hdstrt, rfl⟩ := h
  obtain ⟨⟨rt', hrt', rfl⟩, dstrt', hdstrt', rfl⟩ := h'
  rw [hrt, Except.ok.injEq, Option.some.injEq] at hrt'
  rw [hdstrt, Except.ok.injEq, Option.some.injEq] at hdstrt'
  exact ⟨by rw [hrt'], by rw [hdstrt']⟩

/-- Routers `A` and `B` with a prefix each, and a link between them with a delay of 7. -/
def linkAB : List NetEvent :=
  [.nodestateRead ⟨"A", 1, [⟨1 <<< 120, 8⟩], none⟩ ⟨true, true⟩,
    .nodestateRead ⟨"B", 2, [⟨2 <<< 120, 8⟩], none⟩ ⟨true, true⟩,
    .linkstateRead ⟨"A", 3, "B", 4, 10, 100, 50, 7⟩ ⟨true, true, true, true⟩, .graphSync true]

/-- The flow over that link. -/
def flowAB (delay : UInt32) : FlowObj :=
  ⟨⟨0, delay⟩, 5, 1, 2, [⟨0, [.node 2], some [⟨1, 1, 2, 10, ⟨3, 4, 100, 50, 7⟩⟩]⟩], 0, .active, 1⟩

end Srn
