import Mathlib.Data.List.Perm.Subperm
import Srn.Controller.Fastest
import Srn.Lib.Pool
import Srn.NetState.Publish

/-!
# Srn.Controller.Sweep

No flow stays on a graph that is gone.  A worker computes the path of a flow and puts the flow
in the table under one hold of the lock of the network state, and a new graph is published only
while nobody holds it; so `recompute_flows`, which runs after each synchronisation, meets every
flow that was computed on an older graph, and those that are added meanwhile are computed on the
new one.  What `recompute_flow` misses is a path whose cost `graph_dijkstra` takes for
`UINT32_MAX`, its sign of a node that is out of reach: the flow then keeps its old edges.
-/

namespace Srn

/-! ## Flows against a graph -/

/-- The edges of the flow are in the graph, with the metrics they have there. -/
def FlowObj.Present (fl : FlowObj) (g : Graph Link) : Prop :=
  ∀ sp ∈ fl.srcPrefixes, ∀ es, sp.epath = some es → ∀ e ∈ es,
    ∃ e' ∈ g.edges, e'.id = e.id ∧ e'.metric = e.metric

instance (fl : FlowObj) (g : Graph Link) : Decidable (fl.Present g) :=
  inferInstanceAs (Decidable (∀ sp ∈ fl.srcPrefixes, ∀ es ∈ sp.epath, ∀ e ∈ es,
    ∃ e' ∈ g.edges, e'.id = e.id ∧ e'.metric = e.metric))

/-- Edges of the graph, whatever their metrics, that lead from one node to another. -/
inductive Leads (g : Graph Link) (u : NodeId) : List (Edge Link) → NodeId → Prop
  | nil : Leads g u [] u
  | snoc {es x e} : Leads g u es x → e ∈ g.edges → e.localId = x → Leads g u (es ++ [e]) e.remoteId

/-- The graph has a path for the flow, with its bandwidth and within its delay. -/
def FlowObj.HasPath (fl : FlowObj) (g : Graph Link) : Prop :=
  ∃ es, Leads g fl.srcrt es fl.dstrt ∧ (∀ e ∈ es, fl.bw ≤ e.data.avaBw) ∧
    (fl.delay ≠ 0 → totalDelay es ≤ fl.delay.toNat)

/-- The flow has only edges of the graph, or is an orphan, or the graph has no path for it. -/
def FlowObj.UpToDate (fl : FlowObj) (g : Graph Link) : Prop :=
  fl.Present g ∨ fl.status = .orphan ∨ ¬ fl.HasPath g

/-- No link with the flow's bandwidth has the metric `UINT32_MAX`, and no simple route over such
links costs as much. -/
structure FlowObj.PathsFit (fl : FlowObj) (g : Graph Link) : Prop where
  metrics : ∀ e ∈ g.edges, fl.bw ≤ e.data.avaBw → e.metric < uint32Max
  costs : CostsFit (flowGraph g fl.toFlow) (flowCost fl.toFlow)

/-- `recompute_flow` finds no path for the flow. -/
structure FlowObj.Unrouted (fl : FlowObj) (g : Graph Link) : Prop where
  src : fl.srcrt ∈ g.nodes
  dst : fl.dstrt ∈ g.nodes
  path : buildSegpath g (flowPathspec fl.toFlow fl.srcrt fl.dstrt []) = .ok none

/-- What `recompute_flow` leaves. -/
def FlowObj.Settled (fl : FlowObj) (g : Graph Link) : Prop :=
  fl.Present g ∨ fl.status = .orphan ∨ fl.Unrouted g

/-- The two flows differ at most in their `bsid`, times and references. -/
structure FlowObj.SameRoute (fl fl' : FlowObj) : Prop where
  epaths : fl'.srcPrefixes.map SrcPrefix.epath = fl.srcPrefixes.map SrcPrefix.epath
  flow : fl'.toFlow = fl.toFlow
  srcrt : fl'.srcrt = fl.srcrt
  dstrt : fl'.dstrt = fl.dstrt
  status : fl'.status = fl.status

namespace FlowObj

variable {fl fl' : FlowObj} {g : Graph Link}

theorem SameRoute.refl (fl : FlowObj) : fl.SameRoute fl := ⟨rfl, rfl, rfl, rfl, rfl⟩

theorem SameRoute.trans {fl'' : FlowObj} (h : fl.SameRoute fl') (h' : fl'.SameRoute fl'') :
    fl.SameRoute fl'' where
  epaths := h'.epaths.trans h.epaths
  flow := h'.flow.trans h.flow
  srcrt := h'.srcrt.trans h.srcrt
  dstrt := h'.dstrt.trans h.dstrt
  status := h'.status.trans h.status

theorem present_iff : fl.Present g ↔ ∀ es, some es ∈ fl.srcPrefixes.map SrcPrefix.epath →
    ∀ e ∈ es, ∃ e' ∈ g.edges, e'.id = e.id ∧ e'.metric = e.metric := by
  constructor
  · intro h es hmem
    obtain ⟨sp, hsp, heq⟩ := List.mem_map.mp hmem
    exact h sp hsp es heq
  · intro h sp hsp es heq
    exact h es (List.mem_map.mpr ⟨sp, hsp, heq⟩)

theorem SameRoute.present (h : fl.SameRoute fl') (hp : fl.Present g) : fl'.Present g := by
  rw [present_iff, h.epaths]
  exact present_iff.mp hp

theorem SameRoute.settled (h : fl.SameRoute fl') (hs : fl.Settled g) : fl'.Settled g := by
  obtain hp | horphan | ⟨hsrc, hdst, hnone⟩ := hs
  · exact .inl (h.present hp)
  · exact .inr (.inl (h.status.trans horphan))
  · refine .inr (.inr ⟨h.srcrt ▸ hsrc, h.dstrt ▸ hdst, ?_⟩)
    rw [h.flow, h.srcrt, h.dstrt]
    exact hnone

/-- Edges of the flow's graph are a walk in it. -/
theorem PathsFit.edgeWalk (hfit : fl.PathsFit g) {u v : NodeId} {es : List (Edge Link)}
    (h : Leads g u es v) (hbw : ∀ e ∈ es, fl.bw ≤ e.data.avaBw) : FlowWalk g fl.toFlow u es v := by
  refine ⟨?_, hbw⟩
  induction h with
  | nil => exact .nil
  | @snoc es x e _ he hlocal ih =>
    refine (ih fun f hf => hbw f (List.mem_append_left _ hf)).snoc ⟨he, hlocal, rfl, ?_⟩
    exact hfit.metrics e he (hbw e (by simp))

/-- Where costs fit in 32 bits, a flow for which no path is found has none. -/
theorem Settled.upToDate (h : fl.Settled g) (hg : Finalized g) (hfit : fl.PathsFit g) :
    fl.UpToDate g := by
  obtain hp | horphan | ⟨hsrc, hdst, hnone⟩ := h
  · exact .inl hp
  · exact .inr (.inl horphan)
  · refine .inr (.inr fun ⟨es, hleads, hbw, _⟩ => ?_)
    have hwalk := edgeWalk_flowGraph_iff.mpr (hfit.edgeWalk hleads hbw)
    obtain ⟨r, c, hroute⟩ := (isSubgraph_flow hg fl.toFlow 0 0 []).finalized.exists_isRoute hwalk
    exact not_isRoute_of_buildSegpath hg hfit.costs hsrc hdst hnone r c hroute

theorem exists_of_not_edgeAffected {e : Edge Link} (h : ¬ edgeAffected g e = true) :
    ∃ e' ∈ g.edges, e'.id = e.id ∧ e'.metric = e.metric := by
  unfold edgeAffected at h
  split at h
  · simp at h
  · next e' hfind =>
    refine ⟨e', List.mem_of_find?_eq_some hfind, by simpa using List.find?_some hfind, ?_⟩
    have hmetric : e.metric = e'.metric := by simpa using h
    exact hmetric.symm

/-- A flow that `flow_affected` passes over has only edges of the graph. -/
theorem present_of_flowAffected (h : flowAffected g fl.srcPrefixes = .ok false) :
    fl.Present g := by
  unfold Present
  generalize fl.srcPrefixes = sps at h
  induction sps with
  | nil => simp
  | cons sp sps ih =>
    rw [flowAffected] at h
    split at h
    · contradiction
    · next es hes =>
      split at h
      · simp at h
      · next hany =>
        intro x hx
        obtain rfl | hx := List.mem_cons.mp hx
        · intro es' hes' e he
          obtain rfl : es = es' := Option.some.inj (hes.symm.trans hes')
          exact exists_of_not_edgeAffected fun haff =>
            hany (List.any_eq_true.mpr ⟨e, he, haff⟩)
        · exact ih h x hx

end FlowObj

/-! ## Edges of the published graph -/

/-- `graph_build_cache` fills the cache alone. -/
theorem graphBuildCache_same {ε : Type} {g g' : Graph ε} (h : graphBuildCache g = .ok g') :
    g'.edges = g.edges ∧ g'.minEdges = g.minEdges := by
  unfold graphBuildCache at h
  generalize g.nodes = nodes at h
  induction nodes generalizing g with
  | nil =>
    obtain rfl := Except.ok.inj h
    exact ⟨rfl, rfl⟩
  | cons node nodes ih =>
    rw [List.foldlM_cons] at h
    cases hres : graphDijkstra g node defaultOps with
    | error fault =>
      rw [graphBuildCacheOne, hres] at h
      contradiction
    | ok res =>
      rw [graphBuildCacheOne, hres] at h
      exact ih (g := { g with dcache := g.dcache.set node res }) h

/-- The table of minimal edges of the published graph holds edges of the graph. -/
theorem NetWf.mem_edges {s : NetState} (hs : NetWf s) {pair : NodeId × NodeId} {e : Edge Link}
    (he : s.tables.minEdges.get pair = some e) : e ∈ s.tables.edges := by
  obtain ⟨value, -, hcache⟩ := hs.tables
  obtain ⟨hedges, hmin⟩ := graphBuildCache_same hcache
  rw [hmin, graphFinalize_minEdges_get] at he
  split at he
  · rw [hedges]
    exact (graphGetMinimalEdge_eq_some_iff.mp he).isLink.mem
  · contradiction

/-- Every edge that `nodes_to_edges` returns is in the table of minimal edges. -/
theorem exists_minEdge_of_nodesToEdges {ε : Type} {g : Graph ε} {path : List NodeId}
    {es : List (Edge ε)} (h : nodesToEdges g path = some es) {e : Edge ε} (he : e ∈ es) :
    ∃ pair, g.minEdges.get pair = some e := by
  unfold nodesToEdges at h
  generalize hops path = pairs at h
  induction pairs generalizing es with
  | nil =>
    obtain rfl : [] = es := by simpa using h
    simp at he
  | cons pair pairs ih =>
    simp only [List.mapM_cons, Option.bind_eq_bind, Option.bind_eq_some_iff] at h
    obtain ⟨x, hx, xs, hxs, heq⟩ := h
    obtain rfl := Option.some.inj heq
    obtain rfl | he := List.mem_cons.mp he
    · exact ⟨pair, hx⟩
    · exact ih he hxs

/-- The edges that `build_segpath` returns are edges of the published graph. -/
theorem NetWf.mem_edges_of_buildSegpath {s : NetState} (hs : NetWf s) {pspec : Pathspec Link Unit}
    {segs : List (Segment Link)} {es : List (Edge Link)}
    (h : buildSegpath s.tables pspec = .ok (some (segs, some es))) {e : Edge Link} (he : e ∈ es) :
    e ∈ s.tables.edges := by
  obtain ⟨fpath, -, hedges⟩ := exists_segpathLoop_of_buildSegpath h
  obtain ⟨pair, hpair⟩ := exists_minEdge_of_nodesToEdges hedges he
  exact hs.mem_edges hpair

/-- A callback leaves the published graph as it is. -/
theorem tables_of_netStep {s s' : NetState} {ev : NetEvent} (h : netStep s ev = some s')
    (hev : ∀ mem, ev ≠ .graphSync mem) : s'.tables = s.tables := by
  obtain ⟨ret, hcall⟩ := exists_netCall h
  cases netCall_change hcall with
  | sync => exact absurd rfl (hev true)
  | _ => rfl

theorem NetWf.netStep {s s' : NetState} {ev : NetEvent} (hs : NetWf s)
    (h : netStep s ev = some s') : NetWf s' := by
  obtain ⟨ret, hcall⟩ := exists_netCall h
  exact (hs.change (netCall_change hcall)).1

namespace CtrlState

/-! ## The heap of flows -/

theorem getElem?_modifyFlow (s : CtrlState) (fl x : ℕ) (f : FlowObj → FlowObj) :
    (s.modifyFlow fl f).heap[x]? = if fl = x then s.heap[x]?.map f else s.heap[x]? := by
  rw [modifyFlow, List.getElem?_modify]
  split <;> simp [*]

/-- What `gc_flows` does to a flow leaves the others alone. -/
theorem getElem?_expire (s : CtrlState) {fl x : ℕ} (f : FlowObj → FlowObj) (hne : fl ≠ x) :
    ((s.modifyFlow fl f).flowRelease fl).heap[x]? = s.heap[x]? := by
  rw [flowRelease, getElem?_modifyFlow, if_neg hne, getElem?_modifyFlow, if_neg hne]

/-- Every flow of the second heap is one of the first, on the same route. -/
structure SameRoutes (heap heap' : List FlowObj) : Prop where
  length : heap'.length = heap.length
  same : ∀ (fl : ℕ) (obj' : FlowObj), heap'[fl]? = some obj' →
    ∃ obj, heap[fl]? = some obj ∧ obj.SameRoute obj'

theorem SameRoutes.refl (heap : List FlowObj) : SameRoutes heap heap :=
  ⟨rfl, fun _ obj hobj => ⟨obj, hobj, .refl obj⟩⟩

theorem SameRoutes.trans {heap₁ heap₂ heap₃ : List FlowObj} (h₁ : SameRoutes heap₁ heap₂)
    (h₂ : SameRoutes heap₂ heap₃) : SameRoutes heap₁ heap₃ := by
  refine ⟨h₂.length.trans h₁.length, fun fl obj₃ hobj₃ => ?_⟩
  obtain ⟨obj₂, hobj₂, hsame₂⟩ := h₂.same fl obj₃ hobj₃
  obtain ⟨obj₁, hobj₁, hsame₁⟩ := h₁.same fl obj₂ hobj₂
  exact ⟨obj₁, hobj₁, hsame₁.trans hsame₂⟩

theorem sameRoutes_modifyFlow (s : CtrlState) (fl : ℕ) (f : FlowObj → FlowObj)
    (hf : ∀ obj : FlowObj, obj.SameRoute (f obj)) :
    SameRoutes s.heap (s.modifyFlow fl f).heap := by
  refine ⟨by rw [modifyFlow, List.length_modify], fun x obj' hobj => ?_⟩
  rw [getElem?_modifyFlow] at hobj
  split at hobj
  · obtain ⟨obj, hfind, rfl⟩ := Option.map_eq_some_iff.mp hobj
    exact ⟨obj, hfind, hf obj⟩
  · exact ⟨obj', hobj, .refl obj'⟩

theorem sameRoutes_flowHold (s : CtrlState) (fl : ℕ) :
    SameRoutes s.heap (s.flowHold fl).heap :=
  sameRoutes_modifyFlow s fl _ fun _ => ⟨rfl, rfl, rfl, rfl, rfl⟩

theorem sameRoutes_flowRelease (s : CtrlState) (fl : ℕ) :
    SameRoutes s.heap (s.flowRelease fl).heap :=
  sameRoutes_modifyFlow s fl _ fun _ => ⟨rfl, rfl, rfl, rfl, rfl⟩

/-- Taking references to flows changes nothing else. -/
theorem foldl_flowHold (fls : List ℕ) (s : CtrlState) :
    SameRoutes s.heap (fls.foldl flowHold s).heap ∧
      fls.foldl flowHold s = { s with heap := (fls.foldl flowHold s).heap } := by
  induction fls generalizing s with
  | nil => exact ⟨.refl _, rfl⟩
  | cons fl fls ih =>
    obtain ⟨hsame, heq⟩ := ih (s.flowHold fl)
    exact ⟨(sameRoutes_flowHold s fl).trans hsame, heq⟩

/-! ## The invariant -/

/-- The flow that a call has built and not yet put in the table. -/
def builtFlow : CtrlCall → Option ℕ
  | .built fl => some fl
  | _ => none

/-- The flows in the table. -/
def tableFlows (s : CtrlState) : List ℕ := s.flows.entries.map Prod.snd

/-- The flows that `gc_flows` has left to release. -/
def expiring : Netmon → List ℕ
  | .expiring fls => fls
  | _ => []

/-- The flows that are about to enter the table, are in it, or have left it to expire. -/
def places (s : CtrlState) : List ℕ :=
  s.calls.filterMap builtFlow ++ s.tableFlows ++ expiring s.netmon

/-- `recompute_flows` has the flow still before it. -/
def toJudge (fl : ℕ) : Netmon → Prop
  | .idle | .expiring _ => False
  | .synced => True
  | .sweeping fls => fl ∈ fls

theorem nodup_of_subperm {l l' : List ℕ} (h : l'.Subperm l) (hl : l.Nodup) : l'.Nodup := by
  obtain ⟨l₀, hperm, hsub⟩ := h
  exact hperm.nodup_iff.mp (hsub.nodup hl)

/-- Every flow of the heap has at most one place. -/
structure Placed (s : CtrlState) : Prop where
  nodup : s.places.Nodup
  lt : ∀ fl ∈ s.places, fl < s.heap.length

theorem Placed.mono {s s' : CtrlState} (h : s.Placed) (hplaces : s'.places.Subperm s.places)
    (hlength : s'.heap.length = s.heap.length) : s'.Placed where
  nodup := nodup_of_subperm hplaces h.nodup
  lt fl hfl := by
    rw [hlength]
    exact h.lt fl (hplaces.subset hfl)

/-- What holds in every state.  A flow has one place; one that a call has built has only edges
of the published graph; and one in the table is settled or will be met by the sweep. -/
structure SweepInv (s : CtrlState) : Prop where
  net : NetWf s.net
  placed : s.Placed
  built : ∀ fl ∈ s.calls.filterMap builtFlow, ∀ obj : FlowObj, s.heap[fl]? = some obj →
    obj.Present s.net.tables
  judged : ∀ fl ∈ s.tableFlows, ∀ obj : FlowObj, s.heap[fl]? = some obj →
    obj.Settled s.net.tables ∨ toJudge fl s.netmon

theorem sweepInv_init : SweepInv init where
  net := netWf_netInit
  placed := ⟨by simp [init, places, tableFlows, expiring, Table.empty],
    by simp [init, places, tableFlows, expiring, Table.empty]⟩
  built := by simp [init]
  judged := by simp [init, tableFlows, Table.empty]

/-- A step that moves flows between their places, and leaves the published graph and the routes
as they are, keeps the invariant. -/
theorem SweepInv.mono {s s' : CtrlState} (h : s.SweepInv) (hnet : NetWf s'.net)
    (htables : s'.net.tables = s.net.tables) (hsame : SameRoutes s.heap s'.heap)
    (hplaces : s'.places.Subperm s.places)
    (hbuilt : s'.calls.filterMap builtFlow ⊆ s.calls.filterMap builtFlow)
    (hjudged : ∀ fl ∈ s'.tableFlows, fl ∈ s.tableFlows ∧
      (toJudge fl s.netmon → toJudge fl s'.netmon)) : s'.SweepInv where
  net := hnet
  placed := h.placed.mono hplaces hsame.length
  built fl hfl obj' hobj' := by
    obtain ⟨obj, hobj, hroute⟩ := hsame.same fl obj' hobj'
    rw [htables]
    exact hroute.present (h.built fl (hbuilt hfl) obj hobj)
  judged fl hfl obj' hobj' := by
    obtain ⟨obj, hobj, hroute⟩ := hsame.same fl obj' hobj'
    obtain ⟨hmem, hlater⟩ := hjudged fl hfl
    rw [htables]
    exact (h.judged fl hmem obj hobj).imp hroute.settled hlater

/-! ## What the functions guarantee -/

/-- An admitted flow has only edges of the graph it was admitted on. -/
theorem present_of_admitFlow {cfg : CtrlConfig} {net : NetState} {req : FlowreqEntry} {mem : Bool}
    {now : ℕ} {obj : FlowObj} (hnet : NetWf net)
    (h : admitFlow cfg net req mem now = .ok (.ok obj)) :
    obj.Present net.tables := by
  obtain ⟨segs, epath, hadmitted⟩ := admitted_of_admitFlow h
  intro sp hsp es hes e he
  rw [hadmitted.srcPrefixes] at hsp
  obtain rfl := List.eq_of_mem_replicate hsp
  obtain rfl : epath = some es := hes
  exact ⟨e, hnet.mem_edges_of_buildSegpath hadmitted.path he, rfl, rfl⟩

/-- A recomputed flow is settled. -/
theorem settled_of_recomputeFlow {net : NetState} {obj obj' : FlowObj} (hnet : NetWf net)
    (h : recomputeFlow net.tables obj = .ok obj') :
    obj'.Settled net.tables ∧ (obj.Present net.tables → obj'.Present net.tables) := by
  unfold recomputeFlow at h
  split at h
  · obtain rfl := Except.ok.inj h
    exact ⟨.inr (.inl rfl), id⟩
  · next hends =>
    rw [not_or, not_not, not_not] at hends
    split at h
    · contradiction
    · next hnone =>
      obtain rfl := Except.ok.inj h
      exact ⟨.inr (.inr ⟨hends.1, hends.2, hnone⟩), id⟩
    · next segs epath hpath =>
      obtain rfl := Except.ok.inj h
      have hpresent : FlowObj.Present
          { obj with srcPrefixes := obj.srcPrefixes.map fun sp => { sp with segs, epath } }
          net.tables := by
        intro sp hsp es hes e he
        obtain ⟨sp₀, -, rfl⟩ := List.mem_map.mp hsp
        obtain rfl : epath = some es := hes
        exact ⟨e, hnet.mem_edges_of_buildSegpath hpath he, rfl, rfl⟩
      exact ⟨.inl hpresent, fun _ => hpresent⟩

/-- The first loop of `recompute_flows` leaves out only flows on edges of the graph. -/
theorem present_of_collectAffected {s : CtrlState} {all fls : List ℕ}
    (h : s.collectAffected all = .ok fls) {fl : ℕ} (hfl : fl ∈ all) (hnot : fl ∉ fls)
    {obj : FlowObj} (hobj : s.heap[fl]? = some obj) : obj.Present s.net.tables := by
  induction all generalizing fls with
  | nil => simp at hfl
  | cons x all ih =>
    obtain ⟨objx, affected, rest, hobjx, haff, hrest, rfl⟩ := collectAffected_cons h
    obtain rfl | hfl := List.mem_cons.mp hfl
    · obtain rfl := Option.some.inj (hobj.symm.trans hobjx)
      cases affected with
      | false => exact FlowObj.present_of_flowAffected haff
      | true => simp at hnot
    · refine ih hrest hfl fun hmem => hnot ?_
      cases affected with
      | false => exact hmem
      | true => exact List.mem_cons_of_mem _ hmem

/-! ## All interleavings -/

theorem foldl_erase_sublist (sps : List SrcPrefix) (flows : Table In6Addr ℕ) :
    (sps.foldl (fun flows sp => flows.erase sp.bsid) flows).entries.Sublist flows.entries := by
  induction sps generalizing flows with
  | nil => exact .refl _
  | cons sp sps ih => exact (ih _).trans List.eraseP_sublist

/-- A call that has built nothing leaves, or takes the place of another one. -/
theorem SweepInv.of_calls {s : CtrlState} (h : s.SweepInv) {calls : List CtrlCall}
    (hcalls : (calls.filterMap builtFlow).Subperm (s.calls.filterMap builtFlow)) :
    SweepInv { s with calls } := by
  refine h.mono h.net rfl (.refl _) ?_ hcalls.subset fun _ hfl => ⟨hfl, id⟩
  exact (hcalls.append (.refl _)).append (.refl _)

/-- **Step lemma**: a worker has built a flow. -/
theorem SweepInv.admitted {cfg : CtrlConfig} {s : CtrlState} {req : FlowreqEntry} {mem : Bool}
    {obj : FlowObj} (h : s.SweepInv)
    (hadmitted : admitFlow cfg s.net req mem s.now = .ok (.ok obj)) :
    SweepInv { s with heap := s.heap ++ [obj], calls := .built s.heap.length :: s.calls } := by
  have hnew : s.heap.length ∉ s.places := fun hmem => Nat.lt_irrefl _ (h.placed.lt _ hmem)
  refine ⟨h.net, ⟨List.nodup_cons.mpr ⟨hnew, h.placed.nodup⟩, fun fl hfl => ?_⟩,
    fun fl hfl obj' hobj' => ?_, fun fl hfl obj' hobj' => ?_⟩
  · rw [List.length_append, List.length_singleton]
    obtain rfl | hfl := List.mem_cons.mp hfl
    · exact Nat.lt_succ_self _
    · exact Nat.lt_succ_of_lt (h.placed.lt fl hfl)
  · obtain rfl | hfl := List.mem_cons.mp hfl
    · rw [List.getElem?_concat_length, Option.some.injEq] at hobj'
      exact hobj' ▸ present_of_admitFlow h.net hadmitted
    · have hlt := h.placed.lt fl (by simp only [places, List.mem_append]; exact .inl (.inl hfl))
      rw [List.getElem?_append_left hlt] at hobj'
      exact h.built fl hfl obj' hobj'
  · have hlt := h.placed.lt fl (by simp only [places, List.mem_append]; exact .inl (.inr hfl))
    rw [List.getElem?_append_left hlt] at hobj'
    exact h.judged fl hfl obj' hobj'

/-- **Step lemma**: a flow that was built under the lock is put in the table. -/
theorem SweepInv.publish {s : CtrlState} {i fl : ℕ} {bsid : In6Addr} (h : s.SweepInv)
    (hi : s.calls[i]? = some (.built fl)) (hfree : s.flows.get bsid = none) :
    SweepInv { s.modifyFlow fl fun obj =>
        { obj with srcPrefixes := obj.srcPrefixes.map fun sp => { sp with bsid } } with
      flows := s.flows.set bsid fl
      calls := s.calls.set i (.committing fl) } := by
  have hset : (fl :: (s.calls.set i (.committing fl)).filterMap builtFlow).Perm
      (s.calls.filterMap builtFlow) := (Pool.perm_set hi).filterMap builtFlow
  have hentries : (s.flows.set bsid fl).entries = s.flows.entries ++ [(bsid, fl)] :=
    OMap.set_eq_append bsid fl hfree
  have hflows : (s.flows.set bsid fl).entries.map Prod.snd = s.tableFlows ++ [fl] := by
    rw [hentries, List.map_append, List.map_singleton, tableFlows]
  have hsame := sameRoutes_modifyFlow s fl (fun obj =>
    { obj with srcPrefixes := obj.srcPrefixes.map fun sp => { sp with bsid } })
    fun obj => ⟨by simp [Function.comp_def], rfl, rfl, rfl, rfl⟩
  have hplaces : ((s.calls.set i (.committing fl)).filterMap builtFlow ++
      (s.tableFlows ++ [fl]) ++ expiring s.netmon).Perm s.places := by
    refine List.Perm.append_right _ ?_
    rw [← List.append_assoc]
    exact (List.perm_append_singleton _ _).trans (hset.append_right _)
  have hbuilt : fl ∈ s.calls.filterMap builtFlow :=
    List.mem_filterMap.mpr ⟨_, List.mem_of_getElem? hi, rfl⟩
  refine ⟨h.net, h.placed.mono ?_ hsame.length, fun x hx obj' hobj' => ?_,
    fun x hx obj' hobj' => ?_⟩
  · rw [places, tableFlows, hflows]
    exact hplaces.subperm
  · obtain ⟨obj, hobj, hroute⟩ := hsame.same x obj' hobj'
    have hmem : x ∈ s.calls.filterMap builtFlow := hset.subset (List.mem_cons_of_mem _ hx)
    exact hroute.present (h.built x hmem obj hobj)
  · obtain ⟨obj, hobj, hroute⟩ := hsame.same x obj' hobj'
    rw [tableFlows, hflows, List.mem_append, List.mem_singleton] at hx
    obtain hx | rfl := hx
    · exact (h.judged x hx obj hobj).imp_left hroute.settled
    · exact .inl (.inl (hroute.present (h.built x hbuilt obj hobj)))

/-- **Step lemma**: a flow that has left the table is marked and released. -/
theorem SweepInv.expire {s : CtrlState} {fl : ℕ} {fls : List ℕ} (h : s.SweepInv)
    (hmon : s.netmon = .expiring (fl :: fls)) :
    SweepInv { (s.modifyFlow fl fun obj => { obj with status := .expired }).flowRelease fl with
      netmon := .expiring fls } := by
  have hnodup := h.placed.nodup
  rw [places, hmon, expiring, List.nodup_append] at hnodup
  have hheap : ∀ x ∈ s.calls.filterMap builtFlow ++ s.tableFlows,
      ((s.modifyFlow fl fun obj => { obj with status := .expired }).flowRelease fl).heap[x]? =
        s.heap[x]? := fun x hx =>
    getElem?_expire s _ fun heq => hnodup.2.2 x hx fl List.mem_cons_self heq.symm
  refine ⟨h.net, h.placed.mono ?_ (by simp [flowRelease, modifyFlow]), fun x hx obj hobj => ?_,
    fun x hx obj hobj => ?_⟩
  · rw [places, places, hmon]
    exact ((List.sublist_cons_self fl fls).append_left _).subperm
  · rw [hheap x (List.mem_append_left _ hx)] at hobj
    exact h.built x hx obj hobj
  · rw [hheap x (List.mem_append_right _ hx)] at hobj
    have hjudged := h.judged x hx obj hobj
    rwa [hmon] at hjudged

/-- **Step lemma**: a flow is recomputed on the published graph. -/
theorem SweepInv.recompute {s : CtrlState} {fl : ℕ} {fls : List ℕ} {obj obj' : FlowObj}
    (h : s.SweepInv) (hmon : s.netmon = .sweeping (fl :: fls)) (hobj : s.heap[fl]? = some obj)
    (hobj' : recomputeFlow s.net.tables obj = .ok obj') :
    SweepInv { { s with heap := s.heap.set fl obj' }.flowRelease fl with
      netmon := .sweeping fls } := by
  obtain ⟨hsettled, hpresent⟩ := settled_of_recomputeFlow h.net hobj'
  have hsame := sameRoutes_flowRelease { s with heap := s.heap.set fl obj' } fl
  have hset : ∀ (x : ℕ) (o : FlowObj), (s.heap.set fl obj')[x]? = some o →
      o = obj' ∧ x = fl ∨ x ≠ fl ∧ s.heap[x]? = some o := fun x o ho => by
    rw [List.getElem?_set] at ho
    split at ho
    · next heq => exact .inl (by split at ho <;> simp_all)
    · next hne => exact .inr ⟨Ne.symm hne, ho⟩
  refine ⟨h.net, h.placed.mono ?_ (by simp [flowRelease, modifyFlow]), fun x hx o' ho' => ?_,
    fun x hx o' ho' => ?_⟩
  · rw [places, places, hmon]
    exact .refl _
  · obtain ⟨o, ho, hroute⟩ := hsame.same x o' ho'
    obtain ⟨rfl, rfl⟩ | ⟨hne, ho⟩ := hset x o ho
    · exact hroute.present (hpresent (h.built x hx obj hobj))
    · exact hroute.present (h.built x hx o ho)
  · obtain ⟨o, ho, hroute⟩ := hsame.same x o' ho'
    obtain ⟨rfl, rfl⟩ | ⟨hne, ho⟩ := hset x o ho
    · exact .inl (hroute.settled hsettled)
    · obtain hold | hlater := h.judged x hx o ho
      · exact .inl (hroute.settled hold)
      · rw [hmon] at hlater
        exact .inr ((List.mem_cons.mp hlater).resolve_left hne)

/-- **Step lemma**: `gc_flows` takes flows out of the table. -/
theorem SweepInv.gc {s : CtrlState} (h : s.SweepInv) (hidle : s.netmon = .idle) :
    SweepInv { s with
      flows := ⟨s.flows.entries.filter fun entry => !s.isExpired entry⟩
      netmon := .expiring ((s.flows.entries.filter s.isExpired).map Prod.snd) } := by
  have hperm := (List.filter_append_perm s.isExpired s.flows.entries).map Prod.snd
  rw [List.map_append] at hperm
  have hsub : ((s.flows.entries.filter fun entry => !s.isExpired entry).map Prod.snd).Sublist
      s.tableFlows := List.filter_sublist.map Prod.snd
  refine h.mono h.net rfl (.refl _) ?_ (List.Subset.refl _) fun fl hfl => ⟨hsub.subset hfl, ?_⟩
  · rw [places, places, hidle, List.append_assoc]
    exact ((List.perm_append_comm.trans hperm).append_left _).subperm.trans
      (List.sublist_append_left _ _).subperm
  · rw [hidle]
    exact id

/-- **Step lemma**: a new graph is published while no call is in progress; every flow in the table
is then before the sweep. -/
theorem SweepInv.sync {s : CtrlState} {mem : Bool} {net : NetState} {ret : Int} (h : s.SweepInv)
    (hidle : s.netmon = .idle) (hcalls : s.calls = [])
    (hcall : netCall s.net (.graphSync mem) = .ok (net, ret)) :
    SweepInv { s with net, netmon := if ret < 0 then .idle else .synced } := by
  have hnet := (h.net.change (netCall_change hcall)).1
  refine ⟨hnet, h.placed.mono ?_ rfl, by simp [hcalls], fun x hx obj hobj => ?_⟩
  · rw [places, places, hidle]
    split <;> exact .refl _
  · split
    · next hret =>
      have hjudged := h.judged x hx obj hobj
      rw [hidle] at hjudged
      cases netCall_change hcall with
      | reject => exact hjudged
      | idle | sync => contradiction
    · exact .inr trivial

/-- **Step lemma**: `recompute_flows` leaves out flows on edges of the published graph. -/
theorem SweepInv.collect {s : CtrlState} {fls : List ℕ} (h : s.SweepInv)
    (hmon : s.netmon = .synced)
    (hfls : s.collectAffected (s.flows.entries.map Prod.snd) = .ok fls) :
    SweepInv { fls.foldl flowHold s with netmon := .sweeping fls } := by
  obtain ⟨hsame, heq⟩ := foldl_flowHold fls s
  rw [heq]
  refine ⟨h.net, h.placed.mono ?_ hsame.length, fun x hx o' ho' => ?_, fun x hx o' ho' => ?_⟩
  · rw [places, places, hmon]
    exact .refl _
  · obtain ⟨o, ho, hroute⟩ := hsame.same x o' ho'
    exact hroute.present (h.built x hx o ho)
  · obtain ⟨o, ho, hroute⟩ := hsame.same x o' ho'
    by_cases hmem : x ∈ fls
    · exact .inr hmem
    · exact .inl (.inl (hroute.present (present_of_collectAffected hfls hx hmem ho)))

/-- **Step lemma.** Every step keeps the invariant. -/
theorem SweepInv.change {cfg : CtrlConfig} {s s' : CtrlState} {e : CtrlEvent} (h : s.SweepInv)
    (hchange : s.Change cfg e s') : s'.SweepInv := by
  cases hchange with
  | tick => exact h.mono h.net rfl (.refl _) (.refl _) (List.Subset.refl _) fun _ hfl => ⟨hfl, id⟩
  | notify hnet hev =>
    exact h.mono (h.net.netStep hnet) (tables_of_netStep hnet hev) (.refl _) (.refl _)
      (List.Subset.refl _) fun _ hfl => ⟨hfl, id⟩
  | ignore => exact h
  | reject => exact h.of_calls (.refl _)
  | admitted hadmitted => exact h.admitted hadmitted
  | publish hi hfree => exact h.publish hi hfree
  | @commit i ok fl c hi hc =>
    have hnone : builtFlow c = builtFlow (.committing fl) := by obtain rfl | rfl := hc <;> rfl
    exact h.of_calls (Pool.perm_filterMap_set hi hnone).subperm
  | @unlink i fl obj hi hobj =>
    have hperm : ((s.calls.set i (.unlinked fl)).filterMap builtFlow).Perm
        (s.calls.filterMap builtFlow) := Pool.perm_filterMap_set hi rfl
    have hsub := (foldl_erase_sublist obj.srcPrefixes s.flows).map Prod.snd
    exact h.mono h.net rfl (.refl _) ((hperm.subperm.append hsub.subperm).append (.refl _))
      hperm.subset fun fl hfl => ⟨hsub.subset hfl, id⟩
  | @finish i c hi hc =>
    exact h.of_calls ((List.eraseIdx_sublist _ i).filterMap builtFlow).subperm
  | @free i fl hi =>
    have hsub := (List.eraseIdx_sublist s.calls i).filterMap builtFlow
    exact h.mono h.net rfl (sameRoutes_modifyFlow s fl _ fun _ => ⟨rfl, rfl, rfl, rfl, rfl⟩)
      ((hsub.subperm.append (.refl _)).append (.refl _)) hsub.subset fun _ hfl => ⟨hfl, id⟩
  | gc hidle => exact h.gc hidle
  | expired hmon =>
    refine h.mono h.net rfl (.refl _) ?_ (List.Subset.refl _) fun fl hfl => ⟨hfl, ?_⟩
    · rw [places, places, hmon]
      exact .refl _
    · rw [hmon]
      exact id
  | expire hmon => exact h.expire hmon
  | sync hidle hcalls hcall => exact h.sync hidle hcalls hcall
  | collect hmon hfls => exact h.collect hmon hfls
  | swept hmon =>
    refine h.mono h.net rfl (.refl _) ?_ (List.Subset.refl _) fun fl hfl => ⟨hfl, ?_⟩
    · rw [places, places, hmon]
      exact .refl _
    · simp [hmon, toJudge]
  | recompute hmon hobj hobj' => exact h.recompute hmon hobj hobj'

/-- What the controller does to the network state is a run of the network state alone. -/
theorem exists_netRun {cfg : CtrlConfig} {events : List CtrlEvent} {s : CtrlState}
    (hrun : run cfg init events = some s) : ∃ evs, netRun netInit evs = some s.net := by
  have hstep : ∀ s e s', (∃ evs, netRun netInit evs = some s.net) → step cfg s e = some s' →
      ∃ evs, netRun netInit evs = some s'.net := by
    rintro s e s' ⟨evs, hevs⟩ hs
    have hsnoc : ∀ {ev net}, netStep s.net ev = some net →
        ∃ evs, netRun netInit evs = some net := fun {ev net} hnet => by
      refine ⟨evs ++ [ev], ?_⟩
      rw [netRun] at hevs ⊢
      rw [Transition.run_append, hevs, Option.bind_some, Transition.run_cons, hnet]
      rfl
    cases change_of_step hs with
    | notify hnet => exact hsnoc hnet
    | sync _ _ hcall => exact hsnoc (netStep_of_netCall hcall)
    | @collect fls =>
      rw [(foldl_flowHold fls s).2]
      exact ⟨evs, hevs⟩
    | _ => exact ⟨evs, hevs⟩
  exact Transition.run_invariant hstep ⟨[], rfl⟩ hrun

/-- `recompute_flows` has completed since the last synchronisation. -/
def swept (s : CtrlState) : Prop := s.netmon = .idle ∨ ∃ fls, s.netmon = .expiring fls

/-- **Main theorem.** Whatever the interleaving of the workers, the callbacks and the
synchronisations: once `recompute_flows` has completed, and until the next synchronisation,
every flow in the table has only edges that are in the published graph with the same metric, or
is an orphan, or the published graph has no path that meets its constraints; unless costs of that
graph reach `UINT32_MAX`. -/
theorem recompute_flows_upToDate (cfg : CtrlConfig) (events : List CtrlEvent) (s : CtrlState)
    (hrun : run cfg init events = some s) (hswept : s.swept)
    (hlt : s.net.graphStaging.nodes.length < UInt32.size) :
    ∀ bsid fl, (bsid, fl) ∈ s.flows.entries → ∃ obj, s.heap[fl]? = some obj ∧
      (obj.PathsFit s.net.tables → obj.UpToDate s.net.tables) := by
  have hstep : ∀ s e s', SweepInv s → step cfg s e = some s' → SweepInv s' :=
    fun _ _ _ h hs => h.change (change_of_step hs)
  have h := Transition.run_invariant hstep sweepInv_init hrun
  obtain ⟨evs, hevs⟩ := exists_netRun hrun
  obtain ⟨hfinalized, -⟩ := netRun_finalized hevs hlt
  intro bsid fl hmem
  have hfl : fl ∈ s.tableFlows := List.mem_map.mpr ⟨_, hmem, rfl⟩
  have hobj := List.getElem?_eq_getElem
    (h.placed.lt fl (by simp only [places, List.mem_append]; exact .inl (.inr hfl)))
  refine ⟨_, hobj, fun hfit => ?_⟩
  obtain hsettled | hlater := h.judged fl hfl _ hobj
  · exact hsettled.upToDate hfinalized hfit
  · obtain hmon | ⟨fls, hmon⟩ := hswept
    · simp [hmon, toJudge] at hlater
    · simp [hmon, toJudge] at hlater

/-- A flow is admitted, and its link gets a new metric before the next synchronisation and sweep. -/
def metricChange : List CtrlEvent :=
  linkUp ++ [.request requestAB ⟨true, true⟩, .publish 0 9, .commit 0 true, .finish 0,
    .notify (.linkstateUpdate ⟨"A", 3, "B", 4, 20, 100, 50, 7⟩ 0x20), .sync true, .collect,
    .recompute, .recompute]

/-- The flow then has the new edge. -/
theorem recompute_flows_upToDate_metric :
    ∃ s, run allowAll init metricChange = some s ∧ s.swept ∧ s.flows.entries = [(9, 0)] ∧
      (s.heap.flatMap fun obj => obj.srcPrefixes.flatMap fun sp => sp.epath.getD []).map
        Edge.metric = [20] ∧
      ∃ obj, s.heap[0]? = some obj ∧ obj.PathsFit s.net.tables ∧ obj.UpToDate s.net.tables := by
  have hfacts : ∃ s ∈ run allowAll init metricChange, s.netmon = .idle ∧
      s.net.graphStaging.nodes.length < UInt32.size ∧ s.flows.entries = [(9, 0)] ∧
      (s.heap.flatMap fun obj => obj.srcPrefixes.flatMap fun sp => sp.epath.getD []).map
        Edge.metric = [20] ∧
      (∀ e ∈ s.net.tables.edges, e.metric < uint32Max) ∧
      ∀ obj ∈ s.heap, (flowGraph s.net.tables obj.toFlow).nodes.length = 2 ∧
        ∀ e ∈ (flowGraph s.net.tables obj.toFlow).edges, (flowCost obj.toFlow e).toNat ≤ 20 := by
    decide +kernel
  obtain ⟨s, hrun, hidle, hlt, hflows, hedges, hmetrics, hcosts⟩ := hfacts
  obtain ⟨obj, hobj, hupToDate⟩ := recompute_flows_upToDate allowAll _ s hrun (.inl hidle) hlt 9 0
    (by simp [hflows])
  obtain ⟨evs, hevs⟩ := exists_netRun hrun
  obtain ⟨hfinalized, -⟩ := netRun_finalized hevs hlt
  obtain ⟨hnodes, hcost⟩ := hcosts obj (List.mem_of_getElem? hobj)
  have hfit : obj.PathsFit s.net.tables := by
    refine ⟨fun e he _ => hmetrics e he, ?_⟩
    exact costsFit_of_le (b := 20) (isSubgraph_flow hfinalized _ 0 0 []).finalized hcost
      (by rw [hnodes]; decide)
  exact ⟨s, hrun, .inl hidle, hflows, hedges, obj, hobj, hfit, hupToDate hfit⟩

/-- Routers `A`, `B` and `C` in a row, and a flow from `A` to `C`; then the link between `A` and `B`
gets the metric -2, which is 4294967294. -/
def costlyLink : List CtrlEvent :=
  [.notify (.nodestateRead ⟨"A", 1, [⟨1 <<< 120, 8⟩], none⟩ ⟨true, true⟩),
    .notify (.nodestateRead ⟨"B", 2, [], none⟩ ⟨true, true⟩),
    .notify (.nodestateRead ⟨"C", 3, [⟨2 <<< 120, 8⟩], none⟩ ⟨true, true⟩),
    .notify (.linkstateRead ⟨"A", 4, "B", 5, 10, 100, 50, 7⟩ ⟨true, true, true, true⟩),
    .notify (.linkstateRead ⟨"B", 6, "C", 7, 1, 100, 50, 7⟩ ⟨true, true, true, true⟩),
    .sync true, .collect, .recompute, .request requestAB ⟨true, true⟩, .publish 0 9,
    .commit 0 true, .finish 0, .notify (.linkstateUpdate ⟨"A", 4, "B", 5, -2, 100, 50, 7⟩ 0x20),
    .sync true, .collect, .recompute, .recompute]

/-- The path from `A` to `C` then costs `UINT32_MAX`, `graph_dijkstra` does not reach `C`, and the
flow stays on an edge of metric 10. -/
theorem recompute_flows_stale :
    ∃ s obj, run allowAll init costlyLink = some s ∧ s.swept ∧
      s.net.graphStaging.nodes.length < UInt32.size ∧ s.flows.entries = [(9, 0)] ∧
      s.heap[0]? = some obj ∧ ¬ obj.UpToDate s.net.tables := by
  have hfacts : ∃ s ∈ run allowAll init costlyLink, ∃ obj ∈ s.heap[0]?, s.netmon = .idle ∧
      s.net.graphStaging.nodes.length < UInt32.size ∧ s.flows.entries = [(9, 0)] ∧
      ¬ obj.Present s.net.tables ∧ obj.status ≠ .orphan ∧ obj.bw = 0 ∧ obj.delay = 0 ∧
      ∃ e ∈ s.net.tables.edges, e.localId = obj.srcrt ∧
        ∃ f ∈ s.net.tables.edges, f.localId = e.remoteId ∧ f.remoteId = obj.dstrt := by
    decide +kernel
  obtain ⟨s, hrun, obj, hobj, hidle, hlt, hflows, hstale, hstatus, hbw, hdelay, hpath⟩ := hfacts
  refine ⟨s, obj, hrun, .inl hidle, hlt, hflows, hobj, ?_⟩
  rintro (hpresent | horphan | hnone)
  · exact hstale hpresent
  · exact hstatus horphan
  · obtain ⟨e, he, hsrc, f, hf, hvia, hdst⟩ := hpath
    refine hnone ⟨[] ++ [e] ++ [f], hdst ▸ .snoc (.snoc .nil he hsrc) hf hvia, fun x _ => ?_,
      fun hne => absurd hdelay hne⟩
    rw [hbw]
    exact UInt32.zero_le

end CtrlState

end Srn
