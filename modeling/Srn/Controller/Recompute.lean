import Mathlib.Data.List.Dedup
import Srn.Controller
import Srn.NetState.Publish
import Srn.Segpath.Least
import Srn.Segpath.Waypoints

/-!
# Srn.Controller.Recompute

`recompute_flow` against `process_request`: the segments that a flow gets on a new graph, and those
that its request would be given there.

The constraints of the rule and of the request are stored in the flow, and `recompute_flow` reads
them from there.  The waypoints of the rule are not stored, so that a recomputed flow takes the
direct path.
-/

namespace Srn

open Route

/-! ## A request on another graph -/

/-- A later state of an admitted flow. -/
structure FlowObj.Later (fl₀ fl : FlowObj) : Prop where
  flow : fl.toFlow = fl₀.toFlow
  srcrt : fl.srcrt = fl₀.srcrt
  dstrt : fl.dstrt = fl₀.dstrt
  prefixes : fl.srcPrefixes.length = fl₀.srcPrefixes.length

/-- `recompute_flow` installs on the graph what `process_request` would compute there: the same
segments for every prefix, and nothing if there is no path. -/
def InstallsSame (cfg : CtrlConfig) (net : NetState) (req : FlowreqEntry) (g : Graph Link)
    (fl : FlowObj) (now : ℕ) : Prop :=
  ∃ fl', recomputeFlow g fl = .ok fl' ∧
    ((processRequest cfg { net with tables := g } req ⟨true, true⟩ now true =
        .ok (.unavailable, none) ∧ fl' = fl) ∨
      ∃ new, processRequest cfg { net with tables := g } req ⟨true, true⟩ now true =
          .ok (.allowed, some new) ∧
        fl'.srcPrefixes.map SrcPrefix.segs = new.srcPrefixes.map SrcPrefix.segs)

/-- Every flow admitted under the rule is recomputed, on every graph with its routers and with the
waypoints of the rule, as its request would be processed there. -/
def Rule.Recomputed (rule : Rule) : Prop :=
  ∀ (cfg : CtrlConfig) (net : NetState) (req : FlowreqEntry) (mem : RequestMem) (now : ℕ)
    (commit : Bool) (fl₀ fl : FlowObj) (g : Graph Link) (later : ℕ), cfg.ruleFor req = rule →
    processRequest cfg net req mem now commit = .ok (.allowed, some fl₀) → fl₀.Later fl →
    Finalized g → fl.srcrt ∈ g.nodes → fl.dstrt ∈ g.nodes → (∀ t ∈ rule.path, t ∈ g.nodes) →
    InstallsSame cfg net req g fl later

/-- The flow that `process_request` builds. -/
def newFlow (cfg : CtrlConfig) (req : FlowreqEntry) (src dst : NodeId) (now : ℕ)
    (segs : List (Segment Link)) (epath : Option (List (Edge Link))) : FlowObj :=
  { flowOf (cfg.ruleFor req) req with
    ttl := (cfg.ruleFor req).ttl.toUInt32
    srcrt := src
    dstrt := dst
    srcPrefixes := List.replicate cfg.nbProviders ⟨0, segs, epath⟩
    timestamp := now
    status := .active
    refcount := 1 }

section Request

variable {cfg : CtrlConfig} {net : NetState} {req : FlowreqEntry} {rt dstrt : Router}

/-- The request reaches `build_segpath`. -/
structure Routable (cfg : CtrlConfig) (net : NetState) (req : FlowreqEntry) (rt dstrt : Router) :
    Prop where
  pending : req.status = .pending
  allow : (cfg.ruleFor req).type = .allow
  source : lookupRouter net req.srcaddr = .ok (some rt)
  destination : lookupRouter net req.dstaddr = .ok (some dstrt)
  srcNode : rt.nodeId ∈ net.tables.nodes
  dstNode : dstrt.nodeId ∈ net.tables.nodes
  providers : cfg.nbProviders ≠ 0

theorem Routable.processRequest_eq_none (h : Routable cfg net req rt dstrt) (now : ℕ)
    (hbuild : buildSegpath net.tables (flowPathspec (flowOf (cfg.ruleFor req) req) rt.nodeId
      dstrt.nodeId (cfg.ruleFor req).path) = .ok none) :
    processRequest cfg net req ⟨true, true⟩ now true = .ok (.unavailable, none) := by
  simp [processRequest, admitFlow, h.pending, h.allow, h.source, h.destination, h.srcNode,
    h.dstNode, h.providers, hbuild, bind, Except.bind, pure, Except.pure]

theorem Routable.processRequest_eq_some (h : Routable cfg net req rt dstrt) (now : ℕ)
    {segs : List (Segment Link)} {epath : Option (List (Edge Link))}
    (hbuild : buildSegpath net.tables (flowPathspec (flowOf (cfg.ruleFor req) req) rt.nodeId
      dstrt.nodeId (cfg.ruleFor req).path) = .ok (some (segs, epath))) :
    processRequest cfg net req ⟨true, true⟩ now true =
      .ok (.allowed, some (newFlow cfg req rt.nodeId dstrt.nodeId now segs epath)) := by
  simp [processRequest, admitFlow, newFlow, h.pending, h.allow, h.source, h.destination, h.srcNode,
    h.dstNode, h.providers, hbuild, bind, Except.bind, pure, Except.pure]

/-- A request that was allowed is routable on any graph with the routers of its flow. -/
theorem exists_routable {mem : RequestMem} {now : ℕ} {commit : Bool} {fl : FlowObj}
    (h : processRequest cfg net req mem now commit = .ok (.allowed, some fl)) {g : Graph Link}
    (hsrc : fl.srcrt ∈ g.nodes) (hdst : fl.dstrt ∈ g.nodes) :
    ∃ rt dstrt, Routable cfg { net with tables := g } req rt dstrt ∧ rt.nodeId = fl.srcrt ∧
      dstrt.nodeId = fl.dstrt := by
  obtain ⟨segs, epath, hadmitted⟩ := admitted_of_processRequest h
  obtain ⟨rt, hrt, hsrcrt⟩ := hadmitted.source
  obtain ⟨dstrt, hdstrt, hdstid⟩ := hadmitted.destination
  have hpending : req.status = .pending := by
    by_contra hne
    simp [processRequest, hne] at h
  have hallow : (cfg.ruleFor req).type = .allow := by
    cases htype : (cfg.ruleFor req).type with
    | allow => rfl
    | deny => simp [processRequest, hpending, htype] at h
  exact ⟨rt, dstrt, ⟨hpending, hallow, hrt, hdstrt, hsrcrt.symm ▸ hsrc, hdstid.symm ▸ hdst,
    hadmitted.providers⟩, hsrcrt, hdstid⟩

/-- A flow for which a path is found, on a graph with its routers. -/
theorem recomputeFlow_eq_some {g : Graph Link} (fl : FlowObj) (hsrc : fl.srcrt ∈ g.nodes)
    (hdst : fl.dstrt ∈ g.nodes) {segs : List (Segment Link)} {epath : Option (List (Edge Link))}
    (hbuild : buildSegpath g (flowPathspec fl.toFlow fl.srcrt fl.dstrt []) =
      .ok (some (segs, epath))) :
    recomputeFlow g fl =
      .ok { fl with srcPrefixes := fl.srcPrefixes.map fun sp => { sp with segs, epath } } := by
  simp [recomputeFlow, hsrc, hdst, hbuild]

end Request

/-! ## Without waypoints -/

/-- A rule without waypoints: the flow stores all the constraints that there are. -/
theorem recomputed_of_path_nil {rule : Rule} (hpath : rule.path = []) : rule.Recomputed := by
  intro cfg net req mem now commit fl₀ fl g later hrule hrun hlater hg hsrc hdst hvia
  obtain ⟨segs₀, epath₀, hadmitted⟩ := admitted_of_processRequest hrun
  obtain ⟨rt, dstrt, hrt, hrtid, hdstid⟩ := exists_routable hrun (hlater.srcrt ▸ hsrc)
    (hlater.dstrt ▸ hdst)
  have hflow : fl.toFlow = flowOf (cfg.ruleFor req) req := hlater.flow.trans hadmitted.flow
  obtain ⟨out, hbuild⟩ := exists_buildSegpath hg
    (isSubgraph_flow hg fl.toFlow fl.srcrt fl.dstrt []) (fun t ht => by simp [flowPathspec] at ht)
    hdst
  -- both call `build_segpath` with one and the same specification
  have hsame : flowPathspec (flowOf (cfg.ruleFor req) req) rt.nodeId dstrt.nodeId
      (cfg.ruleFor req).path = flowPathspec fl.toFlow fl.srcrt fl.dstrt [] := by
    rw [hflow, hrule, hpath, hrtid, hdstid, hlater.srcrt, hlater.dstrt]
  cases out with
  | none =>
    refine ⟨fl, by simp [recomputeFlow, hsrc, hdst, hbuild], .inl ⟨?_, rfl⟩⟩
    exact hrt.processRequest_eq_none later (hsame ▸ hbuild)
  | some out =>
    obtain ⟨segs, epath⟩ := out
    refine ⟨_, recomputeFlow_eq_some fl hsrc hdst hbuild,
      .inr ⟨_, hrt.processRequest_eq_some later (hsame ▸ hbuild), ?_⟩⟩
    have hlength : fl.srcPrefixes.length = cfg.nbProviders := by
      rw [hlater.prefixes, hadmitted.srcPrefixes, List.length_replicate]
    simp [newFlow, Function.comp_def, hlength]

/-! ## With waypoints -/

/-- A leg from a node to itself has no hop. -/
theorem Leg.eq_nil {ε σ : Type} {g gc : Graph ε} (hgc : Finalized gc) {dOps : DOps ε σ} {v : NodeId}
    {path : List NodeId} {segs : List (Segment ε)} (h : Leg g gc dOps v v path segs) :
    path = [] ∧ segs = [] := by
  have hpath := selectPath_self hgc h.select
  have hminseg := h.minseg
  rw [hpath] at hminseg
  refine ⟨hpath, ?_⟩
  cases hminseg with
  | last => rfl

/-- Behind the segment of a waypoint there is another one for the next. -/
theorem two_le_length_insertWaypoint {ε : Type} (v t : NodeId) (segs : List (Segment ε)) :
    2 ≤ (insertWaypoint t (.node v :: segs)).length := by
  obtain ⟨heq, e, he, -⟩ | heq := insertWaypoint_eq t (.node v :: segs)
  · rw [heq]
    cases segs with
    | nil => simp at he
    | cons s segs => simp
  · simp [heq]

/-- A link with all the bandwidth and no delay. -/
def meshEdge (u v : NodeId) : Edge Link := ⟨0, u, v, 1, ⟨0, 0, uint32Max, uint32Max, 0⟩⟩

/-- Routers with such a link between any two of them. -/
def mesh (ns : List NodeId) : Graph Link :=
  graphOf ns.dedup (ns.dedup.flatMap fun u => (ns.dedup.filter fun v => v ≠ u).map (meshEdge u))

section Mesh

variable {ns : List NodeId} {fl : Flow} {u v : NodeId}

theorem mem_mesh_edges {e : Edge Link} :
    e ∈ (mesh ns).edges ↔ ∃ u ∈ ns, ∃ v ∈ ns, v ≠ u ∧ meshEdge u v = e := by
  show e ∈ ns.dedup.flatMap (fun u => (ns.dedup.filter fun v => v ≠ u).map (meshEdge u)) ↔ _
  simp [and_assoc]

theorem mem_mesh_nodes : v ∈ (mesh ns).nodes ↔ v ∈ ns := List.mem_dedup

theorem finalized_mesh (ns : List NodeId) : Finalized (mesh ns) := by
  refine finalized_graphOf (List.nodup_dedup ns) fun e he => ?_
  obtain ⟨u, hu, v, hv, -, rfl⟩ := mem_mesh_edges.mp he
  exact ⟨List.mem_dedup.mpr hu, List.mem_dedup.mpr hv⟩

theorem isSubgraph_mesh (ns : List NodeId) (fl : Flow) :
    IsSubgraph (flowGraph (mesh ns) fl) (mesh ns) :=
  isSubgraph_flow (finalized_mesh ns) fl 0 0 []

/-- No link is pruned. -/
theorem flowGraph_mesh_edges : (flowGraph (mesh ns) fl).edges = (mesh ns).edges := by
  show (prePrune fl (graphClone (mesh ns))).edges = _
  unfold prePrune
  by_cases hbw : fl.bw = 0
  · rw [if_neg (by simp [hbw])]
    rfl
  · rw [if_pos hbw]
    apply List.filter_eq_self.mpr
    intro e he
    obtain ⟨u, -, v, -, -, rfl⟩ := mem_mesh_edges.mp he
    have hle : ¬ uint32Max < fl.bw := by
      rw [UInt32.not_lt, UInt32.le_iff_toNat_le]
      exact Nat.le_of_lt_succ fl.bw.toNat_lt
    simp [pruneBw, meshEdge, hle]

/-- Any two routers have a route. -/
theorem exists_isRoute_mesh (fl : Flow) (hu : u ∈ ns) (hv : v ∈ ns) :
    ∃ r c, IsRoute ((flowGraph (mesh ns) fl).hopCost (flowCost fl)) u v r c := by
  by_cases hne : v = u
  · subst hne
    exact ⟨[], 0, .refl⟩
  · have hlink : IsLink (flowGraph (mesh ns) fl) u v (meshEdge u v) :=
      ⟨flowGraph_mesh_edges ▸ mem_mesh_edges.mpr ⟨u, hu, v, hv, hne, rfl⟩, rfl, rfl,
        show (1 : UInt32) < uint32Max by decide⟩
    obtain ⟨e, he⟩ := hlink.exists_isMinEdge
    have hget := (isSubgraph_mesh ns fl).finalized.minEdges_get_eq_some_iff.mpr ⟨Ne.symm hne, he⟩
    have hcost : (flowGraph (mesh ns) fl).hopCost (flowCost fl) u v =
        some (flowCost fl e).toNat := by
      rw [Graph.hopCost, hget, Option.map_some]
    exact ⟨[v], _, IsRoute.refl.snoc hcost⟩

/-- A path is selected between any two routers, for a flow that asks for a delay. -/
theorem selectPath_mesh (hdelay : fl.delay ≠ 0) (hu : u ∈ ns) (hv : v ∈ ns) (src dst : NodeId)
    (via : List NodeId) :
    selectPath (flowGraph (mesh ns) fl) (flowPathspec fl src dst via).dOps u v ≠ .ok none := by
  have hgc := isSubgraph_mesh ns fl
  have hfit : CostsFit (flowGraph (mesh ns) fl) (flowCost fl) := by
    refine costsFit_of_le hgc.finalized (b := 0) (fun e he => ?_) (by rw [Nat.mul_zero]; decide)
    rw [flowGraph_mesh_edges] at he
    obtain ⟨u, -, v, -, -, rfl⟩ := mem_mesh_edges.mp he
    simp [flowCost, hdelay, meshEdge]
  intro hnone
  obtain ⟨-, hroute⟩ := selectPath_least hgc.finalized (flowPathspec_adds fl src dst via) hfit
    (hgc.nodes ▸ mem_mesh_nodes.mpr hu) (hgc.nodes ▸ mem_mesh_nodes.mpr hv) hnone
  obtain ⟨r, c, hr⟩ := exists_isRoute_mesh fl hu hv
  exact hroute rfl r c hr

/-- The flow from a router to itself that is recomputed has one segment. -/
theorem buildSegpath_mesh_nil (ns : List NodeId) (hdelay : fl.delay ≠ 0) (hv : v ∈ ns) :
    ∃ epath, buildSegpath (mesh ns) (flowPathspec fl v v []) = .ok (some ([.node v], epath)) := by
  obtain ⟨hnone, -⟩ | ⟨path, segs, hleg, hloop⟩ := segpathLoop_leg (finalized_mesh ns)
    (isSubgraph_mesh ns fl) (flowPathspec fl v v []).dOps v (mem_mesh_nodes.mpr hv)
  · exact absurd hnone (selectPath_mesh hdelay hv hv v v [])
  · obtain ⟨rfl, rfl⟩ := hleg.eq_nil (isSubgraph_mesh ns fl).finalized
    exact ⟨_, by
      rw [buildSegpath]
      show ((segpathLoop (mesh ns) (flowGraph (mesh ns) fl) _ v [] [] [v]) >>= _) = _
      rw [hloop]
      rfl⟩

/-- The flow that goes from a router over that same router has two segments at least. -/
theorem buildSegpath_mesh_cons (ns : List NodeId) (hdelay : fl.delay ≠ 0) {via : List NodeId}
    (hvia : ∀ t ∈ v :: via, t ∈ ns) :
    ∃ segs epath, buildSegpath (mesh ns) (flowPathspec fl v v (v :: via)) =
      .ok (some (segs, epath)) ∧ 2 ≤ segs.length := by
  have hg := finalized_mesh ns
  have hgc := isSubgraph_mesh ns fl
  have hv := hvia v List.mem_cons_self
  obtain ⟨t, ts, hts⟩ := List.exists_cons_of_ne_nil
    (List.append_ne_nil_of_right_ne_nil via (List.cons_ne_nil v []))
  have hmem : ∀ t' ∈ t :: ts, t' ∈ ns := by
    intro t' ht'
    rw [← hts, List.mem_append, List.mem_singleton] at ht'
    obtain ht' | rfl := ht'
    · exact hvia t' (List.mem_cons_of_mem _ ht')
    · exact hv
  have hselect : ∀ x ∈ ns, ∀ y ∈ ns, selectPath (flowGraph (mesh ns) fl)
      (flowPathspec fl v v (v :: via)).dOps x y ≠ .ok none :=
    fun x hx y hy => selectPath_mesh hdelay hx hy v v (v :: via)
  -- the leg to the first waypoint, which is where the flow starts
  obtain ⟨hnone, -⟩ | ⟨path, segs, hleg, hloop₁⟩ := segpathLoop_leg hg hgc
    (flowPathspec fl v v (v :: via)).dOps v (mem_mesh_nodes.mpr hv)
  · exact absurd hnone (hselect v hv v hv)
  obtain ⟨rfl, rfl⟩ := hleg.eq_nil (isSubgraph_mesh ns fl).finalized
  -- the next leg, and what is left
  obtain ⟨hnone, -⟩ | ⟨path, segs, -, hloop₂⟩ := segpathLoop_leg hg hgc
    (flowPathspec fl v v (v :: via)).dOps v (mem_mesh_nodes.mpr (hmem t List.mem_cons_self))
  · exact absurd hnone (hselect v hv t (hmem t List.mem_cons_self))
  obtain ⟨out, hloop₃, hmore, hout⟩ := segpathLoop_spec hg hgc
    (flowPathspec fl v v (v :: via)).dOps t
    (fun t' ht' => mem_mesh_nodes.mpr (hmem t' (List.mem_cons_of_mem _ ht')))
    (insertWaypoint t (.node v :: segs)) ([v] ++ v :: path)
  have hloop : segpathLoop (mesh ns) (flowGraph (mesh ns) fl)
      (flowPathspec fl v v (v :: via)).dOps v [] [] (v :: (via ++ [v])) = .ok out := by
    rw [hloop₁, hts]
    exact (hloop₂ [.node v] [v] ts).trans hloop₃
  cases out with
  | none =>
    obtain ⟨x, hx, y, hy, hnone⟩ := hout rfl
    exact absurd hnone (hselect x (hmem x hx) y (hmem y (List.mem_cons_of_mem _ hy)))
  | some out =>
    obtain ⟨more, hres⟩ := hmore out.1 out.2 rfl
    refine ⟨out.1, nodesToEdges (mesh ns) out.2, ?_, ?_⟩
    · rw [buildSegpath]
      show ((segpathLoop (mesh ns) (flowGraph (mesh ns) fl) _ v [] [] (v :: (via ++ [v]))) >>=
        _) = _
      rw [hloop]
      rfl
    · have htwo := two_le_length_insertWaypoint v t segs
      rw [hres, List.length_append]
      omega

end Mesh

/-- Router `A` with a prefix. -/
def routerA : List NetEvent := [.nodestateRead ⟨"A", 1, [⟨1 <<< 120, 8⟩], none⟩ ⟨true, true⟩]

/-- Router `A` at a node. -/
def routerAt (v : NodeId) : Router := ⟨"A", 1, none, [⟨1 <<< 120, 8⟩], v⟩

/-- The network state with router `A` at the given node of a graph. -/
def netAt (v : NodeId) (g : Graph Link) : NetState :=
  { (netRun netInit routerA).getD netInit with
    routers := Table.empty.set "A" (routerAt v)
    tables := g }

theorem lookupRouter_netAt (v : NodeId) (g : Graph Link) {addr : In6Addr}
    (haddr : addr = 1 <<< 120) : lookupRouter (netAt v g) addr = .ok (some (routerAt v)) := by
  have hlookup : lpmLookup (netAt v g).prefixes (1 <<< 120) = .ok (some "A") := by
    show lpmLookup ((netRun netInit routerA).getD netInit).prefixes (1 <<< 120) = _
    decide +kernel
  have hrouter : (netAt v g).routers.get "A" = some (routerAt v) := by simp [netAt]
  rw [lookupRouter, haddr, hlookup]
  simp only [hrouter]

theorem flowOf_requestAA_delay (rule : Rule) : (flowOf rule (requestAA 1)).delay ≠ 0 := by
  show orElse rule.delay 1 ≠ 0
  unfold orElse
  by_cases hdelay : rule.delay = 0
  · rw [if_neg (by simp [hdelay])]
    decide
  · rw [if_pos hdelay]
    intro hzero
    apply hdelay
    generalize rule.delay = delay at hzero ⊢
    cases delay with
    | ofUInt32 x =>
      obtain rfl : x = 0 := hzero
      rfl

/-- The request of router `A` at the first waypoint, in a mesh of the waypoints. -/
theorem routable_mesh {rule : Rule} (hallow : rule.type = .allow) {v : NodeId}
    (hv : v ∈ rule.path) :
    Routable ⟨[], rule, 1⟩ (netAt v (mesh rule.path)) (requestAA 1) (routerAt v) (routerAt v) where
  pending := rfl
  allow := hallow
  source := lookupRouter_netAt v _ rfl
  destination := lookupRouter_netAt v _ rfl
  srcNode := mem_mesh_nodes.mpr hv
  dstNode := mem_mesh_nodes.mpr hv
  providers := Nat.one_ne_zero

/-- **Main theorem.** For every rule that allows flows: its flows are recomputed, on every graph, as
their requests would be processed there, exactly when the rule lists no waypoints. -/
theorem recomputed_iff (rule : Rule) (hallow : rule.type = .allow) :
    rule.Recomputed ↔ rule.path = [] := by
  refine ⟨fun h => ?_, recomputed_of_path_nil⟩
  by_contra hpath
  obtain ⟨v, via, hvia⟩ := List.exists_cons_of_ne_nil hpath
  have hdelay := flowOf_requestAA_delay rule
  have hv : v ∈ rule.path := by simp [hvia]
  have hnode : v ∈ (mesh rule.path).nodes := mem_mesh_nodes.mpr hv
  have hroutable := routable_mesh hallow hv
  -- the request gets two segments, and the flow one segment when it is recomputed
  obtain ⟨segs, epath, hbuild, htwo⟩ := buildSegpath_mesh_cons rule.path hdelay
    (fun t ht => hvia.symm ▸ ht)
  rw [← hvia] at hbuild
  obtain ⟨epath', hbuild'⟩ := buildSegpath_mesh_nil rule.path hdelay hv
  have hrun := hroutable.processRequest_eq_some 0 hbuild
  obtain ⟨fl', hfl', hsame⟩ := h ⟨[], rule, 1⟩ (netAt v (mesh rule.path)) (requestAA 1)
    ⟨true, true⟩ 0 true (newFlow ⟨[], rule, 1⟩ (requestAA 1) v v 0 segs epath)
    (newFlow ⟨[], rule, 1⟩ (requestAA 1) v v 0 segs epath) (mesh rule.path) 0 rfl hrun
    ⟨rfl, rfl, rfl, rfl⟩ (finalized_mesh rule.path) hnode hnode
    (fun t ht => mem_mesh_nodes.mpr ht)
  have hrecompute := recomputeFlow_eq_some
    (newFlow ⟨[], rule, 1⟩ (requestAA 1) v v 0 segs epath) hnode hnode hbuild'
  obtain rfl := Except.ok.inj (hrecompute.symm.trans hfl')
  obtain ⟨hnone, -⟩ | ⟨new, hnew, hsegs⟩ := hsame
  · have hfalse := hnone.symm.trans hrun
    simp at hfalse
  · have hflow := Option.some.inj (Prod.mk.inj (Except.ok.inj (hnew.symm.trans hrun))).2
    rw [hflow] at hsegs
    have hone : [.node v] = segs := by simpa [newFlow] using hsegs
    rw [← hone] at htwo
    simp at htwo

/-- Routers `A`, `B` and `C` with a prefix each, and a link between any two of them. -/
def triangle : List NetEvent :=
  [.nodestateRead ⟨"A", 1, [⟨1 <<< 120, 8⟩], none⟩ ⟨true, true⟩,
    .nodestateRead ⟨"B", 2, [⟨2 <<< 120, 8⟩], none⟩ ⟨true, true⟩,
    .nodestateRead ⟨"C", 3, [⟨3 <<< 120, 8⟩], none⟩ ⟨true, true⟩,
    .linkstateRead ⟨"A", 4, "B", 5, 10, 100, 50, 7⟩ ⟨true, true, true, true⟩,
    .linkstateRead ⟨"B", 6, "C", 7, 10, 100, 50, 7⟩ ⟨true, true, true, true⟩,
    .linkstateRead ⟨"A", 8, "C", 9, 10, 100, 50, 7⟩ ⟨true, true, true, true⟩, .graphSync true]

/-- A fourth router, and the next synchronisation. -/
def routerD : List NetEvent :=
  [.nodestateRead ⟨"D", 10, [⟨4 <<< 120, 8⟩], none⟩ ⟨true, true⟩, .graphSync true]

/-- A rule that sends everything over the given nodes. -/
def allowVia (via : List NodeId) : CtrlConfig := ⟨[], ⟨.allow, "", "", via, 0, 0, 5⟩, 1⟩

/-- A request from the prefix of `A` to that of `C`. -/
def requestAC : FlowreqEntry := ⟨"a", "c", 1 <<< 120, 3 <<< 120, 0, 0, .pending⟩

/-- The flow from `A` to `C`. -/
def flowAC (segs : List (Segment Link)) (epath : Option (List (Edge Link))) : FlowObj :=
  ⟨⟨0, 0⟩, 5, 1, 3, [⟨0, segs, epath⟩], 0, .active, 1⟩

/-- The direct link from `A` to `C`. -/
def linkAC : Edge Link := ⟨5, 1, 3, 10, ⟨8, 9, 100, 50, 7⟩⟩

/-- Once `D` has joined the network, the flow from `A` to `C` over `B` loses its waypoint. -/
theorem recompute_drops_waypoint :
    ∃ net net', netRun netInit triangle = some net ∧ netRun net routerD = some net' ∧
      processRequest (allowVia [2]) net requestAC ⟨true, true⟩ 0 true =
        .ok (.allowed, some (flowAC [.node 2, .node 3] none)) ∧
      processRequest (allowVia [2]) { net with tables := net'.tables } requestAC ⟨true, true⟩ 0
        true = .ok (.allowed, some (flowAC [.node 2, .node 3] none)) ∧
      recomputeFlow net'.tables (flowAC [.node 2, .node 3] none) =
        .ok (flowAC [.node 3] (some [linkAC])) ∧
      ¬ InstallsSame (allowVia [2]) net requestAC net'.tables (flowAC [.node 2, .node 3] none)
        0 := by
  have hfacts : ((netRun netInit triangle).bind fun net => (netRun net routerD).map fun net' =>
      (processRequest (allowVia [2]) net requestAC ⟨true, true⟩ 0 true,
        processRequest (allowVia [2]) { net with tables := net'.tables } requestAC ⟨true, true⟩ 0
          true, recomputeFlow net'.tables (flowAC [.node 2, .node 3] none))) =
      some (.ok (.allowed, some (flowAC [.node 2, .node 3] none)),
        .ok (.allowed, some (flowAC [.node 2, .node 3] none)),
        .ok (flowAC [.node 3] (some [linkAC]))) := by
    decide +kernel
  obtain ⟨net, hnet, hrest⟩ := Option.bind_eq_some_iff.mp hfacts
  obtain ⟨net', hnet', heq⟩ := Option.map_eq_some_iff.mp hrest
  simp only [Prod.mk.injEq] at heq
  obtain ⟨hfirst, hagain, hrecompute⟩ := heq
  refine ⟨net, net', hnet, hnet', hfirst, hagain, hrecompute, fun hsame => ?_⟩
  obtain ⟨fl', hfl', ⟨hnone, -⟩ | ⟨new, hnew, hsegs⟩⟩ := hsame
  · rw [hagain] at hnone
    simp at hnone
  · rw [hrecompute] at hfl'
    rw [hagain] at hnew
    obtain rfl := Except.ok.inj hfl'
    obtain rfl := Option.some.inj (Prod.mk.inj (Except.ok.inj hnew)).2
    exact absurd hsegs (by decide)

/-- Without a waypoint the flow from `A` to `C` stays on its link. -/
theorem recomputed_without_waypoint :
    ∃ net net', netRun netInit triangle = some net ∧ netRun net routerD = some net' ∧
      processRequest (allowVia []) net requestAC ⟨true, true⟩ 0 true =
        .ok (.allowed, some (flowAC [.node 3] (some [linkAC]))) ∧
      InstallsSame (allowVia []) net requestAC net'.tables
        (flowAC [.node 3] (some [linkAC])) 0 := by
  have hfacts : ((netRun netInit triangle).bind fun net => (netRun net routerD).map fun net' =>
      (processRequest (allowVia []) net requestAC ⟨true, true⟩ 0 true, net'.tables.nodes,
        net'.graphStaging.nodes.length)) =
      some (.ok (.allowed, some (flowAC [.node 3] (some [linkAC]))), [1, 2, 3, 4], 4) := by
    decide +kernel
  obtain ⟨net, hnet, hrest⟩ := Option.bind_eq_some_iff.mp hfacts
  obtain ⟨net', hnet', heq⟩ := Option.map_eq_some_iff.mp hrest
  simp only [Prod.mk.injEq] at heq
  obtain ⟨hfirst, hnodes, hlength⟩ := heq
  have hrun : netRun netInit (triangle ++ routerD) = some net' := by
    show Transition.run netStep netInit (triangle ++ routerD) = some net'
    rw [Transition.run_append]
    exact Option.bind_eq_some_iff.mpr ⟨net, hnet, hnet'⟩
  have hfinal := (netRun_finalized hrun (by rw [hlength]; decide)).1
  have hrecomputed := (recomputed_iff (allowVia []).defrule rfl).mpr rfl
  exact ⟨net, net', hnet, hnet', hfirst, hrecomputed _ net _ _ _ _ _ _ net'.tables 0 rfl hfirst
    ⟨rfl, rfl, rfl, rfl⟩ hfinal (by rw [hnodes]; decide) (by rw [hnodes]; decide)
    (fun t ht => by simp [allowVia] at ht)⟩

end Srn
