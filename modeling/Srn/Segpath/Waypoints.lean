import Srn.Segpath.Build

/-!
# Srn.Segpath.Waypoints

`build_segpath` with waypoints.  The path is put together leg by leg from several searches, and the
node in which two legs meet is in it twice.  `nodes_to_edges` looks for an edge between the two,
and as there is none it returns `NULL`: a flow with waypoints has segments and no edges.
-/

namespace Srn

open Route

variable {ε σ : Type} {g : Graph ε} {u v : NodeId}

/-! ## The legs -/

/-- **Run lemma**: the loop over waypoints of the graph ends without a fault.  It extends the
segments, and it fails only if no path is selected for some leg. -/
theorem segpathLoop_spec {gc : Graph ε} (hg : Finalized g) (hgc : IsSubgraph gc g)
    (dOps : DOps ε σ) (cur : NodeId) {ts : List NodeId} (hts : ∀ t ∈ ts, t ∈ g.nodes)
    (res : List (Segment ε)) (fpath : List NodeId) :
    ∃ out, segpathLoop g gc dOps cur res fpath ts = .ok out ∧
      (∀ res' fpath', out = some (res', fpath') → ∃ more, res' = res ++ more) ∧
      (out = none → ∃ u ∈ cur :: ts, ∃ t ∈ ts, selectPath gc dOps u t = .ok none) := by
  induction ts generalizing cur res fpath with
  | nil =>
    refine ⟨some (res, fpath), rfl, fun res' fpath' heq => ?_, fun h => by contradiction⟩
    obtain ⟨rfl, -⟩ := Prod.mk.inj (Option.some.inj heq)
    exact ⟨[], (List.append_nil _).symm⟩
  | cons t ts ih =>
    obtain ⟨hselect, hloop⟩ | ⟨path, segs, -, hloop⟩ :=
      segpathLoop_leg hg hgc dOps cur (hts t List.mem_cons_self)
    · exact ⟨none, hloop res fpath ts, fun _ _ heq => by contradiction,
        fun _ => ⟨cur, List.mem_cons_self, t, List.mem_cons_self, hselect⟩⟩
    · obtain ⟨out, hrun, hmore, hnone⟩ := ih t (fun t' ht' => hts t' (List.mem_cons_of_mem _ ht'))
        (insertWaypoint t (res ++ segs)) (fpath ++ cur :: path)
      refine ⟨out, (hloop res fpath ts).trans hrun, fun res' fpath' heq => ?_, fun heq => ?_⟩
      · obtain ⟨more, rfl⟩ := hmore res' fpath' heq
        obtain ⟨hway, -⟩ | hway := insertWaypoint_eq t (res ++ segs)
        · exact ⟨segs ++ more, by rw [hway, List.append_assoc]⟩
        · exact ⟨segs ++ [.node t] ++ more, by simp [hway]⟩
      · obtain ⟨u, hu, t', ht', hselect⟩ := hnone heq
        exact ⟨u, List.mem_cons_of_mem _ hu, t', List.mem_cons_of_mem _ ht', hselect⟩

/-- `build_segpath` ends without a fault when the waypoints are in the graph. -/
theorem exists_buildSegpath {pspec : Pathspec ε σ} (hg : Finalized g)
    (hgc : IsSubgraph (pspec.constrained g) g) (hvia : ∀ t ∈ pspec.via, t ∈ g.nodes)
    (hdst : pspec.dst ∈ g.nodes) : ∃ out, buildSegpath g pspec = .ok out := by
  have hts : ∀ t ∈ pspec.via ++ [pspec.dst], t ∈ g.nodes := by
    intro t ht
    obtain ht | ht := List.mem_append.mp ht
    · exact hvia t ht
    · exact List.mem_singleton.mp ht ▸ hdst
  obtain ⟨out, hloop, -⟩ := segpathLoop_spec hg hgc pspec.dOps pspec.src hts [] []
  cases out with
  | none => exact ⟨none, by simp [buildSegpath, hloop, bind, Except.bind, pure, Except.pure]⟩
  | some out =>
    exact ⟨some (out.1, nodesToEdges g out.2),
      by simp [buildSegpath, hloop, bind, Except.bind, pure, Except.pure]⟩

/-! ## The joints between the legs -/

theorem mem_hops_append (front back : List NodeId) (a b : NodeId) :
    (a, b) ∈ hops (front ++ a :: b :: back) := by
  induction front with
  | nil => exact List.mem_cons_self
  | cons x front ih =>
    cases front with
    | nil => exact List.mem_cons_of_mem _ ih
    | cons y front => exact List.mem_cons_of_mem _ ih

/-- A path with a hop that has no minimal edge has no edges. -/
theorem nodesToEdges_eq_none {path : List NodeId} (hmem : (u, v) ∈ hops path)
    (hnone : g.minEdges.get (u, v) = none) : nodesToEdges g path = none := by
  unfold nodesToEdges
  generalize hops path = pairs at hmem
  induction pairs with
  | nil => simp at hmem
  | cons pair pairs ih =>
    rw [List.mapM_cons]
    obtain rfl | hmem := List.mem_cons.mp hmem
    · simp [hnone]
    · simp [ih hmem]

/-- A selected path ends in its destination. -/
theorem selectPath_end {dOps : DOps ε σ} (hg : Finalized g) {src dst : NodeId} {path : List NodeId}
    (h : selectPath g dOps src dst = .ok (some path)) : ∃ front, src :: path = front ++ [dst] := by
  obtain ⟨out, hout, hroute⟩ := selectPath_spec hg dOps src (mem_nodes_of_selectPath hg h)
  obtain ⟨-, c, hroute⟩ := hroute path (Except.ok.inj (hout.symm.trans h))
  rw [← List.reverse_reverse path]
  generalize path.reverse = r at hroute
  cases hroute with
  | refl => exact ⟨[], rfl⟩
  | @snoc u v r c m hr hm => exact ⟨src :: r.reverse, by simp⟩

/-- From a node to itself no hop is selected. -/
theorem selectPath_self {dOps : DOps ε σ} (hg : Finalized g) {path : List NodeId}
    (h : selectPath g dOps v v = .ok (some path)) : path = [] := by
  obtain ⟨out, hout, hroute⟩ := selectPath_spec hg dOps v (mem_nodes_of_selectPath hg h)
  obtain ⟨hnodup, c, hroute⟩ := hroute path (Except.ok.inj (hout.symm.trans h))
  rw [← List.reverse_reverse path] at hnodup ⊢
  generalize path.reverse = r at hroute hnodup
  cases hroute with
  | refl => rfl
  | snoc hr hm => simp at hnodup

/-- One round of the loop over the waypoints. -/
theorem segpathLoop_cons {gc : Graph ε} {dOps : DOps ε σ} {cur t : NodeId} {ts fpath : List NodeId}
    {res : List (Segment ε)} {out : List (Segment ε) × List NodeId}
    (h : segpathLoop g gc dOps cur res fpath (t :: ts) = .ok (some out)) :
    ∃ revPath res', selectPath gc dOps cur t = .ok (some revPath) ∧
      segpathLoop g gc dOps t res' (fpath ++ cur :: revPath) ts = .ok (some out) := by
  rw [segpathLoop] at h
  obtain ⟨found, hselect, h⟩ := Fault.bind_eq_ok_iff.mp h
  cases found with
  | none => simp [pure, Except.pure] at h
  | some revPath =>
    obtain ⟨segs, -, h⟩ := Fault.bind_eq_ok_iff.mp h
    cases segs with
    | none => simp [pure, Except.pure] at h
    | some segs => exact ⟨revPath, _, hselect, h⟩

/-- The loop extends the path. -/
theorem segpathLoop_append {gc : Graph ε} {dOps : DOps ε σ} {cur : NodeId} {ts fpath : List NodeId}
    {res : List (Segment ε)} {out : List (Segment ε) × List NodeId}
    (h : segpathLoop g gc dOps cur res fpath ts = .ok (some out)) :
    ∃ rest, out.2 = fpath ++ rest := by
  induction ts generalizing cur res fpath with
  | nil =>
    obtain rfl := Option.some.inj (Except.ok.inj h)
    exact ⟨[], (List.append_nil _).symm⟩
  | cons t ts ih =>
    obtain ⟨revPath, res', -, hrest⟩ := segpathLoop_cons h
    obtain ⟨rest, hout⟩ := ih hrest
    exact ⟨cur :: revPath ++ rest, by rw [hout, List.append_assoc]⟩

/-- A loop that does not fault has found its first target in the graph. -/
theorem mem_nodes_of_segpathLoop {gc : Graph ε} {dOps : DOps ε σ} (hgc : Finalized gc)
    {cur t : NodeId} {ts fpath : List NodeId} {res : List (Segment ε)}
    {out : Option (List (Segment ε) × List NodeId)}
    (h : segpathLoop g gc dOps cur res fpath (t :: ts) = .ok out) : t ∈ gc.nodes := by
  obtain ⟨found, hselect, -⟩ := Fault.bind_eq_ok_iff.mp h
  exact mem_nodes_of_selectPath hgc hselect

/-- For some leg no path is selected. -/
def NoPath (gc : Graph ε) (dOps : DOps ε σ) : NodeId → List NodeId → Prop
  | _, [] => False
  | cur, t :: ts => selectPath gc dOps cur t = .ok none ∨ NoPath gc dOps t ts

/-- The loop fails exactly when there is no path for some leg. -/
theorem segpathLoop_eq_none_iff {gc : Graph ε} {dOps : DOps ε σ} (hg : Finalized g)
    (hgc : IsSubgraph gc g) {cur : NodeId} {ts fpath : List NodeId} {res : List (Segment ε)}
    {out : Option (List (Segment ε) × List NodeId)}
    (h : segpathLoop g gc dOps cur res fpath ts = .ok out) :
    out = none ↔ NoPath gc dOps cur ts := by
  induction ts generalizing cur res fpath with
  | nil =>
    obtain rfl := Except.ok.inj h
    simp [NoPath]
  | cons t ts ih =>
    have hmem := hgc.nodes ▸ mem_nodes_of_segpathLoop hgc.finalized h
    obtain ⟨hselect, hloop⟩ | ⟨path, segs, hleg, hloop⟩ := segpathLoop_leg hg hgc dOps cur hmem
    · rw [hloop] at h
      obtain rfl := Except.ok.inj h
      exact ⟨fun _ => .inl hselect, fun _ => rfl⟩
    · rw [hloop] at h
      rw [ih h, NoPath, hleg.select]
      simp

/-- A target outside the graph is met before a leg without a path. -/
def LeavesGraph (gc : Graph ε) (dOps : DOps ε σ) : NodeId → List NodeId → Prop
  | _, [] => False
  | cur, t :: ts =>
    t ∉ gc.nodes ∨ selectPath gc dOps cur t ≠ .ok none ∧ LeavesGraph gc dOps t ts

/-- The loop faults exactly then. -/
theorem segpathLoop_ok_iff {gc : Graph ε} {dOps : DOps ε σ} (hg : Finalized g)
    (hgc : IsSubgraph gc g) (cur : NodeId) (res : List (Segment ε)) (fpath ts : List NodeId) :
    (∃ out, segpathLoop g gc dOps cur res fpath ts = .ok out) ↔ ¬ LeavesGraph gc dOps cur ts := by
  induction ts generalizing cur res fpath with
  | nil => simp [LeavesGraph, segpathLoop]
  | cons t ts ih =>
    unfold LeavesGraph
    by_cases ht : t ∈ gc.nodes
    · obtain ⟨hselect, hloop⟩ | ⟨path, segs, hleg, hloop⟩ :=
        segpathLoop_leg hg hgc dOps cur (hgc.nodes ▸ ht)
      · simp [ht, hselect, hloop]
      · rw [hloop, ih]
        simp [ht, hleg.select]
    · constructor
      · rintro ⟨out, hout⟩
        exact absurd (mem_nodes_of_segpathLoop hgc.finalized hout) ht
      · simp [ht]

/-- The path that is asked for leaves the graph. -/
def Pathspec.Leaves (pspec : Pathspec ε σ) (g : Graph ε) : Prop :=
  LeavesGraph (pspec.constrained g) pspec.dOps pspec.src (pspec.via ++ [pspec.dst])

/-- A leg of the path that is asked for has no path. -/
def Pathspec.Lacks (pspec : Pathspec ε σ) (g : Graph ε) : Prop :=
  NoPath (pspec.constrained g) pspec.dOps pspec.src (pspec.via ++ [pspec.dst])

/-- `build_segpath` faults exactly if the path leaves the graph. -/
theorem buildSegpath_ok_iff {pspec : Pathspec ε σ} (hg : Finalized g)
    (hgc : IsSubgraph (pspec.constrained g) g) :
    (∃ out, buildSegpath g pspec = .ok out) ↔ ¬ pspec.Leaves g := by
  rw [Pathspec.Leaves, ← segpathLoop_ok_iff hg hgc pspec.src [] []]
  cases hloop : segpathLoop g (pspec.constrained g) pspec.dOps pspec.src [] []
      (pspec.via ++ [pspec.dst]) with
  | error fault => simp [buildSegpath, hloop, bind, Except.bind]
  | ok out => cases out <;> simp [buildSegpath, hloop, bind, Except.bind, pure, Except.pure]

/-- It returns `NULL` exactly if there is no path for some leg. -/
theorem buildSegpath_noPath_iff {pspec : Pathspec ε σ} (hg : Finalized g)
    (hgc : IsSubgraph (pspec.constrained g) g)
    {out : Option (List (Segment ε) × Option (List (Edge ε)))}
    (h : buildSegpath g pspec = .ok out) : out = none ↔ pspec.Lacks g := by
  cases hloop : segpathLoop g (pspec.constrained g) pspec.dOps pspec.src [] []
      (pspec.via ++ [pspec.dst]) with
  | error fault => simp [buildSegpath, hloop, bind, Except.bind] at h
  | ok found =>
    rw [Pathspec.Lacks, ← segpathLoop_eq_none_iff hg hgc hloop]
    cases found with
    | none =>
      obtain rfl : none = out := by
        simpa [buildSegpath, hloop, bind, Except.bind, pure, Except.pure] using h
      simp
    | some found =>
      obtain rfl : some (found.1, nodesToEdges g found.2) = out := by
        simpa [buildSegpath, hloop, bind, Except.bind, pure, Except.pure] using h
      simp

/-- **With waypoints no edges are found**: the path repeats each waypoint, which is no link. -/
theorem epath_eq_none_of_via {pspec : Pathspec ε σ} (hg : Finalized g)
    (hgc : Finalized (pspec.constrained g)) (hvia : pspec.via ≠ []) {segs : List (Segment ε)}
    {epath : Option (List (Edge ε))} (h : buildSegpath g pspec = .ok (some (segs, epath))) :
    epath = none := by
  obtain ⟨fpath, hloop, hedges⟩ := exists_segpathLoop_of_buildSegpath h
  obtain ⟨t, via, hlist⟩ := List.exists_cons_of_ne_nil hvia
  obtain ⟨t', ts, hts⟩ := List.exists_cons_of_ne_nil
    (List.append_ne_nil_of_right_ne_nil via (List.cons_ne_nil pspec.dst []))
  rw [hlist, List.cons_append, hts] at hloop
  obtain ⟨path₁, res₁, hselect, hloop⟩ := segpathLoop_cons hloop
  obtain ⟨path₂, res₂, -, hloop⟩ := segpathLoop_cons hloop
  obtain ⟨rest, hout⟩ := segpathLoop_append hloop
  obtain ⟨front, hfront⟩ := selectPath_end hgc hselect
  rw [List.nil_append, hfront] at hout
  have hmem : (t, t) ∈ hops fpath := by
    rw [show fpath = _ from hout]
    simpa using mem_hops_append front (path₂ ++ rest) t t
  have hnone : g.minEdges.get (t, t) = none := by
    rw [Option.eq_none_iff_forall_ne_some]
    intro e he
    exact (hg.minEdges_get_eq_some_iff.mp he).1 rfl
  rw [← hedges, nodesToEdges_eq_none hmem hnone]

/-! ## The edges of a path with waypoints -/

/-- The edges lead from `u` to `v`, each from the node in which the one before it ends. -/
def EdgePath (g : Graph ε) : NodeId → List (Edge ε) → NodeId → Prop
  | u, [], v => u = v
  | u, e :: es, v => e ∈ g.edges ∧ e.localId = u ∧ EdgePath g e.remoteId es v

/-- `*epath` is a path of the graph that visits the waypoints in their order. -/
def EdgesVisit (g : Graph ε) (pspec : Pathspec ε σ) (epath : Option (List (Edge ε))) : Prop :=
  ∃ es, epath = some es ∧ EdgePath g pspec.src es pspec.dst ∧
    pspec.via.Sublist (pspec.src :: es.map Edge.remoteId)

/-- **Main theorem.** Whenever `build_segpath` returns segments for a path with waypoints, it does
not return the edges of that path. -/
theorem segpath_via_edges (g : Graph ε) (pspec : Pathspec ε σ) (hg : Finalized g)
    (hprune : pspec.PrunesOnly) (hvia : pspec.via ≠ []) (segs : List (Segment ε))
    (epath : Option (List (Edge ε))) (h : buildSegpath g pspec = .ok (some (segs, epath))) :
    ¬ EdgesVisit g pspec epath := by
  have hgc := (isSubgraph_constrained hg hprune).finalized
  intro hvisit
  obtain ⟨es, hes, -⟩ := hvisit
  rw [epath_eq_none_of_via hg hgc hvia h] at hes
  contradiction

/-- Three routers in a row. -/
def threeInRow : Graph Unit := graphOf [1, 2, 3] [⟨1, 1, 2, 1, ()⟩, ⟨2, 2, 3, 1, ()⟩]

theorem finalized_threeInRow : Finalized threeInRow := finalized_graphOf (by decide) (by decide)

/-- From one end to the other over the router in the middle, without constraints. -/
def overMiddle : Pathspec Unit Unit := ⟨1, 3, [2], none, defaultOps⟩

theorem buildSegpath_overMiddle :
    buildSegpath threeInRow overMiddle = .ok (some ([.node 2, .node 3], none)) := by
  decide +kernel

/-- The row is itself the path, but `*epath` is `NULL`. -/
theorem segpath_via_null :
    Finalized threeInRow ∧ overMiddle.via ≠ [] ∧
      buildSegpath threeInRow overMiddle = .ok (some ([.node 2, .node 3], none)) ∧
      EdgesVisit threeInRow overMiddle (some threeInRow.edges) ∧
      ¬ EdgesVisit threeInRow overMiddle none := by
  refine ⟨finalized_threeInRow, by decide, buildSegpath_overMiddle,
    ⟨threeInRow.edges, rfl, ?_, by decide⟩, by simp [EdgesVisit]⟩
  exact ⟨by decide, rfl, by decide, rfl, rfl⟩

/-- Without a callback the middle router is a waypoint like any other. -/
theorem segpath_via_edges_threeInRow : ¬ EdgesVisit threeInRow overMiddle none :=
  segpath_via_edges threeInRow overMiddle finalized_threeInRow
    (by simp [Pathspec.PrunesOnly, overMiddle]) (by decide) [.node 2, .node 3] none
    buildSegpath_overMiddle

end Srn
