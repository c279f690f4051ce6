import Mathlib.Data.List.Count
import Srn.Segpath.Waypoints

/-!
# Srn.Segpath.Refs

The references that `build_segpath` takes and gives back.  `graph_clone` takes one on every node and
edge, the segments and the edges that are returned take one each, and the shallow `graph_destroy`
and the error exits give references back.

The functions of `Srn.Segpath` are repeated here with the counts as a further argument, including
what they leave behind when they fail; forgetting the counts gives the functions there.  Two exits
do not give back what was taken: `graph_prune` drops an edge of the clone together with the
reference to it, and `nodes_to_edges` drops the edges it has collected when it fails.
-/

namespace Srn

open Route

variable {ε σ : Type}

/-! ## Reference counts -/

/-- The `refcount` of every node and edge.  A reference points to a node or to an edge, as a segment
does. -/
abbrev Refs (ε : Type) := Segment ε → ℤ

namespace Refs

variable [DecidableEq ε]

/-- `node_hold` and `edge_hold`. -/
def hold (r : Refs ε) (x : Segment ε) : Refs ε := Function.update r x (r x + 1)

/-- The decrement of `node_release` and `edge_release`. -/
def dec (r : Refs ε) (x : Segment ε) : Refs ε := Function.update r x (r x - 1)

/-- `node_release` and `edge_release`: an edge that is freed releases its ends. -/
def release (r : Refs ε) : Segment ε → Refs ε
  | .node n => r.dec (.node n)
  | .adjacency e =>
    if r.dec (.adjacency e) (.adjacency e) = 0 then
      ((r.dec (.adjacency e)).dec (.node e.localId)).dec (.node e.remoteId)
    else r.dec (.adjacency e)

/-- The references of a list, as `copy_segments` and `copy_edgepath` take them. -/
def holdAll (r : Refs ε) (l : List (Segment ε)) : Refs ε := l.foldl hold r

/-- The references of a list, as `free_segments` and `destroy_edgepath` give them back. -/
def releaseAll (r : Refs ε) (l : List (Segment ε)) : Refs ε := l.foldl release r

/-- The references that `graph_clone` takes. -/
def graphClone (r : Refs ε) (g : Graph ε) : Refs ε :=
  (r.holdAll (g.nodes.map .node)).holdAll (g.edges.map .adjacency)

/-- The references that the shallow `graph_destroy` gives back. -/
def graphDestroy (r : Refs ε) (g : Graph ε) : Refs ε :=
  (r.releaseAll (g.edges.map .adjacency)).releaseAll (g.nodes.map .node)

/-! ### Counting -/

theorem holdAll_append (r : Refs ε) (l l' : List (Segment ε)) :
    r.holdAll (l ++ l') = (r.holdAll l).holdAll l' := List.foldl_append

theorem count_cons_int (a : Segment ε) (l : List (Segment ε)) (x : Segment ε) :
    ((a :: l).count x : ℤ) = l.count x + if a = x then 1 else 0 := by
  rw [List.count_cons]
  by_cases hx : a = x <;> simp [hx]

theorem hold_apply (r : Refs ε) (a x : Segment ε) : r.hold a x = r x + if a = x then 1 else 0 := by
  unfold hold
  by_cases hx : x = a
  · subst hx
    simp
  · simp [hx, Ne.symm hx]

theorem holdAll_apply (r : Refs ε) (l : List (Segment ε)) (x : Segment ε) :
    r.holdAll l x = r x + l.count x := by
  induction l generalizing r with
  | nil => simp [holdAll]
  | cons a l ih =>
    show (r.hold a).holdAll l x = _
    rw [ih, hold_apply, count_cons_int]
    omega

theorem dec_apply (r : Refs ε) (a x : Segment ε) : r.dec a x = r x - if a = x then 1 else 0 := by
  unfold dec
  by_cases hx : x = a
  · subst hx
    simp
  · simp [hx, Ne.symm hx]

/-- The references that an edge holds itself. -/
def ends (e : Edge ε) : List (Segment ε) := [.node e.localId, .node e.remoteId]

/-- The references that go with the given one if it is the last. -/
def freed (r : Refs ε) : Segment ε → List (Segment ε)
  | .node _ => []
  | .adjacency e => if r (.adjacency e) = 1 then ends e else []

theorem count_freed_adjacency (r : Refs ε) (a : Segment ε) (e : Edge ε) :
    (r.freed a).count (.adjacency e) = 0 := by
  refine List.count_eq_zero_of_not_mem ?_
  cases a with
  | node n => simp [freed]
  | adjacency e' =>
    rw [freed]
    split_ifs <;> simp [ends]

theorem release_apply (r : Refs ε) (a x : Segment ε) :
    r.release a x = r x - (if a = x then 1 else 0) - (r.freed a).count x := by
  cases a with
  | node n => simp [release, freed, dec_apply]
  | adjacency e =>
    have hself : r.dec (.adjacency e) (.adjacency e) = r (.adjacency e) - 1 := by simp [dec_apply]
    by_cases hone : r (.adjacency e) = 1
    · rw [release, freed, if_pos (by omega : r.dec _ _ = 0), if_pos hone]
      simp only [dec_apply, ends, count_cons_int, List.count_nil]
      omega
    · rw [release, freed, if_neg (by omega : ¬ r.dec _ _ = 0), if_neg hone, dec_apply,
        List.count_nil]
      omega

/-- Releasing references takes at least those away. -/
theorem releaseAll_le (r : Refs ε) (l : List (Segment ε)) (x : Segment ε) :
    r.releaseAll l x ≤ r x - l.count x := by
  induction l generalizing r with
  | nil => simp [releaseAll]
  | cons a l ih =>
    have hrest := ih (r.release a)
    rw [release_apply] at hrest
    show (r.release a).releaseAll l x ≤ _
    rw [count_cons_int]
    omega

/-- As long as every edge keeps a reference, releasing takes the references of the list away. -/
theorem releaseAll_apply {r : Refs ε} {l : List (Segment ε)}
    (h : ∀ e, .adjacency e ∈ l → (l.count (.adjacency e) : ℤ) < r (.adjacency e)) (x : Segment ε) :
    r.releaseAll l x = r x - l.count x := by
  induction l generalizing r with
  | nil => simp [releaseAll]
  | cons a l ih =>
    have hfreed : r.freed a = [] := by
      cases a with
      | node n => rfl
      | adjacency e =>
        have hlt := h e List.mem_cons_self
        rw [List.count_cons_self] at hlt
        exact if_neg (by omega)
    show (r.release a).releaseAll l x = _
    rw [ih, release_apply, hfreed, count_cons_int, List.count_nil]
    · omega
    · intro e he
      have hlt := h e (List.mem_cons_of_mem _ he)
      rw [count_cons_int] at hlt
      rw [release_apply, hfreed, List.count_nil]
      omega

end Refs

/-! ## The edges that are held -/

/-- The edges that `nodes_to_edges` collects, up to the first hop that has none. -/
def heldEdges (g : Graph ε) : List (NodeId × NodeId) → List (Edge ε)
  | [] => []
  | pair :: path =>
    match g.minEdges.get pair with
    | none => []
    | some edge => edge :: heldEdges g path

/-- A conversion that succeeds returns the edges it holds. -/
theorem heldEdges_of_mapM {g : Graph ε} {path : List (NodeId × NodeId)} {es : List (Edge ε)}
    (h : path.mapM g.minEdges.get = some es) : heldEdges g path = es := by
  induction path generalizing es with
  | nil => simpa [heldEdges] using h
  | cons pair path ih =>
    unfold heldEdges
    cases hget : g.minEdges.get pair with
    | none => simp [List.mapM_cons, hget] at h
    | some edge =>
      cases hrest : path.mapM g.minEdges.get with
      | none => simp [List.mapM_cons, hget, hrest] at h
      | some es' =>
        obtain rfl : edge :: es' = es := by simpa [List.mapM_cons, hget, hrest] using h
        simp [ih hrest]

/-- With waypoints, none is held exactly if the first one is where the path starts. -/
theorem heldEdges_eq_nil_iff {g gc : Graph ε} {dOps : DOps ε σ} (hg : Finalized g)
    (hgc : IsSubgraph gc g) {src t : NodeId} {ts fpath : List NodeId} (hts : ts ≠ [])
    {res : List (Segment ε)}
    (h : segpathLoop g gc dOps src [] [] (t :: ts) = .ok (some (res, fpath))) :
    heldEdges g (hops fpath) = [] ↔ t = src := by
  obtain ⟨t', ts', rfl⟩ := List.exists_cons_of_ne_nil hts
  obtain ⟨path₁, res₁, hselect, h⟩ := segpathLoop_cons h
  obtain ⟨path₂, res₂, -, h⟩ := segpathLoop_cons h
  obtain ⟨rest, hout⟩ := segpathLoop_append h
  obtain rfl : fpath = src :: path₁ ++ t :: path₂ ++ rest := hout
  constructor
  · intro hnil
    by_contra hne
    cases path₁ with
    | nil =>
      obtain ⟨front, hend⟩ := selectPath_end hgc.finalized hselect
      have hlast := congrArg List.getLast? hend
      simp at hlast
      exact hne hlast.symm
    | cons x path₁ =>
      obtain ⟨out, hspec, hroute⟩ := selectPath_spec hgc.finalized dOps src
        (mem_nodes_of_selectPath hgc.finalized hselect)
      obtain ⟨-, c, hroute⟩ := hroute _ (Except.ok.inj (hspec.symm.trans hselect))
      obtain ⟨m, hm⟩ := weight_of_isRoute hroute (u := src) (v := x)
        (by rw [List.reverse_reverse]; exact List.mem_cons_self)
      obtain ⟨e, he⟩ := hgc.exists_minEdge hg hm
      simp [hops, heldEdges, he] at hnil
  · intro heq
    subst heq
    obtain rfl := selectPath_self hgc.finalized hselect
    have hnone : g.minEdges.get (t, t) = none := by
      rw [Option.eq_none_iff_forall_ne_some]
      intro e he
      exact (hg.minEdges_get_eq_some_iff.mp he).1 rfl
    simp [hops, heldEdges, hnone]

/-- The edges that `nodes_to_edges` has held when it returns `NULL`. -/
def dropped (g : Graph ε) (fpath : List NodeId) : List (Edge ε) :=
  match nodesToEdges g fpath with
  | some _ => []
  | none => heldEdges g (hops fpath)

/-- With waypoints, `nodes_to_edges` drops edges exactly if the first hop has one. -/
theorem dropped_eq_nil_iff {g : Graph ε} {pspec : Pathspec ε σ} (hg : Finalized g)
    (hprune : pspec.PrunesOnly) {res : List (Segment ε)} {fpath : List NodeId}
    (hloop : segpathLoop g (pspec.constrained g) pspec.dOps pspec.src [] []
      (pspec.via ++ [pspec.dst]) = .ok (some (res, fpath))) :
    dropped g fpath = [] ↔ pspec.via = [] ∨ pspec.via.head? = some pspec.src := by
  have hgc := isSubgraph_constrained hg hprune
  have hbuild : buildSegpath g pspec = .ok (some (res, nodesToEdges g fpath)) := by
    simp [buildSegpath, hloop, bind, Except.bind, pure, Except.pure]
  unfold dropped
  cases hvia : pspec.via with
  | nil =>
    rw [hvia, List.nil_append] at hloop
    have hdst := hgc.nodes ▸ mem_nodes_of_segpathLoop hgc.finalized hloop
    obtain ⟨-, hnone⟩ | ⟨path, segs, es, hbuilt⟩ := buildSegpath_cases hg hgc hvia hdst
    · simp [hbuild] at hnone
    · have hes : nodesToEdges g fpath = some es :=
        (Prod.mk.inj (Option.some.inj (Except.ok.inj (hbuild.symm.trans hbuilt.result)))).2
      simp [hes]
  | cons t ts =>
    have hnone := epath_eq_none_of_via hg hgc.finalized (by simp [hvia]) hbuild
    rw [hvia, List.cons_append] at hloop
    rw [hnone]
    simp [heldEdges_eq_nil_iff hg hgc (by simp) hloop]

/-! ## What is returned -/

/-- The node or edge is one of the graph. -/
def Segment.In (g : Graph ε) : Segment ε → Prop
  | .node n => n ∈ g.nodes
  | .adjacency e => e ∈ g.edges

theorem minsegChoice_subset (nodeR nodeI nodeII : NodeId) (edge : Edge ε)
    (prevR prevI : List NodeId) :
    (minsegChoice nodeR nodeI nodeII edge prevR prevI).2 ⊆ [.node nodeI, .adjacency edge] := by
  unfold minsegChoice
  split_ifs <;> simp

theorem Minseg.segment_in {g : Graph ε} (hg : Finalized g) {nodeR : NodeId} {path : List NodeId}
    {segs : List (Segment ε)} (h : Minseg g nodeR path segs) : ∀ x ∈ segs, x.In g := by
  induction h with
  | last => simp
  | @hop nodeR nodeI nodeII edge prevR prevI path segs hR hI hedge _ ih =>
    have hlink := (hg.minEdges_get_eq_some_iff.mp hedge).2.isLink
    intro x hx
    obtain hx | hx := List.mem_append.mp hx
    · obtain rfl | hx := List.mem_cons.mp (minsegChoice_subset _ _ _ _ _ _ hx)
      · exact (hlink.ends hg).1
      · rw [List.mem_singleton.mp hx]
        exact hlink.mem
    · exact ih x hx

theorem segpathLoop_in {g gc : Graph ε} {dOps : DOps ε σ} (hg : Finalized g)
    (hgc : IsSubgraph gc g) {cur : NodeId} {ts fpath fpath' : List NodeId}
    {res res' : List (Segment ε)} (hres : ∀ x ∈ res, x.In g)
    (h : segpathLoop g gc dOps cur res fpath ts = .ok (some (res', fpath'))) :
    ∀ x ∈ res', x.In g := by
  induction ts generalizing cur res fpath with
  | nil =>
    obtain ⟨rfl, -⟩ := Prod.mk.inj (Option.some.inj (Except.ok.inj h))
    exact hres
  | cons t ts ih =>
    have ht := hgc.nodes ▸ mem_nodes_of_segpathLoop hgc.finalized h
    obtain ⟨-, hloop⟩ | ⟨path, segs, hleg, hloop⟩ := segpathLoop_leg hg hgc dOps cur ht
    · simp [hloop] at h
    · rw [hloop] at h
      have hsegs : ∀ x ∈ res ++ segs, x.In g := by
        intro x hx
        obtain hx | hx := List.mem_append.mp hx
        · exact hres x hx
        · exact hleg.minseg.segment_in hg x hx
      refine ih (fun x hx => ?_) h
      obtain ⟨hway, -⟩ | hway := insertWaypoint_eq t (res ++ segs)
      · exact hsegs x (hway ▸ hx)
      · rw [hway] at hx
        obtain hx | hx := List.mem_append.mp hx
        · exact hsegs x hx
        · rw [List.mem_singleton.mp hx]
          exact ht

/-- The edges that are held are edges of the graph. -/
theorem mem_edges_of_heldEdges {g : Graph ε} (hg : Finalized g) {path : List (NodeId × NodeId)}
    {e : Edge ε} (he : e ∈ heldEdges g path) : e ∈ g.edges := by
  induction path with
  | nil => simp [heldEdges] at he
  | cons pair path ih =>
    unfold heldEdges at he
    cases hget : g.minEdges.get pair with
    | none => simp [hget] at he
    | some edge =>
      rw [hget] at he
      obtain rfl | he := List.mem_cons.mp he
      · exact (hg.minEdges_get_eq_some_iff.mp hget).2.isLink.mem
      · exact ih he

/-- The references that go with what `build_segpath` returns. -/
def returned : Option (List (Segment ε) × Option (List (Edge ε))) → List (Segment ε)
  | none => []
  | some (segs, epath) => segs ++ (epath.getD []).map .adjacency

/-- They point into the graph. -/
theorem returned_in {g : Graph ε} {pspec : Pathspec ε σ} (hg : Finalized g)
    (hprune : pspec.PrunesOnly) {out : Option (List (Segment ε) × Option (List (Edge ε)))}
    (h : buildSegpath g pspec = .ok out) : ∀ x ∈ returned out, x.In g := by
  intro x hx
  cases out with
  | none => simp [returned] at hx
  | some out =>
    obtain ⟨segs, epath⟩ := out
    obtain ⟨fpath, hloop, hedges⟩ := exists_segpathLoop_of_buildSegpath h
    obtain hx | hx := List.mem_append.mp hx
    · exact segpathLoop_in hg (isSubgraph_constrained hg hprune) (by simp) hloop x hx
    · obtain ⟨e, he, rfl⟩ := List.mem_map.mp hx
      cases epath with
      | none => simp at he
      | some es =>
        rw [← heldEdges_of_mapM hedges] at he
        exact mem_edges_of_heldEdges hg he

/-! ## Counted segment lists -/

section Counted

variable [DecidableEq ε]

/-- `insert_adj_segment` behind a node segment, with the new `node_r`. -/
def countedInsertAdj (g : Graph ε) (nodeI nodeII : NodeId) (res : List (Segment ε))
    (refs : Refs ε) : Option NodeId × List (Segment ε) × Refs ε :=
  match g.minEdges.get (nodeI, nodeII) with
  | none => (none, res, refs)
  | some edge => (some nodeII, res ++ [.adjacency edge], refs.hold (.adjacency edge))

/-- The body of the loop of `graph_minseg`; without a new `node_r` it fails. -/
def countedMinsegStep (g : Graph ε) (nodeR nodeI nodeII : NodeId) (res : List (Segment ε))
    (refs : Refs ε) : Except GraphFault (Option NodeId × List (Segment ε) × Refs ε) := do
  let resI ← cachedDijkstra g nodeI
  let resR ← cachedDijkstra g nodeR
  let prevR ← prevOf resR nodeII
  let res' := insertNodeSegment nodeI res
  let refs' := refs.hold (.node nodeI)
  if nodeI ∉ prevR then
    let prevI ← prevOf resI nodeII
    if prevI.length = 1 then return (some nodeI, res', refs')
    else return countedInsertAdj g nodeI nodeII res' refs'
  else if prevR.length ≤ 1 then return (some nodeR, res, refs)
  else
    let prevI ← prevOf resI nodeII
    if prevI.length > 1 then return countedInsertAdj g nodeI nodeII res' refs'
    else return (some nodeI, res', refs')

/-- The loop of `graph_minseg`; `false` is the return value of `-1`. -/
def countedMinsegLoop (g : Graph ε) : Option NodeId → List (Segment ε) → Refs ε →
    List (NodeId × NodeId) → Except GraphFault (Bool × List (Segment ε) × Refs ε)
  | _, res, refs, [] => .ok (true, res, refs)
  | nodeR, res, refs, (nodeI, nodeII) :: path => do
    match ← countedMinsegStep g (nodeR.getD nodeI) nodeI nodeII res refs with
    | (none, res, refs) => return (false, res, refs)
    | (some nodeR, res, refs) => countedMinsegLoop g (some nodeR) res refs path

/-- `graph_minseg`. -/
def countedMinseg (g : Graph ε) (path : List NodeId) (res : List (Segment ε)) (refs : Refs ε) :
    Except GraphFault (Bool × List (Segment ε) × Refs ε) :=
  countedMinsegLoop g none res refs (hops path)

/-- The waypoint segment. -/
def countedWaypoint (tmpNode : NodeId) (res : List (Segment ε)) (refs : Refs ε) :
    List (Segment ε) × Refs ε :=
  match res.getLast? with
  | some (.adjacency edge) =>
    if edge.remoteId = tmpNode then (res, refs)
    else (insertNodeSegment tmpNode res, refs.hold (.node tmpNode))
  | _ => (insertNodeSegment tmpNode res, refs.hold (.node tmpNode))

/-- The loop of `build_segpath`; without a path it goes to `out_error`. -/
def countedSegpathLoop (g gc : Graph ε) (dOps : DOps ε σ) :
    NodeId → List (Segment ε) → Refs ε → List NodeId → List NodeId →
      Except GraphFault (Option (List NodeId) × List (Segment ε) × Refs ε)
  | _, res, refs, fpath, [] => .ok (some fpath, res, refs)
  | curNode, res, refs, fpath, tmpNode :: path => do
    match ← selectPath gc dOps curNode tmpNode with
    | none => return (none, res, refs)
    | some revPath =>
      match ← countedMinseg g (curNode :: revPath) res refs with
      | (false, res, refs) => return (none, res, refs)
      | (true, res, refs) =>
        let (res, refs) := countedWaypoint tmpNode res refs
        countedSegpathLoop g gc dOps tmpNode res refs (fpath ++ curNode :: revPath) path

/-- `nodes_to_edges`, on the remaining hops. -/
def countedNodesToEdges (g : Graph ε) :
    List (NodeId × NodeId) → List (Edge ε) → Refs ε → Option (List (Edge ε)) × Refs ε
  | [], res, refs => (some res, refs)
  | pair :: path, res, refs =>
    match g.minEdges.get pair with
    | none => (none, refs)
    | some edge => countedNodesToEdges g path (res ++ [edge]) (refs.hold (.adjacency edge))

/-- `build_segpath`, with the counts that it leaves. -/
def countedBuildSegpath (g : Graph ε) (pspec : Pathspec ε σ) (refs : Refs ε) :
    Except GraphFault (Option (List (Segment ε) × Option (List (Edge ε))) × Refs ε) := do
  let gc := pspec.constrained g
  let refs := if pspec.prune.isSome then refs.graphClone g else refs
  let (fpath, res, refs) ←
    countedSegpathLoop g gc pspec.dOps pspec.src [] refs [] (pspec.via ++ [pspec.dst])
  let refs := if gc.cloned then refs.graphDestroy gc else refs
  match fpath with
  | none => return (none, refs.releaseAll res)
  | some fpath =>
    let (epath, refs) := countedNodesToEdges g (hops fpath) [] refs
    return (some (res, epath), refs)

/-! ## The references of the segments -/

/-- A list of segments is extended, and a reference taken for each new one. -/
structure Extends (g : Graph ε) (res : List (Segment ε)) (refs : Refs ε) (res' : List (Segment ε))
    (refs' : Refs ε) : Prop where
  segs : ∃ new, res' = res ++ new ∧ refs' = refs.holdAll new ∧
    ∀ e, .adjacency e ∈ new → ∃ pair, g.minEdges.get pair = some e

variable {g gc : Graph ε} {res res' res'' : List (Segment ε)} {refs refs' refs'' : Refs ε}

theorem Extends.refl : Extends g res refs res refs := ⟨[], by simp, rfl, by simp⟩

theorem Extends.trans (h : Extends g res refs res' refs') (h' : Extends g res' refs' res'' refs'') :
    Extends g res refs res'' refs'' := by
  obtain ⟨new, rfl, rfl, hmin⟩ := h.segs
  obtain ⟨new', rfl, rfl, hmin'⟩ := h'.segs
  refine ⟨new ++ new', by simp, (Refs.holdAll_append _ _ _).symm, fun e he => ?_⟩
  obtain he | he := List.mem_append.mp he
  · exact hmin e he
  · exact hmin' e he

theorem Extends.node (n : NodeId) :
    Extends g res refs (insertNodeSegment n res) (refs.hold (.node n)) :=
  ⟨[.node n], rfl, rfl, by simp⟩

theorem countedInsertAdj_spec (g : Graph ε) (nodeI nodeII : NodeId) (res : List (Segment ε))
    (refs : Refs ε) :
    Extends g res refs (countedInsertAdj g nodeI nodeII res refs).2.1
        (countedInsertAdj g nodeI nodeII res refs).2.2 ∧
      (countedInsertAdj g nodeI nodeII res refs).1.map
          (·, (countedInsertAdj g nodeI nodeII res refs).2.1) =
        (insertAdjSegment g nodeI nodeII res).map (nodeII, ·) := by
  unfold countedInsertAdj insertAdjSegment
  cases hget : g.minEdges.get (nodeI, nodeII) with
  | none => exact ⟨.refl, rfl⟩
  | some edge =>
    refine ⟨⟨[.adjacency edge], rfl, rfl, fun e he => ?_⟩, rfl⟩
    obtain rfl := Segment.adjacency.inj (List.mem_singleton.mp he)
    exact ⟨_, hget⟩

/-- The counted step extends the segments, and is the step when the counts are forgotten. -/
theorem countedMinsegStep_spec (g : Graph ε) (nodeR nodeI nodeII : NodeId)
    (res : List (Segment ε)) (refs : Refs ε) :
    (∃ fault, countedMinsegStep g nodeR nodeI nodeII res refs = .error fault ∧
      minsegStep g nodeR nodeI nodeII res = .error fault) ∨
    ∃ next res' refs', countedMinsegStep g nodeR nodeI nodeII res refs = .ok (next, res', refs') ∧
      minsegStep g nodeR nodeI nodeII res = .ok (next.map (·, res')) ∧
      Extends g res refs res' refs' := by
  have hnode : Extends g res refs (insertNodeSegment nodeI res) (refs.hold (.node nodeI)) :=
    .node nodeI
  obtain ⟨hadj, hadjeq⟩ := countedInsertAdj_spec g nodeI nodeII (insertNodeSegment nodeI res)
    (refs.hold (.node nodeI))
  unfold countedMinsegStep minsegStep
  cases hI : cachedDijkstra g nodeI with
  | error fault => exact .inl ⟨fault, rfl, rfl⟩
  | ok resI =>
    cases hR : cachedDijkstra g nodeR with
    | error fault => exact .inl ⟨fault, rfl, rfl⟩
    | ok resR =>
      cases hprevR : prevOf resR nodeII with
      | error fault =>
        exact .inl ⟨fault, by simp [hprevR, bind, Except.bind],
          by simp [hprevR, bind, Except.bind]⟩
      | ok prevR =>
        simp only [hprevR, bind, Except.bind, pure, Except.pure]
        cases hprevI : prevOf resI nodeII with
        | error fault =>
          by_cases hmem : nodeI ∈ prevR
          · by_cases hlen : prevR.length ≤ 1
            · exact .inr ⟨some nodeR, res, refs, by simp [hmem, hlen], by simp [hmem, hlen],
                .refl⟩
            · exact .inl ⟨fault, by simp [hmem, hlen], by simp [hmem, hlen]⟩
          · exact .inl ⟨fault, by simp [hmem], by simp [hmem]⟩
        | ok prevI =>
          refine .inr ?_
          by_cases hmem : nodeI ∈ prevR
          · by_cases hlen : prevR.length ≤ 1
            · simp only [hmem, hlen, not_true_eq_false, if_false, if_true]
              exact ⟨some nodeR, _, _, rfl, rfl, .refl⟩
            · by_cases hlenI : prevI.length > 1
              · simp only [hmem, hlen, hlenI, not_true_eq_false, if_false, if_true]
                exact ⟨_, _, _, rfl, congrArg Except.ok hadjeq.symm, hnode.trans hadj⟩
              · simp only [hmem, hlen, hlenI, not_true_eq_false, if_false]
                exact ⟨some nodeI, _, _, rfl, rfl, hnode⟩
          · by_cases hlenI : prevI.length = 1
            · simp only [hmem, hlenI, not_false_eq_true, if_true]
              exact ⟨some nodeI, _, _, rfl, rfl, hnode⟩
            · simp only [hmem, hlenI, not_false_eq_true, if_false, if_true]
              exact ⟨_, _, _, rfl, congrArg Except.ok hadjeq.symm, hnode.trans hadj⟩

/-- So do the counted loop of `graph_minseg` and the loop. -/
theorem countedMinsegLoop_spec (g : Graph ε) (nodeR : Option NodeId) (res : List (Segment ε))
    (refs : Refs ε) (path : List (NodeId × NodeId)) :
    (∃ fault, countedMinsegLoop g nodeR res refs path = .error fault ∧
      minsegLoop g nodeR res path = .error fault) ∨
    ∃ ok res' refs', countedMinsegLoop g nodeR res refs path = .ok (ok, res', refs') ∧
      minsegLoop g nodeR res path = .ok (if ok then some res' else none) ∧
      Extends g res refs res' refs' := by
  induction path generalizing nodeR res refs with
  | nil => exact .inr ⟨true, res, refs, rfl, rfl, .refl⟩
  | cons pair path ih =>
    obtain ⟨nodeI, nodeII⟩ := pair
    obtain ⟨fault, hc, hp⟩ | ⟨next, res₁, refs₁, hc, hp, hext⟩ :=
      countedMinsegStep_spec g (nodeR.getD nodeI) nodeI nodeII res refs
    · exact .inl ⟨fault, by simp [countedMinsegLoop, hc, bind, Except.bind],
        by simp [minsegLoop, hp, bind, Except.bind]⟩
    · cases next with
      | none =>
        refine .inr ⟨false, res₁, refs₁, ?_, ?_, hext⟩
        · simp [countedMinsegLoop, hc, bind, Except.bind, pure, Except.pure]
        · simp [minsegLoop, hp, bind, Except.bind, pure, Except.pure]
      | some next =>
        obtain ⟨fault, hc', hp'⟩ | ⟨ok, res₂, refs₂, hc', hp', hext'⟩ :=
          ih (some next) res₁ refs₁
        · exact .inl ⟨fault, by simp [countedMinsegLoop, hc, hc', bind, Except.bind],
            by simp [minsegLoop, hp, hp', bind, Except.bind]⟩
        · refine .inr ⟨ok, res₂, refs₂, ?_, ?_, hext.trans hext'⟩
          · simp [countedMinsegLoop, hc, hc', bind, Except.bind]
          · simp [minsegLoop, hp, hp', bind, Except.bind]

theorem countedWaypoint_spec (g : Graph ε) (t : NodeId) (res : List (Segment ε)) (refs : Refs ε) :
    (countedWaypoint t res refs).1 = insertWaypoint t res ∧
      Extends g res refs (countedWaypoint t res refs).1 (countedWaypoint t res refs).2 := by
  unfold countedWaypoint insertWaypoint
  cases res.getLast? with
  | none => exact ⟨rfl, .node t⟩
  | some last =>
    cases last with
    | node n => exact ⟨rfl, .node t⟩
    | adjacency e =>
      by_cases hend : e.remoteId = t
      · simp only [hend, if_true]
        exact ⟨trivial, .refl⟩
      · simp only [hend, if_false]
        exact ⟨trivial, .node t⟩

/-- And the counted loop over the waypoints. -/
theorem countedSegpathLoop_spec (g gc : Graph ε) (dOps : DOps ε σ) (cur : NodeId)
    (res : List (Segment ε)) (refs : Refs ε) (fpath ts : List NodeId) :
    (∃ fault, countedSegpathLoop g gc dOps cur res refs fpath ts = .error fault ∧
      segpathLoop g gc dOps cur res fpath ts = .error fault) ∨
    ∃ found res' refs',
      countedSegpathLoop g gc dOps cur res refs fpath ts = .ok (found, res', refs') ∧
      segpathLoop g gc dOps cur res fpath ts = .ok (found.map (res', ·)) ∧
      Extends g res refs res' refs' := by
  induction ts generalizing cur res refs fpath with
  | nil => exact .inr ⟨some fpath, res, refs, rfl, rfl, .refl⟩
  | cons t ts ih =>
    rw [countedSegpathLoop, segpathLoop]
    cases hselect : selectPath gc dOps cur t with
    | error fault => exact .inl ⟨fault, rfl, rfl⟩
    | ok found =>
      cases found with
      | none => exact .inr ⟨none, res, refs, rfl, rfl, .refl⟩
      | some path =>
        obtain ⟨fault, hc, hp⟩ | ⟨ok, res₁, refs₁, hc, hp, hext⟩ :=
          countedMinsegLoop_spec g none res refs (hops (cur :: path))
        · exact .inl ⟨fault, by simp [countedMinseg, hc, bind, Except.bind],
            by simp [graphMinseg, hp, bind, Except.bind]⟩
        · cases ok with
          | false =>
            refine .inr ⟨none, res₁, refs₁, ?_, ?_, hext⟩
            · simp [countedMinseg, hc, bind, Except.bind, pure, Except.pure]
            · simp [graphMinseg, hp, bind, Except.bind, pure, Except.pure]
          | true =>
            obtain ⟨hway, hext₁⟩ := countedWaypoint_spec g t res₁ refs₁
            obtain ⟨fault, hc', hp'⟩ | ⟨found, res₂, refs₂, hc', hp', hext₂⟩ :=
              ih t (countedWaypoint t res₁ refs₁).1 (countedWaypoint t res₁ refs₁).2
                (fpath ++ cur :: path)
            · rw [hway] at hp'
              refine .inl ⟨fault, ?_, ?_⟩
              · simp [countedMinseg, hc, hc', bind, Except.bind]
              · simp [graphMinseg, hp, hp', bind, Except.bind]
            · rw [hway] at hp'
              refine .inr ⟨found, res₂, refs₂, ?_, ?_, (hext.trans hext₁).trans hext₂⟩
              · simp [countedMinseg, hc, hc', bind, Except.bind]
              · simp [graphMinseg, hp, hp', bind, Except.bind]

theorem countedNodesToEdges_eq (g : Graph ε) (path : List (NodeId × NodeId)) (es : List (Edge ε))
    (refs : Refs ε) :
    countedNodesToEdges g path es refs = ((path.mapM g.minEdges.get).map (es ++ ·),
      refs.holdAll ((heldEdges g path).map .adjacency)) := by
  induction path generalizing es refs with
  | nil => simp [countedNodesToEdges, heldEdges, Refs.holdAll]
  | cons pair path ih =>
    unfold countedNodesToEdges heldEdges
    cases hget : g.minEdges.get pair with
    | none => simp [List.mapM_cons, hget, Refs.holdAll]
    | some edge =>
      simp only [ih]
      cases hrest : path.mapM g.minEdges.get with
      | none => simp [List.mapM_cons, hget, hrest, Refs.holdAll]
      | some es' => simp [List.mapM_cons, hget, hrest, Refs.holdAll]

/-- The counts after the loop and the destruction of the clone. -/
def afterLoop (g : Graph ε) (pspec : Pathspec ε σ) (refs : Refs ε) (res : List (Segment ε)) :
    Refs ε :=
  let refs := (if pspec.prune.isSome then refs.graphClone g else refs).holdAll res
  if (pspec.constrained g).cloned then refs.graphDestroy (pspec.constrained g) else refs

/-- The counts at the end, after an error exit or after `nodes_to_edges`. -/
def finalRefs (g : Graph ε) (pspec : Pathspec ε σ) (refs : Refs ε) (res : List (Segment ε)) :
    Option (List NodeId) → Refs ε
  | none => (afterLoop g pspec refs res).releaseAll res
  | some fpath =>
    (afterLoop g pspec refs res).holdAll ((heldEdges g (hops fpath)).map .adjacency)

/-- What `build_segpath` returns and leaves. -/
theorem countedBuildSegpath_spec {pspec : Pathspec ε σ}
    {out : Option (List (Segment ε) × Option (List (Edge ε)))} (refs : Refs ε)
    (h : buildSegpath g pspec = .ok out) :
    ∃ found res, segpathLoop g (pspec.constrained g) pspec.dOps pspec.src [] []
        (pspec.via ++ [pspec.dst]) = .ok (found.map (res, ·)) ∧
      (∀ e, .adjacency e ∈ res → ∃ pair, g.minEdges.get pair = some e) ∧
      out = found.map (fun fpath => (res, nodesToEdges g fpath)) ∧
      countedBuildSegpath g pspec refs = .ok (out, finalRefs g pspec refs res found) := by
  unfold buildSegpath at h
  obtain ⟨fault, -, hp⟩ | ⟨found, res, refs₁, hc, hp, hext⟩ := countedSegpathLoop_spec g
    (pspec.constrained g) pspec.dOps pspec.src []
    (if pspec.prune.isSome then refs.graphClone g else refs) [] (pspec.via ++ [pspec.dst])
  · simp [hp, bind, Except.bind] at h
  · obtain ⟨new, hres, rfl, hmin⟩ := hext.segs
    rw [List.nil_append] at hres
    subst hres
    have hout : out = found.map (fun fpath => (res, nodesToEdges g fpath)) := by
      cases found <;> simpa [hp, bind, Except.bind, pure, Except.pure] using h.symm
    refine ⟨found, res, hp, hmin, hout, ?_⟩
    unfold countedBuildSegpath
    rw [hout]
    cases found with
    | none => simp [hc, bind, Except.bind, pure, Except.pure, finalRefs, afterLoop]
    | some fpath =>
      simp [hc, bind, Except.bind, pure, Except.pure, finalRefs, afterLoop, nodesToEdges,
        countedNodesToEdges_eq]

/-! ## The balance -/

/-- Each count has grown by the occurrences in what is returned. -/
def Balanced (refs refs' : Refs ε) (out : Option (List (Segment ε) × Option (List (Edge ε)))) :
    Prop :=
  ∀ x, refs' x = refs x + (returned out).count x

/-- The references to the edges that the callback removes from the clone. -/
def pruned (g : Graph ε) (pspec : Pathspec ε σ) (x : Segment ε) : ℤ :=
  (g.edges.map .adjacency).count x - ((pspec.constrained g).edges.map .adjacency).count x

theorem count_adjacency (l : List (Edge ε)) (e : Edge ε) :
    (l.map Segment.adjacency).count (.adjacency e) = l.count e :=
  List.count_map_of_injective l Segment.adjacency (fun _ _ => Segment.adjacency.inj) e

theorem pruned_nonneg {pspec : Pathspec ε σ} (hprune : pspec.PrunesOnly) (x : Segment ε) :
    0 ≤ pruned g pspec x := by
  obtain ⟨keep, hkeep⟩ := exists_edges_constrained hprune g
  have hle := (List.filter_sublist (l := g.edges) (p := keep)).map Segment.adjacency |>.count_le x
  rw [pruned, hkeep]
  omega

/-- A reference is lost exactly if an edge is. -/
theorem pruned_eq_zero_iff {pspec : Pathspec ε σ} (hprune : pspec.PrunesOnly) :
    (∀ x, pruned g pspec x = 0) ↔ (pspec.constrained g).edges = g.edges := by
  constructor
  · intro hzero
    obtain ⟨keep, hkeep⟩ := exists_edges_constrained hprune g
    rw [hkeep, List.filter_eq_self]
    intro e he
    by_contra hout
    have hcount := hzero (.adjacency e)
    have hnone : (g.edges.filter keep).count e = 0 :=
      List.count_eq_zero_of_not_mem (by simp [hout])
    have hsome := List.count_pos_iff.mpr he
    rw [pruned, hkeep, count_adjacency, count_adjacency, hnone] at hcount
    omega
  · intro heq x
    rw [pruned, heq]
    omega

/-- The clone gives back what it took, except for the edges it has lost. -/
theorem afterLoop_apply {pspec : Pathspec ε σ} (res : List (Segment ε)) (hg : Finalized g)
    (hprune : pspec.PrunesOnly) (hclone : pspec.prune = none → g.cloned = false)
    (hrefs : ∀ e ∈ g.edges, 0 < refs (.adjacency e)) (x : Segment ε) :
    afterLoop g pspec refs res x = refs x + res.count x + pruned g pspec x := by
  have hgc := isSubgraph_constrained hg hprune
  have hle := pruned_nonneg (g := g) hprune
  unfold afterLoop
  cases hspec : pspec.prune with
  | none =>
    have hsame : pspec.constrained g = g := by rw [Pathspec.constrained, hspec]
    simp [pruned, hsame, hclone hspec, Refs.holdAll_apply]
  | some prune =>
    obtain ⟨tests, htests⟩ := hprune prune hspec (graphClone g)
    have hcloned : (pspec.constrained g).cloned = true := by
      rw [Pathspec.constrained, hspec]
      show (prune (graphClone g)).cloned = true
      rw [htests, foldl_graphPrune]
      rfl
    have hnodes : ∀ (l : List NodeId) (e : Edge ε),
        (l.map Segment.node).count (.adjacency e) = 0 := fun l e =>
      List.count_eq_zero_of_not_mem (by simp)
    simp only [Option.isSome_some, hcloned, if_true, Refs.graphClone, Refs.graphDestroy]
    rw [Refs.releaseAll_apply (by simp), Refs.releaseAll_apply]
    · simp only [Refs.holdAll_apply, hgc.nodes, pruned]
      omega
    · intro e he
      have hpos := hrefs e (hgc.edges (by simpa using he))
      have hleft := hle (.adjacency e)
      simp only [pruned] at hleft
      simp only [Refs.holdAll_apply, hnodes]
      omega

/-- A graph that is itself a clone is destroyed, if it is not cloned again. -/
theorem afterLoop_lt {pspec : Pathspec ε σ} (refs : Refs ε) (res : List (Segment ε))
    (hspec : pspec.prune = none) (hcloned : g.cloned = true) {n : NodeId} (hn : n ∈ g.nodes) :
    afterLoop g pspec refs res (.node n) < refs (.node n) + res.count (.node n) := by
  have hsame : pspec.constrained g = g := by rw [Pathspec.constrained, hspec]
  have hpos : 0 < (g.nodes.map (Segment.node (ε := ε))).count (.node n) :=
    List.count_pos_iff.mpr (List.mem_map_of_mem hn)
  simp only [afterLoop, hspec, Option.isSome_none, Bool.false_eq_true, if_false, hsame, hcloned,
    if_true, Refs.graphDestroy]
  have hnodes := Refs.releaseAll_le ((refs.holdAll res).releaseAll (g.edges.map .adjacency))
    (g.nodes.map .node) (.node n)
  have hedges := Refs.releaseAll_le (refs.holdAll res) (g.edges.map .adjacency) (.node n)
  have hhold := Refs.holdAll_apply refs res (.node n)
  omega

/-- **What is left over**: the counts grow by what is returned, and by the references that are lost
with the pruned edges and with a failed conversion. -/
theorem finalRefs_apply {pspec : Pathspec ε σ} (hg : Finalized g)
    (hprune : pspec.PrunesOnly) (hclone : pspec.prune = none → g.cloned = false)
    (hrefs : ∀ e ∈ g.edges, 0 < refs (.adjacency e)) (found : Option (List NodeId))
    (hmin : ∀ e, .adjacency e ∈ res → ∃ pair, g.minEdges.get pair = some e)
    (x : Segment ε) :
    finalRefs g pspec refs res found x =
      refs x + (returned (found.map fun fpath => (res, nodesToEdges g fpath))).count x +
        pruned g pspec x + (((found.map (dropped g)).getD []).map .adjacency).count x := by
  have hloop := afterLoop_apply res hg hprune hclone hrefs
  cases found with
  | none =>
    show (afterLoop g pspec refs res).releaseAll res x = _
    rw [Refs.releaseAll_apply, hloop]
    · simp only [returned, Option.map_none, Option.getD_none, List.map_nil, List.count_nil]
      omega
    · intro e he
      obtain ⟨pair, hpair⟩ := hmin e he
      have hpos := hrefs e (hg.minEdges_get_eq_some_iff.mp hpair).2.isLink.mem
      have hleft := pruned_nonneg (g := g) hprune (.adjacency e)
      rw [hloop]
      omega
  | some fpath =>
    show (afterLoop g pspec refs res).holdAll _ x = _
    rw [Refs.holdAll_apply, hloop]
    cases hedges : nodesToEdges g fpath with
    | none =>
      simp only [returned, dropped, hedges, Option.map_some, Option.getD_some, Option.getD_none,
        List.map_nil, List.append_nil]
    | some es =>
      rw [heldEdges_of_mapM hedges]
      simp only [returned, dropped, hedges, Option.map_some, Option.getD_some, List.map_nil,
        List.count_append, List.count_nil]
      omega

/-- Nothing is left over exactly when no edge is pruned and no held edge is dropped. -/
theorem balanced_iff_of_not_cloned {pspec : Pathspec ε σ} (hg : Finalized g)
    (hprune : pspec.PrunesOnly) (hclone : pspec.prune = none → g.cloned = false)
    (hrefs : ∀ e ∈ g.edges, 0 < refs (.adjacency e)) (found : Option (List NodeId))
    (hmin : ∀ e, .adjacency e ∈ res → ∃ pair, g.minEdges.get pair = some e) :
    Balanced refs (finalRefs g pspec refs res found)
        (found.map fun fpath => (res, nodesToEdges g fpath)) ↔
      (pspec.constrained g).edges = g.edges ∧ (found.map (dropped g)).getD [] = [] := by
  have happly := finalRefs_apply hg hprune hclone hrefs found hmin
  rw [← pruned_eq_zero_iff hprune]
  constructor
  · intro hbalanced
    have hsum : ∀ x, pruned g pspec x = 0 ∧
        (((found.map (dropped g)).getD []).map Segment.adjacency).count x = 0 := by
      intro x
      have hx := happly x
      have hnonneg := pruned_nonneg (g := g) hprune x
      rw [hbalanced x] at hx
      omega
    refine ⟨fun x => (hsum x).1, List.eq_nil_iff_forall_not_mem.mpr fun e he => ?_⟩
    exact (List.count_pos_iff.mpr (List.mem_map_of_mem he)).ne' (hsum (.adjacency e)).2
  · intro hnone x
    rw [happly, hnone.1, hnone.2]
    simp

/-- Nothing is balanced if the graph is destroyed as a clone: its nodes have lost a reference. -/
theorem not_balanced_of_cloned {pspec : Pathspec ε σ} (refs : Refs ε) (res : List (Segment ε))
    (hspec : pspec.prune = none) (hcloned : g.cloned = true) {n : NodeId} (hn : n ∈ g.nodes)
    (found : Option (List NodeId)) :
    ¬ Balanced refs (finalRefs g pspec refs res found)
        (found.map fun fpath => (res, nodesToEdges g fpath)) := by
  intro hbalanced
  have hlt := afterLoop_lt refs res hspec hcloned hn
  have heq := hbalanced (.node n)
  have hadj : ∀ l : List (Edge ε), (l.map Segment.adjacency).count (.node n) = 0 := fun l =>
    List.count_eq_zero_of_not_mem (by simp)
  cases found with
  | none =>
    have hle := Refs.releaseAll_le (afterLoop g pspec refs res) res (.node n)
    simp only [finalRefs, returned, Option.map_none, List.count_nil] at heq
    omega
  | some fpath =>
    simp only [finalRefs, returned, Option.map_some, List.count_append, Refs.holdAll_apply,
      hadj] at heq
    omega

/-- **Main theorem.** The references are balanced exactly when the graph is not destroyed as a
clone, no edge is pruned, and no hop is converted before the first waypoint is met twice. -/
theorem segpath_refs_balanced (g : Graph ε) (pspec : Pathspec ε σ) (refs : Refs ε)
    (out : Option (List (Segment ε) × Option (List (Edge ε)))) (hg : Finalized g)
    (hprune : pspec.PrunesOnly) (hrefs : ∀ e ∈ g.edges, 0 < refs (.adjacency e))
    (h : buildSegpath g pspec = .ok out) :
    ∃ refs', countedBuildSegpath g pspec refs = .ok (out, refs') ∧
      (Balanced refs refs' out ↔
        (pspec.prune = none → g.cloned = false) ∧ (pspec.constrained g).edges = g.edges ∧
          (pspec.via = [] ∨ pspec.via.head? = some pspec.src ∨ pspec.Lacks g)) := by
  have hgc := isSubgraph_constrained hg hprune
  obtain ⟨found, res, hloop, hmin, rfl, hcounted⟩ := countedBuildSegpath_spec refs h
  refine ⟨_, hcounted, ?_⟩
  by_cases hclone : pspec.prune = none → g.cloned = false
  · rw [balanced_iff_of_not_cloned hg hprune hclone hrefs found hmin]
    have hnil := buildSegpath_noPath_iff hg hgc h
    cases found with
    | none => simp [eq_true hclone, hnil.mp rfl]
    | some fpath =>
      have hpath : ¬ pspec.Lacks g := fun hno => by simpa using hnil.mpr hno
      simp [eq_true hclone, hpath, dropped_eq_nil_iff hg hprune hloop]
  · obtain ⟨hspec, hcloned⟩ := Classical.not_imp.mp hclone
    obtain ⟨t, ts, hts⟩ := List.exists_cons_of_ne_nil
      (List.append_ne_nil_of_right_ne_nil pspec.via (List.cons_ne_nil pspec.dst []))
    rw [hts] at hloop
    have ht := hgc.nodes ▸ mem_nodes_of_segpathLoop hgc.finalized hloop
    have hnot := not_balanced_of_cloned refs res hspec (by simpa using hcloned) ht found
    exact ⟨fun hbalanced => absurd hbalanced hnot, fun hcond => absurd hcond.1 hclone⟩

/-- One count that is off shows that a run is not balanced. -/
theorem not_balanced_of_map {pspec : Pathspec ε σ}
    {out : Option (List (Segment ε) × Option (List (Edge ε)))} {x : Segment ε} {k : ℤ}
    (hout : (countedBuildSegpath g pspec refs).map Prod.fst = .ok out)
    (hx : (countedBuildSegpath g pspec refs).map (fun r => r.2 x) = .ok k)
    (hk : k ≠ refs x + (returned out).count x) :
    ∃ refs', countedBuildSegpath g pspec refs = .ok (out, refs') ∧ refs' x = k ∧
      ¬ Balanced refs refs' out := by
  cases hrun : countedBuildSegpath g pspec refs with
  | error fault => simp [hrun, Except.map] at hout
  | ok r =>
    rw [hrun] at hout hx
    obtain rfl := Except.ok.inj hout
    replace hx : r.2 x = k := Except.ok.inj hx
    exact ⟨r.2, rfl, hx, fun hbalanced => hk (hx.symm.trans (hbalanced x))⟩

end Counted

/-! ## A row of routers -/

/-- The callback that prunes the links with a metric above the given one. -/
def pruneAbove (metric : UInt32) (g : Graph Unit) : Graph Unit :=
  graphPrune g fun e => decide (metric < e.metric)

/-- From one end of the row to the other, with that callback and without waypoints. -/
def belowMetric (metric : UInt32) : Pathspec Unit Unit :=
  ⟨1, 3, [], some (pruneAbove metric), defaultOps⟩

theorem prunesOnly_belowMetric (metric : UInt32) : (belowMetric metric).PrunesOnly := by
  intro prune hprune g
  obtain rfl := Option.some.inj hprune
  exact ⟨[fun e => decide (metric < e.metric)], rfl⟩

/-- In the row itself no link is pruned, and every node and edge gets its references. -/
theorem segpath_refs_balanced_threeInRow :
    buildSegpath threeInRow (belowMetric 1) = .ok (some ([.node 3], some threeInRow.edges)) ∧
      ∃ refs', countedBuildSegpath threeInRow (belowMetric 1) (fun _ => 1) =
          .ok (some ([.node 3], some threeInRow.edges), refs') ∧
        Balanced (fun _ => 1) refs' (some ([.node 3], some threeInRow.edges)) := by
  have hbuild : buildSegpath threeInRow (belowMetric 1) =
      .ok (some ([.node 3], some threeInRow.edges)) := by decide +kernel
  obtain ⟨refs', hrun, hiff⟩ := segpath_refs_balanced threeInRow (belowMetric 1) (fun _ => 1) _
    finalized_threeInRow (prunesOnly_belowMetric 1) (by simp) hbuild
  refine ⟨hbuild, refs', hrun, hiff.mpr ⟨by simp [belowMetric], ?_, .inl rfl⟩⟩
  decide +kernel

/-- The row with a long direct link between its ends. -/
def rowAndDetour : Graph Unit :=
  graphOf [1, 2, 3] [⟨1, 1, 2, 1, ()⟩, ⟨2, 2, 3, 1, ()⟩, ⟨3, 1, 3, 9, ()⟩]

/-- The long link is pruned, and its count stays one too high.  With a waypoint, the count of the
first link does, though `*epath` is `NULL`. -/
theorem segpath_refs_leak :
    (∃ refs', countedBuildSegpath rowAndDetour (belowMetric 1) (fun _ => 1) =
        .ok (some ([.node 3], some threeInRow.edges), refs') ∧
      refs' (.adjacency ⟨3, 1, 3, 9, ()⟩) = 2 ∧
      ¬ Balanced (fun _ => 1) refs' (some ([.node 3], some threeInRow.edges))) ∧
    ∃ refs', countedBuildSegpath threeInRow overMiddle (fun _ => 1) =
        .ok (some ([.node 2, .node 3], none), refs') ∧
      refs' (.adjacency ⟨1, 1, 2, 1, ()⟩) = 2 ∧
      ¬ Balanced (fun _ => 1) refs' (some ([.node 2, .node 3], none)) :=
  ⟨not_balanced_of_map (by decide +kernel) (by decide +kernel) (by decide),
    not_balanced_of_map (by decide +kernel) (by decide +kernel) (by decide)⟩

end Srn
