import Srn.Graph
import Srn.Lib.Least

/-!
# Srn.Graph.Tables

The tables of a finalized graph.  The table of minimal edges has an entry exactly for the
pairs of distinct nodes joined by a link, an edge whose metric is not `UINT32_MAX`, and the
entry is the first link of least metric; the neighbours of a node are the ends of its
links, each once.
-/

namespace Srn

variable {ε σ : Type}

/-! ## Filling a table -/

/-- A loop whose rounds either leave an entry or overwrite it with one and the same
value, if there is one. -/
theorem Table.get_foldl_or {κ α β : Type} [DecidableEq κ] {F : Table κ α → β → Table κ α} {k : κ}
    {o : Option α} {p : β → Bool}
    (hF : ∀ t x, (F t x).get k = if p x then o.or (t.get k) else t.get k)
    (l : List β) (t : Table κ α) :
    (l.foldl F t).get k = if l.any p then o.or (t.get k) else t.get k := by
  induction l generalizing t with
  | nil => simp
  | cons x l ih =>
    rw [List.foldl_cons, ih, hF, List.any_cons]
    cases p x <;> cases l.any p <;> cases o <;> simp

/-- A table filled from a list of keys. -/
theorem Table.get_foldl_set {κ α : Type} [DecidableEq κ] (f : κ → α) (l : List κ)
    (t : Table κ α) (k : κ) :
    (l.foldl (fun t k => t.set k (f k)) t).get k = if k ∈ l then some (f k) else t.get k := by
  have hF : ∀ (t : Table κ α) x, (t.set x (f x)).get k =
      if x == k then (some (f k)).or (t.get k) else t.get k := by
    intro t x
    by_cases hx : x = k <;> simp [hx]
  simpa using Table.get_foldl_or hF l t

/-! ## Links -/

/-- The edge is a link from `u` to `v`. -/
structure IsLink (g : Graph ε) (u v : NodeId) (e : Edge ε) : Prop where
  mem : e ∈ g.edges
  localId : e.localId = u
  remoteId : e.remoteId = v
  metric : e.metric < uint32Max

/-- The edges from `u` to `v`. -/
def edgesBetween (g : Graph ε) (u v : NodeId) : List (Edge ε) :=
  g.edges.filter fun e => e.localId == u && e.remoteId == v

/-- The first link of least metric from `u` to `v`. -/
def IsMinEdge (g : Graph ε) (u v : NodeId) (e : Edge ε) : Prop :=
  Least.IsFirst Edge.metric uint32Max (edgesBetween g u v) e

theorem graphGetMinimalEdge_eq (g : Graph ε) (u v : NodeId) :
    graphGetMinimalEdge g u v =
      ((edgesBetween g u v).foldl (Least.step Edge.metric) (none, uint32Max)).1 := by
  rw [edgesBetween, List.foldl_filter, graphGetMinimalEdge]
  congr 2
  funext res edge
  by_cases h : edge.localId = u ∧ edge.remoteId = v
  · simp [h, Least.step]
  · rw [if_pos (by rw [← not_and_or]; exact h), if_neg (by simpa using h)]

/-- `graph_get_minimal_edge` finds the first link of least metric. -/
theorem graphGetMinimalEdge_eq_some_iff {g : Graph ε} {u v : NodeId} {e : Edge ε} :
    graphGetMinimalEdge g u v = some e ↔ IsMinEdge g u v e := by
  rw [graphGetMinimalEdge_eq]
  exact Least.foldl_step_eq_some_iff fun _ _ => UInt32.lt_iff_toNat_lt

theorem IsMinEdge.isLink {g : Graph ε} {u v : NodeId} {e : Edge ε} (h : IsMinEdge g u v e) :
    IsLink g u v e := by
  have hmem := List.mem_filter.mp h.mem
  simp only [Bool.and_eq_true, beq_iff_eq] at hmem
  obtain ⟨-, -, -, hmetric, -⟩ := h
  exact ⟨hmem.1, hmem.2.1, hmem.2.2, hmetric⟩

/-- No link has a smaller metric. -/
theorem IsMinEdge.le {g : Graph ε} {u v : NodeId} {e f : Edge ε} (h : IsMinEdge g u v e)
    (hf : IsLink g u v f) : e.metric.toNat ≤ f.metric.toNat := by
  have hmem : f ∈ edgesBetween g u v := by
    simp [edgesBetween, hf.mem, hf.localId, hf.remoteId]
  have := Least.IsFirst.not_lt (fun _ _ => UInt32.lt_iff_toNat_lt) h hmem
  rw [UInt32.lt_iff_toNat_lt] at this
  omega

/-- Where there is a link there is one of least metric. -/
theorem IsLink.exists_isMinEdge {g : Graph ε} {u v : NodeId} {e : Edge ε} (h : IsLink g u v e) :
    ∃ f, IsMinEdge g u v f := by
  cases hmin : graphGetMinimalEdge g u v with
  | some f => exact ⟨f, graphGetMinimalEdge_eq_some_iff.mp hmin⟩
  | none =>
    rw [graphGetMinimalEdge_eq,
      Least.foldl_step_eq_none_iff fun _ _ => UInt32.lt_iff_toNat_lt] at hmin
    refine absurd h.metric (hmin e ?_)
    simp [edgesBetween, h.mem, h.localId, h.remoteId]

/-! ## The table of minimal edges -/

theorem get_setMinimalEdge (g : Graph ε) (n x u v : NodeId)
    (t : Table (NodeId × NodeId) (Edge ε)) :
    (setMinimalEdge g n t x).get (u, v) =
      if n == u && x == v && u != v then (graphGetMinimalEdge g u v).or (t.get (u, v))
      else t.get (u, v) := by
  unfold setMinimalEdge
  by_cases hnx : n = x
  · rw [if_pos hnx, if_neg]
    simp only [Bool.and_eq_true, beq_iff_eq, bne_iff_ne]
    rintro ⟨⟨rfl, rfl⟩, hne⟩
    exact hne hnx
  · rw [if_neg hnx]
    cases hmin : graphGetMinimalEdge g n x with
    | none =>
      by_cases hkey : n = u ∧ x = v
      · obtain ⟨rfl, rfl⟩ := hkey
        simp [hmin]
      · rw [if_neg (by simpa using fun h h' => absurd ⟨h, h'⟩ hkey)]
    | some e =>
      have hlink := (graphGetMinimalEdge_eq_some_iff.mp hmin).isLink
      simp only [Table.get_set, hlink.localId, hlink.remoteId, Prod.mk.injEq]
      by_cases hkey : n = u ∧ x = v
      · obtain ⟨rfl, rfl⟩ := hkey
        simp [hnx, hmin]
      · rw [if_neg hkey, if_neg (by simpa using fun h h' => absurd ⟨h, h'⟩ hkey)]

/-- **The table of minimal edges** of a finalized graph. -/
theorem graphFinalize_minEdges_get (g : Graph ε) (u v : NodeId) :
    (graphFinalize g).minEdges.get (u, v) =
      if u ∈ g.nodes ∧ v ∈ g.nodes ∧ u ≠ v then graphGetMinimalEdge g u v else none := by
  have hinner := fun t n => Table.get_foldl_or (fun t x => get_setMinimalEdge g n x u v t) g.nodes t
  have houter := Table.get_foldl_or (F := fun t n => g.nodes.foldl (setMinimalEdge g n) t)
    hinner g.nodes .empty
  have hany : (g.nodes.any fun n => g.nodes.any fun x => n == u && x == v && u != v) = true ↔
      u ∈ g.nodes ∧ v ∈ g.nodes ∧ u ≠ v := by
    simp only [List.any_eq_true, Bool.and_eq_true, beq_iff_eq, bne_iff_ne]
    constructor
    · rintro ⟨n, hn, x, hx, ⟨rfl, rfl⟩, hne⟩
      exact ⟨hn, hx, hne⟩
    · rintro ⟨hu, hv, hne⟩
      exact ⟨u, hu, v, hv, ⟨rfl, rfl⟩, hne⟩
  refine houter.trans ?_
  simp only [hany, Table.get_empty, Option.or_none]

/-! ## Neighbours -/

theorem lt_uint32Max_iff {x : UInt32} : x < uint32Max ↔ x ≠ uint32Max := by
  have := x.toNat_lt
  rw [UInt32.lt_iff_toNat_lt, Ne, ← UInt32.toNat_inj, show uint32Max.toNat = 4294967295 from rfl]
  omega

/-- One round keeps the list free of repetitions and adds the end of a link. -/
theorem addNeighbor_spec {u : NodeId} {l : List NodeId} (hl : l.Nodup) (e : Edge ε) :
    (addNeighbor u l e).Nodup ∧ ∀ v, v ∈ addNeighbor u l e ↔
      v ∈ l ∨ (e.localId = u ∧ e.remoteId = v ∧ e.metric < uint32Max) := by
  unfold addNeighbor
  split_ifs with hlocal hmetric hmem
  · exact ⟨hl, by simp [hlocal]⟩
  · exact ⟨hl, by simp [hmetric]⟩
  · refine ⟨hl, fun v => ⟨.inl, ?_⟩⟩
    rintro (hv | ⟨-, rfl, -⟩)
    · exact hv
    · exact hmem
  · refine ⟨List.nodup_append.mpr ⟨hl, by simp, ?_⟩, fun v => ?_⟩
    · rintro x hx y hy rfl
      exact hmem (List.mem_singleton.mp hy ▸ hx)
    · simp [not_not.mp hlocal, lt_uint32Max_iff.mpr hmetric, eq_comm]

/-- **The neighbours** of a node are the ends of its links, each once. -/
theorem graphComputeNeighbors_spec (g : Graph ε) (u : NodeId) :
    (graphComputeNeighbors g u).Nodup ∧
      ∀ v, v ∈ graphComputeNeighbors g u ↔ ∃ e, IsLink g u v e := by
  have hfold : ∀ (edges : List (Edge ε)) (l : List NodeId), l.Nodup →
      (edges.foldl (addNeighbor u) l).Nodup ∧ ∀ v, v ∈ edges.foldl (addNeighbor u) l ↔
        v ∈ l ∨ ∃ e ∈ edges, e.localId = u ∧ e.remoteId = v ∧ e.metric < uint32Max := by
    intro edges
    induction edges with
    | nil => exact fun l hl => ⟨hl, by simp⟩
    | cons e edges ih =>
      intro l hl
      obtain ⟨hnodup, hmem⟩ := addNeighbor_spec (u := u) hl e
      refine ⟨(ih _ hnodup).1, fun v => ?_⟩
      rw [List.foldl_cons, (ih _ hnodup).2, hmem, or_assoc]
      simp
  obtain ⟨hnodup, hmem⟩ := hfold g.edges [] List.nodup_nil
  refine ⟨hnodup, fun v => ?_⟩
  rw [graphComputeNeighbors, hmem]
  constructor
  · rintro (hv | ⟨e, he, hlocal, hremote, hmetric⟩)
    · simp at hv
    · exact ⟨e, he, hlocal, hremote, hmetric⟩
  · rintro ⟨e, he⟩
    exact .inr ⟨e, he.mem, he.localId, he.remoteId, he.metric⟩

theorem graphFinalize_neighs_get (g : Graph ε) (u : NodeId) :
    (graphFinalize g).neighs.get u =
      if u ∈ g.nodes then some (graphComputeNeighbors g u) else none := by
  exact Table.get_foldl_set (graphComputeNeighbors g) g.nodes .empty u

/-! ## Finalized graphs -/

/-- A graph as `graph_finalize` and `graph_build_cache` leave it: the ids of its nodes are
distinct, its edges join nodes of it, its tables are up to date, and every cached search is
the one `graph_dijkstra` would make. -/
structure Finalized (g : Graph ε) : Prop where
  nodup : g.nodes.Nodup
  ends : ∀ e ∈ g.edges, e.localId ∈ g.nodes ∧ e.remoteId ∈ g.nodes
  minEdges : g.minEdges = (graphFinalize g).minEdges
  neighs : g.neighs = (graphFinalize g).neighs
  dcache : ∀ u d, g.dcache.get u = some d → graphDijkstra g u defaultOps = .ok d

/-- The weight of a hop: the least metric of a link. -/
def Graph.weight (g : Graph ε) (u v : NodeId) : Option ℕ :=
  (g.minEdges.get (u, v)).map fun e => e.metric.toNat

variable {g : Graph ε} {u v : NodeId}

theorem IsLink.ends (hg : Finalized g) {e : Edge ε} (he : IsLink g u v e) :
    u ∈ g.nodes ∧ v ∈ g.nodes := by
  have := hg.ends e he.mem
  rwa [he.localId, he.remoteId] at this

/-- The entries of the table of minimal edges. -/
theorem Finalized.minEdges_get_eq_some_iff (hg : Finalized g) {e : Edge ε} :
    g.minEdges.get (u, v) = some e ↔ u ≠ v ∧ IsMinEdge g u v e := by
  rw [hg.minEdges, graphFinalize_minEdges_get]
  split_ifs with hnodes
  · rw [graphGetMinimalEdge_eq_some_iff]
    exact ⟨fun h => ⟨hnodes.2.2, h⟩, And.right⟩
  · refine ⟨by simp, fun ⟨hne, h⟩ => absurd ?_ hnodes⟩
    exact ⟨(h.isLink.ends hg).1, (h.isLink.ends hg).2, hne⟩

/-- The neighbours of a node have a minimal edge. -/
theorem Finalized.neighs_get (hg : Finalized g) (hu : u ∈ g.nodes) :
    ∃ ns, g.neighs.get u = some ns ∧ ns.Nodup ∧
      ∀ v, v ≠ u → (v ∈ ns ↔ ∃ e, g.minEdges.get (u, v) = some e) := by
  obtain ⟨hnodup, hmem⟩ := graphComputeNeighbors_spec g u
  refine ⟨graphComputeNeighbors g u, ?_, hnodup, fun v hv => ?_⟩
  · rw [hg.neighs, graphFinalize_neighs_get, if_pos hu]
  · rw [hmem]
    constructor
    · rintro ⟨e, he⟩
      obtain ⟨f, hf⟩ := he.exists_isMinEdge
      exact ⟨f, hg.minEdges_get_eq_some_iff.mpr ⟨Ne.symm hv, hf⟩⟩
    · rintro ⟨e, he⟩
      exact ⟨e, (hg.minEdges_get_eq_some_iff.mp he).2.isLink⟩

/-- `graph_finalize` on a graph with an empty cache. -/
theorem finalized_graphFinalize (hnodup : g.nodes.Nodup)
    (hends : ∀ e ∈ g.edges, e.localId ∈ g.nodes ∧ e.remoteId ∈ g.nodes)
    (hcache : g.dcache = .empty) : Finalized (graphFinalize g) where
  nodup := hnodup
  ends := hends
  minEdges := rfl
  neighs := rfl
  dcache u d hd := by
    have : (graphFinalize g).dcache = .empty := hcache
    rw [this, Table.get_empty] at hd
    contradiction

/-- A graph of the given nodes and edges, after `graph_finalize`. -/
def graphOf (nodes : List NodeId) (edges : List (Edge ε)) : Graph ε :=
  graphFinalize ⟨nodes, edges, .empty, .empty, .empty, true, false⟩

theorem finalized_graphOf {nodes : List NodeId} {edges : List (Edge ε)} (hnodup : nodes.Nodup)
    (hends : ∀ e ∈ edges, e.localId ∈ nodes ∧ e.remoteId ∈ nodes) :
    Finalized (graphOf nodes edges) :=
  finalized_graphFinalize hnodup hends rfl

end Srn
