import Mathlib.Data.List.Nodup
import Srn.Lib.Fault
import Srn.NetState

/-!
# Srn.NetState.Sync

No change of the topology is lost: in every state that the callbacks and `netstate_graph_sync`
reach, a staging graph that is not marked dirty has the nodes and edges of the published graph.

The two graphs are separated in the heap.  No link belongs to two edges, so what the callbacks
assign through pointers of the staging graph is not seen in the published one, and
`graph_deepcopy` establishes the separation again for the new published graph.
-/

namespace Srn

/-! ## What a graph object shows -/

/-- All pointers of a graph lead to objects, and its edges to its nodes. -/
structure GraphWf (h : Heap) (g : GraphObj) : Prop where
  nodes : ∀ p ∈ g.nodes, ∃ n, h.nodes[p]? = some n
  edges : ∀ p ∈ g.edges, ∃ e l, h.edges[p]? = some e ∧ e.localNode ∈ g.nodes ∧
    e.remoteNode ∈ g.nodes ∧ h.links[e.data]? = some l

variable {h h' : Heap} {g g' : GraphObj} {p : Ptr}

theorem edge?_eq {e : EdgeObj} {n m : NodeObj} {l : Link} (he : h.edges[p]? = some e)
    (hn : h.nodes[e.localNode]? = some n) (hm : h.nodes[e.remoteNode]? = some m)
    (hl : h.links[e.data]? = some l) : h.edge? p = some ⟨e.id, n.id, m.id, e.metric, l⟩ := by
  simp [Heap.edge?, he, hn, hm, hl]

theorem exists_of_edge? {x : Edge Link} (hx : h.edge? p = some x) :
    ∃ e n m l, h.edges[p]? = some e ∧ h.nodes[e.localNode]? = some n ∧
      h.nodes[e.remoteNode]? = some m ∧ h.links[e.data]? = some l ∧
      x = ⟨e.id, n.id, m.id, e.metric, l⟩ := by
  simp only [Heap.edge?, Option.bind_eq_bind, Option.bind_eq_some_iff, Option.pure_def,
    Option.some.injEq] at hx
  obtain ⟨e, he, n, hn, m, hm, l, hl, rfl⟩ := hx
  exact ⟨e, n, m, l, he, hn, hm, hl, rfl⟩

theorem GraphWf.edge? (hg : GraphWf h g) (hp : p ∈ g.edges) :
    ∃ e n m l, h.edges[p]? = some e ∧ e.localNode ∈ g.nodes ∧ e.remoteNode ∈ g.nodes ∧
      h.nodes[e.localNode]? = some n ∧ h.nodes[e.remoteNode]? = some m ∧
      h.links[e.data]? = some l ∧ h.edge? p = some ⟨e.id, n.id, m.id, e.metric, l⟩ := by
  obtain ⟨e, l, he, hlocal, hremote, hl⟩ := hg.edges p hp
  obtain ⟨n, hn⟩ := hg.nodes _ hlocal
  obtain ⟨m, hm⟩ := hg.nodes _ hremote
  exact ⟨e, n, m, l, he, hlocal, hremote, hn, hm, hl, edge?_eq he hn hm hl⟩

/-! ## Growing heaps -/

/-- Every object of the first heap is the same object in the second. -/
structure Grows (h h' : Heap) : Prop where
  nodes : ∀ (p : Ptr) n, h.nodes[p]? = some n → h'.nodes[p]? = some n
  edges : ∀ (p : Ptr) e, h.edges[p]? = some e → h'.edges[p]? = some e
  links : ∀ (p : Ptr) l, h.links[p]? = some l → h'.links[p]? = some l

theorem getElem?_append_of_some {α : Type} {l m : List α} {i : ℕ} {x : α} (hx : l[i]? = some x) :
    (l ++ m)[i]? = some x := by
  rw [List.getElem?_append_left (List.getElem?_eq_some_iff.mp hx).1, hx]

namespace Grows

theorem refl (h : Heap) : Grows h h := ⟨fun _ _ hx => hx, fun _ _ hx => hx, fun _ _ hx => hx⟩

theorem trans {h'' : Heap} (h₁ : Grows h h') (h₂ : Grows h' h'') : Grows h h'' :=
  ⟨fun p n hx => h₂.nodes p n (h₁.nodes p n hx), fun p e hx => h₂.edges p e (h₁.edges p e hx),
    fun p l hx => h₂.links p l (h₁.links p l hx)⟩

/-- Allocation. -/
theorem append (h : Heap) (nodes : List NodeObj) (edges : List EdgeObj) (links : List Link) :
    Grows h ⟨h.nodes ++ nodes, h.edges ++ edges, h.links ++ links⟩ :=
  ⟨fun _ _ hx => getElem?_append_of_some hx, fun _ _ hx => getElem?_append_of_some hx,
    fun _ _ hx => getElem?_append_of_some hx⟩

theorem graphWf (hgrow : Grows h h') (hg : GraphWf h g) : GraphWf h' g where
  nodes p hp := by
    obtain ⟨n, hn⟩ := hg.nodes p hp
    exact ⟨n, hgrow.nodes p n hn⟩
  edges p hp := by
    obtain ⟨e, l, he, hlocal, hremote, hl⟩ := hg.edges p hp
    exact ⟨e, l, hgrow.edges p e he, hlocal, hremote, hgrow.links _ l hl⟩

theorem edge? (hgrow : Grows h h') {x : Edge Link} (hx : h.edge? p = some x) :
    h'.edge? p = some x := by
  obtain ⟨e, n, m, l, he, hn, hm, hl, rfl⟩ := exists_of_edge? hx
  exact edge?_eq (hgrow.edges p e he) (hgrow.nodes _ n hn) (hgrow.nodes _ m hm)
    (hgrow.links _ l hl)

theorem view (hgrow : Grows h h') (hg : GraphWf h g) : view h' g = view h g := by
  refine Prod.ext (List.map_congr_left fun p hp => ?_) (List.map_congr_left fun p hp => ?_)
  · obtain ⟨n, hn⟩ := hg.nodes p hp
    rw [hn]
    exact hgrow.nodes p n hn
  · obtain ⟨e, n, m, l, -, -, -, -, -, -, hedge⟩ := hg.edge? hp
    rw [hedge]
    exact hgrow.edge? hedge

end Grows

/-! ## Separation -/

/-- The link of an edge. -/
def linkPtr (h : Heap) (p : Ptr) : Option Ptr := h.edges[p]?.map EdgeObj.data

/-- Two graphs in a heap such that no link belongs to two edges. -/
structure Separated (h : Heap) (g g' : GraphObj) : Prop where
  left : GraphWf h g
  right : GraphWf h g'
  links : ((g.edges ++ g'.edges).map (linkPtr h)).Nodup

/-- Every edge has a link in the heap. -/
theorem GraphWf.linkPtr_lt (hg : GraphWf h g) (hp : p ∈ g.edges) :
    ∃ q, linkPtr h p = some q ∧ q < h.links.length := by
  obtain ⟨e, l, he, -, -, hl⟩ := hg.edges p hp
  exact ⟨e.data, by rw [linkPtr, he]; rfl, (List.getElem?_eq_some_iff.mp hl).1⟩

theorem Grows.linkPtr (hgrow : Grows h h') {q : Ptr} (hq : linkPtr h p = some q) :
    Srn.linkPtr h' p = some q := by
  rw [Srn.linkPtr, Option.map_eq_some_iff] at hq ⊢
  obtain ⟨e, he, rfl⟩ := hq
  exact ⟨e, hgrow.edges p e he, rfl⟩

theorem Grows.map_linkPtr (hgrow : Grows h h') (hg : GraphWf h g) :
    g.edges.map (Srn.linkPtr h') = g.edges.map (Srn.linkPtr h) := by
  refine List.map_congr_left fun p hp => ?_
  obtain ⟨q, hq, -⟩ := hg.linkPtr_lt hp
  rw [hq, hgrow.linkPtr hq]

namespace Separated

theorem linkPtr_lt (hs : Separated h g g') (hp : p ∈ g.edges ++ g'.edges) :
    ∃ q, linkPtr h p = some q ∧ q < h.links.length := by
  rcases List.mem_append.mp hp with hp | hp
  · exact hs.left.linkPtr_lt hp
  · exact hs.right.linkPtr_lt hp

theorem of_grows (hs : Separated h g g') (hgrow : Grows h h') : Separated h' g g' where
  left := hgrow.graphWf hs.left
  right := hgrow.graphWf hs.right
  links := by
    rw [List.map_append, hgrow.map_linkPtr hs.left, hgrow.map_linkPtr hs.right, ← List.map_append]
    exact hs.links

/-- The two graphs share no edge and no link. -/
theorem ne (hs : Separated h g g') {q : Ptr} (hp : p ∈ g.edges) (hq : q ∈ g'.edges) :
    linkPtr h p ≠ linkPtr h q := by
  have := hs.links
  rw [List.map_append, List.nodup_append] at this
  exact this.2.2 _ (List.mem_map_of_mem hp) _ (List.mem_map_of_mem hq)

theorem nodup_links (hs : Separated h g g') : (g.edges.map (linkPtr h)).Nodup := by
  have := hs.links
  rw [List.map_append] at this
  exact (List.nodup_append.mp this).1

theorem nodup (hs : Separated h g g') : g.edges.Nodup := hs.nodup_links.of_map

/-- Two edges of a graph with the same link are the same. -/
theorem inj (hs : Separated h g g') {q : Ptr} (hp : p ∈ g.edges) (hq : q ∈ g.edges)
    (heq : linkPtr h p = linkPtr h q) : p = q :=
  List.inj_on_of_nodup_map hs.nodup_links hp hq heq

/-- More nodes in the first graph. -/
theorem of_nodes (hs : Separated h g g') {g₁ : GraphObj} (hedges : g₁.edges = g.edges)
    (hsub : g.nodes ⊆ g₁.nodes) (hnodes : ∀ p ∈ g₁.nodes, ∃ n, h.nodes[p]? = some n) :
    Separated h g₁ g' where
  left := by
    refine ⟨hnodes, fun p hp => ?_⟩
    obtain ⟨e, l, he, hlocal, hremote, hl⟩ := hs.left.edges p (hedges ▸ hp)
    exact ⟨e, l, he, hsub hlocal, hsub hremote, hl⟩
  right := hs.right
  links := hedges.symm ▸ hs.links

/-- Fewer edges in the first graph. -/
theorem of_sublist (hs : Separated h g g') {g₁ : GraphObj} (hnodes : g₁.nodes = g.nodes)
    (hsub : g₁.edges.Sublist g.edges) : Separated h g₁ g' where
  left := by
    refine ⟨fun p hp => hs.left.nodes p (hnodes ▸ hp), fun p hp => ?_⟩
    rw [hnodes]
    exact hs.left.edges p (hsub.subset hp)
  right := hs.right
  links := hs.links.sublist ((hsub.append_right g'.edges).map _)

theorem setDirty (hs : Separated h g g') (dirty : Bool) :
    Separated h { g with dirty := dirty } g' := hs.of_sublist rfl (.refl _)

theorem graphAddNode (hs : Separated h g g') {data : String} {mem : Bool} {g₁ : GraphObj}
    (hadd : Srn.graphAddNode h g data mem = some (h', g₁, p)) :
    Separated h' g₁ g' ∧ Grows h h' ∧ p ∈ g₁.nodes ∧ g₁.nodes = g.nodes ++ [p] ∧
      g₁.dirty = true := by
  rw [Srn.graphAddNode] at hadd
  split_ifs at hadd
  simp only [Option.some.injEq, Prod.mk.injEq] at hadd
  obtain ⟨rfl, rfl, rfl⟩ := hadd
  have hgrow : Grows h { h with nodes := h.nodes ++ [⟨g.lastNode + 1, data⟩] } := by
    simpa using Grows.append h [⟨g.lastNode + 1, data⟩] [] []
  refine ⟨(hs.of_grows hgrow).of_nodes rfl (List.subset_append_left _ _) fun p hp => ?_, hgrow,
    by simp, rfl, rfl⟩
  rcases List.mem_append.mp hp with hp | hp
  · exact (hgrow.graphWf hs.left).nodes p hp
  · rw [List.mem_singleton.mp hp]
    exact ⟨_, List.getElem?_concat_length⟩

theorem graphAddEdge (hs : Separated h g g') {a b : Ptr} {metric : UInt32} {link : Link}
    {mem : Bool} {g₁ : GraphObj} (ha : a ∈ g.nodes) (hb : b ∈ g.nodes)
    (hadd : Srn.graphAddEdge h g a b metric link mem = (h', g₁)) :
    Separated h' g₁ g' ∧ Grows h h' ∧ g₁.nodes = g.nodes ∧ (g.dirty = true → g₁.dirty = true) := by
  rw [Srn.graphAddEdge] at hadd
  split_ifs at hadd
  · simp only [Prod.mk.injEq] at hadd
    obtain ⟨rfl, rfl⟩ := hadd
    have hgrow := Grows.append h [] [⟨a, b, g.lastEdge + 1, metric, h.links.length⟩] [link]
    rw [List.append_nil] at hgrow
    refine ⟨?_, hgrow, rfl, fun _ => rfl⟩
    have hs' := hs.of_grows hgrow
    refine ⟨⟨hs'.left.nodes, fun p hp => ?_⟩, hs'.right, ?_⟩
    · rcases List.mem_append.mp hp with hp | hp
      · exact hs'.left.edges p hp
      · rw [List.mem_singleton.mp hp]
        exact ⟨_, link, List.getElem?_concat_length, ha, hb, List.getElem?_concat_length⟩
    · rw [List.append_assoc, List.singleton_append, (List.perm_middle.map _).nodup_iff,
        List.map_cons, List.nodup_cons]
      refine ⟨fun hmem => ?_, hs'.links⟩
      obtain ⟨p, hp, heq⟩ := List.mem_map.mp hmem
      obtain ⟨q, hq, hlt⟩ := hs.linkPtr_lt hp
      rw [hgrow.linkPtr hq] at heq
      simp only [linkPtr, List.getElem?_concat_length, Option.map_some, Option.some.injEq] at heq
      exact Nat.ne_of_lt hlt heq
  · simp only [Prod.mk.injEq] at hadd
    obtain ⟨rfl, rfl⟩ := hadd
    exact ⟨hs, .refl _, rfl, id⟩

end Separated

theorem graphAddNode_spec {data : String} {mem : Bool}
    (hadd : graphAddNode h g data mem = some (h', g', p)) :
    h'.nodes[p]? = some ⟨g.lastNode + 1, data⟩ ∧ g'.lastNode = g.lastNode + 1 := by
  rw [graphAddNode] at hadd
  split_ifs at hadd
  cases hadd
  exact ⟨List.getElem?_concat_length, rfl⟩

theorem lastNode_graphAddEdge (h : Heap) (g : GraphObj) (a b : Ptr) (metric : UInt32) (link : Link)
    (mem : Bool) : (graphAddEdge h g a b metric link mem).2.lastNode = g.lastNode := by
  rw [graphAddEdge]
  split_ifs <;> rfl

/-! ## Assignments through pointers -/

/-- The assignments of `linkstate_update` to one link. -/
def LinkEntry.assign (entry : LinkEntry) (fmask : UInt32) (l : Link) : Link where
  localAddr := l.localAddr
  remoteAddr := l.remoteAddr
  bw := if hasField fmask .bw then entry.bw.toUInt32 else l.bw
  avaBw := if hasField fmask .avaBw then entry.avaBw.toUInt32 else l.avaBw
  delay := if hasField fmask .delay then entry.delay.toUInt32 else l.delay

section

variable (h : Heap) (entry : LinkEntry) (fmask : UInt32) (edge edge2 link : Ptr)

theorem nodes_updateFields : (updateFields h entry fmask edge edge2 link link).nodes = h.nodes := by
  simp only [updateFields, Heap.modifyLink, Heap.setMetric]
  split_ifs <;> rfl

theorem edges_setMetric (metric : UInt32) (p : Ptr) :
    (h.setMetric edge metric).edges[p]? =
      h.edges[p]?.map fun e => if edge = p then { e with metric := metric } else e := by
  show (h.edges.modify edge _)[p]? = _
  rw [List.getElem?_modify]
  rfl

theorem links_modifyLink (f : Link → Link) (q : Ptr) :
    (h.modifyLink link f).links[q]? = h.links[q]?.map fun l => if link = q then f l else l := by
  show (h.links.modify link f)[q]? = _
  rw [List.getElem?_modify]
  rfl

theorem edges_updateFields (p : Ptr) :
    (updateFields h entry fmask edge edge2 link link).edges[p]? = h.edges[p]?.map fun e =>
      if hasField fmask .metric ∧ (edge = p ∨ edge2 = p) then { e with metric := entry.metricOf }
      else e := by
  have hedges : (updateFields h entry fmask edge edge2 link link).edges =
      (if hasField fmask .metric then
        (h.setMetric edge entry.metricOf).setMetric edge2 entry.metricOf
      else h).edges := by
    simp only [updateFields, Heap.modifyLink]
    split_ifs <;> rfl
  rw [hedges]
  by_cases hmetric : hasField fmask .metric
  · simp only [hmetric, if_true, true_and, edges_setMetric, Option.map_map]
    congr 1
    funext e
    by_cases he : edge = p <;> by_cases he2 : edge2 = p <;> simp [he, he2]
  · simp [hmetric]

theorem links_updateFields (q : Ptr) :
    (updateFields h entry fmask edge edge2 link link).links[q]? = h.links[q]?.map fun l =>
      if link = q then entry.assign fmask l else l := by
  by_cases hq : link = q
  · simp only [updateFields, LinkEntry.assign, hq, if_true]
    split_ifs <;> simp [links_modifyLink, Heap.setMetric, Function.comp_def]
  · simp only [updateFields, hq, if_false, Option.map_id']
    split_ifs <;> simp [links_modifyLink, hq, Heap.setMetric]

end

/-- `linkstate_update` on edges of the first graph keeps the separation, and the second graph. -/
theorem Separated.updateFields (hs : Separated h g g') (entry : LinkEntry) (fmask : UInt32)
    {edge edge2 : Ptr} {e : EdgeObj} (hedge : edge ∈ g.edges) (hedge2 : edge2 ∈ g.edges)
    (he : h.edges[edge]? = some e) :
    Separated (Srn.updateFields h entry fmask edge edge2 e.data e.data) g g' ∧
      view (Srn.updateFields h entry fmask edge edge2 e.data e.data) g' = view h g' := by
  have hnodes := nodes_updateFields h entry fmask edge edge2 e.data
  have hedges := edges_updateFields h entry fmask edge edge2 e.data
  have hlinks := links_updateFields h entry fmask edge edge2 e.data
  generalize Srn.updateFields h entry fmask edge edge2 e.data e.data = h₁ at *
  have hwf : ∀ {g₁}, GraphWf h g₁ → GraphWf h₁ g₁ := by
    intro g₁ hg₁
    refine ⟨fun p hp => hnodes ▸ hg₁.nodes p hp, fun p hp => ?_⟩
    obtain ⟨e', l, he', hlocal, hremote, hl⟩ := hg₁.edges p hp
    rw [hedges, he', Option.map_some]
    split_ifs
    · exact ⟨_, _, rfl, hlocal, hremote, by rw [hlinks, hl]; rfl⟩
    · exact ⟨_, _, rfl, hlocal, hremote, by rw [hlinks, hl]; rfl⟩
  have hptr : linkPtr h₁ = linkPtr h := by
    funext p
    rw [linkPtr, linkPtr, hedges, Option.map_map]
    congr 1
    funext e'
    simp only [Function.comp_apply]
    split_ifs <;> rfl
  refine ⟨⟨hwf hs.left, hwf hs.right, hptr ▸ hs.links⟩, ?_⟩
  refine Prod.ext (List.map_congr_left fun p hp => by rw [hnodes])
    (List.map_congr_left fun p hp => ?_)
  obtain ⟨e', n, m, l, he', -, -, hn, hm, hl, heq⟩ := hs.right.edge? hp
  have hpe : edge ≠ p := fun h => hs.ne hedge hp (h ▸ rfl)
  have hpe2 : edge2 ≠ p := fun h => hs.ne hedge2 hp (h ▸ rfl)
  have hdata : e.data ≠ e'.data := by
    intro h
    refine hs.ne hedge hp ?_
    rw [linkPtr, linkPtr, he, he', Option.map_some, Option.map_some, h]
  rw [heq]
  refine edge?_eq ?_ (hnodes ▸ hn) (hnodes ▸ hm) ?_
  · rw [hedges, he', Option.map_some, if_neg (by simp [hpe, hpe2])]
  · rw [hlinks, hl, Option.map_some, if_neg hdata]

/-! ## The deep copy -/

/-- The first loop of `graph_deepcopy`: new pointers to copies of the nodes. -/
theorem foldlM_copyNode (ps : List Ptr) (h : Heap) (acc : List Ptr)
    (hlive : ∀ p ∈ ps, ∃ n, h.nodes[p]? = some n) :
    ∃ h' news, ps.foldlM copyNode (h, acc) = .ok (h', acc ++ news) ∧ Grows h h' ∧
      news.map (fun p => h'.nodes[p]?) = ps.map (fun p => h.nodes[p]?) ∧
      news = List.range' h.nodes.length ps.length := by
  induction ps generalizing h acc with
  | nil => exact ⟨h, [], by simp; rfl, .refl h, rfl, rfl⟩
  | cons p ps ih =>
    obtain ⟨n, hn⟩ := hlive p List.mem_cons_self
    have hgrow := Grows.append h [n] [] []
    rw [List.append_nil, List.append_nil] at hgrow
    obtain ⟨h', news, hrun, hgrow', hview, hnews⟩ := ih { h with nodes := h.nodes ++ [n] }
      (acc ++ [h.nodes.length]) fun q hq => by
        obtain ⟨m, hm⟩ := hlive q (List.mem_cons_of_mem _ hq)
        exact ⟨m, hgrow.nodes q m hm⟩
    refine ⟨h', h.nodes.length :: news, ?_, hgrow.trans hgrow', ?_, ?_⟩
    · rw [List.append_assoc, List.singleton_append] at hrun
      rw [List.foldlM_cons, copyNode, hn]
      exact hrun
    · rw [List.map_cons, List.map_cons, hview, hn,
        hgrow'.nodes _ n List.getElem?_concat_length]
      congr 1
      refine List.map_congr_left fun q hq => ?_
      obtain ⟨m, hm⟩ := hlive q (List.mem_cons_of_mem _ hq)
      rw [hm]
      exact hgrow.nodes q m hm
    · simp [hnews, List.range'_succ]

theorem graphGetNodeNoref_spec {nodes : List Ptr} {n : NodeObj} (hp : p ∈ nodes)
    (hn : h.nodes[p]? = some n) : ∃ q m, graphGetNodeNoref h nodes n.id = some q ∧ q ∈ nodes ∧
      h.nodes[q]? = some m ∧ m.id = n.id := by
  have hsome : (graphGetNodeNoref h nodes n.id).isSome := by
    rw [graphGetNodeNoref, List.find?_isSome]
    exact ⟨p, hp, by simp [hn]⟩
  obtain ⟨q, hq⟩ := Option.isSome_iff_exists.mp hsome
  have hid := List.find?_some hq
  rw [Option.any_eq_true] at hid
  obtain ⟨m, hm, hid⟩ := hid
  exact ⟨q, m, hq, List.mem_of_find?_eq_some hq, hm, of_decide_eq_true hid⟩

/-- The second loop of `graph_deepcopy`: new pointers to copies of the edges, with links of
their own. -/
theorem foldlM_copyEdge (nodes ps : List Ptr) (h : Heap) (acc : List Ptr)
    (hlive : ∀ p ∈ ps, ∃ e a b n m, h.edge? p = some e ∧ a ∈ nodes ∧ b ∈ nodes ∧
      h.nodes[a]? = some n ∧ h.nodes[b]? = some m ∧ e.localId = n.id ∧ e.remoteId = m.id) :
    ∃ h' news, ps.foldlM (copyEdge nodes) (h, acc) = .ok (h', acc ++ news) ∧ Grows h h' ∧
      news.map h'.edge? = ps.map h.edge? ∧
      news.map (linkPtr h') = (List.range' h.links.length ps.length).map some ∧
      ∀ p ∈ news, ∃ e l, h'.edges[p]? = some e ∧ e.localNode ∈ nodes ∧ e.remoteNode ∈ nodes ∧
        h'.links[e.data]? = some l := by
  induction ps generalizing h acc with
  | nil => exact ⟨h, [], by simp; rfl, .refl h, rfl, rfl, by simp⟩
  | cons p ps ih =>
    obtain ⟨e, a, b, n, m, he, ha, hb, hn, hm, hlocal, hremote⟩ := hlive p List.mem_cons_self
    obtain ⟨a', n', hfindA, ha', hn', hidA⟩ := graphGetNodeNoref_spec ha hn
    obtain ⟨b', m', hfindB, hb', hm', hidB⟩ := graphGetNodeNoref_spec hb hm
    have hgrow := Grows.append h [] [⟨a', b', e.id, e.metric, h.links.length⟩] [e.data]
    rw [List.append_nil] at hgrow
    obtain ⟨h', news, hrun, hgrow', hview, hptr, hwf⟩ := ih
      ⟨h.nodes, h.edges ++ [⟨a', b', e.id, e.metric, h.links.length⟩], h.links ++ [e.data]⟩
      (acc ++ [h.edges.length]) fun q hq => by
        obtain ⟨e', a, b, n, m, he', ha, hb, hn, hm, hids⟩ := hlive q (List.mem_cons_of_mem _ hq)
        exact ⟨e', a, b, n, m, hgrow.edge? he', ha, hb, hn, hm, hids⟩
    have hnew := hgrow'.edges h.edges.length _ List.getElem?_concat_length
    have hlink := hgrow'.links h.links.length _ List.getElem?_concat_length
    refine ⟨h', h.edges.length :: news, ?_, hgrow.trans hgrow', ?_, ?_, ?_⟩
    · rw [List.foldlM_cons, copyEdge, he]
      simp only [hlocal, hremote, hfindA, hfindB]
      rw [List.append_assoc, List.singleton_append] at hrun
      exact hrun
    · rw [List.map_cons, List.map_cons, hview, he,
        edge?_eq hnew (hgrow'.nodes _ n' hn') (hgrow'.nodes _ m' hm') hlink, hidA, hidB,
        ← hlocal, ← hremote]
      congr 1
      refine List.map_congr_left fun q hq => ?_
      obtain ⟨e', -, -, -, -, he', -⟩ := hlive q (List.mem_cons_of_mem _ hq)
      rw [he']
      exact hgrow.edge? he'
    · rw [List.map_cons, hptr, linkPtr, hnew]
      simp [List.range'_succ]
    · intro q hq
      rcases List.mem_cons.mp hq with rfl | hq
      · exact ⟨_, _, hnew, ha', hb', hlink⟩
      · exact hwf q hq

/-- Edges with links allocated later share no link with the edges of a graph. -/
theorem nodup_links_append (hg : GraphWf h g) (hgrow : Grows h h')
    (hlinks : (g.edges.map (linkPtr h)).Nodup) {news : List Ptr} {n : ℕ}
    (hnews : news.map (linkPtr h') = (List.range' h.links.length n).map some) :
    ((g.edges ++ news).map (linkPtr h')).Nodup := by
  rw [List.map_append, List.nodup_append, hgrow.map_linkPtr hg, hnews]
  refine ⟨hlinks, (List.nodup_range' ..).map fun _ _ hab => Option.some.inj hab, ?_⟩
  intro a ha b hb hab
  obtain ⟨p, hp, rfl⟩ := List.mem_map.mp ha
  obtain ⟨q, hq, hlt⟩ := hg.linkPtr_lt hp
  obtain ⟨r, hr, rfl⟩ := List.mem_map.mp hb
  rw [hq, Option.some.injEq] at hab
  exact Nat.not_lt.mpr (List.mem_range'_1.mp hr).1 (hab ▸ hlt)

/-- **Deep copy.** The copy of a graph shows the same nodes and edges and is separated from
it. -/
theorem graphDeepcopy_spec (hg : GraphWf h g) (hlinks : (g.edges.map (linkPtr h)).Nodup) :
    ∃ h' gc, graphDeepcopy h g = .ok (h', gc) ∧ Grows h h' ∧ Separated h' g gc ∧
      view h' gc = view h g ∧ gc.dirty = false ∧ gc.nodes.Nodup ∧ gc.lastNode = g.lastNode := by
  obtain ⟨h₁, nodes, hnodes, hgrow₁, hview₁, hnew⟩ := foldlM_copyNode g.nodes h [] hg.nodes
  have hcopy : ∀ p ∈ g.nodes, ∀ n, h.nodes[p]? = some n → ∃ q ∈ nodes, h₁.nodes[q]? = some n := by
    intro p hp n hn
    have hmem : some n ∈ nodes.map fun p => h₁.nodes[p]? := by
      rw [hview₁, ← hn]
      exact List.mem_map_of_mem hp
    obtain ⟨q, hq, hqn⟩ := List.mem_map.mp hmem
    exact ⟨q, hq, hqn⟩
  obtain ⟨h₂, edges, hedges, hgrow₂, hview₂, hptr, hwf⟩ := foldlM_copyEdge nodes g.edges h₁ []
    fun p hp => by
      obtain ⟨e, n, m, l, -, hlocal, hremote, hn, hm, -, hedge⟩ := hg.edge? hp
      obtain ⟨a, ha, hna⟩ := hcopy _ hlocal n hn
      obtain ⟨b, hb, hmb⟩ := hcopy _ hremote m hm
      exact ⟨_, a, b, n, m, hgrow₁.edge? hedge, ha, hb, hna, hmb, rfl, rfl⟩
  have hgrow := hgrow₁.trans hgrow₂
  have hlive : ∀ p ∈ nodes, ∃ n, h₁.nodes[p]? = some n := by
    intro p hp
    have hmem := List.mem_map_of_mem (f := fun p => h₁.nodes[p]?) hp
    rw [hview₁] at hmem
    obtain ⟨q, hq, hqp⟩ := List.mem_map.mp hmem
    obtain ⟨n, hn⟩ := hg.nodes q hq
    exact ⟨n, hqp.symm.trans hn⟩
  refine ⟨h₂, ⟨nodes, edges, g.lastNode, g.lastEdge, false⟩, ?_, hgrow, ⟨hgrow.graphWf hg, ?_, ?_⟩,
    Prod.ext ?_ (hview₂.trans (congrArg Prod.snd (hgrow₁.view hg))), rfl,
    hnew ▸ List.nodup_range' .., rfl⟩
  · rw [List.nil_append] at hnodes hedges
    simp only [graphDeepcopy, hnodes, hedges, bind, Except.bind]
    rfl
  · refine ⟨fun p hp => ?_, hwf⟩
    obtain ⟨n, hn⟩ := hlive p hp
    exact ⟨n, hgrow₂.nodes p n hn⟩
  · refine nodup_links_append (hgrow₁.graphWf hg) hgrow₂ ?_ hptr
    rw [hgrow₁.map_linkPtr hg]
    exact hlinks
  · refine Eq.trans (List.map_congr_left fun p hp => ?_) hview₁
    obtain ⟨n, hn⟩ := hlive p hp
    rw [hn]
    exact hgrow₂.nodes p n hn

/-! ## Steps -/

/-- What a call can do to the state: nothing, or one change of the staging graph, or a new
published graph. -/
inductive NetChange (s : NetState) : NetEvent → NetState → Int → Prop
  | reject {ev} : NetChange s ev s (-1)
  | idle {mem} : NetChange s (.graphSync mem) s 0
  | addNode {entry mem heap g p node prefixes rt} :
      graphAddNode s.heap (markGraphDirty s.graphStaging) entry.name mem.node = some (heap, g, p) →
      heap.nodes[p]? = some node → rt.nodeId = node.id →
      NetChange s (.nodestateRead entry mem)
        ⟨heap, s.graph, g, s.routers.set entry.name rt, prefixes, s.tables⟩ 0
  | addLink {entry mem heap₁ g₁ heap₂ g₂ p q} :
      p ∈ s.graphStaging.nodes → q ∈ s.graphStaging.nodes →
      graphAddEdge s.heap (markGraphDirty s.graphStaging) p q entry.metricOf entry.link mem.edge =
        (heap₁, g₁) →
      graphAddEdge heap₁ g₁ q p entry.metricOf entry.link2 mem.edge2 = (heap₂, g₂) →
      NetChange s (.linkstateRead entry mem) { s with heap := heap₂, graphStaging := g₂ } 0
  | update {entry fmask edge edge2 e} :
      edge ∈ s.graphStaging.edges → edge2 ∈ s.graphStaging.edges → s.heap.edges[edge]? = some e →
      NetChange s (.linkstateUpdate entry fmask)
        { s with
          heap := updateFields s.heap entry fmask edge edge2 e.data e.data
          graphStaging := markGraphDirty s.graphStaging } 0
  | delete {entry g} :
      g.nodes = s.graphStaging.nodes → g.lastNode = s.graphStaging.lastNode →
      g.edges.Sublist s.graphStaging.edges →
      NetChange s (.linkstateDelete entry) { s with graphStaging := markGraphDirty g } 0
  | sync {heap graph value tables} :
      graphDeepcopy s.heap s.graphStaging = .ok (heap, graph) → graphValue heap graph = some value →
      graphBuildCache (graphFinalize value) = .ok tables →
      NetChange s (.graphSync true) ⟨heap, graph, { s.graphStaging with dirty := false }, s.routers,
        s.prefixes, tables⟩ 0

theorem removeEdgeData_spec (h : Heap) (g : GraphObj) (a b : In6Addr) :
    (removeEdgeData h g a b).nodes = g.nodes ∧
      (removeEdgeData h g a b).lastNode = g.lastNode ∧
      (removeEdgeData h g a b).edges.Sublist g.edges := by
  rw [removeEdgeData]
  split
  · exact ⟨rfl, rfl, .refl _⟩
  · rw [graphRemoveEdge]
    split_ifs
    · exact ⟨rfl, rfl, List.erase_sublist⟩
    · exact ⟨rfl, rfl, .refl _⟩

theorem mem_of_graphGetEdgeData {a b : In6Addr} (hp : graphGetEdgeData h g a b = some p) :
    p ∈ g.edges := List.mem_of_find?_eq_some hp

theorem mem_of_graphGetNodeNoref {nodes : List Ptr} {id : UInt32}
    (hp : graphGetNodeNoref h nodes id = some p) : p ∈ nodes := List.mem_of_find?_eq_some hp

theorem nodestateRead_change {s s' : NetState} {entry : NodeEntry} {mem : NodeMem} {ret : Int}
    (hcall : nodestateRead s entry mem = .ok (s', ret)) :
    NetChange s (.nodestateRead entry mem) s' ret := by
  rw [nodestateRead] at hcall
  split at hcall
  · cases hcall
    exact .reject
  · split_ifs at hcall
    · cases hcall
      exact .reject
    · split at hcall
      · cases hcall
      · split at hcall
        · cases hcall
        · next hadd =>
          split at hcall
          · cases hcall
          · next hnode =>
            cases hcall
            exact .addNode hadd hnode rfl

theorem linkstateRead_change {s s' : NetState} {entry : LinkEntry} {mem : LinkMem} {ret : Int}
    (hcall : linkstateRead s entry mem = .ok (s', ret)) :
    NetChange s (.linkstateRead entry mem) s' ret := by
  rw [linkstateRead] at hcall
  split_ifs at hcall
  · cases hcall
    exact .reject
  · cases hcall
    exact .reject
  · split at hcall <;> cases hcall <;> exact .reject
  · split at hcall <;> cases hcall <;> exact .reject
  · split at hcall
    · simp only [] at hcall
      split at hcall
      · next hp hq =>
        cases hcall
        exact .addLink (mem_of_graphGetNodeNoref hp) (mem_of_graphGetNodeNoref hq) rfl rfl
      · cases hcall
    · cases hcall
      exact .reject

theorem linkstateUpdate_change {s s' : NetState} {entry : LinkEntry} {fmask : UInt32} {ret : Int}
    (hcall : linkstateUpdate s entry fmask = .ok (s', ret)) :
    NetChange s (.linkstateUpdate entry fmask) s' ret := by
  rw [linkstateUpdate] at hcall
  split at hcall
  · cases hcall
    exact .reject
  · next hedge =>
    split at hcall
    · cases hcall
    · next he =>
      split at hcall
      · cases hcall
        exact .reject
      · next hedge2 =>
        cases hcall
        exact .update (mem_of_graphGetEdgeData hedge) (mem_of_graphGetEdgeData hedge2) he

theorem netstateGraphSync_change {s s' : NetState} {mem : Bool} {ret : Int}
    (hcall : netstateGraphSync s mem = .ok (s', ret)) : NetChange s (.graphSync mem) s' ret := by
  rw [netstateGraphSync] at hcall
  split_ifs at hcall with hdirty hmem
  · cases hcall
    exact .idle
  · cases hcall
    exact .reject
  · obtain rfl : mem = true := by simpa using hmem
    split at hcall
    · cases hcall
    · next hcopy =>
      split at hcall
      · cases hcall
      · next hvalue =>
        split at hcall
        · cases hcall
        · next hcache =>
          cases hcall
          exact .sync hcopy hvalue hcache

/-- Every call makes one of the changes. -/
theorem netCall_change {s s' : NetState} {ev : NetEvent} {ret : Int}
    (hcall : netCall s ev = .ok (s', ret)) : NetChange s ev s' ret := by
  cases ev with
  | nodestateRead entry mem => exact nodestateRead_change hcall
  | linkstateRead entry mem => exact linkstateRead_change hcall
  | linkstateUpdate entry fmask => exact linkstateUpdate_change hcall
  | linkstateDelete entry =>
    cases hcall
    have h₁ := removeEdgeData_spec s.heap s.graphStaging entry.addr1 entry.addr2
    have h₂ := removeEdgeData_spec s.heap
      (removeEdgeData s.heap s.graphStaging entry.addr1 entry.addr2) entry.addr2 entry.addr1
    exact .delete (h₂.1.trans h₁.1) (h₂.2.1.trans h₁.2.1) (h₂.2.2.trans h₁.2.2)
  | graphSync mem => exact netstateGraphSync_change hcall

/-! ## The invariant -/

/-- The invariant of the network state. -/
structure NetWf (s : NetState) : Prop where
  separated : Separated s.heap s.graphStaging s.graph
  routers : ∀ name rt, s.routers.get name = some rt → ∃ p ∈ s.graphStaging.nodes, ∃ n,
    s.heap.nodes[p]? = some n ∧ n.id = rt.nodeId
  synced : s.graphStaging.dirty = false → view s.heap s.graph = view s.heap s.graphStaging
  tables : ∃ value, graphValue s.heap s.graph = some value ∧
    graphBuildCache (graphFinalize value) = .ok s.tables

theorem netWf_netInit : NetWf netInit where
  separated := ⟨⟨by simp [netInit, graphNew], by simp [netInit, graphNew]⟩,
    ⟨by simp [netInit, graphNew], by simp [netInit, graphNew]⟩, by simp [netInit, graphNew]⟩
  routers name rt h := by simp [netInit] at h
  synced _ := rfl
  tables := ⟨_, rfl, rfl⟩

/-- Routers keep their nodes when the staging graph keeps its nodes. -/
theorem routers_of_grows {s : NetState} (hs : NetWf s) {g₁ : GraphObj}
    (hnodes : ∀ (p : Ptr) n, s.heap.nodes[p]? = some n → h'.nodes[p]? = some n)
    (hsub : s.graphStaging.nodes ⊆ g₁.nodes) {name : String} {rt : Router}
    (hrt : s.routers.get name = some rt) :
    ∃ p ∈ g₁.nodes, ∃ n, h'.nodes[p]? = some n ∧ n.id = rt.nodeId := by
  obtain ⟨p, hp, n, hn, hid⟩ := hs.routers name rt hrt
  exact ⟨p, hsub hp, n, hnodes p n hn, hid⟩

/-- A change of the staging graph that marks it dirty and is not seen in the published one. -/
theorem NetWf.of_staging {s : NetState} (hs : NetWf s) {g₁ : GraphObj}
    {routers : Table String Router} {prefixes : LpmTree String}
    (hsep : Separated h' g₁ s.graph) (hview : view h' s.graph = view s.heap s.graph)
    (hdirty : g₁.dirty = true)
    (hrouters : ∀ name rt, routers.get name = some rt → ∃ p ∈ g₁.nodes, ∃ n,
      h'.nodes[p]? = some n ∧ n.id = rt.nodeId) :
    NetWf ⟨h', s.graph, g₁, routers, prefixes, s.tables⟩ where
  separated := hsep
  routers := hrouters
  synced h := by simp [hdirty] at h
  tables := by
    obtain ⟨value, hvalue, hcache⟩ := hs.tables
    refine ⟨value, ?_, hcache⟩
    rw [← hvalue, graphValue, graphValue, hview]

/-- **Step lemma.** Every call keeps the invariant, and only `netstate_graph_sync` changes the
published graph. -/
theorem NetWf.change {s s' : NetState} {ev : NetEvent} {ret : Int} (hs : NetWf s)
    (hchange : NetChange s ev s' ret) :
    NetWf s' ∧ ((∀ mem, ev ≠ .graphSync mem) →
      s'.graph = s.graph ∧ view s'.heap s'.graph = view s.heap s.graph) := by
  cases hchange with
  | reject => exact ⟨hs, fun _ => ⟨rfl, rfl⟩⟩
  | idle => exact ⟨hs, fun hev => absurd rfl (hev _)⟩
  | @addNode entry mem heap g p node prefixes rt hadd hnode hrt =>
    obtain ⟨hsep, hgrow, hp, hnodes, hdirty⟩ := (hs.separated.setDirty true).graphAddNode hadd
    have hview := hgrow.view hs.separated.right
    refine ⟨hs.of_staging hsep hview hdirty fun name rt' hrt' => ?_, fun _ => ⟨rfl, hview⟩⟩
    rw [Table.get_set] at hrt'
    split_ifs at hrt'
    · cases hrt'
      exact ⟨p, hp, node, hnode, hrt.symm⟩
    · refine routers_of_grows hs hgrow.nodes ?_ hrt'
      rw [hnodes]
      exact List.subset_append_left _ _
  | @addLink entry mem heap₁ g₁ heap₂ g₂ p q hp hq h₁ h₂ =>
    obtain ⟨hsep₁, hgrow₁, hnodes₁, hdirty₁⟩ :=
      (hs.separated.setDirty true).graphAddEdge hp hq h₁
    obtain ⟨hsep₂, hgrow₂, hnodes₂, hdirty₂⟩ :=
      hsep₁.graphAddEdge (hnodes₁ ▸ hq) (hnodes₁ ▸ hp) h₂
    have hgrow := hgrow₁.trans hgrow₂
    have hview := hgrow.view hs.separated.right
    refine ⟨hs.of_staging hsep₂ hview (hdirty₂ (hdirty₁ rfl)) fun name rt hrt => ?_,
      fun _ => ⟨rfl, hview⟩⟩
    exact routers_of_grows hs hgrow.nodes (hnodes₂.trans hnodes₁ ▸ List.Subset.refl _) hrt
  | @update entry fmask edge edge2 e hedge hedge2 he =>
    obtain ⟨hsep, hview⟩ := hs.separated.updateFields entry fmask hedge hedge2 he
    refine ⟨hs.of_staging (hsep.setDirty true) hview rfl fun name rt hrt => ?_,
      fun _ => ⟨rfl, hview⟩⟩
    exact routers_of_grows hs (by simp [nodes_updateFields]) (List.Subset.refl _) hrt
  | @delete entry g hnodes hlast hsub =>
    have hsep : Separated s.heap (markGraphDirty g) s.graph := hs.separated.of_sublist hnodes hsub
    refine ⟨hs.of_staging hsep rfl rfl fun name rt hrt => ?_, fun _ => ⟨rfl, rfl⟩⟩
    exact routers_of_grows hs (fun _ _ h => h) (hnodes ▸ List.Subset.refl _) hrt
  | @sync heap graph value tables hcopy hvalue hcache =>
    refine ⟨?_, fun hev => absurd rfl (hev _)⟩
    obtain ⟨h₁, gc, hrun, hgrow, hsep, hview, -⟩ :=
      graphDeepcopy_spec hs.separated.left hs.separated.nodup_links
    cases hcopy.symm.trans hrun
    refine ⟨hsep.setDirty false, fun name rt hrt => ?_, fun _ => ?_,
      value, hvalue, hcache⟩
    · exact routers_of_grows hs hgrow.nodes (List.Subset.refl _) hrt
    · exact hview.trans (hgrow.view hs.separated.left).symm

/-! ## Runs -/

theorem NetChange.eq_of_reject {s s' : NetState} {ev : NetEvent} {ret : Int}
    (hchange : NetChange s ev s' ret) (hret : ret = -1) : s' = s := by
  cases hchange with
  | reject => rfl
  | idle => rfl
  | _ => simp at hret

theorem exists_netCall {s s' : NetState} {ev : NetEvent} (hstep : netStep s ev = some s') :
    ∃ ret, netCall s ev = .ok (s', ret) := by
  rw [netStep, Option.map_eq_some_iff] at hstep
  obtain ⟨⟨s₁, ret⟩, hcall, rfl⟩ := hstep
  cases hcase : netCall s ev with
  | error fault =>
    rw [hcase] at hcall
    cases hcall
  | ok out =>
    rw [hcase] at hcall
    cases hcall
    exact ⟨ret, rfl⟩

theorem netStep_of_netCall {s s' : NetState} {ev : NetEvent} {ret : Int}
    (hcall : netCall s ev = .ok (s', ret)) : netStep s ev = some s' := by
  rw [netStep, hcall]
  rfl

/-- The invariant holds in every reachable state. -/
theorem netWf_of_netRun {s s' : NetState} {events : List NetEvent} (hs : NetWf s)
    (hrun : netRun s events = some s') : NetWf s' := by
  refine Transition.run_invariant (fun s ev s' hs hstep => ?_) hs hrun
  obtain ⟨ret, hcall⟩ := exists_netCall hstep
  exact (hs.change (netCall_change hcall)).1

/-- No pointer of a graph dangles. -/
theorem GraphWf.exists_view (hg : GraphWf h g) :
    ∃ nodes edges, view h g = (List.map some nodes, List.map some edges) := by
  obtain ⟨nodes, hnodes⟩ := Fault.exists_map_some hg.nodes
  obtain ⟨edges, hedges⟩ := Fault.exists_map_some (f := h.edge?) (l := g.edges) fun p hp => by
    obtain ⟨e, n, m, l, -, -, -, -, -, -, hedge⟩ := hg.edge? hp
    exact ⟨_, hedge⟩
  exact ⟨nodes, edges, Prod.ext hnodes hedges⟩

/-- **Main theorem.** In every state that calls of the callbacks and of `netstate_graph_sync`
reach, in any order, the pointers of both graphs are sound, and a staging graph that is not
dirty shows the nodes and edges of the published graph.  The next call leaves the published
graph as it is unless it is `netstate_graph_sync`, and changes nothing if it returns -1. -/
theorem netRun_published (events : List NetEvent) (s : NetState)
    (hrun : netRun netInit events = some s) :
    (∃ nodes edges, view s.heap s.graph = (List.map some nodes, List.map some edges)) ∧
      (∃ nodes edges, view s.heap s.graphStaging = (List.map some nodes, List.map some edges)) ∧
      (s.graphStaging.dirty = false → view s.heap s.graph = view s.heap s.graphStaging) ∧
      ∀ ev s' ret, netCall s ev = .ok (s', ret) →
        ((∀ mem, ev ≠ .graphSync mem) →
          s'.graph = s.graph ∧ view s'.heap s'.graph = view s.heap s.graph) ∧
        (ret = -1 → s' = s) := by
  have hs := netWf_of_netRun netWf_netInit hrun
  refine ⟨hs.separated.right.exists_view, hs.separated.left.exists_view, hs.synced,
    fun ev s' ret hcall => ?_⟩
  have hchange := netCall_change hcall
  exact ⟨(hs.change hchange).2, hchange.eq_of_reject⟩

/-- Two routers, a link between them, and a synchronisation. -/
def firstSync : List NetEvent :=
  [.nodestateRead ⟨"A", 1, [⟨1 <<< 120, 8⟩], none⟩ ⟨true, true⟩,
    .nodestateRead ⟨"B", 2, [], none⟩ ⟨true, true⟩,
    .linkstateRead ⟨"A", 3, "B", 4, 10, 100, 50, 7⟩ ⟨true, true, true, true⟩,
    .graphSync true]

/-- After it the published graph is the staging graph. -/
theorem netRun_published_firstSync :
    ∃ s, netRun netInit firstSync = some s ∧ s.graphStaging.edges.length = 2 ∧
      view s.heap s.graph = view s.heap s.graphStaging := by
  have hfacts : (netRun netInit firstSync).map (fun s =>
      (s.graphStaging.dirty, s.graphStaging.edges.length)) = some (false, 2) := by decide +kernel
  obtain ⟨s, hrun, heq⟩ := Option.map_eq_some_iff.mp hfacts
  obtain ⟨hdirty, hlength⟩ := Prod.mk.inj heq
  exact ⟨s, hrun, hlength, (netRun_published firstSync s hrun).2.2.1 hdirty⟩

end Srn
