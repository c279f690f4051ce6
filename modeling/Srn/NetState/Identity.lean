import Srn.Graph.Built
import Srn.NetState.Rebuild

/-!
# Srn.NetState.Identity

The id of an edge stands for one link over the whole life of the controller.  The edges that are
added to the staging graph are numbered, `graph_deepcopy` copies the number, and nothing changes
the ends of an edge or the addresses of its link; so the n-th edge that was added is the only one
with the id n in any graph that was published, until the counter comes round.

The proofs carry a log of the edges that were added (`Recorded`).
-/

namespace Srn

/-! ## The log -/

/-- What never changes of an edge. -/
structure EdgeIdentity where
  localId : NodeId
  remoteId : NodeId
  localAddr : In6Addr
  remoteAddr : In6Addr
  deriving DecidableEq, Repr

/-- The ids of the ends of an edge and the addresses of its link. -/
def Edge.identity (e : Edge Link) : EdgeIdentity :=
  ⟨e.localId, e.remoteId, e.data.localAddr, e.data.remoteAddr⟩

/-- The id of an edge, with the edge that it should stand for. -/
def Edge.key (e : Edge Link) : UInt32 × EdgeIdentity := (e.id, e.identity)

/-- The edge is, or is a copy of, one that was added; its id is the number of the addition. -/
def Given (log : List EdgeIdentity) (e : Edge Link) : Prop :=
  ∃ k : ℕ, log[k]? = some e.identity ∧ e.id = UInt32.ofNat (k + 1)

/-- All edges were added, and none twice before the counter comes round. -/
structure Listed (log : List EdgeIdentity) (edges : List (Edge Link)) : Prop where
  given : ∀ e ∈ edges, Given log e
  distinct : log.length < UInt32.size → (edges.map Edge.id).Nodup

variable {log : List EdgeIdentity} {edges edges' : List (Edge Link)}

theorem Given.append {e : Edge Link} (he : Given log e) (more : List EdgeIdentity) :
    Given (log ++ more) e := by
  obtain ⟨k, hk, hid⟩ := he
  exact ⟨k, getElem?_append_of_some hk, hid⟩

/-- Before the counter comes round an id has been given once. -/
theorem Given.identity_eq {e₁ e₂ : Edge Link} (h₁ : Given log e₁) (h₂ : Given log e₂)
    (hlog : log.length < UInt32.size) (hid : e₁.id = e₂.id) : e₁.identity = e₂.identity := by
  obtain ⟨k₁, hk₁, hid₁⟩ := h₁
  obtain ⟨k₂, hk₂, hid₂⟩ := h₂
  have hlt₁ := (List.getElem?_eq_some_iff.mp hk₁).1
  have hlt₂ := (List.getElem?_eq_some_iff.mp hk₂).1
  have heq := congrArg UInt32.toNat (hid₁.symm.trans (hid.trans hid₂))
  rw [UInt32.toNat_ofNat_of_lt' (show k₁ + 1 < UInt32.size by omega),
    UInt32.toNat_ofNat_of_lt' (show k₂ + 1 < UInt32.size by omega), Nat.add_right_cancel_iff] at heq
  subst heq
  exact Option.some.inj (hk₁.symm.trans hk₂)

namespace Listed

theorem append (h : Listed log edges) (more : List EdgeIdentity) : Listed (log ++ more) edges where
  given e he := (h.given e he).append more
  distinct hlt := h.distinct (Nat.lt_of_le_of_lt (List.prefix_append log more).length_le hlt)

theorem sublist (h : Listed log edges) (hsub : edges'.Sublist edges) : Listed log edges' where
  given e he := h.given e (hsub.subset he)
  distinct hlt := (h.distinct hlt).sublist (hsub.map _)

/-- Changes of metrics and of the other fields of links. -/
theorem of_keys (h : Listed log edges) (hkeys : edges'.map Edge.key = edges.map Edge.key) :
    Listed log edges' where
  given e he := by
    have hmem : e.key ∈ edges.map Edge.key := hkeys ▸ List.mem_map_of_mem he
    obtain ⟨e₀, he₀, hkey⟩ := List.mem_map.mp hmem
    obtain ⟨hid, hidentity⟩ := Prod.mk.inj hkey
    obtain ⟨k, hk, hk'⟩ := h.given e₀ he₀
    exact ⟨k, hidentity ▸ hk, hid ▸ hk'⟩
  distinct hlt := by
    have hids := congrArg (List.map Prod.fst) hkeys
    rw [List.map_map, List.map_map] at hids
    exact (show edges'.map Edge.id = edges.map Edge.id from hids) ▸ h.distinct hlt

/-- A new edge, with the next id. -/
theorem add (h : Listed log edges) {e : Edge Link} (hid : e.id = UInt32.ofNat (log.length + 1)) :
    Listed (log ++ [e.identity]) (edges ++ [e]) where
  given x hx := by
    obtain hx | hx := List.mem_append.mp hx
    · exact (h.given x hx).append _
    · rw [List.mem_singleton.mp hx]
      exact ⟨log.length, List.getElem?_concat_length, hid⟩
  distinct hlt := by
    rw [List.length_append, List.length_singleton] at hlt
    rw [List.map_append, List.nodup_append]
    refine ⟨h.distinct (Nat.lt_of_succ_lt hlt), List.nodup_singleton _, fun i hi j hj heq => ?_⟩
    obtain ⟨x, hx, rfl⟩ := List.mem_map.mp hi
    obtain ⟨k, hk, hxid⟩ := h.given x hx
    have hlt' := (List.getElem?_eq_some_iff.mp hk).1
    rw [List.map_singleton, List.mem_singleton] at hj
    rw [hj, hid, hxid] at heq
    exact ofNat_succ_ne (Nat.le_of_lt hlt) (Nat.succ_pos k) hlt' heq.symm

end Listed

/-! ## Graphs -/

/-- The edges of a graph in the heap are listed. -/
def Lists (h : Heap) (g : GraphObj) (log : List EdgeIdentity) : Prop :=
  ∃ edges, (view h g).2 = edges.map some ∧ Listed log edges

variable {h h' : Heap} {g g' g₁ : GraphObj}

theorem Lists.append (hl : Lists h g log) (more : List EdgeIdentity) : Lists h g (log ++ more) := by
  obtain ⟨edges, hview, hlisted⟩ := hl
  exact ⟨edges, hview, hlisted.append more⟩

theorem Lists.of_view (hl : Lists h g log) (hview : (view h' g').2 = (view h g).2) :
    Lists h' g' log := by
  obtain ⟨edges, heq, hlisted⟩ := hl
  exact ⟨edges, hview.trans heq, hlisted⟩

/-- The edges have other metrics, or their links other values. -/
theorem Lists.of_keys (hl : Lists h g log) (hg : GraphWf h' g)
    (hkeys : ∀ p ∈ g.edges, (h'.edge? p).map Edge.key = (h.edge? p).map Edge.key) :
    Lists h' g log := by
  obtain ⟨edges, heq, hlisted⟩ := hl
  obtain ⟨nodes, edges', hview⟩ := hg.exists_view
  have hedges' : (view h' g).2 = edges'.map some := congrArg Prod.snd hview
  refine ⟨edges', hedges', hlisted.of_keys ?_⟩
  have hmap : (view h' g).2.map (Option.map Edge.key) = (view h g).2.map (Option.map Edge.key) := by
    simp only [view, List.map_map]
    exact List.map_congr_left hkeys
  rw [hedges', heq, List.map_map, List.map_map] at hmap
  refine List.map_injective_iff.mpr (fun _ _ => Option.some.inj) ?_
  rw [List.map_map, List.map_map]
  exact hmap

/-- Fewer edges. -/
theorem Lists.sublist (hl : Lists h g log) (hsub : g'.edges.Sublist g.edges) :
    Lists h g' log := by
  obtain ⟨edges, heq, hlisted⟩ := hl
  obtain ⟨edges', hsub', heq'⟩ := List.sublist_map_iff.mp (heq ▸ hsub.map h.edge? :
    (g'.edges.map h.edge?).Sublist (edges.map some))
  exact ⟨edges', heq', hlisted.sublist hsub'⟩

/-- The edges of a graph seen through a larger heap. -/
theorem edges_view_of_grows (hgrow : Grows h h') (hg : GraphWf h g) (hedges : g'.edges = g.edges) :
    (view h' g').2 = (view h g).2 := by
  rw [← hgrow.view hg, view, view, hedges]

/-- What is added to a list of pointers. -/
structure AddsTo (ps qs : List Ptr) (n : ℕ) : Prop where
  news : ∃ news : List Ptr, qs = ps ++ news ∧ news.length = n ∧ ∀ p ∈ news, p ∉ ps

theorem AddsTo.refl (ps : List Ptr) : AddsTo ps ps 0 := ⟨[], by simp, rfl, by simp⟩

theorem AddsTo.trans {ps qs rs : List Ptr} {n m : ℕ} (h₁ : AddsTo ps qs n)
    (h₂ : AddsTo qs rs m) : AddsTo ps rs (n + m) := by
  obtain ⟨⟨news₁, rfl, rfl, hfresh₁⟩⟩ := h₁
  obtain ⟨⟨news₂, rfl, rfl, hfresh₂⟩⟩ := h₂
  refine ⟨news₁ ++ news₂, List.append_assoc .., List.length_append, fun p hp => ?_⟩
  obtain hp | hp := List.mem_append.mp hp
  · exact hfresh₁ p hp
  · exact fun hmem => hfresh₂ p hp (List.mem_append_left _ hmem)

/-- `graph_add_edge` lists its edge. -/
theorem Lists.graphAddEdge (hl : Lists h g log) (hs : Separated h g g') {a b : Ptr}
    {metric : UInt32} {link : Link} {mem : Bool} (ha : a ∈ g.nodes) (hb : b ∈ g.nodes)
    (hlast : g.lastEdge = UInt32.ofNat log.length)
    (hadd : Srn.graphAddEdge h g a b metric link mem = (h', g₁)) :
    ∃ more, Lists h' g₁ (log ++ more) ∧ g₁.lastEdge = UInt32.ofNat (log ++ more).length ∧
      AddsTo g.edges g₁.edges more.length := by
  obtain ⟨-, hgrow, -, -⟩ := hs.graphAddEdge ha hb hadd
  rw [Srn.graphAddEdge] at hadd
  split_ifs at hadd
  · obtain ⟨rfl, rfl⟩ := Prod.mk.inj hadd
    obtain ⟨edges, hview, hlisted⟩ := hl
    obtain ⟨n, hn⟩ := hs.left.nodes a ha
    obtain ⟨m, hm⟩ := hs.left.nodes b hb
    have hid : g.lastEdge + 1 = UInt32.ofNat (log.length + 1) := by
      rw [hlast, UInt32.ofNat_add]
      rfl
    have hnew := edge?_eq (h := ⟨h.nodes, h.edges ++
      [⟨a, b, g.lastEdge + 1, metric, h.links.length⟩], h.links ++ [link]⟩)
      List.getElem?_concat_length hn hm List.getElem?_concat_length
    refine ⟨[Edge.identity ⟨g.lastEdge + 1, n.id, m.id, metric, link⟩],
      ⟨edges ++ [⟨g.lastEdge + 1, n.id, m.id, metric, link⟩], ?_, hlisted.add hid⟩, ?_,
      ⟨[h.edges.length], rfl, rfl, fun p hp hmem => ?_⟩⟩
    · rw [view, List.map_append, List.map_singleton, List.map_append, List.map_singleton, hnew,
        ← hview, ← hgrow.view hs.left, view]
    · rw [List.length_append, List.length_singleton]
      exact hid
    · obtain ⟨e, -, he, -⟩ := hs.left.edges p hmem
      rw [List.mem_singleton.mp hp] at he
      exact Nat.lt_irrefl _ (List.getElem?_eq_some_iff.mp he).1
  · obtain ⟨rfl, rfl⟩ := Prod.mk.inj hadd
    exact ⟨[], by rw [List.append_nil]; exact hl, by rw [List.append_nil]; exact hlast, .refl _⟩

theorem graphAddNode_edges {data : String} {mem : Bool} {p : Ptr}
    (hadd : graphAddNode h g data mem = some (h', g₁, p)) :
    g₁.edges = g.edges ∧ g₁.lastEdge = g.lastEdge := by
  rw [graphAddNode] at hadd
  split_ifs at hadd
  cases hadd
  exact ⟨rfl, rfl⟩

/-- `linkstate_update` changes no identity. -/
theorem Lists.updateFields (hl : Lists h g log) (hs : Separated h g g') (entry : LinkEntry)
    (fmask : UInt32) {edge edge2 : Ptr} {e : EdgeObj} (hedge : edge ∈ g.edges)
    (hedge2 : edge2 ∈ g.edges) (he : h.edges[edge]? = some e) :
    Lists (Srn.updateFields h entry fmask edge edge2 e.data e.data) g log := by
  refine hl.of_keys (hs.updateFields entry fmask hedge hedge2 he).1.left fun p hp => ?_
  obtain ⟨e', n, m, l, -, -, -, -, -, -, hx⟩ := hs.left.edge? hp
  rw [edge?_updateFields hs entry fmask edge2 hedge he hp hx, hx, Option.map_some, Option.map_some]
  split_ifs <;> rfl

/-! ## Steps -/

/-- The number of edges that a step adds to the staging graph. -/
def newEdges (s s' : NetState) : ℕ :=
  s'.graphStaging.edges.countP fun p => p ∉ s.graphStaging.edges

theorem newEdges_of_addsTo {s s' : NetState} {n : ℕ}
    (hext : AddsTo s.graphStaging.edges s'.graphStaging.edges n) : newEdges s s' = n := by
  obtain ⟨⟨news, hedges, rfl, hfresh⟩⟩ := hext
  have hold : s.graphStaging.edges.countP (fun p => p ∉ s.graphStaging.edges) = 0 :=
    List.countP_eq_zero.mpr fun p hp => by simpa using hp
  have hnew : news.countP (fun p => p ∉ s.graphStaging.edges) = news.length :=
    List.countP_eq_length.mpr fun p hp => by simpa using hfresh p hp
  rw [newEdges, hedges, List.countP_append, hold, hnew, Nat.zero_add]

theorem newEdges_of_subset {s s' : NetState}
    (hsub : s'.graphStaging.edges ⊆ s.graphStaging.edges) : newEdges s s' = 0 :=
  List.countP_eq_zero.mpr fun p hp => by simpa using hsub hp

/-- The edges of both graphs are in the log, and the counter is at its end. -/
structure Recorded (s : NetState) (log : List EdgeIdentity) : Prop where
  wf : NetWf s
  lastEdge : s.graphStaging.lastEdge = UInt32.ofNat log.length
  staging : Lists s.heap s.graphStaging log
  published : Lists s.heap s.graph log

theorem recorded_netInit : Recorded netInit [] where
  wf := netWf_netInit
  lastEdge := rfl
  staging := ⟨[], rfl, by simp, fun _ => List.nodup_nil⟩
  published := ⟨[], rfl, by simp, fun _ => List.nodup_nil⟩

theorem lastEdge_removeEdgeData (h : Heap) (g : GraphObj) (a b : In6Addr) :
    (removeEdgeData h g a b).lastEdge = g.lastEdge := by
  rw [removeEdgeData]
  split
  · rfl
  · rw [graphRemoveEdge]
    split_ifs <;> rfl

/-- A call that adds no edge adds nothing to the log. -/
theorem Recorded.unlogged {s s' : NetState} (hs : Recorded s' log)
    (hsub : s'.graphStaging.edges ⊆ s.graphStaging.edges) :
    ∃ more, more.length = newEdges s s' ∧ Recorded s' (log ++ more) := by
  refine ⟨[], (newEdges_of_subset hsub).symm, ?_⟩
  rwa [List.append_nil]

/-- **Step lemma.** A call adds to the log the edges that it adds to the staging graph. -/
theorem Recorded.step {s s' : NetState} {ev : NetEvent} (hs : Recorded s log)
    (hstep : netStep s ev = some s') :
    ∃ more, more.length = newEdges s s' ∧ Recorded s' (log ++ more) := by
  obtain ⟨ret, hcall⟩ := exists_netCall hstep
  have hchange := netCall_change hcall
  have hwf' := (hs.wf.change hchange).1
  have hleft := hs.wf.separated.left
  have hright := hs.wf.separated.right
  cases hchange with
  | reject => exact hs.unlogged (List.Subset.refl _)
  | idle => exact hs.unlogged (List.Subset.refl _)
  | @addNode entry mem heap g p node prefixes rt hadd hnode hrt =>
    obtain ⟨-, hgrow, -, -, -⟩ := (hs.wf.separated.setDirty true).graphAddNode hadd
    obtain ⟨hedges, hlast⟩ := graphAddNode_edges hadd
    refine Recorded.unlogged ?_ (hedges ▸ List.Subset.refl _)
    exact ⟨hwf', hlast.trans hs.lastEdge,
      hs.staging.of_view (edges_view_of_grows hgrow hleft hedges),
      hs.published.of_view (edges_view_of_grows hgrow hright rfl)⟩
  | @addLink entry mem heap₁ g₁ heap₂ g₂ p q hp hq h₁ h₂ =>
    have hsep := hs.wf.separated.setDirty true
    obtain ⟨hsep₁, hgrow₁, hnodes₁, -⟩ := hsep.graphAddEdge hp hq h₁
    obtain ⟨-, hgrow₂, -, -⟩ := hsep₁.graphAddEdge (hnodes₁ ▸ hq) (hnodes₁ ▸ hp) h₂
    have hdirty : Lists s.heap (markGraphDirty s.graphStaging) log := hs.staging
    obtain ⟨more₁, hl₁, hlast₁, hext₁⟩ := hdirty.graphAddEdge hsep hp hq hs.lastEdge h₁
    obtain ⟨more₂, hl₂, hlast₂, hext₂⟩ :=
      hl₁.graphAddEdge hsep₁ (hnodes₁ ▸ hq) (hnodes₁ ▸ hp) hlast₁ h₂
    refine ⟨more₁ ++ more₂, ?_, ?_⟩
    · rw [List.length_append, newEdges_of_addsTo (hext₁.trans hext₂)]
    · rw [← List.append_assoc]
      refine ⟨hwf', hlast₂, hl₂, ?_⟩
      rw [List.append_assoc]
      exact (hs.published.of_view
        (edges_view_of_grows (hgrow₁.trans hgrow₂) hright rfl)).append _
  | @update entry fmask edge edge2 e hedge hedge2 he =>
    obtain ⟨-, hview⟩ := hs.wf.separated.updateFields entry fmask hedge hedge2 he
    refine Recorded.unlogged ?_ (List.Subset.refl _)
    exact ⟨hwf', hs.lastEdge,
      hs.staging.updateFields hs.wf.separated entry fmask hedge hedge2 he,
      hs.published.of_view (congrArg Prod.snd hview)⟩
  | @delete entry g hnodes hlast hsub =>
    refine Recorded.unlogged ?_ hsub.subset
    refine ⟨hwf', ?_, hs.staging.sublist hsub, hs.published⟩
    have hg := congrArg (fun out => out.1.graphStaging.lastEdge) (Except.ok.inj hcall)
    simp only [markGraphDirty, lastEdge_removeEdgeData] at hg
    exact hg.symm.trans hs.lastEdge
  | @sync heap graph value tables hcopy hvalue hcache =>
    obtain ⟨h₁, gc, hrun, hgrow, -, hview, -⟩ :=
      graphDeepcopy_spec hleft hs.wf.separated.nodup_links
    cases hcopy.symm.trans hrun
    refine Recorded.unlogged ?_ (List.Subset.refl _)
    exact ⟨hwf', hs.lastEdge, hs.staging.of_view (edges_view_of_grows hgrow hleft rfl),
      hs.staging.of_view (congrArg Prod.snd hview)⟩

/-! ## Graphs that are no longer published -/

/-- **Step lemma.** Calls do not write to the objects of a graph that shares no link with the
staging graph, whether it is still published or not. -/
theorem separated_netStep {s s' : NetState} {ev : NetEvent} (hs : NetWf s)
    (hsep : Separated s.heap s.graphStaging g) (hstep : netStep s ev = some s') :
    Separated s'.heap s'.graphStaging g ∧ view s'.heap g = view s.heap g := by
  obtain ⟨ret, hcall⟩ := exists_netCall hstep
  cases netCall_change hcall with
  | reject => exact ⟨hsep, rfl⟩
  | idle => exact ⟨hsep, rfl⟩
  | addNode hadd hnode hrt =>
    obtain ⟨hsep', hgrow, -⟩ := (hsep.setDirty true).graphAddNode hadd
    exact ⟨hsep', hgrow.view hsep.right⟩
  | addLink hp hq h₁ h₂ =>
    obtain ⟨hsep₁, hgrow₁, hnodes₁, -⟩ := (hsep.setDirty true).graphAddEdge hp hq h₁
    obtain ⟨hsep₂, hgrow₂, -, -⟩ := hsep₁.graphAddEdge (hnodes₁ ▸ hq) (hnodes₁ ▸ hp) h₂
    exact ⟨hsep₂, (hgrow₁.trans hgrow₂).view hsep.right⟩
  | update hedge hedge2 he =>
    obtain ⟨hsep', hview⟩ := hsep.updateFields _ _ hedge hedge2 he
    exact ⟨hsep'.setDirty true, hview⟩
  | delete hnodes hlast hsub => exact ⟨(hsep.of_sublist hnodes hsub).setDirty true, rfl⟩
  | sync hcopy hvalue hcache =>
    obtain ⟨h₁, gc, hrun, hgrow, -⟩ :=
      graphDeepcopy_spec hs.separated.left hs.separated.nodup_links
    cases hcopy.symm.trans hrun
    exact ⟨(hsep.of_grows hgrow).setDirty false, hgrow.view hsep.right⟩

end Srn
