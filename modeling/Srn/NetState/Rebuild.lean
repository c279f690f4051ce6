import Srn.NetState.Sync

/-!
# Srn.NetState.Rebuild

The staging graph against the `LinkState` rows: it should have, for every live row, one edge in
each direction with the values of the row, whatever insertions, updates and deletions led there.

The callbacks keep this as long as no update changes the bandwidth, the available bandwidth or
the delay of a row: `linkstate_update` reads the link of the second edge from the first one, so
it never writes to the link of the other direction.
-/

namespace Srn

/-! ## Rows and notifications -/

/-- The part of an edge that a row determines. -/
structure EdgeContent where
  localId : NodeId
  remoteId : NodeId
  metric : UInt32
  link : Link
  deriving DecidableEq, Repr

/-- An edge without its id. -/
def content (e : Edge Link) : EdgeContent := ⟨e.localId, e.remoteId, e.metric, e.data⟩

/-- The node of a known router. -/
def routerNode (routers : Table String Router) (name : String) : NodeId :=
  ((routers.get name).map Router.nodeId).getD 0

/-- The two edges of a row. -/
def rowEdges (routers : Table String Router) (row : LinkEntry) : List EdgeContent :=
  [⟨routerNode routers row.name1, routerNode routers row.name2, row.metricOf, row.link⟩,
    ⟨routerNode routers row.name2, routerNode routers row.name1, row.metricOf, row.link2⟩]

/-- The edges of the staging graph are those rebuilt from the rows. -/
def Rebuilt (s : NetState) (rows : List LinkEntry) : Prop :=
  ((view s.heap s.graphStaging).2.map (Option.map content)).Perm
    ((rows.flatMap (rowEdges s.routers)).map some)

/-- A notification about a `LinkState` row.  An update has the row before and after it. -/
inductive LinkEvent where
  | insert (row : LinkEntry)
  | update (row entry : LinkEntry) (fmask : UInt32)
  | delete (row : LinkEntry)
  deriving DecidableEq, Repr

/-- The call that handles a notification, with memory available. -/
def LinkEvent.call : LinkEvent → NetEvent
  | .insert row => .linkstateRead row ⟨true, true, true, true⟩
  | .update _ entry fmask => .linkstateUpdate entry fmask
  | .delete row => .linkstateDelete row

/-- The live rows after a notification. -/
def liveRows (rows : List LinkEntry) : LinkEvent → List LinkEntry
  | .insert row => rows ++ [row]
  | .update row entry _ => rows.map fun r => if r = row then entry else r
  | .delete row => rows.erase row

/-- The two rows have the same pair of addresses. -/
def SameLink (row row' : LinkEntry) : Prop :=
  row.addr1 = row'.addr1 ∧ row.addr2 = row'.addr2 ∨
    row.addr1 = row'.addr2 ∧ row.addr2 = row'.addr1

/-- The row changes only in columns of the field mask. -/
structure Updates (row entry : LinkEntry) (fmask : UInt32) : Prop where
  name1 : entry.name1 = row.name1
  addr1 : entry.addr1 = row.addr1
  name2 : entry.name2 = row.name2
  addr2 : entry.addr2 = row.addr2
  metric : hasField fmask .metric = false → entry.metric = row.metric
  bw : hasField fmask .bw = false → entry.bw = row.bw
  avaBw : hasField fmask .avaBw = false → entry.avaBw = row.avaBw
  delay : hasField fmask .delay = false → entry.delay = row.delay

/-- The notification is about known routers and a pair of addresses of its own, or about a live
row. -/
def Notifies (routers : Table String Router) (rows : List LinkEntry) : LinkEvent → Prop
  | .insert row => (∃ rt, routers.get row.name1 = some rt) ∧
      (∃ rt, routers.get row.name2 = some rt) ∧ ∀ r ∈ rows, ¬ SameLink r row
  | .update row entry fmask => row ∈ rows ∧ Updates row entry fmask
  | .delete row => row ∈ rows

/-- All notifications of a sequence are. -/
def NotifiesAll (routers : Table String Router) : List LinkEntry → List LinkEvent → Prop
  | _, [] => True
  | rows, ev :: events => Notifies routers rows ev ∧ NotifiesAll routers (liveRows rows ev) events

/-- The update leaves the other direction as it should be: it changes no value of the link, and
not the metric of a row with twice the same address. -/
def KeepsReverse : LinkEvent → Prop
  | .update row entry _ => entry.bw = row.bw ∧ entry.avaBw = row.avaBw ∧ entry.delay = row.delay ∧
      (row.addr1 = row.addr2 → entry.metricOf = row.metricOf)
  | _ => True

/-! ## Edges by their addresses -/

variable {h : Heap} {g g' : GraphObj} {p : Ptr} {routers : Table String Router}

/-- The contents of a list of edges. -/
def contents (h : Heap) (ps : List Ptr) : List (Option EdgeContent) :=
  ps.map fun p => (h.edge? p).map content

theorem linkEdgeDataEquals_eq {x : Edge Link} (hx : h.edge? p = some x) (a b : In6Addr) :
    linkEdgeDataEquals h a b p = decide (x.data.localAddr = a ∧ x.data.remoteAddr = b) := by
  obtain ⟨e, n, m, l, he, -, -, hl, rfl⟩ := exists_of_edge? hx
  simp [linkEdgeDataEquals, he, hl]

theorem linkEdgeDataEquals_of_content {c : EdgeContent} (hc : (h.edge? p).map content = some c)
    (a b : In6Addr) :
    linkEdgeDataEquals h a b p = decide (c.link.localAddr = a ∧ c.link.remoteAddr = b) := by
  obtain ⟨x, hx, rfl⟩ := Option.map_eq_some_iff.mp hc
  exact linkEdgeDataEquals_eq hx a b

/-- Edges of rows with other addresses are not found. -/
theorem linkEdgeDataEquals_eq_false {ps : List Ptr} {rows : List LinkEntry} {row : LinkEntry}
    (hps : contents h ps = (rows.flatMap (rowEdges routers)).map some)
    (hrows : ∀ r ∈ rows, ¬ SameLink r row) (hp : p ∈ ps) :
    linkEdgeDataEquals h row.addr1 row.addr2 p = false ∧
      linkEdgeDataEquals h row.addr2 row.addr1 p = false := by
  have hmem := List.mem_map_of_mem (f := fun p => (h.edge? p).map content) hp
  rw [show ps.map (fun p => (h.edge? p).map content) = _ from hps] at hmem
  obtain ⟨c, hc, heq⟩ := List.mem_map.mp hmem
  obtain ⟨r, hr, hcr⟩ := List.mem_flatMap.mp hc
  have hother := hrows r hr
  rw [SameLink, not_or] at hother
  rw [linkEdgeDataEquals_of_content heq.symm, linkEdgeDataEquals_of_content heq.symm]
  simp only [rowEdges, List.mem_cons, List.not_mem_nil, or_false] at hcr
  rcases hcr with rfl | rfl
  · exact ⟨decide_eq_false hother.1, decide_eq_false hother.2⟩
  · exact ⟨decide_eq_false fun h => hother.2 h.symm, decide_eq_false fun h => hother.1 h.symm⟩

theorem find?_of_split {f : Ptr → Bool} {ps qs : List Ptr} (hps : ∀ q ∈ ps, f q = false)
    (hp : f p = true) : (ps ++ p :: qs).find? f = some p := by
  rw [List.find?_append, List.find?_eq_none.mpr (by simpa using hps), List.find?_cons_of_pos hp]
  rfl

/-! ## The mirror of the rows -/

/-- The edges of the staging graph are the edges of the rows, in the same order. -/
structure Mirrors (s : NetState) (rows : List LinkEntry) : Prop where
  wf : NetWf s
  edges : contents s.heap s.graphStaging.edges = (rows.flatMap (rowEdges s.routers)).map some
  distinct : rows.Pairwise fun row row' => ¬ SameLink row row'

theorem view_contents (s : NetState) : (view s.heap s.graphStaging).2.map (Option.map content) =
    contents s.heap s.graphStaging.edges := by
  rw [view, contents, List.map_map]
  rfl

theorem Mirrors.rebuilt {s : NetState} {rows : List LinkEntry} (hm : Mirrors s rows) :
    Rebuilt s rows := by
  rw [Rebuilt, view_contents, hm.edges]

/-- The pointers to the edges of one row among those of all rows. -/
theorem exists_split {ps : List Ptr} {pre post : List LinkEntry} {row : LinkEntry}
    (hps : contents h ps = ((pre ++ row :: post).flatMap (rowEdges routers)).map some) :
    ∃ ps₁ p₁ p₂ ps₂ c₁ c₂, ps = ps₁ ++ p₁ :: p₂ :: ps₂ ∧ rowEdges routers row = [c₁, c₂] ∧
      contents h ps₁ = (pre.flatMap (rowEdges routers)).map some ∧
      (h.edge? p₁).map content = some c₁ ∧ (h.edge? p₂).map content = some c₂ ∧
      contents h ps₂ = (post.flatMap (rowEdges routers)).map some := by
  rw [List.flatMap_append, List.flatMap_cons, List.map_append, List.map_append] at hps
  obtain ⟨ps₁, rest, rfl, hps₁, hrest⟩ := List.map_eq_append_iff.mp hps
  obtain ⟨p₁, rest, rfl, hp₁, hrest⟩ := List.map_eq_cons_iff.mp hrest
  obtain ⟨p₂, ps₂, rfl, hp₂, hps₂⟩ := List.map_eq_cons_iff.mp hrest
  exact ⟨ps₁, p₁, p₂, ps₂, _, _, rfl, rfl, hps₁, hp₁, hp₂, hps₂⟩

/-- Where the rows before and after a live row are. -/
theorem Mirrors.split {s : NetState} {rows : List LinkEntry} {row : LinkEntry} (hm : Mirrors s rows)
    (hrow : row ∈ rows) : ∃ pre post, rows = pre ++ row :: post ∧ (∀ r ∈ pre, ¬ SameLink r row) ∧
      ∀ r ∈ post, ¬ SameLink r row := by
  obtain ⟨pre, post, rfl⟩ := List.append_of_mem hrow
  have hd := List.pairwise_append.mp hm.distinct
  refine ⟨pre, post, rfl, fun r hr => hd.2.2 r hr row List.mem_cons_self, fun r hr hsame => ?_⟩
  refine (List.pairwise_cons.mp hd.2.1).1 r hr ?_
  rcases hsame with hsame | hsame
  · exact .inl ⟨hsame.1.symm, hsame.2.symm⟩
  · exact .inr ⟨hsame.2.symm, hsame.1.symm⟩

/-- The two edges of a live row are found by its addresses; a row with twice the same address
has only its first edge found. -/
theorem find_of_split {ps₁ ps₂ : List Ptr} {p₁ p₂ : Ptr} {pre : List LinkEntry} {row : LinkEntry}
    {c₁ c₂ : EdgeContent} (hg : g.edges = ps₁ ++ p₁ :: p₂ :: ps₂)
    (hpre : ∀ r ∈ pre, ¬ SameLink r row)
    (hps₁ : contents h ps₁ = (pre.flatMap (rowEdges routers)).map some)
    (hrow : rowEdges routers row = [c₁, c₂]) (hp₁ : (h.edge? p₁).map content = some c₁)
    (hp₂ : (h.edge? p₂).map content = some c₂) :
    graphGetEdgeData h g row.addr1 row.addr2 = some p₁ ∧
      graphGetEdgeData h g row.addr2 row.addr1 =
        some (if row.addr1 = row.addr2 then p₁ else p₂) := by
  simp only [rowEdges, List.cons.injEq, and_true] at hrow
  obtain ⟨rfl, rfl⟩ := hrow
  have hother : ∀ q ∈ ps₁, _ := fun q hq => linkEdgeDataEquals_eq_false hps₁ hpre hq
  have hfirst := linkEdgeDataEquals_of_content hp₁
  have hsecond := linkEdgeDataEquals_of_content hp₂
  rw [graphGetEdgeData, graphGetEdgeData, hg]
  refine ⟨find?_of_split (fun q hq => (hother q hq).1) ?_, ?_⟩
  · rw [hfirst]
    exact decide_eq_true ⟨rfl, rfl⟩
  · split_ifs with haddr
    · refine find?_of_split (fun q hq => (hother q hq).2) ?_
      rw [hfirst]
      exact decide_eq_true ⟨haddr, haddr.symm⟩
    · rw [List.append_cons]
      refine find?_of_split (fun q hq => ?_) ?_
      · rcases List.mem_append.mp hq with hq | hq
        · exact (hother q hq).2
        · rw [List.mem_singleton.mp hq, hfirst]
          exact decide_eq_false fun h => haddr h.1
      · rw [hsecond]
        exact decide_eq_true ⟨rfl, rfl⟩

/-! ## Insertions -/

theorem contents_graphAddEdge (hs : Separated h g g') {a b : Ptr} {n m : NodeObj}
    (ha : h.nodes[a]? = some n) (hb : h.nodes[b]? = some m) {metric : UInt32} {link : Link}
    {h₁ : Heap} {g₁ : GraphObj} (hadd : graphAddEdge h g a b metric link true = (h₁, g₁)) :
    contents h₁ g₁.edges = contents h g.edges ++ [some ⟨n.id, m.id, metric, link⟩] := by
  have hgrow := Grows.append h [] [⟨a, b, g.lastEdge + 1, metric, h.links.length⟩] [link]
  rw [List.append_nil] at hgrow
  rw [graphAddEdge, if_pos rfl, Prod.mk.injEq] at hadd
  obtain ⟨rfl, rfl⟩ := hadd
  rw [contents, contents, List.map_append]
  congr 1
  · refine List.map_congr_left fun p hp => ?_
    obtain ⟨e, n, m, l, -, -, -, -, -, -, hedge⟩ := hs.left.edge? hp
    rw [hedge, hgrow.edge? hedge]
  · rw [List.map_singleton, edge?_eq List.getElem?_concat_length ha hb List.getElem?_concat_length]
    rfl

/-- The node of a known router. -/
theorem NetWf.exists_node {s : NetState} (hs : NetWf s) {name : String} {rt : Router}
    (hrt : s.routers.get name = some rt) : ∃ p n,
      graphGetNodeNoref s.heap s.graphStaging.nodes rt.nodeId = some p ∧
      p ∈ s.graphStaging.nodes ∧ s.heap.nodes[p]? = some n ∧ n.id = routerNode s.routers name := by
  obtain ⟨q, hq, m, hm, hid⟩ := hs.routers name rt hrt
  obtain ⟨p, n, hfind, hp, hn, hnid⟩ := graphGetNodeNoref_spec hq hm
  refine ⟨p, n, hid ▸ hfind, hp, hn, ?_⟩
  rw [hnid, hid, routerNode, hrt]
  rfl

/-- A new row is accepted and mirrored. -/
theorem Mirrors.insert {s : NetState} {rows : List LinkEntry} {row : LinkEntry}
    (hm : Mirrors s rows) (hev : Notifies s.routers rows (.insert row)) :
    ∃ s', netStep s (LinkEvent.insert row).call = some s' ∧ s'.routers = s.routers ∧
      Mirrors s' (rows ++ [row]) := by
  obtain ⟨⟨rt1, hrt1⟩, ⟨rt2, hrt2⟩, hnew⟩ := hev
  obtain ⟨p, n, hfindP, hp, hn, hnid⟩ := hm.wf.exists_node hrt1
  obtain ⟨q, m, hfindQ, hq, hmm, hmid⟩ := hm.wf.exists_node hrt2
  have hother : ∀ x ∈ s.graphStaging.edges, _ :=
    fun x hx => linkEdgeDataEquals_eq_false hm.edges hnew hx
  have hnone1 : graphGetEdgeData s.heap s.graphStaging row.addr1 row.addr2 = none := by
    rw [graphGetEdgeData, List.find?_eq_none]
    exact fun x hx => by simp [(hother x hx).1]
  have hnone2 : graphGetEdgeData s.heap s.graphStaging row.addr2 row.addr1 = none := by
    rw [graphGetEdgeData, List.find?_eq_none]
    exact fun x hx => by simp [(hother x hx).2]
  obtain ⟨⟨h₁, g₁⟩, hadd₁⟩ : ∃ out, graphAddEdge s.heap (markGraphDirty s.graphStaging) p q
    row.metricOf row.link true = out := ⟨_, rfl⟩
  obtain ⟨⟨h₂, g₂⟩, hadd₂⟩ : ∃ out, graphAddEdge h₁ g₁ q p row.metricOf row.link2 true = out :=
    ⟨_, rfl⟩
  have hcall : netCall s (LinkEvent.insert row).call =
      .ok ({ s with heap := h₂, graphStaging := g₂ }, 0) := by
    simp only [LinkEvent.call, netCall, linkstateRead, hrt1, hrt2, hnone1, hnone2]
    simp only [markGraphDirty] at hadd₁ ⊢
    simp only [hfindP, hfindQ, hadd₁, hadd₂]
    rfl
  have hsep := hm.wf.separated.setDirty true
  obtain ⟨hsep₁, hgrow, -, -⟩ := hsep.graphAddEdge hp hq hadd₁
  have hfst := contents_graphAddEdge hsep hn hmm hadd₁
  have hsnd := contents_graphAddEdge hsep₁ (hgrow.nodes q m hmm) (hgrow.nodes p n hn) hadd₂
  refine ⟨_, netStep_of_netCall hcall, rfl, (hm.wf.change (netCall_change hcall)).1, ?_, ?_⟩
  · show contents h₂ g₂.edges = _
    rw [hsnd, hfst, List.flatMap_append, List.map_append, ← hm.edges, hnid, hmid, List.append_assoc]
    rfl
  · refine List.pairwise_append.mpr ⟨hm.distinct, List.pairwise_singleton _ _, fun r hr x hx => ?_⟩
    rw [List.mem_singleton.mp hx]
    exact hnew r hr

/-! ## Deletions -/

theorem sameLink_refl (row : LinkEntry) : SameLink row row := .inl ⟨rfl, rfl⟩

theorem erase_of_split {ps qs : List Ptr} (hp : p ∉ ps) : (ps ++ p :: qs).erase p = ps ++ qs := by
  rw [List.erase_append_right _ hp, List.erase_cons_head]

/-- The edges of a deleted row are removed, and no others. -/
theorem Mirrors.delete {s : NetState} {rows : List LinkEntry} {row : LinkEntry}
    (hm : Mirrors s rows) (hrow : row ∈ rows) :
    ∃ s', netStep s (LinkEvent.delete row).call = some s' ∧ s'.routers = s.routers ∧
      Mirrors s' (rows.erase row) := by
  obtain ⟨pre, post, rfl, hpre, -⟩ := hm.split hrow
  have hedges := hm.edges
  obtain ⟨ps₁, p₁, p₂, ps₂, c₁, c₂, hg, hc, hps₁, hp₁, hp₂, hps₂⟩ := exists_split hedges
  have hnodup := hm.wf.separated.nodup
  rw [hg, List.nodup_append] at hnodup
  have hfresh₁ : p₁ ∉ ps₁ := fun hp => hnodup.2.2 p₁ hp p₁ List.mem_cons_self rfl
  have hfresh₂ : p₂ ∉ ps₁ :=
    fun hp => hnodup.2.2 p₂ hp p₂ (List.mem_cons_of_mem _ List.mem_cons_self) rfl
  have hremove₁ : removeEdgeData s.heap s.graphStaging row.addr1 row.addr2 =
      { s.graphStaging with edges := ps₁ ++ p₂ :: ps₂, dirty := true } := by
    rw [removeEdgeData, (find_of_split hg hpre hps₁ hc hp₁ hp₂).1]
    show graphRemoveEdge s.graphStaging p₁ = _
    rw [graphRemoveEdge, if_pos (by simp [hg]), hg, erase_of_split hfresh₁]
  have hfind₂ : graphGetEdgeData s.heap { s.graphStaging with
      edges := ps₁ ++ p₂ :: ps₂, dirty := true } row.addr2 row.addr1 = some p₂ := by
    refine find?_of_split (fun q hq => (linkEdgeDataEquals_eq_false hps₁ hpre hq).2) ?_
    simp only [rowEdges, List.cons.injEq, and_true] at hc
    rw [linkEdgeDataEquals_of_content hp₂, ← hc.2]
    exact decide_eq_true ⟨rfl, rfl⟩
  have hcall : netCall s (LinkEvent.delete row).call = .ok ({ s with
      graphStaging := { s.graphStaging with edges := ps₁ ++ ps₂, dirty := true } }, 0) := by
    simp only [LinkEvent.call, netCall, linkstateDelete, hremove₁]
    rw [removeEdgeData, hfind₂]
    show Except.ok ({ s with graphStaging := markGraphDirty (graphRemoveEdge _ p₂) }, _) = _
    rw [graphRemoveEdge, if_pos (by simp), erase_of_split hfresh₂]
    rfl
  have hpre' : row ∉ pre := fun hr => hpre row hr (sameLink_refl row)
  rw [List.erase_append_right _ hpre', List.erase_cons_head]
  refine ⟨_, netStep_of_netCall hcall, rfl, (hm.wf.change (netCall_change hcall)).1, ?_, ?_⟩
  · show contents s.heap (ps₁ ++ ps₂) = _
    rw [List.flatMap_append, List.map_append, ← hps₁, ← hps₂, contents, contents, contents,
      List.map_append]
  · exact hm.distinct.sublist ((List.sublist_cons_self row post).append_left pre)

/-! ## Updates -/

/-- What `linkstate_update` does to the edges of the staging graph. -/
theorem edge?_updateFields (hs : Separated h g g') (entry : LinkEntry) (fmask : UInt32)
    {edge : Ptr} (edge2 : Ptr) {e : EdgeObj} (hedge : edge ∈ g.edges) (he : h.edges[edge]? = some e)
    (hp : p ∈ g.edges) {x : Edge Link} (hx : h.edge? p = some x) :
    (updateFields h entry fmask edge edge2 e.data e.data).edge? p = some { x with
      metric := if hasField fmask .metric ∧ (edge = p ∨ edge2 = p) then entry.metricOf else x.metric
      data := if edge = p then entry.assign fmask x.data else x.data } := by
  have hnodes := nodes_updateFields h entry fmask edge edge2 e.data
  have hedges := edges_updateFields h entry fmask edge edge2 e.data p
  have hlinks := links_updateFields h entry fmask edge edge2 e.data
  obtain ⟨e', n, m, l, he', hn, hm, hl, rfl⟩ := exists_of_edge? hx
  have hdata : e.data = e'.data ↔ edge = p := by
    constructor
    · intro hd
      refine hs.inj hedge hp ?_
      rw [linkPtr, linkPtr, he, he', Option.map_some, Option.map_some, hd]
    · rintro rfl
      rw [Option.some.inj (he.symm.trans he')]
  rw [he', Option.map_some] at hedges
  have hlink := hlinks e'.data
  simp only [hl, Option.map_some, hdata] at hlink
  split_ifs at hedges with hmetric
  · rw [edge?_eq hedges (hnodes ▸ hn) (hnodes ▸ hm) hlink, if_pos hmetric]
  · rw [edge?_eq hedges (hnodes ▸ hn) (hnodes ▸ hm) hlink, if_neg hmetric]

theorem contents_updateFields (hs : Separated h g g') (entry : LinkEntry) (fmask : UInt32)
    {edge : Ptr} (edge2 : Ptr) {e : EdgeObj} (hedge : edge ∈ g.edges) (he : h.edges[edge]? = some e)
    {ps : List Ptr} (hps : ps ⊆ g.edges) (hfresh : edge ∉ ps) (hfresh2 : edge2 ∉ ps) :
    contents (updateFields h entry fmask edge edge2 e.data e.data) ps = contents h ps := by
  refine List.map_congr_left fun p hp => ?_
  obtain ⟨e', n, m, l, -, -, -, -, -, -, hx⟩ := hs.left.edge? (hps hp)
  have hne : edge ≠ p := fun h => hfresh (h ▸ hp)
  have hne2 : edge2 ≠ p := fun h => hfresh2 (h ▸ hp)
  rw [edge?_updateFields hs entry fmask edge2 hedge he (hps hp) hx, hx]
  simp [hne, hne2]

/-- The first edge of an updated row. -/
def firstUpdated (entry : LinkEntry) (fmask : UInt32) (c : EdgeContent) : EdgeContent :=
  { c with
    metric := if hasField fmask .metric then entry.metricOf else c.metric
    link := entry.assign fmask c.link }

/-- The second edge of an updated row: its link is left alone, and its metric too when both
lookups find the first edge. -/
def secondUpdated (row entry : LinkEntry) (fmask : UInt32) (c : EdgeContent) : EdgeContent :=
  { c with
    metric := if hasField fmask .metric ∧ row.addr1 ≠ row.addr2 then entry.metricOf else c.metric }

theorem Updates.metricOf {row entry : LinkEntry} {fmask : UInt32} (hu : Updates row entry fmask)
    (hfield : hasField fmask .metric = false) : entry.metricOf = row.metricOf := by
  rw [LinkEntry.metricOf, LinkEntry.metricOf, hu.metric hfield]

theorem Updates.assign_link {row entry : LinkEntry} {fmask : UInt32}
    (hu : Updates row entry fmask) :
    entry.assign fmask row.link = entry.link := by
  have hbw := hu.bw
  have havaBw := hu.avaBw
  have hdelay := hu.delay
  simp only [LinkEntry.assign, LinkEntry.link, hu.addr1, hu.addr2, Link.mk.injEq, true_and]
  refine ⟨?_, ?_, ?_⟩ <;> split_ifs with hfield <;> simp_all

theorem toUInt32_eq_iff (a b : Int32) : a.toUInt32 = b.toUInt32 ↔ a = b := by
  rw [← Int32.toBitVec_inj, ← UInt32.toBitVec_inj]
  rfl

theorem Updates.link2_eq_iff {row entry : LinkEntry} {fmask : UInt32}
    (hu : Updates row entry fmask) :
    row.link2 = entry.link2 ↔
      entry.bw = row.bw ∧ entry.avaBw = row.avaBw ∧ entry.delay = row.delay := by
  simp only [LinkEntry.link2, hu.addr1, hu.addr2, Link.mk.injEq, true_and, toUInt32_eq_iff, eq_comm]

theorem Updates.metric_eq_iff {row entry : LinkEntry} {fmask : UInt32}
    (hu : Updates row entry fmask) :
    (if hasField fmask .metric ∧ row.addr1 ≠ row.addr2 then entry.metricOf else row.metricOf) =
      entry.metricOf ↔ (row.addr1 = row.addr2 → entry.metricOf = row.metricOf) := by
  split_ifs with hfield
  · exact ⟨fun _ haddr => absurd haddr hfield.2, fun _ => rfl⟩
  · rw [not_and_not_right] at hfield
    constructor
    · exact fun h _ => h.symm
    · intro h
      by_cases hmetric : hasField fmask .metric = true
      · exact (h (hfield hmetric)).symm
      · exact (hu.metricOf (by simpa using hmetric)).symm

/-- The edges of an updated row, and when the second one is what it becomes. -/
theorem Updates.rowEdges {row entry : LinkEntry} {fmask : UInt32} (hu : Updates row entry fmask)
    {c₁ c₂ : EdgeContent} (hc : Srn.rowEdges routers row = [c₁, c₂]) :
    ∃ d, Srn.rowEdges routers entry = [firstUpdated entry fmask c₁, d] ∧
      (secondUpdated row entry fmask c₂ = d ↔ KeepsReverse (.update row entry fmask)) := by
  simp only [Srn.rowEdges, List.cons.injEq, and_true] at hc
  obtain ⟨rfl, rfl⟩ := hc
  refine ⟨⟨routerNode routers entry.name2, routerNode routers entry.name1, entry.metricOf,
    entry.link2⟩, ?_, ?_⟩
  · rw [Srn.rowEdges]
    congr 1
    rw [firstUpdated, hu.name1, hu.name2, hu.assign_link]
    split_ifs with hfield
    · rfl
    · rw [hu.metricOf (by simpa using hfield)]
  · simp only [secondUpdated, EdgeContent.mk.injEq, hu.name1, hu.name2, true_and, hu.link2_eq_iff,
      hu.metric_eq_iff, KeepsReverse]
    tauto

theorem Updates.sameLink_iff {row entry r : LinkEntry} {fmask : UInt32}
    (hu : Updates row entry fmask) :
    (SameLink r entry ↔ SameLink r row) ∧ (SameLink entry r ↔ SameLink row r) := by
  simp [SameLink, hu.addr1, hu.addr2]

theorem liveRows_update {pre post : List LinkEntry} {row : LinkEntry}
    (hpre : ∀ r ∈ pre, ¬ SameLink r row) (hpost : ∀ r ∈ post, ¬ SameLink r row)
    (entry : LinkEntry) (fmask : UInt32) :
    liveRows (pre ++ row :: post) (.update row entry fmask) = pre ++ entry :: post := by
  have hkeep : ∀ rows : List LinkEntry, (∀ r ∈ rows, ¬ SameLink r row) →
      rows.map (fun r => if r = row then entry else r) = rows := by
    intro rows hrows
    refine (List.map_congr_left fun r hr => if_neg ?_).trans (List.map_id _)
    rintro rfl
    exact hrows r hr (sameLink_refl r)
  show List.map _ _ = _
  rw [List.map_append, List.map_cons, hkeep pre hpre, hkeep post hpost, if_pos rfl]

/-- The contents of the staging graph after an update. -/
theorem contents_update {s : NetState} (hs : NetWf s) {row : LinkEntry} (entry : LinkEntry)
    (fmask : UInt32) {ps₁ ps₂ : List Ptr} {p₁ p₂ edge2 : Ptr} {c₁ c₂ : EdgeContent} {e : EdgeObj}
    (hg : s.graphStaging.edges = ps₁ ++ p₁ :: p₂ :: ps₂) (he : s.heap.edges[p₁]? = some e)
    (hp₁ : (s.heap.edge? p₁).map content = some c₁)
    (hp₂ : (s.heap.edge? p₂).map content = some c₂)
    (hedge2 : edge2 = if row.addr1 = row.addr2 then p₁ else p₂) :
    contents (updateFields s.heap entry fmask p₁ edge2 e.data e.data) s.graphStaging.edges =
      contents s.heap ps₁ ++ some (firstUpdated entry fmask c₁) ::
        some (secondUpdated row entry fmask c₂) :: contents s.heap ps₂ := by
  have hsep := hs.separated
  have hmem₁ : p₁ ∈ s.graphStaging.edges := by simp [hg]
  have hmem₂ : p₂ ∈ s.graphStaging.edges := by simp [hg]
  have hnodup := hsep.nodup
  simp only [hg, List.nodup_append, List.nodup_cons, List.mem_cons, not_or] at hnodup
  obtain ⟨-, ⟨⟨hne, hfresh₁⟩, hfresh₂, -⟩, hdisj⟩ := hnodup
  have hold₁ := contents_updateFields hsep entry fmask edge2 hmem₁ he
    (show ps₁ ⊆ _ by simp [hg]) (fun h => hdisj p₁ h p₁ (.inl rfl) rfl) (fun h => by
      rw [hedge2] at h
      split_ifs at h
      · exact hdisj p₁ h p₁ (.inl rfl) rfl
      · exact hdisj p₂ h p₂ (.inr (.inl rfl)) rfl)
  have hold₂ := contents_updateFields hsep entry fmask edge2 hmem₁ he
    (show ps₂ ⊆ _ from fun x hx => by simp [hg, hx]) hfresh₁
    (by rw [hedge2]; split_ifs <;> assumption)
  obtain ⟨x₁, hx₁, rfl⟩ := Option.map_eq_some_iff.mp hp₁
  obtain ⟨x₂, hx₂, rfl⟩ := Option.map_eq_some_iff.mp hp₂
  have hnew₁ := edge?_updateFields hsep entry fmask edge2 hmem₁ he hmem₁ hx₁
  have hnew₂ := edge?_updateFields hsep entry fmask edge2 hmem₁ he hmem₂ hx₂
  have hedge2' : edge2 = p₂ ↔ row.addr1 ≠ row.addr2 := by
    rw [hedge2]
    split_ifs with haddr <;> simp [haddr, hne]
  simp only [true_or, and_true, if_true, hne, false_or, if_false, hedge2'] at hnew₁ hnew₂
  rw [contents] at hold₁ hold₂ ⊢
  rw [hg, List.map_append, List.map_cons, List.map_cons, hold₁, hold₂, hnew₁, hnew₂]
  rfl

/-- The update of a live row changes its two edges; the result is right exactly when nothing of
the other direction had to change. -/
theorem Mirrors.update {s : NetState} {rows : List LinkEntry} {row entry : LinkEntry}
    {fmask : UInt32} (hm : Mirrors s rows) (hrow : row ∈ rows) (hu : Updates row entry fmask) :
    ∃ s', netStep s (LinkEvent.update row entry fmask).call = some s' ∧ s'.routers = s.routers ∧
      (KeepsReverse (.update row entry fmask) →
        Mirrors s' (liveRows rows (.update row entry fmask))) ∧
      (Rebuilt s' (liveRows rows (.update row entry fmask)) →
        KeepsReverse (.update row entry fmask)) := by
  obtain ⟨pre, post, rfl, hpre, hpost⟩ := hm.split hrow
  have hedges := hm.edges
  obtain ⟨ps₁, p₁, p₂, ps₂, c₁, c₂, hg, hc, hps₁, hp₁, hp₂, hps₂⟩ := exists_split hedges
  obtain ⟨d, hd, hiff⟩ := hu.rowEdges hc
  have hfind := find_of_split hg hpre hps₁ hc hp₁ hp₂
  have hmem₁ : p₁ ∈ s.graphStaging.edges := by simp [hg]
  obtain ⟨e, -, he, -⟩ := hm.wf.separated.left.edges p₁ hmem₁
  obtain ⟨edge2, hedge2⟩ : ∃ q, q = if row.addr1 = row.addr2 then p₁ else p₂ := ⟨_, rfl⟩
  have hcall : netCall s (LinkEvent.update row entry fmask).call = .ok ({ s with
      heap := updateFields s.heap entry fmask p₁ edge2 e.data e.data
      graphStaging := markGraphDirty s.graphStaging }, 0) := by
    simp only [LinkEvent.call, netCall, linkstateUpdate, hu.addr1, hu.addr2, hfind.1, hfind.2, he,
      hedge2]
  have hnew := contents_update hm.wf entry fmask hg he hp₁ hp₂ hedge2
  rw [hps₁, hps₂] at hnew
  have hrows := liveRows_update hpre hpost entry fmask
  have hlive : ((pre ++ entry :: post).flatMap (rowEdges s.routers)).map some =
      (pre.flatMap (rowEdges s.routers)).map some ++ some (firstUpdated entry fmask c₁) ::
        some d :: (post.flatMap (rowEdges s.routers)).map some := by
    rw [List.flatMap_append, List.flatMap_cons, hd, List.map_append, List.map_append]
    rfl
  refine ⟨_, netStep_of_netCall hcall, rfl, fun hkeeps => ?_, fun hrebuilt => ?_⟩
  · rw [hrows]
    refine ⟨(hm.wf.change (netCall_change hcall)).1, ?_, ?_⟩
    · show contents _ s.graphStaging.edges = _
      rw [hnew, hiff.mpr hkeeps]
      exact hlive.symm
    · have hdist := hm.distinct
      rw [List.pairwise_append, List.pairwise_cons] at hdist ⊢
      refine ⟨hdist.1, ⟨fun r hr => ?_, hdist.2.1.2⟩, fun r hr x hx => ?_⟩
      · rw [hu.sameLink_iff.2]
        exact hdist.2.1.1 r hr
      · rcases List.mem_cons.mp hx with rfl | hx
        · rw [hu.sameLink_iff.1]
          exact hdist.2.2 r hr row List.mem_cons_self
        · exact hdist.2.2 r hr x (List.mem_cons_of_mem _ hx)
  · rw [Rebuilt, view_contents, hrows] at hrebuilt
    have hperm : List.Perm (_ ++ some (firstUpdated entry fmask c₁) ::
        some (secondUpdated row entry fmask c₂) :: _) (_ ++ some (firstUpdated entry fmask c₁) ::
        some d :: _) := hnew ▸ hlive ▸ hrebuilt
    rw [List.perm_append_left_iff, List.perm_cons] at hperm
    have hlast := (List.perm_append_right_iff _).mp
      (show ([some (secondUpdated row entry fmask c₂)] ++ _).Perm ([some d] ++ _) from hperm)
    exact hiff.mp (Option.some.inj (List.singleton_perm_singleton.mp hlast))

/-! ## Runs -/

/-- **Step lemma.** -/
theorem Mirrors.step {s : NetState} {rows : List LinkEntry} {ev : LinkEvent} (hm : Mirrors s rows)
    (hev : Notifies s.routers rows ev) :
    ∃ s', netStep s ev.call = some s' ∧ s'.routers = s.routers ∧
      (KeepsReverse ev → Mirrors s' (liveRows rows ev)) ∧
      (Rebuilt s' (liveRows rows ev) → KeepsReverse ev) := by
  cases ev with
  | insert row =>
    obtain ⟨s', hstep, hrouters, hm'⟩ := hm.insert hev
    exact ⟨s', hstep, hrouters, fun _ => hm', fun _ => trivial⟩
  | update row entry fmask => exact hm.update hev.1 hev.2
  | delete row =>
    obtain ⟨s', hstep, hrouters, hm'⟩ := hm.delete hev
    exact ⟨s', hstep, hrouters, fun _ => hm', fun _ => trivial⟩

/-- No notification goes wrong. -/
theorem NetWf.exists_netStep {s : NetState} (hs : NetWf s) (ev : LinkEvent) :
    ∃ s', netStep s ev.call = some s' := by
  have hok : ∃ s' ret, netCall s ev.call = .ok (s', ret) := by
    cases ev with
    | insert row =>
      simp only [LinkEvent.call, netCall, linkstateRead, markGraphDirty]
      cases hrt1 : s.routers.get row.name1 with
      | none => exact ⟨_, _, rfl⟩
      | some rt1 =>
        cases hrt2 : s.routers.get row.name2 with
        | none => exact ⟨_, _, rfl⟩
        | some rt2 =>
          obtain ⟨p, n, hp, -⟩ := hs.exists_node hrt1
          obtain ⟨q, m, hq, -⟩ := hs.exists_node hrt2
          simp only [hp, hq]
          split_ifs <;> exact ⟨_, _, rfl⟩
    | update row entry fmask =>
      simp only [LinkEvent.call, netCall, linkstateUpdate]
      split
      · exact ⟨_, _, rfl⟩
      · next edge hedge =>
        obtain ⟨e, -, he, -⟩ :=
          hs.separated.left.edges edge (mem_of_graphGetEdgeData hedge)
        rw [he]
        simp only []
        split <;> exact ⟨_, _, rfl⟩
    | delete row => exact ⟨_, _, rfl⟩
  obtain ⟨s', ret, hcall⟩ := hok
  exact ⟨s', netStep_of_netCall hcall⟩

theorem NetWf.exists_netRun {s : NetState} (hs : NetWf s) (events : List LinkEvent) :
    ∃ s', netRun s (events.map LinkEvent.call) = some s' := by
  induction events generalizing s with
  | nil => exact ⟨s, rfl⟩
  | cons ev events ih =>
    obtain ⟨s₁, hstep⟩ := hs.exists_netStep ev
    obtain ⟨ret, hcall⟩ := exists_netCall hstep
    obtain ⟨s', hrun⟩ := ih (hs.change (netCall_change hcall)).1
    exact ⟨s', by rw [List.map_cons, netRun, Transition.run_cons, hstep]; exact hrun⟩

/-- The edges are those of the live rows throughout a sequence of notifications exactly when
every update keeps the other direction. -/
theorem Mirrors.run_iff {s : NetState} {rows : List LinkEntry} {events : List LinkEvent}
    (hm : Mirrors s rows) (hall : NotifiesAll s.routers rows events) :
    (∀ pre post s', events = pre ++ post → netRun s (pre.map LinkEvent.call) = some s' →
      Rebuilt s' (pre.foldl liveRows rows)) ↔ ∀ ev ∈ events, KeepsReverse ev := by
  induction events generalizing s rows with
  | nil =>
    refine ⟨fun _ => by simp, fun _ pre post s' heq hrun => ?_⟩
    obtain ⟨rfl, -⟩ := List.append_eq_nil_iff.mp heq.symm
    obtain rfl := Option.some.inj hrun
    exact hm.rebuilt
  | cons ev events ih =>
    obtain ⟨hev, hrest⟩ := hall
    obtain ⟨s₁, hstep, hrouters, hkeep, hrebuilt⟩ := hm.step hev
    have hcons : ∀ pre : List LinkEvent, netRun s ((ev :: pre).map LinkEvent.call) =
        netRun s₁ (pre.map LinkEvent.call) := by
      intro pre
      rw [List.map_cons, netRun, Transition.run_cons, hstep]
      rfl
    rw [← hrouters] at hrest
    rw [List.forall_mem_cons]
    constructor
    · intro hevery
      have hev' := hrebuilt (hevery [ev] events s₁ rfl (hcons []))
      refine ⟨hev', (ih (hkeep hev') hrest).mp fun pre post s' heq hrun => ?_⟩
      exact hevery (ev :: pre) post s' (by rw [heq]; rfl) ((hcons pre).trans hrun)
    · rintro ⟨hev', hevents⟩ pre post s' heq hrun
      cases pre with
      | nil =>
        obtain rfl := Option.some.inj hrun
        exact hm.rebuilt
      | cons ev' pre =>
        obtain ⟨rfl, hpost⟩ := List.cons.inj heq
        rw [hcons] at hrun
        exact (ih (hkeep hev') hrest).mpr hevents pre post s' hpost hrun

/-- **Main theorem.** From a reachable state without links, no sequence of notifications about
known routers and distinct pairs of addresses makes a callback go wrong, and the edges of the
staging graph are those rebuilt from the live rows after every notification if and only if
every update keeps the other direction as it is. -/
theorem linkstate_rebuilt_iff (setup : List NetEvent) (s : NetState) (events : List LinkEvent)
    (hsetup : netRun netInit setup = some s) (hempty : s.graphStaging.edges = [])
    (hall : NotifiesAll s.routers [] events) :
    (∃ s', netRun s (events.map LinkEvent.call) = some s') ∧
      ((∀ pre post s', events = pre ++ post → netRun s (pre.map LinkEvent.call) = some s' →
        Rebuilt s' (pre.foldl liveRows [])) ↔ ∀ ev ∈ events, KeepsReverse ev) := by
  have hs := netWf_of_netRun netWf_netInit hsetup
  have hm : Mirrors s [] := ⟨hs, by rw [hempty]; rfl, List.Pairwise.nil⟩
  exact ⟨hs.exists_netRun events, hm.run_iff hall⟩

/-- Two routers. -/
def twoRouters : List NetEvent :=
  [.nodestateRead ⟨"A", 1, [], none⟩ ⟨true, true⟩, .nodestateRead ⟨"B", 2, [], none⟩ ⟨true, true⟩]

/-- A row for a link between them. -/
def rowAB : LinkEntry := ⟨"A", 3, "B", 4, 10, 100, 50, 7⟩

theorem netRun_twoRouters : ∃ s, netRun netInit twoRouters = some s ∧ s.graphStaging.edges = [] ∧
    (∃ rt, s.routers.get "A" = some rt) ∧ ∃ rt, s.routers.get "B" = some rt := by
  have hfacts : (netRun netInit twoRouters).map (fun s => (s.graphStaging.edges,
      (s.routers.get "A").isSome, (s.routers.get "B").isSome)) = some ([], true, true) := by
    decide +kernel
  obtain ⟨s, hrun, heq⟩ := Option.map_eq_some_iff.mp hfacts
  simp only [Prod.mk.injEq, Option.isSome_iff_exists] at heq
  exact ⟨s, hrun, heq⟩

/-- A new value of the available bandwidth reaches only one of the two edges. -/
theorem linkstate_update_one_sided :
    ∃ s, netRun netInit twoRouters = some s ∧
      NotifiesAll s.routers [] [.insert rowAB, .update rowAB { rowAB with avaBw := 20 } 0x80] ∧
      ∃ s', netRun s [.linkstateRead rowAB ⟨true, true, true, true⟩,
          .linkstateUpdate { rowAB with avaBw := 20 } 0x80] = some s' ∧
        (view s'.heap s'.graphStaging).2.map (Option.map content) =
          [some ⟨1, 2, 10, ⟨3, 4, 100, 20, 7⟩⟩, some ⟨2, 1, 10, ⟨4, 3, 100, 50, 7⟩⟩] ∧
        ¬ Rebuilt s' [{ rowAB with avaBw := 20 }] := by
  obtain ⟨s, hrun, -, hA, hB⟩ := netRun_twoRouters
  have hfacts : ((netRun netInit twoRouters).bind fun s =>
      (netRun s [.linkstateRead rowAB ⟨true, true, true, true⟩,
        .linkstateUpdate { rowAB with avaBw := 20 } 0x80]).map fun s' =>
        (view s'.heap s'.graphStaging).2.map (Option.map content)) =
      some [some ⟨1, 2, 10, ⟨3, 4, 100, 20, 7⟩⟩, some ⟨2, 1, 10, ⟨4, 3, 100, 50, 7⟩⟩] := by
    decide +kernel
  rw [hrun, Option.bind_some, Option.map_eq_some_iff] at hfacts
  obtain ⟨s', hrun', hview⟩ := hfacts
  refine ⟨s, hrun, ⟨⟨hA, hB, by simp⟩, ⟨by simp [liveRows], ?_⟩, trivial⟩, s', hrun',
    hview, ?_⟩
  · exact ⟨rfl, rfl, rfl, rfl, by decide, by decide, by decide, by decide⟩
  · intro hrebuilt
    rw [Rebuilt, hview] at hrebuilt
    have hmem := hrebuilt.subset (List.mem_cons_of_mem _ List.mem_cons_self)
    simp only [List.flatMap_cons, List.flatMap_nil, List.append_nil, rowEdges, List.map_cons,
      List.map_nil, List.mem_cons, List.not_mem_nil, or_false, Option.some.injEq,
      EdgeContent.mk.injEq] at hmem
    rcases hmem with hmem | hmem
    · exact absurd hmem.2.2.2 (by decide)
    · exact absurd hmem.2.2.2 (by decide)

/-- Inserting the row, withdrawing the link with metric zero and deleting the row. -/
theorem linkstate_rebuilt_metric :
    ∃ s, netRun netInit twoRouters = some s ∧ ∀ pre post s',
      [.insert rowAB, .update rowAB { rowAB with metric := 0 } 0x20,
        .delete { rowAB with metric := 0 }] = pre ++ post →
      netRun s (pre.map LinkEvent.call) = some s' → Rebuilt s' (pre.foldl liveRows []) := by
  obtain ⟨s, hrun, hempty, hA, hB⟩ := netRun_twoRouters
  refine ⟨s, hrun, (linkstate_rebuilt_iff twoRouters s _ hrun hempty ?_).2.mpr ?_⟩
  · refine ⟨⟨hA, hB, by simp⟩, ⟨by simp [liveRows], ?_⟩, ?_, trivial⟩
    · exact ⟨rfl, rfl, rfl, rfl, by decide, by decide, by decide, by decide⟩
    · simp [liveRows, Notifies]
  · intro ev hev
    simp only [List.mem_cons, List.not_mem_nil, or_false] at hev
    rcases hev with rfl | rfl | rfl
    · trivial
    · exact ⟨rfl, rfl, rfl, fun h => absurd h (by decide)⟩
    · trivial

end Srn
