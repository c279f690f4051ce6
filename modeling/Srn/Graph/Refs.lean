import Mathlib.Data.List.Nodup
import Srn.Lib.Refcount
import Srn.NetState

/-!
# Srn.Graph.Refs

The reference counts of the nodes and edges of a graph: `node_hold`, `node_release`, `edge_hold` and
`edge_release` of `sr-ctrl/graph.h`, and the operations of `sr-ctrl/graph.c` that add and remove
nodes and edges, over the graph objects of `Srn.NetState`.

A graph holds a reference to each object in its lists and an edge holds one to each of its ends;
whoever else uses an object holds references of its own.  An operation that would touch a freed
object has no result.
-/

namespace Srn

open Refcount (Count)

/-! ## Counted graphs -/

/-- A graph object with the counters of all nodes and edges allocated so far, and the objects whose
`orphan` flag is set. -/
structure RefGraph where
  heap : Heap
  graph : GraphObj
  nodeCounts : List Count
  edgeCounts : List Count
  orphanNodes : List Ptr
  orphanEdges : List Ptr
  deriving DecidableEq, Repr

namespace RefGraph

/-- After `graph_new`. -/
def init : RefGraph := ⟨⟨[], [], []⟩, graphNew, [], [], [], []⟩

/-- `node_hold`. -/
def nodeHold (s : RefGraph) (node : Ptr) : Option RefGraph :=
  (Refcount.hold s.nodeCounts node).map fun nodeCounts => { s with nodeCounts }

/-- `node_release`. -/
def nodeRelease (s : RefGraph) (node : Ptr) : Option RefGraph :=
  (Refcount.release s.nodeCounts node).map fun res => { s with nodeCounts := res.1 }

/-- `edge_hold`. -/
def edgeHold (s : RefGraph) (edge : Ptr) : Option RefGraph :=
  (Refcount.hold s.edgeCounts edge).map fun edgeCounts => { s with edgeCounts }

/-- `edge_release`: an edge that is destroyed releases its ends. -/
def edgeRelease (s : RefGraph) (edge : Ptr) : Option RefGraph :=
  match Refcount.release s.edgeCounts edge, s.heap.edges[edge]? with
  | some (edgeCounts, false), _ => some { s with edgeCounts }
  | some (edgeCounts, true), some e =>
    ({ s with edgeCounts }.nodeRelease e.localNode).bind fun s => s.nodeRelease e.remoteNode
  | _, _ => none

/-- `graph_add_node`. -/
def graphAddNode (s : RefGraph) (data : String) (mem : Bool) : RefGraph :=
  match Srn.graphAddNode s.heap s.graph data mem with
  | none => s
  | some (heap, graph, _) => { s with heap, graph, nodeCounts := Refcount.alloc s.nodeCounts }

/-- `graph_add_edge` without `sym`. -/
def addEdge (s : RefGraph) (localNode remoteNode : Ptr) (metric : UInt32) (data : Ptr)
    (mem : Bool) : Option RefGraph :=
  if !mem then some s
  else do
    let edge : EdgeObj := ⟨localNode, remoteNode, s.graph.lastEdge + 1, metric, data⟩
    let s ← { s with
      heap := { s.heap with edges := s.heap.edges ++ [edge] }
      edgeCounts := Refcount.alloc s.edgeCounts
      graph := { s.graph with
        lastEdge := s.graph.lastEdge + 1
        edges := s.graph.edges ++ [s.heap.edges.length]
        dirty := true } }.nodeHold localNode
    s.nodeHold remoteNode

/-- `graph_add_edge`; with `sym` there is an edge in the other direction, which comes first. -/
def graphAddEdge (s : RefGraph) (localNode remoteNode : Ptr) (metric : UInt32) (sym : Bool)
    (data : Ptr) (mem : Bool × Bool) : Option RefGraph := do
  let s ← if sym then s.addEdge remoteNode localNode metric data mem.1 else some s
  s.addEdge localNode remoteNode metric data mem.2

/-- `graph_remove_edge`. -/
def graphRemoveEdge (s : RefGraph) (edge : Ptr) : Option RefGraph :=
  if edge ∉ s.graph.edges then some s
  else { s with
    graph := Srn.graphRemoveEdge s.graph edge
    orphanEdges := edge :: s.orphanEdges }.edgeRelease edge

/-- The node behind a pointer, unless it is freed. -/
def node? (s : RefGraph) (node : Ptr) : Option NodeObj :=
  (Refcount.live? s.nodeCounts node).bind fun _ => s.heap.nodes[node]?

/-- The edge behind a pointer, unless it is freed. -/
def edge? (s : RefGraph) (edge : Ptr) : Option EdgeObj :=
  (Refcount.live? s.edgeCounts edge).bind fun _ => s.heap.edges[edge]?

/-- `rt_node_equals`: the names of the routers are equal, ignoring case. -/
def rtNodeEquals (s : RefGraph) (n1 n2 : Ptr) : Option Bool := do
  let n1 ← s.node? n1
  let n2 ← s.node? n2
  return n1.data.toLower = n2.data.toLower

/-- The body of the loop of `graph_remove_node`. -/
def removeIfEnd (node : Ptr) (s : RefGraph) (edge : Ptr) : Option RefGraph := do
  let e ← s.edge? edge
  if (← s.rtNodeEquals e.localNode node) || (← s.rtNodeEquals e.remoteNode node) then
    s.graphRemoveEdge edge
  else some s

/-- `graph_remove_node`.  The loop fetches the next entry of the list before it removes one, so it
visits the edges that are there when it starts. -/
def graphRemoveNode (s : RefGraph) (node : Ptr) : Option RefGraph :=
  if node ∉ s.graph.nodes then some s
  else do
    let s ← s.graph.edges.foldlM (removeIfEnd node) s
    { s with
      graph := { s.graph with nodes := s.graph.nodes.erase node, dirty := true }
      orphanNodes := node :: s.orphanNodes }.nodeRelease node

/-! ## References -/

/-- The ends of an edge. -/
def ends (h : Heap) (edge : Ptr) : List Ptr :=
  match h.edges[edge]? with
  | none => []
  | some e => [e.localNode, e.remoteNode]

/-- The ends of the edges that are not freed. -/
def endSlots (s : RefGraph) : List Ptr :=
  ((List.range s.heap.edges.length).filter fun edge =>
    (Refcount.live? s.edgeCounts edge).isSome).flatMap (ends s.heap)

/-- The ends of the edges to which there are references. -/
def slotsOf (h : Heap) (refs : List Ptr) : List Ptr :=
  ((List.range h.edges.length).filter (· ∈ refs)).flatMap (ends h)

/-- All references to nodes, when others hold the given ones. -/
def nodeRefs (s : RefGraph) (held : List Ptr) : List Ptr := s.graph.nodes ++ s.endSlots ++ held

/-- All references to edges. -/
def edgeRefs (s : RefGraph) (held : List Ptr) : List Ptr := s.graph.edges ++ held

/-- Objects are numbered from one in the order in which they were added. -/
def Numbered {α : Type} (objs : List α) (id : α → UInt32) (last : UInt32) : Prop :=
  last.toNat = objs.length ∧ ∀ (p : ℕ) (obj : α), objs[p]? = some obj → (id obj).toNat = p + 1

/-- A list holds some of the objects, in the order in which they were added; the others are
orphans. -/
structure Listed (listed orphans : List Ptr) (n : ℕ) : Prop where
  sorted : listed.Pairwise (· < ·)
  lt : ∀ p ∈ listed, p < n
  orphan : ∀ p, p ∈ orphans ↔ p < n ∧ p ∉ listed

/-- The accounting, when others hold the given references. -/
structure Inv (s : RefGraph) (heldNodes heldEdges : List Ptr) : Prop where
  nodeCounts : Refcount.Exact s.nodeCounts fun p => (s.nodeRefs heldNodes).count p
  edgeCounts : Refcount.Exact s.edgeCounts fun p => (s.edgeRefs heldEdges).count p
  nodesLength : s.nodeCounts.length = s.heap.nodes.length
  edgesLength : s.edgeCounts.length = s.heap.edges.length
  nodeIds : Numbered s.heap.nodes NodeObj.id s.graph.lastNode
  edgeIds : Numbered s.heap.edges EdgeObj.id s.graph.lastEdge
  nodes : Listed s.graph.nodes s.orphanNodes s.heap.nodes.length
  edges : Listed s.graph.edges s.orphanEdges s.heap.edges.length
  endsListed : ∀ edge ∈ s.graph.edges, ∀ node ∈ ends s.heap edge, node ∈ s.graph.nodes

theorem listed_nil : Listed [] [] 0 where
  sorted := .nil
  lt := by simp
  orphan := by simp

theorem inv_init : Inv init [] [] where
  nodeCounts := Refcount.exact_nil
  edgeCounts := Refcount.exact_nil
  nodesLength := rfl
  edgesLength := rfl
  nodeIds := ⟨rfl, fun _ _ h => by simp [init] at h⟩
  edgeIds := ⟨rfl, fun _ _ h => by simp [init] at h⟩
  nodes := listed_nil
  edges := listed_nil
  endsListed := by simp [init, graphNew]

/-- A number is given to the next object. -/
theorem Numbered.snoc {α : Type} {objs : List α} {id : α → UInt32} {last : UInt32}
    (h : Numbered objs id last) (hlt : last.toNat + 1 < UInt32.size) {obj : α}
    (hid : id obj = last + 1) : Numbered (objs ++ [obj]) id (last + 1) := by
  have hnext : (last + 1).toNat = objs.length + 1 := by
    rw [UInt32.toNat_add, ← h.1]
    exact Nat.mod_eq_of_lt hlt
  refine ⟨by rw [hnext, List.length_append, List.length_singleton], fun p x hx => ?_⟩
  rw [List.getElem?_append] at hx
  split_ifs at hx with hp
  · exact h.2 p x hx
  · obtain ⟨hlen, rfl⟩ := List.getElem?_eq_some_iff.mp hx
    rw [List.length_singleton] at hlen
    have hp : p = objs.length := by omega
    simp [hid, hnext, hp]

theorem Listed.nodup {listed orphans : List Ptr} {n : ℕ} (h : Listed listed orphans n) :
    listed.Nodup := h.sorted.imp fun hlt => Nat.ne_of_lt hlt

/-- A new object is put at the end of the list. -/
theorem Listed.snoc {listed orphans : List Ptr} {n : ℕ} (h : Listed listed orphans n) :
    Listed (listed ++ [n]) orphans (n + 1) where
  sorted := List.pairwise_append.mpr ⟨h.sorted, List.pairwise_singleton _ _,
    fun p hp q hq => List.mem_singleton.mp hq ▸ h.lt p hp⟩
  lt p hp := by
    obtain hp | hp := List.mem_append.mp hp
    · exact Nat.lt_succ_of_lt (h.lt p hp)
    · exact List.mem_singleton.mp hp ▸ Nat.lt_succ_self n
  orphan p := by
    rw [h.orphan, List.mem_append, List.mem_singleton]
    constructor
    · intro hp
      exact ⟨Nat.lt_succ_of_lt hp.1, fun hor => hor.elim hp.2 (Nat.ne_of_lt hp.1)⟩
    · intro hp
      have hne : p ≠ n := fun heq => hp.2 (.inr heq)
      exact ⟨Nat.lt_of_le_of_ne (Nat.le_of_lt_succ hp.1) hne, fun hmem => hp.2 (.inl hmem)⟩

/-- An object is taken out of the list. -/
theorem Listed.erase {listed orphans : List Ptr} {n : ℕ} (h : Listed listed orphans n) {p : Ptr}
    (hp : p ∈ listed) : Listed (listed.erase p) (p :: orphans) n where
  sorted := h.sorted.sublist List.erase_sublist
  lt q hq := h.lt q (List.mem_of_mem_erase hq)
  orphan q := by
    rw [List.mem_cons, h.orphan, h.nodup.mem_erase_iff]
    by_cases hq : q = p
    · simp [hq, h.lt p hp]
    · simp [hq]

/-! ## The ends of edges -/

theorem slotsOf_congr (h : Heap) {refs refs' : List Ptr} (heq : ∀ e, e ∈ refs ↔ e ∈ refs') :
    slotsOf h refs = slotsOf h refs' := by
  unfold slotsOf
  simp only [heq]

/-- The first reference to an edge adds its ends. -/
theorem slotsOf_cons_perm {h : Heap} {e : Ptr} {refs : List Ptr} (hlt : e < h.edges.length)
    (hnew : e ∉ refs) : (slotsOf h (e :: refs)).Perm (ends h e ++ slotsOf h refs) := by
  have hperm : ((List.range h.edges.length).filter (· ∈ e :: refs)).Perm
      (e :: (List.range h.edges.length).filter (· ∈ refs)) := by
    have hnodup : (e :: (List.range h.edges.length).filter (· ∈ refs)).Nodup :=
      List.nodup_cons.mpr ⟨by simp [hnew], List.nodup_range.filter _⟩
    refine (List.perm_ext_iff_of_nodup (List.nodup_range.filter _) hnodup).mpr fun i => ?_
    simp only [List.mem_filter, List.mem_range, decide_eq_true_eq, List.mem_cons]
    constructor
    · intro hi
      obtain rfl | hi' := hi.2
      · exact .inl rfl
      · exact .inr ⟨hi.1, hi'⟩
    · intro hi
      obtain rfl | hi := hi
      · exact ⟨hlt, .inl rfl⟩
      · exact ⟨hi.1, .inr hi.2⟩
  exact hperm.flatMap_right _

/-- A new edge adds its ends. -/
theorem slotsOf_snoc (h : Heap) (refs : List Ptr) (ed : EdgeObj) :
    slotsOf { h with edges := h.edges ++ [ed] } (refs ++ [h.edges.length]) =
      slotsOf h refs ++ [ed.localNode, ed.remoteNode] := by
  have hold : ∀ e ∈ List.range h.edges.length,
      ends { h with edges := h.edges ++ [ed] } e = ends h e ∧
        decide (e ∈ refs ++ [h.edges.length]) = decide (e ∈ refs) := by
    intro e he
    have hlt := List.mem_range.mp he
    have hne : e ≠ h.edges.length := Nat.ne_of_lt hlt
    simp [ends, List.getElem?_append_left hlt, hne]
  unfold slotsOf
  simp only [List.length_append, List.length_singleton, List.range_succ, List.filter_append,
    List.flatMap_append]
  congr 1
  · rw [List.filter_congr fun e he => (hold e he).2]
    exact List.flatMap_congr fun e he => (hold e (List.mem_filter.mp he).1).1
  · simp [ends]

/-- The edges that are not freed are those to which there are references. -/
theorem endSlots_eq {s : RefGraph} {refs : List Ptr}
    (h : Refcount.Exact s.edgeCounts fun e => refs.count e) : s.endSlots = slotsOf s.heap refs := by
  unfold endSlots slotsOf
  congr 1
  refine List.filter_congr fun e _ => ?_
  have hiff : (Refcount.live? s.edgeCounts e).isSome ↔ e ∈ refs := by
    rw [h.isSome_live?_iff, ← List.count_pos_iff]
    omega
  rw [Bool.eq_iff_iff, decide_eq_true_iff]
  exact hiff

namespace Inv

variable {s : RefGraph} {hn he : List Ptr} {p e : Ptr}

/-- A node with a reference can be used. -/
theorem exists_node? (h : Inv s hn he) (hp : p ∈ s.nodeRefs hn) : ∃ n, s.node? p = some n := by
  have hlt := h.nodeCounts.lt_length (Refcount.count_pos hp)
  rw [h.nodesLength] at hlt
  exact ⟨_, by rw [node?, h.nodeCounts.live?_eq (Refcount.count_pos hp), Option.bind_some,
    List.getElem?_eq_getElem hlt]⟩

theorem exists_edge? (h : Inv s hn he) (hp : e ∈ s.edgeRefs he) :
    ∃ ed, s.edge? e = some ed ∧ s.heap.edges[e]? = some ed := by
  have hlt := h.edgeCounts.lt_length (Refcount.count_pos hp)
  rw [h.edgesLength] at hlt
  have hget := List.getElem?_eq_getElem hlt
  refine ⟨_, ?_, hget⟩
  rw [edge?, h.edgeCounts.live?_eq (Refcount.count_pos hp), Option.bind_some, hget]

/-- Only the counters of the nodes change. -/
theorem setNodeCounts (h : Inv s hn he) {cs : List Count} {hn' : List Ptr}
    (hlength : cs.length = s.nodeCounts.length)
    (hcs : Refcount.Exact cs fun p => (s.nodeRefs hn').count p) :
    Inv { s with nodeCounts := cs } hn' he :=
  { h with
    nodeCounts := hcs
    edgeCounts := h.edgeCounts
    nodesLength := hlength.trans h.nodesLength }

theorem nodeHold (h : Inv s hn he) (hp : p ∈ s.nodeRefs hn)
    (hlt : ((s.nodeRefs hn).count p : ℤ) + 1 < Refcount.limit) :
    ∃ cs, Refcount.hold s.nodeCounts p = some cs ∧
      Inv { s with nodeCounts := cs } (p :: hn) he := by
  obtain ⟨cs, hcs, hlength, hexact⟩ := h.nodeCounts.hold (Refcount.count_pos hp) hlt
  refine ⟨cs, hcs, h.setNodeCounts hlength ?_⟩
  exact hexact.congr fun q => Refcount.count_append_cons _ hn p q

/-- A reference that is held can be given back. -/
theorem nodeRelease (h : Inv s (p :: hn) he) :
    ∃ cs, s.nodeRelease p = some { s with nodeCounts := cs } ∧
      Inv { s with nodeCounts := cs } hn he := by
  have hp : p ∈ s.nodeRefs (p :: hn) := by simp [nodeRefs]
  obtain ⟨cs, hcs, hlength, hexact⟩ := h.nodeCounts.release (Refcount.count_pos hp)
  refine ⟨cs, by rw [RefGraph.nodeRelease, hcs, Option.map_some], h.setNodeCounts hlength ?_⟩
  refine hexact.congr fun q => ?_
  have hcons := Refcount.count_append_cons (s.graph.nodes ++ s.endSlots) hn p q
  show ((s.graph.nodes ++ s.endSlots ++ hn).count q : ℤ) =
    (s.graph.nodes ++ s.endSlots ++ p :: hn).count q - if p = q then 1 else 0
  omega

/-- Only the counters of the edges change; what the edges held is held by others. -/
theorem setEdgeCounts (h : Inv s hn he) {cs : List Count} {hn' he' : List Ptr}
    (hlength : cs.length = s.edgeCounts.length)
    (hcs : Refcount.Exact cs fun p => (s.edgeRefs he').count p)
    (hslots : ∀ q, (s.nodeRefs hn).count q =
      (s.graph.nodes ++ slotsOf s.heap (s.edgeRefs he') ++ hn').count q) :
    Inv { s with edgeCounts := cs } hn' he' := by
  have hends : RefGraph.endSlots { s with edgeCounts := cs } =
      slotsOf s.heap (s.edgeRefs he') := endSlots_eq hcs
  refine { h with
    nodeCounts := h.nodeCounts.congr fun q => ?_
    edgeCounts := hcs
    edgesLength := hlength.trans h.edgesLength }
  show ((s.graph.nodes ++ RefGraph.endSlots { s with edgeCounts := cs } ++ hn').count q : ℤ) = _
  rw [hends, hslots q]

theorem edgeHold (h : Inv s hn he) (hp : e ∈ s.edgeRefs he)
    (hlt : ((s.edgeRefs he).count e : ℤ) + 1 < Refcount.limit) :
    ∃ cs, s.edgeHold e = some { s with edgeCounts := cs } ∧
      Inv { s with edgeCounts := cs } hn (e :: he) := by
  obtain ⟨cs, hcs, hlength, hexact⟩ := h.edgeCounts.hold (Refcount.count_pos hp) hlt
  have hmem : ∀ i, i ∈ s.edgeRefs he ↔ i ∈ s.edgeRefs (e :: he) := by
    intro i
    unfold edgeRefs at hp ⊢
    rw [List.mem_append, List.mem_append, List.mem_cons]
    rw [List.mem_append] at hp
    constructor
    · intro hi
      obtain hi | hi := hi
      · exact .inl hi
      · exact .inr (.inr hi)
    · intro hi
      obtain hi | rfl | hi := hi
      · exact .inl hi
      · exact hp
      · exact .inr hi
  refine ⟨cs, by rw [RefGraph.edgeHold, hcs, Option.map_some], h.setEdgeCounts hlength ?_ ?_⟩
  · exact hexact.congr fun q => Refcount.count_append_cons _ he e q
  · intro q
    rw [nodeRefs, endSlots_eq h.edgeCounts, slotsOf_congr s.heap hmem]

/-- The counter of an edge to which a reference is given back; the last one leaves the references
to its ends to the caller. -/
theorem releaseCount (h : Inv s hn (e :: he)) :
    ∃ ed cs freed, s.heap.edges[e]? = some ed ∧
      Refcount.release s.edgeCounts e = some (cs, freed) ∧
      Inv { s with edgeCounts := cs }
        (if freed then ed.localNode :: ed.remoteNode :: hn else hn) he := by
  have hp : e ∈ s.edgeRefs (e :: he) := by simp [edgeRefs]
  obtain ⟨ed, -, hed⟩ := h.exists_edge? hp
  obtain ⟨cs, hcs, hlength, hexact⟩ := h.edgeCounts.release (Refcount.count_pos hp)
  have hcons : ∀ q, ((s.edgeRefs (e :: he)).count q : ℤ) =
      (s.edgeRefs he).count q + if e = q then 1 else 0 :=
    fun q => Refcount.count_append_cons s.graph.edges he e q
  have hrefs : Refcount.Exact cs fun q => (s.edgeRefs he).count q := hexact.congr fun q => by
    have := hcons q
    omega
  refine ⟨ed, cs, _, hed, hcs, h.setEdgeCounts hlength hrefs fun q => ?_⟩
  have hslots : s.endSlots = slotsOf s.heap (e :: s.edgeRefs he) := by
    rw [endSlots_eq h.edgeCounts]
    exact slotsOf_congr s.heap fun i => by simp [edgeRefs, or_left_comm]
  have hself := hcons e
  rw [if_pos rfl] at hself
  rw [nodeRefs, hslots]
  by_cases hone : ((s.edgeRefs (e :: he)).count e : ℤ) = 1
  · have hnew : e ∉ s.edgeRefs he := by
      rw [← List.count_eq_zero]
      omega
    have hlt := (List.getElem?_eq_some_iff.mp hed).1
    have hperm := (slotsOf_cons_perm hlt hnew).count_eq q
    have hends : ends s.heap e = [ed.localNode, ed.remoteNode] := by simp [ends, hed]
    rw [hends, List.count_append] at hperm
    simp only [hone, decide_true, if_true, List.count_append, hperm, List.count_cons,
      List.count_nil]
    omega
  · have hold : e ∈ s.edgeRefs he := by
      rw [← List.count_pos_iff]
      have := h.edgeCounts.nonneg e
      omega
    have hsame : slotsOf s.heap (e :: s.edgeRefs he) = slotsOf s.heap (s.edgeRefs he) :=
      slotsOf_congr s.heap fun i => by
        rw [List.mem_cons]
        exact ⟨fun hi => hi.elim (fun heq => heq ▸ hold) id, .inr⟩
    simp only [hone, decide_false, Bool.false_eq_true, if_false, hsame]

theorem edgeRelease (h : Inv s hn (e :: he)) :
    ∃ ns es, s.edgeRelease e = some { s with nodeCounts := ns, edgeCounts := es } ∧
      Inv { s with nodeCounts := ns, edgeCounts := es } hn he := by
  obtain ⟨ed, cs, freed, hed, hcs, hinv⟩ := h.releaseCount
  unfold RefGraph.edgeRelease
  rw [hcs, hed]
  cases freed with
  | false => exact ⟨s.nodeCounts, cs, rfl, hinv⟩
  | true =>
    obtain ⟨ns₁, hns₁, hinv₁⟩ := hinv.nodeRelease
    obtain ⟨ns₂, hns₂, hinv₂⟩ := hinv₁.nodeRelease
    refine ⟨ns₂, cs, ?_, hinv₂⟩
    show (RefGraph.nodeRelease { s with edgeCounts := cs } ed.localNode).bind _ = _
    rw [hns₁, Option.bind_some, hns₂]

/-- The list gives up its reference to an edge. -/
theorem unlistEdge (h : Inv s hn he) (hmem : e ∈ s.graph.edges) :
    Inv { s with
      graph := Srn.graphRemoveEdge s.graph e
      orphanEdges := e :: s.orphanEdges } hn (e :: he) := by
  have hgraph : Srn.graphRemoveEdge s.graph e =
      { s.graph with edges := s.graph.edges.erase e, dirty := true } := by
    rw [Srn.graphRemoveEdge, if_pos hmem]
  have hperm : (s.graph.edges.erase e ++ e :: he).Perm (s.graph.edges ++ he) :=
    List.perm_middle.trans ((List.perm_cons_erase hmem).symm.append_right he)
  rw [hgraph]
  exact { h with
    edgeCounts := h.edgeCounts.congr fun q => congrArg Nat.cast (hperm.count_eq q)
    edges := h.edges.erase hmem
    endsListed := fun e' he' => h.endsListed e' (List.mem_of_mem_erase he') }

/-- The list gives up its reference to a node that is the end of no edge in the list. -/
theorem unlistNode (h : Inv s hn he) (hmem : p ∈ s.graph.nodes)
    (hfree : ∀ e ∈ s.graph.edges, p ∉ ends s.heap e) :
    Inv { s with
      graph := { s.graph with nodes := s.graph.nodes.erase p, dirty := true }
      orphanNodes := p :: s.orphanNodes } (p :: hn) he := by
  have hperm : (s.graph.nodes.erase p ++ s.endSlots ++ p :: hn).Perm
      (s.graph.nodes ++ s.endSlots ++ hn) := by
    refine List.perm_middle.trans ?_
    exact ((List.perm_cons_erase hmem).symm.append_right s.endSlots).append_right hn
  refine { h with
    nodeCounts := h.nodeCounts.congr fun q => congrArg Nat.cast (hperm.count_eq q)
    nodes := h.nodes.erase hmem
    endsListed := fun e he' q hq => h.nodes.nodup.mem_erase_iff.mpr ⟨?_, h.endsListed e he' q hq⟩ }
  intro heq
  exact hfree e he' (heq ▸ hq)

/-! ## The operations -/

/-- `graph_add_node` keeps the accounting. -/
theorem graphAddNode (h : Inv s hn he) (hlt : s.graph.lastNode.toNat + 1 < UInt32.size)
    (data : String) (mem : Bool) : Inv (s.graphAddNode data mem) hn he := by
  cases mem with
  | false => exact h
  | true =>
    show Inv { s with
      heap := { s.heap with nodes := s.heap.nodes ++ [⟨s.graph.lastNode + 1, data⟩] }
      graph := { s.graph with
        lastNode := s.graph.lastNode + 1
        nodes := s.graph.nodes ++ [s.heap.nodes.length]
        dirty := true }
      nodeCounts := Refcount.alloc s.nodeCounts } hn he
    have hnodes := h.nodes.snoc
    refine { h with
      nodeCounts := h.nodeCounts.alloc.congr fun q => ?_
      nodesLength := by simp [Refcount.alloc, h.nodesLength]
      nodeIds := h.nodeIds.snoc hlt rfl
      nodes := by simpa using hnodes
      endsListed := fun e he' q hq => List.mem_append_left _ (h.endsListed e he' q hq) }
    have hcount := Refcount.count_append_cons s.graph.nodes (s.endSlots ++ hn)
      s.heap.nodes.length q
    show ((s.graph.nodes ++ [s.heap.nodes.length] ++ s.endSlots ++ hn).count q : ℤ) =
      (s.graph.nodes ++ s.endSlots ++ hn).count q + _
    rw [h.nodesLength]
    simpa using hcount

/-- An edge between two nodes that are held for it is put at the end of the list. -/
theorem listEdge {l r : Ptr} (h : Inv s (r :: l :: hn) he) (hl : l ∈ s.graph.nodes)
    (hr : r ∈ s.graph.nodes) (hlt : s.graph.lastEdge.toNat + 1 < UInt32.size) (metric : UInt32)
    (data : Ptr) :
    Inv { s with
      heap := { s.heap with
        edges := s.heap.edges ++ [⟨l, r, s.graph.lastEdge + 1, metric, data⟩] }
      edgeCounts := Refcount.alloc s.edgeCounts
      graph := { s.graph with
        lastEdge := s.graph.lastEdge + 1
        edges := s.graph.edges ++ [s.heap.edges.length]
        dirty := true } } hn he := by
  have hedges := h.edges.snoc
  have hexact : Refcount.Exact (Refcount.alloc s.edgeCounts) fun q =>
      (s.graph.edges ++ [s.heap.edges.length] ++ he).count q := by
    refine h.edgeCounts.alloc.congr fun q => ?_
    have hcount := Refcount.count_append_cons s.graph.edges he s.heap.edges.length q
    rw [h.edgesLength]
    simpa [edgeRefs] using hcount
  refine { h with
    nodeCounts := h.nodeCounts.congr fun q => ?_
    edgeCounts := hexact
    edgesLength := by simp [Refcount.alloc, h.edgesLength]
    edgeIds := h.edgeIds.snoc hlt rfl
    edges := by simpa using hedges
    endsListed := fun e he' q hq => ?_ }
  · have hslots := slotsOf_snoc s.heap (s.edgeRefs he) ⟨l, r, s.graph.lastEdge + 1, metric, data⟩
    have hsame : ∀ e, e ∈ s.graph.edges ++ [s.heap.edges.length] ++ he ↔
        e ∈ s.edgeRefs he ++ [s.heap.edges.length] := by
      intro e
      simp only [edgeRefs, List.mem_append, or_right_comm]
    rw [nodeRefs, endSlots_eq hexact, slotsOf_congr _ hsame, hslots]
    show _ = ((s.graph.nodes ++ s.endSlots ++ r :: l :: hn).count q : ℤ)
    rw [endSlots_eq h.edgeCounts]
    simp only [List.count_append, List.count_cons, List.count_nil]
    omega
  · obtain he' | he' := List.mem_append.mp he'
    · have hlt' := h.edges.lt e he'
      rw [ends, List.getElem?_append_left hlt', ← ends] at hq
      exact h.endsListed e he' q hq
    · rw [List.mem_singleton.mp he', ends, List.getElem?_concat_length] at hq
      obtain rfl | hq := List.mem_cons.mp hq
      · exact hl
      · exact List.mem_singleton.mp hq ▸ hr

/-- `graph_add_edge` in one direction keeps the accounting. -/
theorem addEdge (h : Inv s hn he) {l r : Ptr} (hl : l ∈ s.graph.nodes) (hr : r ∈ s.graph.nodes)
    (hlt : s.graph.lastEdge.toNat + 1 < UInt32.size)
    (hfits : ∀ q, ((s.nodeRefs hn).count q : ℤ) + 2 < Refcount.limit) (metric : UInt32) (data : Ptr)
    (mem : Bool) :
    ∃ s', s.addEdge l r metric data mem = some s' ∧ Inv s' hn he ∧
      s'.graph.nodes = s.graph.nodes ∧ s'.graph.lastEdge.toNat ≤ s.graph.lastEdge.toNat + 1 ∧
      ∀ q, ((s'.nodeRefs hn).count q : ℤ) ≤ (s.nodeRefs hn).count q + 2 := by
  cases mem with
  | false => exact ⟨s, rfl, h, rfl, Nat.le_succ _, fun q => by omega⟩
  | true =>
    have hmem : ∀ {held q}, q ∈ s.graph.nodes → q ∈ s.nodeRefs held :=
      fun hq => List.mem_append_left _ (List.mem_append_left _ hq)
    have hcons : ∀ held x q, ((s.nodeRefs (x :: held)).count q : ℤ) =
        (s.nodeRefs held).count q + if x = q then 1 else 0 :=
      fun held x q => Refcount.count_append_cons _ held x q
    obtain ⟨cs₁, hcs₁, h₁⟩ := h.nodeHold (hmem hl) (by have := hfits l; omega)
    obtain ⟨cs₂, hcs₂, h₂⟩ := h₁.nodeHold (p := r) (hmem hr) (by
      have := hfits r
      have hcount := hcons hn l r
      show ((s.nodeRefs (l :: hn)).count r : ℤ) + 1 < _
      split_ifs at hcount <;> omega)
    have hinv := h₂.listEdge hl hr hlt metric data
    refine ⟨_, ?_, hinv, rfl, ?_, fun q => ?_⟩
    · simp [RefGraph.addEdge, RefGraph.nodeHold, hcs₁, hcs₂]
    · show (s.graph.lastEdge + 1).toNat ≤ _
      rw [UInt32.toNat_add]
      exact Nat.mod_le _ _
    · rw [h₂.nodeCounts.unique hinv.nodeCounts q]
      show ((s.nodeRefs (r :: l :: hn)).count q : ℤ) ≤ _
      have hcount₁ := hcons hn l q
      have hcount₂ := hcons (l :: hn) r q
      split_ifs at hcount₁ hcount₂ <;> omega

/-- `graph_add_edge` keeps the accounting. -/
theorem graphAddEdge (h : Inv s hn he) {l r : Ptr} (hl : l ∈ s.graph.nodes)
    (hr : r ∈ s.graph.nodes) (hlt : s.graph.lastEdge.toNat + 2 < UInt32.size)
    (hfits : ∀ q, ((s.nodeRefs hn).count q : ℤ) + 4 < Refcount.limit) (metric : UInt32) (sym : Bool)
    (data : Ptr) (mem : Bool × Bool) :
    ∃ s', s.graphAddEdge l r metric sym data mem = some s' ∧ Inv s' hn he := by
  cases sym with
  | false =>
    obtain ⟨s', hs', hinv, -⟩ := h.addEdge hl hr (by omega)
      (fun q => by have := hfits q; omega) metric data mem.2
    exact ⟨s', hs', hinv⟩
  | true =>
    obtain ⟨s₁, hs₁, h₁, hnodes, hlast, hcount⟩ := h.addEdge hr hl (by omega)
      (fun q => by have := hfits q; omega) metric data mem.1
    obtain ⟨s₂, hs₂, h₂, -⟩ := h₁.addEdge (hnodes ▸ hl) (hnodes ▸ hr) (by omega)
      (fun q => by have := hfits q; have := hcount q; omega) metric data mem.2
    refine ⟨s₂, ?_, h₂⟩
    simp only [RefGraph.graphAddEdge, if_true]
    rw [hs₁]
    exact hs₂

/-- `graph_remove_edge` keeps the accounting. -/
theorem graphRemoveEdge (h : Inv s hn he) (e : Ptr) :
    ∃ s', s.graphRemoveEdge e = some s' ∧ Inv s' hn he ∧ s'.heap = s.heap ∧
      s'.graph.nodes = s.graph.nodes ∧ s'.graph.edges = s.graph.edges.erase e := by
  unfold RefGraph.graphRemoveEdge
  by_cases hmem : e ∈ s.graph.edges
  · obtain ⟨ns, es, hrelease, hinv⟩ := (h.unlistEdge hmem).edgeRelease
    rw [if_neg (not_not.mpr hmem), hrelease]
    refine ⟨_, rfl, hinv, rfl, ?_, ?_⟩
    · simp [Srn.graphRemoveEdge, hmem]
    · simp [Srn.graphRemoveEdge, hmem]
  · rw [if_pos hmem]
    exact ⟨s, rfl, h, rfl, rfl, (List.erase_of_not_mem hmem).symm⟩

/-- The loop of `graph_remove_node` leaves no edge at the node. -/
theorem removeEdges (h : Inv s hn he) (hp : p ∈ s.graph.nodes) {es : List Ptr} (hnodup : es.Nodup)
    (hes : ∀ e ∈ es, e ∈ s.graph.edges) :
    ∃ s', es.foldlM (removeIfEnd p) s = some s' ∧ Inv s' hn he ∧ s'.heap = s.heap ∧
      s'.graph.nodes = s.graph.nodes ∧ (∀ e ∈ s'.graph.edges, e ∈ s.graph.edges) ∧
      ∀ e ∈ es, e ∈ s'.graph.edges → p ∉ ends s.heap e := by
  induction es generalizing s with
  | nil => exact ⟨s, rfl, h, rfl, rfl, fun _ he' => he', by simp⟩
  | cons e es ih =>
    have hmem := hes e List.mem_cons_self
    have hnode : ∀ {q}, q ∈ s.graph.nodes → q ∈ s.nodeRefs hn :=
      fun hq => List.mem_append_left _ (List.mem_append_left _ hq)
    obtain ⟨ed, hed, hget⟩ := h.exists_edge? (List.mem_append_left he hmem)
    have hends : ends s.heap e = [ed.localNode, ed.remoteNode] := by simp [ends, hget]
    have hlisted := h.endsListed e hmem
    rw [hends] at hlisted
    obtain ⟨n, hn'⟩ := h.exists_node? (hnode hp)
    obtain ⟨ln, hln⟩ := h.exists_node? (hnode (hlisted ed.localNode (by simp)))
    obtain ⟨rn, hrn⟩ := h.exists_node? (hnode (hlisted ed.remoteNode (by simp)))
    -- the edge goes if a name is that of the node, and so if one of its ends is the node
    have hstep : ∃ t, removeIfEnd p s e = some t ∧ Inv t hn he ∧ t.heap = s.heap ∧
        t.graph.nodes = s.graph.nodes ∧ (∀ e' ∈ t.graph.edges, e' ∈ s.graph.edges) ∧
        (∀ e' ∈ es, e' ∈ t.graph.edges) ∧ (e ∈ t.graph.edges → p ∉ ends s.heap e) := by
      obtain ⟨hnot, hnodup'⟩ := List.nodup_cons.mp hnodup
      simp only [removeIfEnd, rtNodeEquals, hed, hn', hln, hrn, bind, Option.bind, pure]
      by_cases hname : ln.data.toLower = n.data.toLower ∨ rn.data.toLower = n.data.toLower
      · obtain ⟨t, ht, hinv, hheap, hnodes, hedges⟩ := h.graphRemoveEdge e
        refine ⟨t, ?_, hinv, hheap, hnodes, fun e' he' => ?_, fun e' he' => ?_, fun he' => ?_⟩
        · rw [if_pos (by simpa using hname), ht]
        · rw [hedges] at he'
          exact List.mem_of_mem_erase he'
        · rw [hedges, h.edges.nodup.mem_erase_iff]
          exact ⟨fun heq => hnot (heq ▸ he'), hes e' (List.mem_cons_of_mem _ he')⟩
        · rw [hedges, h.edges.nodup.mem_erase_iff] at he'
          exact absurd rfl he'.1
      · refine ⟨s, by rw [if_neg (by simpa using hname)], h, rfl, rfl, fun _ he' => he',
          fun e' he' => hes e' (List.mem_cons_of_mem _ he'), fun _ hend => hname ?_⟩
        rw [hends] at hend
        obtain rfl | hend := List.mem_cons.mp hend
        · rw [hn'] at hln
          exact .inl (by rw [Option.some.inj hln])
        · rw [← List.mem_singleton.mp hend, hn'] at hrn
          exact .inr (by rw [Option.some.inj hrn])
    obtain ⟨t, ht, hinv, hheap, hnodes, hsub, hrest, hgone⟩ := hstep
    obtain ⟨s', hs', hinv', hheap', hnodes', hsub', hgone'⟩ := ih hinv (hnodes.symm ▸ hp)
      (List.nodup_cons.mp hnodup).2 hrest
    refine ⟨s', ?_, hinv', hheap'.trans hheap, hnodes'.trans hnodes,
      fun e' he' => hsub e' (hsub' e' he'), fun e' he' hmem' => ?_⟩
    · rw [List.foldlM_cons, ht]
      exact hs'
    · obtain rfl | he' := List.mem_cons.mp he'
      · exact hgone (hsub' e' hmem')
      · exact hheap ▸ hgone' e' he' hmem'

/-- `graph_remove_node` keeps the accounting. -/
theorem graphRemoveNode (h : Inv s hn he) (p : Ptr) :
    ∃ s', s.graphRemoveNode p = some s' ∧ Inv s' hn he := by
  unfold RefGraph.graphRemoveNode
  by_cases hmem : p ∈ s.graph.nodes
  · obtain ⟨t, ht, hinv, hheap, hnodes, hsub, hgone⟩ :=
      h.removeEdges hmem h.edges.nodup (fun _ he' => he')
    obtain ⟨cs, hrelease, hinv'⟩ := (hinv.unlistNode (hnodes.symm ▸ hmem)
      (fun e he' => hheap.symm ▸ hgone e (hsub e he') he')).nodeRelease
    refine ⟨_, ?_, hinv'⟩
    rw [if_neg (not_not.mpr hmem), ht]
    exact hrelease
  · rw [if_pos hmem]
    exact ⟨s, rfl, h⟩

/-- The order in which references are held does not matter. -/
theorem perm (h : Inv s hn he) {hn' he' : List Ptr} (hnodes : hn'.Perm hn) (hedges : he'.Perm he) :
    Inv s hn' he' :=
  { h with
    nodeCounts := h.nodeCounts.congr fun q =>
      congrArg Nat.cast ((hnodes.append_left (s.graph.nodes ++ s.endSlots)).count_eq q)
    edgeCounts := h.edgeCounts.congr fun q =>
      congrArg Nat.cast ((hedges.append_left s.graph.edges).count_eq q) }

end Inv

end RefGraph

/-! ## Runs -/

/-- A graph and the references to its objects that others hold. -/
structure RefRun where
  g : RefGraph
  heldNodes : List Ptr
  heldEdges : List Ptr
  deriving DecidableEq, Repr

/-- A call. -/
inductive RefEvent where
  | addNode (data : String) (mem : Bool)
  | addEdge (localNode remoteNode : Ptr) (metric : UInt32) (sym : Bool) (data : Ptr)
      (mem : Bool × Bool)
  | removeEdge (edge : Ptr)
  | removeNode (node : Ptr)
  | holdNode (node : Ptr)
  | releaseNode (node : Ptr)
  | holdEdge (edge : Ptr)
  | releaseEdge (edge : Ptr)
  deriving DecidableEq, Repr

namespace RefRun

open RefGraph (Numbered)

/-- The start, with an empty graph. -/
def init : RefRun := ⟨.init, [], []⟩

/-- What a call does. -/
def exec (s : RefRun) : RefEvent → Option RefRun
  | .addNode data mem => some { s with g := s.g.graphAddNode data mem }
  | .addEdge localNode remoteNode metric sym data mem =>
    (s.g.graphAddEdge localNode remoteNode metric sym data mem).map fun g => { s with g }
  | .removeEdge edge => (s.g.graphRemoveEdge edge).map fun g => { s with g }
  | .removeNode node => (s.g.graphRemoveNode node).map fun g => { s with g }
  | .holdNode node => (s.g.nodeHold node).map fun g =>
    { s with g, heldNodes := node :: s.heldNodes }
  | .releaseNode node => (s.g.nodeRelease node).map fun g =>
    { s with g, heldNodes := s.heldNodes.erase node }
  | .holdEdge edge => (s.g.edgeHold edge).map fun g =>
    { s with g, heldEdges := edge :: s.heldEdges }
  | .releaseEdge edge => (s.g.edgeRelease edge).map fun g =>
    { s with g, heldEdges := s.heldEdges.erase edge }

/-- An edge joins nodes of the graph, an object is held while it exists, and a reference is given
back by someone who holds it. -/
def enabled (s : RefRun) : RefEvent → Bool
  | .addEdge localNode remoteNode _ _ _ _ =>
    localNode ∈ s.g.graph.nodes ∧ remoteNode ∈ s.g.graph.nodes
  | .holdNode node => (Refcount.live? s.g.nodeCounts node).isSome
  | .holdEdge edge => (Refcount.live? s.g.edgeCounts edge).isSome
  | .releaseNode node => node ∈ s.heldNodes
  | .releaseEdge edge => edge ∈ s.heldEdges
  | _ => true

/-- One step. -/
def step (s : RefRun) (ev : RefEvent) : Option RefRun := if s.enabled ev then s.exec ev else none

/-- The 32-bit counters, of the ids and of the references, are below their limit. -/
def BelowLimit (s : RefRun) : Prop :=
  s.g.graph.lastNode.toNat + 1 < UInt32.size ∧ s.g.graph.lastEdge.toNat + 2 < UInt32.size ∧
    ∀ c ∈ s.g.nodeCounts ++ s.g.edgeCounts, c.refcount + 4 < Refcount.limit

instance (s : RefRun) : Decidable s.BelowLimit :=
  inferInstanceAs (Decidable (_ ∧ _ ∧ ∀ c ∈ s.g.nodeCounts ++ s.g.edgeCounts, _))

/-- The accounting of a state. -/
def Inv (s : RefRun) : Prop := s.g.Inv s.heldNodes s.heldEdges

/-- A counter below the limit leaves room for four references. -/
theorem count_lt {cs : List Count} {refs : List Ptr}
    (h : Refcount.Exact cs fun p => refs.count p)
    (hlt : ∀ c ∈ cs, c.refcount + 4 < Refcount.limit) (q : Ptr) :
    (refs.count q : ℤ) + 4 < Refcount.limit := by
  by_cases hq : q ∈ refs
  · have hget := h.getElem?_eq (Refcount.count_pos hq)
    exact hlt ⟨refs.count q, 0⟩ (List.mem_of_getElem? hget)
  · rw [List.count_eq_zero.mpr hq]
    simp [Refcount.limit]

/-- **Step lemma**: a call that is enabled has a result, and keeps the accounting. -/
theorem exec_spec {s : RefRun} (h : s.Inv) (hlimit : s.BelowLimit) {ev : RefEvent}
    (hev : s.enabled ev = true) : ∃ s', s.exec ev = some s' ∧ s'.Inv := by
  obtain ⟨hnode, hedge, hcounts⟩ := hlimit
  have hnodes : ∀ q, ((s.g.nodeRefs s.heldNodes).count q : ℤ) + 4 < Refcount.limit :=
    count_lt h.nodeCounts fun c hc => hcounts c (List.mem_append_left _ hc)
  have hedges : ∀ q, ((s.g.edgeRefs s.heldEdges).count q : ℤ) + 4 < Refcount.limit :=
    count_lt h.edgeCounts fun c hc => hcounts c (List.mem_append_right _ hc)
  cases ev with
  | addNode data mem =>
    exact ⟨{ s with g := s.g.graphAddNode data mem }, rfl,
      RefGraph.Inv.graphAddNode h hnode data mem⟩
  | addEdge l r metric sym data mem =>
    obtain ⟨hl, hr⟩ := of_decide_eq_true hev
    obtain ⟨g, hg, hinv⟩ := RefGraph.Inv.graphAddEdge h hl hr hedge hnodes metric sym data mem
    exact ⟨{ s with g }, by rw [exec, hg, Option.map_some], hinv⟩
  | removeEdge e =>
    obtain ⟨g, hg, hinv, -⟩ := RefGraph.Inv.graphRemoveEdge h e
    exact ⟨{ s with g }, by rw [exec, hg, Option.map_some], hinv⟩
  | removeNode p =>
    obtain ⟨g, hg, hinv⟩ := RefGraph.Inv.graphRemoveNode h p
    exact ⟨{ s with g }, by rw [exec, hg, Option.map_some], hinv⟩
  | holdNode p =>
    have hp : p ∈ s.g.nodeRefs s.heldNodes := by
      have hpos := h.nodeCounts.isSome_live?_iff.mp hev
      rw [← List.count_pos_iff]
      omega
    obtain ⟨cs, hcs, hinv⟩ := RefGraph.Inv.nodeHold h hp (by have := hnodes p; omega)
    exact ⟨⟨{ s.g with nodeCounts := cs }, p :: s.heldNodes, s.heldEdges⟩,
      by rw [exec, RefGraph.nodeHold, hcs, Option.map_some, Option.map_some], hinv⟩
  | releaseNode p =>
    have hperm := List.perm_cons_erase (of_decide_eq_true hev)
    obtain ⟨cs, hcs, hinv⟩ := (RefGraph.Inv.perm h hperm.symm (.refl _)).nodeRelease
    exact ⟨⟨{ s.g with nodeCounts := cs }, s.heldNodes.erase p, s.heldEdges⟩,
      by rw [exec, hcs, Option.map_some], hinv⟩
  | holdEdge e =>
    have hp : e ∈ s.g.edgeRefs s.heldEdges := by
      have hpos := h.edgeCounts.isSome_live?_iff.mp hev
      rw [← List.count_pos_iff]
      omega
    obtain ⟨cs, hcs, hinv⟩ := RefGraph.Inv.edgeHold h hp (by have := hedges e; omega)
    exact ⟨⟨{ s.g with edgeCounts := cs }, s.heldNodes, e :: s.heldEdges⟩,
      by rw [exec, hcs, Option.map_some], hinv⟩
  | releaseEdge e =>
    have hperm := List.perm_cons_erase (of_decide_eq_true hev)
    obtain ⟨ns, es, hcs, hinv⟩ := (RefGraph.Inv.perm h (.refl _) hperm.symm).edgeRelease
    exact ⟨⟨{ s.g with nodeCounts := ns, edgeCounts := es }, s.heldNodes, s.heldEdges.erase e⟩,
      by rw [exec, hcs, Option.map_some], hinv⟩

/-- **Run lemma**: the accounting holds in every state reached below the limit. -/
theorem inv_of_run {events : List RefEvent} {s : RefRun}
    (hrun : Transition.run step init events = some s)
    (hlimit : Transition.Along step (fun s _ => s.BelowLimit) init events) : s.Inv := by
  have hkeeps : ∀ (s : RefRun) (ev : RefEvent) (s' : RefRun), s.Inv → s.BelowLimit →
      s.step ev = some s' → s'.Inv := by
    intro s ev s' hs hbelow hstep
    unfold step at hstep
    split_ifs at hstep with hev
    obtain ⟨t, ht, hinv⟩ := exec_spec hs hbelow hev
    obtain rfl := Option.some.inj (hstep.symm.trans ht)
    exact hinv
  have hinit : init.Inv := RefGraph.inv_init
  exact Transition.run_invariant_along hkeeps hinit hlimit hrun

/-- The objects in a list have ids that increase, and no two objects ever had one id. -/
structure Ids {α : Type} (objs : List α) (listed : List Ptr) (id : α → UInt32) : Prop where
  increasing : ∃ os : List α, (listed.map fun p => objs[p]?) = os.map some ∧
    (os.map id).Pairwise (· < ·)
  fresh : ∀ (p q : ℕ) (a b : α), objs[p]? = some a → objs[q]? = some b → id a = id b → p = q

/-- What a reader of the graph relies on: the ids, the ends of the edges, the counts of edges and
nodes, and when an object is destroyed. -/
structure Accounted (s : RefRun) : Prop where
  nodeIds : Ids s.g.heap.nodes s.g.graph.nodes NodeObj.id
  edgeIds : Ids s.g.heap.edges s.g.graph.edges EdgeObj.id
  ends : ∀ edge ∈ s.g.graph.edges, ∃ e, s.g.heap.edges[edge]? = some e ∧
    e.localNode ∈ s.g.graph.nodes ∧ e.remoteNode ∈ s.g.graph.nodes
  edgeCount : ∀ (edge : Ptr) (c : Count), s.g.edgeCounts[edge]? = some c →
    c.refcount = (if edge ∈ s.g.graph.edges then 1 else 0) + s.heldEdges.count edge
  nodeCount : ∀ (node : Ptr) (c : Count), s.g.nodeCounts[node]? = some c →
    c.refcount = (if node ∈ s.g.graph.nodes then 1 else 0) + s.g.endSlots.count node +
      s.heldNodes.count node
  destroyed : ∀ c ∈ s.g.nodeCounts ++ s.g.edgeCounts,
    c.destroyed = if c.refcount = 0 then 1 else 0

theorem ids_of_numbered {α : Type} {objs : List α} {id : α → UInt32} {last : UInt32}
    {listed orphans : List Ptr} (h : Numbered objs id last)
    (hlisted : RefGraph.Listed listed orphans objs.length) : Ids objs listed id := by
  constructor
  · have hsorted := hlisted.sorted
    have hlt := hlisted.lt
    clear hlisted
    induction listed with
    | nil => exact ⟨[], rfl, .nil⟩
    | cons p listed ih =>
      obtain ⟨hfirst, hrest⟩ := List.pairwise_cons.mp hsorted
      obtain ⟨os, hos, hids⟩ := ih hrest fun q hq => hlt q (List.mem_cons_of_mem _ hq)
      have hget := List.getElem?_eq_getElem (hlt p List.mem_cons_self)
      refine ⟨_ :: os, by rw [List.map_cons, List.map_cons, hget, hos],
        List.pairwise_cons.mpr ⟨fun x hx => ?_, hids⟩⟩
      obtain ⟨b, hb, rfl⟩ := List.mem_map.mp hx
      have hmem : some b ∈ listed.map fun q => objs[q]? := hos ▸ List.mem_map_of_mem hb
      obtain ⟨q, hq, hbq⟩ := List.mem_map.mp hmem
      rw [UInt32.lt_iff_toNat_lt, h.2 p _ hget, h.2 q b hbq]
      exact Nat.succ_lt_succ (hfirst q hq)
  · intro p q a b ha hb heq
    have hp := h.2 p a ha
    have hq := h.2 q b hb
    rw [heq] at hp
    omega

theorem count_of_nodup {l : List Ptr} (h : l.Nodup) (p : Ptr) :
    (l.count p : ℤ) = if p ∈ l then 1 else 0 := by
  by_cases hp : p ∈ l
  · rw [List.count_eq_one_of_mem h hp, if_pos hp]
    rfl
  · rw [List.count_eq_zero.mpr hp, if_neg hp]
    rfl

theorem Inv.accounted {s : RefRun} (h : s.Inv) : s.Accounted where
  nodeIds := ids_of_numbered h.nodeIds h.nodes
  edgeIds := ids_of_numbered h.edgeIds h.edges
  ends edge hedge := by
    have hget := List.getElem?_eq_getElem (h.edges.lt edge hedge)
    have hlisted := h.endsListed edge hedge
    rw [RefGraph.ends, hget] at hlisted
    exact ⟨_, hget, hlisted _ (by simp), hlisted _ (by simp)⟩
  edgeCount edge c hc := by
    rw [h.edgeCounts.count edge c hc, ← count_of_nodup h.edges.nodup edge]
    show ((s.g.graph.edges ++ s.heldEdges).count edge : ℤ) = _
    rw [List.count_append]
    omega
  nodeCount node c hc := by
    rw [h.nodeCounts.count node c hc, ← count_of_nodup h.nodes.nodup node]
    show ((s.g.graph.nodes ++ s.g.endSlots ++ s.heldNodes).count node : ℤ) = _
    rw [List.count_append, List.count_append]
    omega
  destroyed c hc := by
    obtain hc | hc := List.mem_append.mp hc
    · obtain ⟨p, hp⟩ := List.mem_iff_getElem?.mp hc
      rw [h.nodeCounts.count p c hp]
      rfl
    · obtain ⟨p, hp⟩ := List.mem_iff_getElem?.mp hc
      rw [h.edgeCounts.count p c hp]
      rfl

/-- **Main theorem.** After any sequence of calls below the limit of the 32-bit counters, whatever
the names of the nodes are, the ids, the ends and the reference counts are those of the objects
that are listed, used by edges and held by others; and every call that is enabled has a result, so
that no call touches an object after it is freed. -/
theorem refcounts_accounted (events : List RefEvent) (s : RefRun)
    (hrun : Transition.run step init events = some s)
    (hlimit : Transition.Along step (fun s _ => s.BelowLimit) init events) :
    s.Accounted ∧ ∀ ev, s.enabled ev = true → s.BelowLimit → (s.step ev).isSome := by
  have hinv := inv_of_run hrun hlimit
  refine ⟨hinv.accounted, fun ev hev hbelow => ?_⟩
  obtain ⟨s', hs', -⟩ := exec_spec hinv hbelow hev
  rw [step, if_pos hev, hs']
  rfl

/-- Two routers with links both ways; one link is held while its router is removed, and released
after it. -/
def heldLink : List RefEvent :=
  [.addNode "A" true, .addNode "B" true, .addEdge 0 1 10 true 0 (true, true), .holdEdge 1,
    .removeNode 1, .addNode "b" true, .releaseEdge 1]

/-- The router and both links are freed in the end, each once. -/
theorem refcounts_accounted_heldLink :
    ∃ s, Transition.run step init heldLink = some s ∧ s.Accounted ∧
      s.g.graph.nodes = [0, 2] ∧ s.g.nodeCounts = [⟨1, 0⟩, ⟨0, 1⟩, ⟨1, 0⟩] ∧
      s.g.edgeCounts = [⟨0, 1⟩, ⟨0, 1⟩] := by
  have hfacts : (Transition.run step init heldLink).map (fun s =>
      (s.g.graph.nodes, s.g.nodeCounts, s.g.edgeCounts)) =
      some ([0, 2], [⟨1, 0⟩, ⟨0, 1⟩, ⟨1, 0⟩], [⟨0, 1⟩, ⟨0, 1⟩]) := by decide +kernel
  obtain ⟨s, hs, heq⟩ := Option.map_eq_some_iff.mp hfacts
  simp only [Prod.mk.injEq] at heq
  exact ⟨s, hs, (refcounts_accounted heldLink s hs (by decide +kernel)).1, heq⟩

end RefRun

end Srn
