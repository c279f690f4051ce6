import Srn.Graph.Shortest
import Srn.Segpath.Build

/-!
# Srn.Segpath.Forward

How packets follow a segment list: a node segment is reached along any shortest path of the
graph, whatever the routers choose among paths of equal cost, and an adjacency segment crosses
its edge.  The segment list that `build_segpath` returns should leave the routers no choice:
every forwarding visits exactly the selected path.

`graph_minseg` keeps the invariant that the segments so far lead exactly to `node_r`, and that
the path has the only shortest route from `node_r` to the current node.  It fails on a hop that
is not a shortest way itself while the shortest ways have a single last router.
-/

namespace Srn

open Route

variable {ε : Type} {g : Graph ε}

/-! ## Forwarding -/

/-- A packet at `u` with the given segments visits, after `u`, the given nodes and ends at the
last argument. -/
inductive Forward (g : Graph ε) : NodeId → List (Segment ε) → List NodeId → NodeId → Prop
  | done {u} : Forward g u [] [] u
  | node {u v t es segs path} : ShortestWalk g u es v → Forward g v segs path t →
      Forward g u (.node v :: segs) (walkNodes es ++ path) t
  | adjacency {e t segs path} : e ∈ g.edges → Forward g e.remoteId segs path t →
      Forward g e.localId (.adjacency e :: segs) (e.remoteId :: path) t

/-- Every forwarding of a packet visits exactly the given nodes, and there is one. -/
def ForwardsExactly (g : Graph ε) (u : NodeId) (segs : List (Segment ε)) (path : List NodeId)
    (t : NodeId) : Prop :=
  ∀ path' t', Forward g u segs path' t' ↔ path' = path ∧ t' = t

variable {u v t : NodeId} {segs segs' : List (Segment ε)} {path path' : List NodeId}

theorem forward_nil_iff : Forward g u [] path t ↔ path = [] ∧ t = u := by
  constructor
  · intro h
    cases h
    exact ⟨rfl, rfl⟩
  · rintro ⟨rfl, rfl⟩
    exact .done

theorem forward_node_iff (hg : Finalized g) (hpos : PositiveMetrics g) :
    Forward g u (.node v :: segs) path t ↔
      ∃ r path', Shortest g.weight u v r ∧ Forward g v segs path' t ∧
        path = r.reverse ++ path' := by
  constructor
  · intro h
    cases h with
    | node hwalk hrest =>
      exact ⟨_, _, (hg.shortestWalk_iff hpos).mp ⟨_, hwalk, rfl⟩, hrest, by simp⟩
  · rintro ⟨r, path', hshort, hrest, rfl⟩
    obtain ⟨es, hwalk, rfl⟩ := (hg.shortestWalk_iff hpos).mpr hshort
    rw [List.reverse_reverse]
    exact .node hwalk hrest

theorem forward_adjacency_iff {e : Edge ε} :
    Forward g u (.adjacency e :: segs) path t ↔ e ∈ g.edges ∧ e.localId = u ∧
      ∃ path', Forward g e.remoteId segs path' t ∧ path = e.remoteId :: path' := by
  constructor
  · intro h
    cases h with
    | adjacency he hrest => exact ⟨he, rfl, _, hrest, rfl⟩
  · rintro ⟨he, rfl, path', hrest, rfl⟩
    exact .adjacency he hrest

/-- Forwarding along two segment lists in a row. -/
theorem forward_append_iff : Forward g u (segs ++ segs') path t ↔
    ∃ v p q, Forward g u segs p v ∧ Forward g v segs' q t ∧ path = p ++ q := by
  constructor
  · intro h
    induction segs generalizing u path with
    | nil => exact ⟨u, [], path, .done, h, rfl⟩
    | cons seg segs ih =>
      cases h with
      | node hwalk hrest =>
        obtain ⟨v, p, q, hp, hq, rfl⟩ := ih hrest
        exact ⟨v, _, q, .node hwalk hp, hq, by simp⟩
      | adjacency he hrest =>
        obtain ⟨v, p, q, hp, hq, rfl⟩ := ih hrest
        exact ⟨v, _, q, .adjacency he hp, hq, rfl⟩
  · rintro ⟨v, p, q, hp, hq, rfl⟩
    induction hp with
    | done => exact hq
    | node hwalk _ ih =>
      rw [List.append_assoc]
      exact .node hwalk (ih hq)
    | adjacency he _ ih => exact .adjacency he (ih hq)

/-- The last node visited. -/
theorem Forward.end_eq (h : Forward g u segs path t) : ∃ p, u :: path = p ++ [t] := by
  induction h with
  | done => exact ⟨[], rfl⟩
  | @node u v t es segs path hwalk _ ih =>
    obtain ⟨p, hp⟩ := hwalk.1.end_eq
    obtain ⟨q, hq⟩ := ih
    exact ⟨p ++ q, by rw [← List.cons_append, hp, List.append_assoc, List.singleton_append, hq,
      List.append_assoc]⟩
  | @adjacency e t segs path _ _ ih =>
    obtain ⟨q, hq⟩ := ih
    exact ⟨e.localId :: q, by rw [hq, List.cons_append]⟩

namespace ForwardsExactly

theorem nil : ForwardsExactly g u [] [] u := fun _ _ => forward_nil_iff

theorem append (h : ForwardsExactly g u segs path v) (h' : ForwardsExactly g v segs' path' t) :
    ForwardsExactly g u (segs ++ segs') (path ++ path') t := by
  intro p q
  rw [forward_append_iff]
  constructor
  · rintro ⟨v', p₁, p₂, h₁, h₂, rfl⟩
    obtain ⟨rfl, rfl⟩ := (h p₁ v').mp h₁
    obtain ⟨rfl, rfl⟩ := (h' p₂ q).mp h₂
    exact ⟨rfl, rfl⟩
  · rintro ⟨rfl, rfl⟩
    exact ⟨v, path, path', (h path v).mpr ⟨rfl, rfl⟩, (h' path' _).mpr ⟨rfl, rfl⟩, rfl⟩

/-- A node segment is exact when there is only one shortest route. -/
theorem node (hg : Finalized g) (hpos : PositiveMetrics g) {r : List NodeId}
    (h : OnlyShortest g.weight u v r) : ForwardsExactly g u [.node v] r.reverse v := by
  intro p q
  rw [forward_node_iff hg hpos]
  constructor
  · rintro ⟨r', p', hr', hp', rfl⟩
    obtain ⟨rfl, rfl⟩ := forward_nil_iff.mp hp'
    rw [(h r').mp hr', List.append_nil]
    exact ⟨rfl, rfl⟩
  · rintro ⟨rfl, rfl⟩
    exact ⟨r, [], (h r).mpr rfl, .done, (List.append_nil _).symm⟩

/-- An adjacency segment is exact at the local end of its edge. -/
theorem adjacency {e : Edge ε} (he : e ∈ g.edges) :
    ForwardsExactly g e.localId [.adjacency e] [e.remoteId] e.remoteId := by
  intro p q
  rw [forward_adjacency_iff]
  constructor
  · rintro ⟨-, -, p', hp', rfl⟩
    obtain ⟨rfl, rfl⟩ := forward_nil_iff.mp hp'
    exact ⟨rfl, rfl⟩
  · rintro ⟨rfl, rfl⟩
    exact ⟨he, rfl, [], .done, rfl⟩

end ForwardsExactly

/-! ## The choices of `graph_minseg` -/

/-- All shortest ways from `u` to `v` enter `v` from the same node, which is not `u`. -/
def Detour (g : Graph ε) (u v : NodeId) : Prop := ∃ p, p ≠ u ∧ OnlyPred g.weight u p v

/-- The recorded list holds the predecessors on shortest routes. -/
theorem PrevList.mem_iff (hg : Finalized g) (hpos : PositiveMetrics g) (hover : NoOverflow g)
    {r : NodeId} {ps : List NodeId} (h : PrevList g r v ps) (hr : r ∈ g.nodes) (hv : v ∈ g.nodes) :
    ps.Nodup ∧ ∀ x, x ∈ ps ↔ IsPred g.weight r x v := by
  obtain ⟨res, hrun, hexact⟩ := graphDijkstra_exact hg hpos hover hr
  obtain ⟨res', hrun', hget⟩ := h
  obtain rfl := Except.ok.inj (hrun.symm.trans hrun')
  obtain ⟨ps', hget', hnodup, hmem⟩ := hexact.prev v hv
  obtain rfl := Option.some.inj (hget.symm.trans hget')
  exact ⟨hnodup, hmem⟩

/-- One predecessor is an entry of length one. -/
theorem length_eq_one_iff {w : NodeId → NodeId → Option ℕ} {r : NodeId} {ps : List NodeId}
    (hnodup : ps.Nodup) (hmem : ∀ x, x ∈ ps ↔ IsPred w r x v) :
    ps.length = 1 ↔ ∃ p, OnlyPred w r p v := by
  rw [List.length_eq_one_iff]
  constructor
  · rintro ⟨p, rfl⟩
    exact ⟨p, fun x => by rw [← hmem, List.mem_singleton]⟩
  · rintro ⟨p, hp⟩
    refine ⟨p, ?_⟩
    have hperm : ps.Perm [p] := (List.perm_ext_iff_of_nodup hnodup (by simp)).mpr fun x => by
      rw [hmem, hp, List.mem_singleton]
    exact List.perm_singleton.mp hperm

/-- What a round of `graph_minseg` does, in terms of shortest routes. -/
inductive Choice (g : Graph ε) (nodeR nodeI nodeII : NodeId) (edge : Edge ε) :
    NodeId × List (Segment ε) → Prop
  | keep : OnlyPred g.weight nodeR nodeI nodeII → Choice g nodeR nodeI nodeII edge (nodeR, [])
  | node {p} : OnlyPred g.weight nodeI p nodeII →
      Choice g nodeR nodeI nodeII edge (nodeI, [.node nodeI])
  | adjacency : (∀ p, ¬ OnlyPred g.weight nodeI p nodeII) →
      Choice g nodeR nodeI nodeII edge (nodeII, [.node nodeI, .adjacency edge])

theorem choice_minsegChoice (hg : Finalized g) (hpos : PositiveMetrics g) (hover : NoOverflow g)
    {nodeR nodeI nodeII : NodeId} {edge : Edge ε} {prevR prevI : List NodeId}
    (hnode : nodeR ∈ g.nodes) (hR : PrevList g nodeR nodeII prevR)
    (hI : PrevList g nodeI nodeII prevI) (hedge : g.minEdges.get (nodeI, nodeII) = some edge) :
    Choice g nodeR nodeI nodeII edge (minsegChoice nodeR nodeI nodeII edge prevR prevI) := by
  obtain ⟨hi, hii⟩ := (hg.minEdges_get_eq_some_iff.mp hedge).2.isLink.ends hg
  obtain ⟨hnodupR, hmemR⟩ := hR.mem_iff hg hpos hover hnode hii
  obtain ⟨hnodupI, hmemI⟩ := hI.mem_iff hg hpos hover hi hii
  have hone := length_eq_one_iff hnodupI hmemI
  rw [minsegChoice]
  split_ifs with hmem hlen hlen' hlen
  · obtain ⟨p, hp⟩ := (length_eq_one_iff hnodupR hmemR).mp
      (Nat.le_antisymm hlen (List.length_pos_of_mem hmem))
    obtain rfl := (hp nodeI).mp ((hmemR nodeI).mp hmem)
    exact .keep hp
  · exact .adjacency fun p hp => absurd (hone.mpr ⟨p, hp⟩) (by omega)
  · have hdirect := (hmemI nodeI).mpr ((hmemR nodeI).mp hmem).direct
    obtain ⟨p, hp⟩ := hone.mp
      (Nat.le_antisymm (Nat.not_lt.mp hlen') (List.length_pos_of_mem hdirect))
    exact .node hp
  · obtain ⟨p, hp⟩ := hone.mp hlen
    exact .node hp
  · exact .adjacency fun p hp => hlen (hone.mpr ⟨p, hp⟩)

/-! ## Segments that leave no choice -/

/-- **Invariant of `graph_minseg`.** The segments so far lead exactly to `node_r`, and there is
only one shortest route from there to the current node. -/
theorem Minseg.forwardsExactly (hg : Finalized g) (hpos : PositiveMetrics g)
    (hover : NoOverflow g) {src nodeR nodeI dst : NodeId} {rest p s : List NodeId}
    {res : List (Segment ε)} (h : Minseg g nodeR (nodeI :: rest) segs) (hnode : nodeR ∈ g.nodes)
    (hhops : ∀ u v, (u, v) ∈ hops (nodeI :: rest) → ¬ Detour g u v)
    (hdone : ForwardsExactly g src res p nodeR) (hstretch : OnlyShortest g.weight nodeR nodeI s)
    (hlast : ∀ e, res.getLast? = some (.adjacency e) → e.remoteId = nodeR)
    (hdst : rest.getLastD nodeI = dst) :
    ForwardsExactly g src (insertWaypoint dst (res ++ segs)) (p ++ s.reverse ++ rest) dst := by
  induction rest generalizing nodeR nodeI segs p s res with
  | nil =>
    cases h
    obtain rfl : nodeI = dst := hdst
    rw [List.append_nil, List.append_nil]
    rcases insertWaypoint_eq nodeI res with ⟨heq, e, he, hremote⟩ | heq
    · obtain rfl : nodeI = nodeR := hremote.symm.trans (hlast e he)
      obtain rfl := (hstretch []).mp (shortest_nil_iff.mpr rfl)
      rw [heq, List.reverse_nil, List.append_nil]
      exact hdone
    · rw [heq]
      exact hdone.append (.node hg hpos hstretch)
  | cons nodeII rest ih =>
    cases h with
    | @hop _ _ _ edge prevR prevI _ segs hR hI hedge hrest =>
      have hchoice := choice_minsegChoice hg hpos hover hnode hR hI hedge
      have hlink := (hg.minEdges_get_eq_some_iff.mp hedge).2.isLink
      have hpositive := hg.positive hpos
      have hhop : ¬ Detour g nodeI nodeII := hhops _ _ (by simp [hops])
      have hhops' : ∀ u v, (u, v) ∈ hops (nodeII :: rest) → ¬ Detour g u v :=
        fun u v huv => hhops u v (by simp [hops, huv])
      rw [List.getLastD_cons] at hdst
      generalize minsegChoice nodeR nodeI nodeII edge prevR prevI = out at hchoice hrest ⊢
      rw [← List.append_assoc]
      cases hchoice with
      | keep hpred =>
        have := ih hrest hnode hhops' hdone (hstretch.snoc hpositive hpred) hlast hdst
        simpa using this
      | @node x hpred =>
        obtain rfl : x = nodeI := by
          by_contra hx
          exact hhop ⟨x, hx, hpred⟩
        have := ih hrest (hlink.ends hg).1 hhops' (hdone.append (.node hg hpos hstretch))
          ((onlyShortest_self hpositive).snoc hpositive hpred) (by simp) hdst
        simpa using this
      | adjacency hmany =>
        have hcross : ForwardsExactly g nodeI [.adjacency edge] [nodeII] nodeII := by
          have := ForwardsExactly.adjacency hlink.mem
          rwa [hlink.localId, hlink.remoteId] at this
        have := ih hrest (hlink.ends hg).2 hhops'
          ((hdone.append (.node hg hpos hstretch)).append hcross)
          (onlyShortest_self hpositive) (by simp [hlink.remoteId]) hdst
        simpa using this

/-! ## Detours -/

theorem minsegChoice_snd (nodeR nodeI nodeII : NodeId) (edge : Edge ε) (prevR prevI : List NodeId) :
    (minsegChoice nodeR nodeI nodeII edge prevR prevI).2 = [] ∨
      ∃ out, (minsegChoice nodeR nodeI nodeII edge prevR prevI).2 = .node nodeI :: out := by
  rw [minsegChoice]
  split_ifs <;> simp

/-- The segments appended for the rest of a path start with one of its nodes. -/
theorem Minseg.head {nodeR nodeI : NodeId} {rest : List NodeId}
    (h : Minseg g nodeR (nodeI :: rest) segs) :
    segs = [] ∨ ∃ w ∈ nodeI :: rest, ∃ out, segs = .node w :: out := by
  induction rest generalizing nodeR nodeI segs with
  | nil =>
    cases h
    exact .inl rfl
  | cons nodeII rest ih =>
    cases h with
    | @hop _ _ _ edge prevR prevI _ segs _ _ _ hrest =>
      rcases minsegChoice_snd nodeR nodeI nodeII edge prevR prevI with hout | ⟨out, hout⟩
      · rw [hout, List.nil_append]
        exact (ih hrest).imp_right fun ⟨w, hw, hsegs⟩ => ⟨w, List.mem_cons_of_mem _ hw, hsegs⟩
      · rw [hout]
        exact .inr ⟨nodeI, List.mem_cons_self, _, rfl⟩

/-- After a node segment comes a node segment of the rest of the path. -/
theorem Minseg.insertWaypoint_node {nodeR nodeI dst : NodeId} {rest : List NodeId}
    (h : Minseg g nodeR (nodeI :: rest) segs) (hdst : rest.getLastD nodeI = dst) (u : NodeId)
    (res : List (Segment ε)) : ∃ w ∈ nodeI :: rest, ∃ out,
      insertWaypoint dst (res ++ .node u :: segs) = res ++ .node u :: .node w :: out := by
  have hmem : dst ∈ nodeI :: rest := hdst ▸ List.getLastD_mem_cons
  rcases h.head with rfl | ⟨w, hw, out, rfl⟩
  · rcases insertWaypoint_eq dst (res ++ [.node u]) with ⟨-, e, he, -⟩ | heq
    · simp at he
    · exact ⟨dst, hmem, [], by simp [heq]⟩
  · rcases insertWaypoint_eq dst (res ++ .node u :: .node w :: out) with ⟨heq, -⟩ | heq
    · exact ⟨w, hw, out, heq⟩
    · exact ⟨w, hw, out ++ [.node dst], by simp [heq]⟩

/-- A detour on the path leaves two node segments in a row, the first at its start. -/
theorem Minseg.detour (hg : Finalized g) (hpos : PositiveMetrics g) (hover : NoOverflow g)
    {nodeR nodeI dst : NodeId} {rest : List NodeId} (res : List (Segment ε))
    (h : Minseg g nodeR (nodeI :: rest) segs) (hnode : nodeR ∈ g.nodes)
    (hdetour : ∃ u v, (u, v) ∈ hops (nodeI :: rest) ∧ Detour g u v)
    (hdst : rest.getLastD nodeI = dst) :
    ∃ p u v q w pre out, nodeI :: rest = p ++ u :: v :: q ∧ Detour g u v ∧ w ∈ v :: q ∧
      insertWaypoint dst (res ++ segs) = pre ++ .node u :: .node w :: out := by
  induction rest generalizing nodeR nodeI segs res with
  | nil => simp [hops] at hdetour
  | cons nodeII rest ih =>
    cases h with
    | @hop _ _ _ edge prevR prevI _ segs hR hI hedge hrest =>
      have hchoice := choice_minsegChoice hg hpos hover hnode hR hI hedge
      have hends := (hg.minEdges_get_eq_some_iff.mp hedge).2.isLink.ends hg
      rw [List.getLastD_cons] at hdst
      generalize minsegChoice nodeR nodeI nodeII edge prevR prevI = choice at hchoice hrest ⊢
      by_cases hhop : Detour g nodeI nodeII
      · obtain ⟨x, hx, honly⟩ := hhop
        cases hchoice with
        | keep hpred =>
          exact absurd ((honly nodeI).mp ((hpred nodeI).mpr rfl).direct).symm hx
        | node hpred =>
          obtain ⟨w, hw, out, heq⟩ := hrest.insertWaypoint_node hdst nodeI res
          exact ⟨[], nodeI, nodeII, rest, w, res, out, rfl, ⟨x, hx, honly⟩, hw, heq⟩
        | adjacency hmany => exact absurd honly (hmany x)
      · have hrest' : ∃ u v, (u, v) ∈ hops (nodeII :: rest) ∧ Detour g u v := by
          obtain ⟨u, v, huv, hd⟩ := hdetour
          rcases List.mem_cons.mp huv with huv | huv
          · obtain ⟨rfl, rfl⟩ := Prod.mk.inj huv
            exact absurd hd hhop
          · exact ⟨u, v, huv, hd⟩
        have hnode' : choice.1 ∈ g.nodes := by
          cases hchoice with
          | keep => exact hnode
          | node => exact hends.1
          | adjacency => exact hends.2
        obtain ⟨p, u, v, q, w, pre, out, hpath, hd, hw, heq⟩ :=
          ih (res ++ choice.2) hrest hnode' hrest' hdst
        refine ⟨nodeI :: p, u, v, q, w, pre, out, ?_, hd, hw, ?_⟩
        · rw [hpath, List.cons_append]
        · rw [← List.append_assoc, heq]

/-- A packet that follows a simple path through two node segments in a row leaves the first of
them on a shortest way. -/
theorem Forward.isPred (hg : Finalized g) (hpos : PositiveMetrics g) {src dst w : NodeId}
    {p q : List NodeId} {pre out : List (Segment ε)}
    (h : Forward g src (pre ++ .node u :: .node w :: out) path dst)
    (hpath : src :: path = p ++ u :: v :: q) (hnodup : (src :: path).Nodup) (hw : w ∈ v :: q) :
    IsPred g.weight u u v := by
  rw [List.append_cons, forward_append_iff] at h
  obtain ⟨x, p₁, q₁, h₁, h₂, rfl⟩ := h
  obtain ⟨y, p₂, q₂, -, h₃, -⟩ := forward_append_iff.mp h₁
  obtain ⟨r₀, q₀, -, hnil, -⟩ := (forward_node_iff hg hpos).mp h₃
  obtain rfl := (forward_nil_iff.mp hnil).2
  obtain ⟨r, q₃, hr, -, rfl⟩ := (forward_node_iff hg hpos).mp h₂
  obtain ⟨p₃, hp₃⟩ := h₁.end_eq
  rw [← List.cons_append, hp₃, List.append_assoc, List.singleton_append] at hpath hnodup
  have hfresh : x ∉ p ∧ x ∉ v :: q := by
    rw [hpath] at hnodup
    have := List.nodup_append.mp hnodup
    exact ⟨fun hx => this.2.2 x hx x List.mem_cons_self rfl, (List.nodup_cons.mp this.2.1).1⟩
  obtain ⟨-, -, hrest⟩ := (List.append_cons_inj_of_notMem hfresh.1 hfresh.2).mp hpath.symm
  cases hrev : r.reverse with
  | nil =>
    rw [List.reverse_eq_nil_iff.mp hrev, shortest_nil_iff] at hr
    exact absurd (hr ▸ hw) hfresh.2
  | cons a l =>
    rw [hrev, List.cons_append] at hrest
    obtain rfl := (List.cons.inj hrest).1
    rw [← List.reverse_reverse r, hrev, List.reverse_cons] at hr
    exact hr.isPred_source

/-- The hops of a shortest route are no detours. -/
theorem not_detour_of_shortest {s : NodeId} {r : List NodeId} (h : Shortest g.weight s t r)
    (huv : (u, v) ∈ hops (s :: r.reverse)) : ¬ Detour g u v := by
  induction r generalizing t with
  | nil => simp [hops] at huv
  | cons x r ih =>
    obtain ⟨rfl, y, hpred, hy⟩ := h.isPred
    have hshort := hy
    obtain ⟨c, hroute, -⟩ := hy
    rw [hops_of_isRoute hroute, List.mem_append, List.mem_singleton] at huv
    rcases huv with huv | huv
    · exact ih hshort huv
    · obtain ⟨rfl, rfl⟩ := Prod.mk.inj huv
      rintro ⟨z, hz, honly⟩
      exact hz ((honly u).mp hpred.direct).symm

/-! ## Results -/

section

variable {σ : Type} {pspec : Pathspec ε σ} {es : List (Edge ε)}

/-- The segments of a path are exact when no hop of it is a detour. -/
theorem Built.forwardsExactly_iff (h : Built g pspec path segs es) (hg : Finalized g)
    (hpos : PositiveMetrics g) (hover : NoOverflow g) (hsrc : pspec.src ∈ g.nodes) :
    ForwardsExactly g pspec.src (insertWaypoint pspec.dst segs) path pspec.dst ↔
      ∀ u v, (u, v) ∈ hops (pspec.src :: path) → ¬ Detour g u v := by
  have hdst : path.getLastD pspec.src = pspec.dst := by
    obtain ⟨c, hroute⟩ := h.route
    rw [hroute.end_eq, List.headD_eq_head?_getD, List.head?_reverse, List.getLastD_eq_getLast?]
  constructor
  · intro hexact u v huv hd
    obtain ⟨p, x, y, q, w, pre, out, hpath, ⟨z, hz, honly⟩, hw, heq⟩ :=
      h.minseg.detour hg hpos hover [] hsrc ⟨u, v, huv, hd⟩ hdst
    have hforward := (hexact path pspec.dst).mpr ⟨rfl, rfl⟩
    rw [← List.nil_append segs, heq] at hforward
    exact hz ((honly x).mp (hforward.isPred hg hpos hpath h.nodup hw)).symm
  · intro hhops
    have := h.minseg.forwardsExactly hg hpos hover hsrc hhops (.nil (g := g))
      (onlyShortest_self (hg.positive hpos)) (by simp) hdst
    simpa using this

end

/-- **Main theorem.** A packet with the segments that `build_segpath` returns for a flow visits
exactly the path selected in the constrained graph, whatever the routers choose, if and only if
no hop of that path is a detour in the graph itself. -/
theorem buildSegpath_forwards_iff (g : Graph Link) (fl : Flow) (src dst : NodeId)
    (hg : Finalized g) (hpos : PositiveMetrics g) (hover : NoOverflow g) (hsrc : src ∈ g.nodes)
    (hdst : dst ∈ g.nodes) :
    ∃ out, buildSegpath g (flowPathspec fl src dst []) = .ok out ∧
      ∀ segs epath, out = some (segs, epath) → ∃ path,
        selectPath ((flowPathspec fl src dst []).constrained g) (flowPathspec fl src dst []).dOps
          src dst = .ok (some path) ∧
        (ForwardsExactly g src segs path dst ↔
          ∀ u v, (u, v) ∈ hops (src :: path) → ¬ Detour g u v) := by
  rcases buildSegpath_cases hg (isSubgraph_flow hg fl src dst []) rfl hdst with
    ⟨-, hnone⟩ | ⟨path, segs, es, hbuilt⟩
  · exact ⟨none, hnone, by simp⟩
  refine ⟨_, hbuilt.result, fun segs' epath heq => ⟨path, hbuilt.select, ?_⟩⟩
  obtain ⟨rfl, rfl⟩ := Prod.mk.inj (Option.some.inj heq)
  exact hbuilt.forwardsExactly_iff hg hpos hover hsrc

/-- A direct link from 1 to 2 with a small delay, no free bandwidth and a large metric, and a
way around over 3. -/
def shortcut : Graph Link := graphOf [1, 2, 3]
  [⟨1, 1, 2, 10, ⟨1, 2, 100, 0, 1⟩⟩, ⟨2, 1, 3, 1, ⟨3, 4, 100, 100, 10⟩⟩,
    ⟨3, 3, 2, 1, ⟨5, 6, 100, 100, 10⟩⟩]

theorem finalized_shortcut : Finalized shortcut := finalized_graphOf (by decide) (by decide)

theorem positiveMetrics_shortcut : PositiveMetrics shortcut := by
  intro e he
  revert e
  decide

theorem noOverflow_shortcut : NoOverflow shortcut :=
  noOverflow_of_le finalized_shortcut (b := 10) (by decide) (by decide)

/-- The way around is the only shortest path. -/
theorem onlyShortest_shortcut : OnlyShortest shortcut.weight 1 2 [2, 3] := by
  obtain ⟨res, hrun, hexact⟩ := graphDijkstra_exact finalized_shortcut positiveMetrics_shortcut
    noOverflow_shortcut (show 1 ∈ shortcut.nodes by decide)
  obtain ⟨paths, hget, -, hpaths⟩ := hexact.path 2 (by decide)
  have hpath : (graphDijkstra shortcut 1 defaultOps).map (fun res => res.path.get 2) =
      .ok (some [[2, 3]]) := by decide +kernel
  rw [hrun] at hpath
  obtain rfl := Option.some.inj (hget.symm.trans (Except.ok.inj hpath))
  exact fun r => (hpaths r).symm.trans List.mem_singleton

/-- A flow with a delay constraint is routed on the direct link, and its packets go around. -/
theorem buildSegpath_forwards_detour :
    (Finalized shortcut ∧ PositiveMetrics shortcut ∧ NoOverflow shortcut) ∧
      selectPath ((flowPathspec ⟨0, 5⟩ 1 2 []).constrained shortcut)
        (flowPathspec ⟨0, 5⟩ 1 2 []).dOps 1 2 = .ok (some [2]) ∧
      buildSegpath shortcut (flowPathspec ⟨0, 5⟩ 1 2 []) = .ok (some ([.node 1, .node 2],
        some [⟨1, 1, 2, 10, ⟨1, 2, 100, 0, 1⟩⟩])) ∧
      ForwardsExactly shortcut 1 [.node 1, .node 2] [3, 2] 2 ∧
      ¬ ForwardsExactly shortcut 1 [.node 1, .node 2] [2] 2 := by
  have hg := finalized_shortcut
  have hpos := positiveMetrics_shortcut
  have haround : ForwardsExactly shortcut 1 [.node 1, .node 2] [3, 2] 2 :=
    (ForwardsExactly.node hg hpos (onlyShortest_self (hg.positive hpos))).append
      (.node hg hpos onlyShortest_shortcut)
  refine ⟨⟨hg, hpos, noOverflow_shortcut⟩, by decide +kernel, by decide +kernel, haround, ?_⟩
  intro hdirect
  have := ((hdirect [3, 2] 2).mp ((haround [3, 2] 2).mpr ⟨rfl, rfl⟩)).1
  contradiction

/-- A flow with a bandwidth constraint is routed around, which is no detour. -/
theorem buildSegpath_forwards_around :
    (Finalized shortcut ∧ PositiveMetrics shortcut ∧ NoOverflow shortcut) ∧
      buildSegpath shortcut (flowPathspec ⟨50, 0⟩ 1 2 []) = .ok (some ([.node 2],
        some [⟨2, 1, 3, 1, ⟨3, 4, 100, 100, 10⟩⟩, ⟨3, 3, 2, 1, ⟨5, 6, 100, 100, 10⟩⟩])) ∧
      ForwardsExactly shortcut 1 [.node 2] [3, 2] 2 := by
  have hg := finalized_shortcut
  have hpos := positiveMetrics_shortcut
  have hover := noOverflow_shortcut
  have hrun : buildSegpath shortcut (flowPathspec ⟨50, 0⟩ 1 2 []) = .ok (some ([.node 2],
      some [⟨2, 1, 3, 1, ⟨3, 4, 100, 100, 10⟩⟩, ⟨3, 3, 2, 1, ⟨5, 6, 100, 100, 10⟩⟩])) := by
    decide +kernel
  obtain ⟨out, hout, hspec⟩ :=
    buildSegpath_forwards_iff shortcut ⟨50, 0⟩ 1 2 hg hpos hover (by decide) (by decide)
  obtain ⟨path, hselect, hiff⟩ := hspec _ _ (Except.ok.inj (hout.symm.trans hrun))
  obtain rfl : path = [3, 2] :=
    Option.some.inj (Except.ok.inj (hselect.symm.trans (by decide +kernel)))
  refine ⟨⟨hg, hpos, hover⟩, hrun, hiff.mpr fun u v huv => ?_⟩
  exact not_detour_of_shortest ((onlyShortest_shortcut [2, 3]).mpr rfl) huv

/-- Where a segment leads. -/
def Segment.target : Segment ε → NodeId
  | .node n => n
  | .adjacency e => e.remoteId

theorem insertWaypoint_target (t : NodeId) (res : List (Segment ε)) :
    (insertWaypoint t res).getLast?.map Segment.target = some t := by
  rcases insertWaypoint_eq t res with ⟨heq, e, he, hremote⟩ | heq
  · rw [heq, he]
    exact congrArg some hremote
  · rw [heq]
    simp [Segment.target]

/-- Without constraints the search is the one in the graph itself. -/
theorem constrained_unconstrained {g : Graph Link} (hg : Finalized g) {fl : Flow} (hbw : fl.bw = 0)
    (src dst : NodeId) : (flowPathspec fl src dst []).constrained g =
      { g with dcache := .empty, dirty := false, cloned := true } := by
  show graphFinalize (prePrune fl (graphClone g)) = _
  rw [prePrune, if_neg (by simp [hbw])]
  show (⟨g.nodes, g.edges, (graphFinalize g).minEdges, (graphFinalize g).neighs, .empty, false,
    true⟩ : Graph Link) = _
  rw [← hg.minEdges, ← hg.neighs]

theorem selectPath_unconstrained {g : Graph Link} (hg : Finalized g) (hpos : PositiveMetrics g)
    (hover : NoOverflow g) {fl : Flow} (hbw : fl.bw = 0) (hdelay : fl.delay = 0) {src dst : NodeId}
    (hsrc : src ∈ g.nodes) (hdst : dst ∈ g.nodes)
    (h : selectPath ((flowPathspec fl src dst []).constrained g) (flowPathspec fl src dst []).dOps
      src dst = .ok (some path)) : Shortest g.weight src dst path.reverse := by
  have hops : (flowPathspec fl src dst []).dOps = defaultOps := if_neg (by simp [hdelay])
  obtain ⟨res, hrun, hexact⟩ := graphDijkstra_exact hg hpos hover hsrc
  obtain ⟨paths, hget, -, hpaths⟩ := hexact.path dst hdst
  rw [constrained_unconstrained hg hbw, hops, selectPath, graphDijkstra_dcache, hrun] at h
  simp only [bind, Except.bind, hget, pure, Except.pure, Except.ok.injEq,
    Option.map_eq_some_iff] at h
  obtain ⟨r, hr, rfl⟩ := h
  rw [List.reverse_reverse]
  exact (hpaths r).mp (List.mem_of_head? hr)

/-- **Main theorem.** Without constraints, `build_segpath` selects a shortest path; every
forwarding of a packet with the segments it returns visits exactly that path, and the last
segment leads to the destination. -/
theorem buildSegpath_unconstrained (g : Graph Link) (fl : Flow) (src dst : NodeId)
    (hg : Finalized g) (hpos : PositiveMetrics g) (hover : NoOverflow g) (hsrc : src ∈ g.nodes)
    (hdst : dst ∈ g.nodes) (hbw : fl.bw = 0) (hdelay : fl.delay = 0) :
    ∃ out, buildSegpath g (flowPathspec fl src dst []) = .ok out ∧
      ∀ segs epath, out = some (segs, epath) → ∃ es, ShortestWalk g src es dst ∧
        selectPath ((flowPathspec fl src dst []).constrained g) (flowPathspec fl src dst []).dOps
          src dst = .ok (some (walkNodes es)) ∧
        ForwardsExactly g src segs (walkNodes es) dst ∧
        segs.getLast?.map Segment.target = some dst := by
  rcases buildSegpath_cases hg (isSubgraph_flow hg fl src dst []) rfl hdst with
    ⟨-, hnone⟩ | ⟨path, segs, es, hbuilt⟩
  · exact ⟨none, hnone, by simp⟩
  refine ⟨_, hbuilt.result, fun segs' epath heq => ?_⟩
  obtain ⟨rfl, rfl⟩ := Prod.mk.inj (Option.some.inj heq)
  have hshort := selectPath_unconstrained hg hpos hover hbw hdelay hsrc hdst hbuilt.select
  obtain ⟨ws, hwalk, hws⟩ := (hg.shortestWalk_iff hpos).mpr hshort
  obtain rfl : walkNodes ws = path := List.reverse_injective hws
  refine ⟨ws, hwalk, hbuilt.select, ?_, insertWaypoint_target _ _⟩
  refine (hbuilt.forwardsExactly_iff hg hpos hover hsrc).mpr fun u v huv => ?_
  rw [← List.reverse_reverse (walkNodes ws)] at huv
  exact not_detour_of_shortest hshort huv

/-- Four routers with two shortest paths from 1 to 4. -/
def diamond : Graph Link := graphOf [1, 2, 3, 4]
  [⟨1, 1, 2, 1, ⟨1, 2, 100, 100, 1⟩⟩, ⟨2, 1, 3, 1, ⟨3, 4, 100, 100, 1⟩⟩,
    ⟨3, 2, 4, 1, ⟨5, 6, 100, 100, 1⟩⟩, ⟨4, 3, 4, 1, ⟨7, 8, 100, 100, 1⟩⟩]

theorem finalized_diamond : Finalized diamond := finalized_graphOf (by decide) (by decide)

/-- Segments from 1 to 4 and from 1 to itself. -/
theorem buildSegpath_unconstrained_diamond :
    buildSegpath diamond (flowPathspec ⟨0, 0⟩ 1 4 []) = .ok (some ([.node 2, .node 4],
        some [⟨1, 1, 2, 1, ⟨1, 2, 100, 100, 1⟩⟩, ⟨3, 2, 4, 1, ⟨5, 6, 100, 100, 1⟩⟩])) ∧
      (∃ es, ShortestWalk diamond 1 es 4 ∧
        ForwardsExactly diamond 1 [.node 2, .node 4] (walkNodes es) 4) ∧
      buildSegpath diamond (flowPathspec ⟨0, 0⟩ 1 1 []) = .ok (some ([.node 1], some [])) ∧
      ∃ es, ShortestWalk diamond 1 es 1 ∧ ForwardsExactly diamond 1 [.node 1] (walkNodes es) 1 := by
  have hg := finalized_diamond
  have hpos : PositiveMetrics diamond := by
    intro e he
    revert e
    decide
  have hover : NoOverflow diamond := noOverflow_of_le hg (b := 1) (by decide) (by decide)
  have hrun : buildSegpath diamond (flowPathspec ⟨0, 0⟩ 1 4 []) = .ok (some ([.node 2, .node 4],
      some [⟨1, 1, 2, 1, ⟨1, 2, 100, 100, 1⟩⟩, ⟨3, 2, 4, 1, ⟨5, 6, 100, 100, 1⟩⟩])) := by
    decide +kernel
  have hself : buildSegpath diamond (flowPathspec ⟨0, 0⟩ 1 1 []) =
      .ok (some ([.node 1], some [])) := by decide +kernel
  obtain ⟨out, hout, hspec⟩ :=
    buildSegpath_unconstrained diamond ⟨0, 0⟩ 1 4 hg hpos hover (by decide) (by decide) rfl rfl
  obtain ⟨es, hshort, -, hexact, -⟩ := hspec _ _ (Except.ok.inj (hout.symm.trans hrun))
  obtain ⟨out', hout', hspec'⟩ :=
    buildSegpath_unconstrained diamond ⟨0, 0⟩ 1 1 hg hpos hover (by decide) (by decide) rfl rfl
  obtain ⟨es', hshort', -, hexact', -⟩ := hspec' _ _ (Except.ok.inj (hout'.symm.trans hself))
  exact ⟨hrun, ⟨es, hshort, hexact⟩, hself, es', hshort', hexact'⟩

end Srn
