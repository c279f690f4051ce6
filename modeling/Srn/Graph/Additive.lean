import Mathlib.Algebra.GroupWithZero.Nat
import Mathlib.Algebra.Order.BigOperators.Group.List
import Mathlib.Algebra.Order.Group.Nat
import Mathlib.Data.List.Perm.Subperm
import Srn.Graph.Search

/-!
# Srn.Graph.Additive

`graph_dijkstra` with callbacks that add up a cost of the edges, such as the metric or the delay
of a link.  As long as the cost of a simple route stays below `UINT32_MAX`, every recorded path
has the least cost, and a node without a path is out of reach.  Costs may be zero, so the
predecessors of a node need not be closer to the source than the node itself.
-/

namespace Srn

open Route

variable {ε σ : Type} {g : Graph ε} {ops : DOps ε σ} {cost : Edge ε → UInt32}
  {src u v : NodeId} {order : List NodeId} {st st' : DState σ} {d : UInt32} {ps : List NodeId}

/-- The callbacks add the cost of the edge. -/
def DOps.Adds (ops : DOps ε σ) (cost : Edge ε → UInt32) : Prop :=
  ∀ curCost edge x, ops.cost curCost edge x = curCost + cost edge

/-- The cost of a hop: that of its minimal edge. -/
def Graph.hopCost (g : Graph ε) (cost : Edge ε → UInt32) (u v : NodeId) : Option ℕ :=
  (g.minEdges.get (u, v)).map fun e => (cost e).toNat

/-- The cost of a simple route stays below `UINT32_MAX`. -/
def CostsFit (g : Graph ε) (cost : Edge ε → UInt32) : Prop :=
  ∀ u v r c, IsRoute (g.hopCost cost) u v r c → (u :: r).Nodup → c < uint32Max.toNat

/-- The cost of a simple route fits in 32 bits. -/
def CostsNoWrap (g : Graph ε) (cost : Edge ε → UInt32) : Prop :=
  ∀ u v r c, IsRoute (g.hopCost cost) u v r c → (u :: r).Nodup → c < UInt32.size

theorem CostsFit.noWrap (h : CostsFit g cost) : CostsNoWrap g cost :=
  fun u v r c hroute hsimple => Nat.lt_succ_of_lt (h u v r c hroute hsimple)

/-- Costs bounded by `UINT32_MAX` over the number of nodes. -/
theorem costsFit_of_le (hg : Finalized g) {b : ℕ} (hb : ∀ e ∈ g.edges, (cost e).toNat ≤ b)
    (hlt : g.nodes.length * b < uint32Max.toNat) : CostsFit g cost := by
  have hroute : ∀ {u v r c}, IsRoute (g.hopCost cost) u v r c →
      r ⊆ g.nodes ∧ c ≤ r.length * b := by
    intro u v r c h
    induction h with
    | refl => simp
    | snoc _ hm ih =>
      obtain ⟨e, he, rfl⟩ := Option.map_eq_some_iff.mp hm
      have hlink := (hg.minEdges_get_eq_some_iff.mp he).2.isLink
      have hle := hb e hlink.mem
      refine ⟨List.cons_subset.mpr ⟨(hlink.ends hg).2, ih.1⟩, ?_⟩
      rw [List.length_cons, Nat.succ_mul]
      exact Nat.add_le_add ih.2 hle
  intro u v r c h hsimple
  obtain ⟨hsub, hc⟩ := hroute h
  have hlen := (List.subperm_of_subset (List.nodup_cons.mp hsimple).2 hsub).length_le
  exact Nat.lt_of_le_of_lt (Nat.le_trans hc (Nat.mul_le_mul_right b hlen)) hlt

/-- A simple route takes no edge twice, so it costs at most as much as all edges together. -/
theorem costsNoWrap_of_sum (hg : Finalized g)
    (hsum : (g.edges.map fun e => (cost e).toNat).sum < UInt32.size) : CostsNoWrap g cost := by
  have hroute : ∀ {u v r c}, IsRoute (g.hopCost cost) u v r c →
      ∃ es, es ⊆ g.edges ∧ es.map Edge.remoteId = r ∧ (es.map fun e => (cost e).toNat).sum = c := by
    intro u v r c h
    induction h with
    | refl => exact ⟨[], by simp, rfl, rfl⟩
    | snoc _ hm ih =>
      obtain ⟨es, hsub, hmap, hcost⟩ := ih
      obtain ⟨e, he, rfl⟩ := Option.map_eq_some_iff.mp hm
      have hlink := (hg.minEdges_get_eq_some_iff.mp he).2.isLink
      refine ⟨e :: es, List.cons_subset.mpr ⟨hlink.mem, hsub⟩, ?_, ?_⟩
      · rw [List.map_cons, hmap, hlink.remoteId]
      · rw [List.map_cons, List.sum_cons, hcost, Nat.add_comm]
  intro u v r c h hsimple
  obtain ⟨es, hsub, hmap, rfl⟩ := hroute h
  have hnodup : es.Nodup := List.Nodup.of_map _ (hmap ▸ (List.nodup_cons.mp hsimple).2)
  obtain ⟨es', hperm, hsublist⟩ := List.subperm_of_subset hnodup hsub
  rw [← (hperm.map _).sum_nat]
  exact Nat.lt_of_le_of_lt ((hsublist.map _).sum_le_sum fun _ _ => Nat.zero_le _) hsum

/-! ## The invariant of the costs -/

/-- A taken node at the distance `d`, with a simple route of that cost over taken nodes. -/
structure Reached (g : Graph ε) (cost : Edge ε → UInt32) (src : NodeId) (order : List NodeId)
    (u : NodeId) (d : ℕ) : Prop where
  dist : IsDist (g.hopCost cost) src u d
  route : ∃ r, IsRoute (g.hopCost cost) src u r d ∧ (src :: r).Nodup ∧ r ⊆ order

/-- The tables when the nodes `order` have been taken: these are at their distances, and every
distance is the least offer so far, made by each node of the `prev` list. -/
structure CostInv (g : Graph ε) (cost : Edge ε → UInt32) (src : NodeId) (order : List NodeId)
    (st : DState σ) : Prop where
  settled : order ≠ [] → Settled (g.hopCost cost) src (· ∈ order)
  reached : ∀ u ∈ order, ∀ d ps, Label st u d ps → Reached g cost src order u d.toNat
  attained : ∀ v ∈ g.nodes, ∀ d ps, Label st v d ps → ∀ p ∈ ps,
    Offer (g.hopCost cost) src p v d.toNat
  lower : ∀ v ∈ st.queue, ∀ d ps, Label st v d ps → ∀ u ∈ order, ∀ n,
    Offer (g.hopCost cost) src u v n → d.toNat ≤ n

theorem Reached.mono {n : ℕ} (h : Reached g cost src order u n) (x : NodeId) :
    Reached g cost src (x :: order) u n := by
  obtain ⟨hdist, r, hroute, hsimple, hsub⟩ := h
  exact ⟨hdist, r, hroute, hsimple, fun y hy => List.mem_cons_of_mem _ (hsub hy)⟩

/-- The route to a taken node, extended by a node that is not taken. -/
theorem Reached.snoc {n n' : ℕ} (h : Reached g cost src order u n)
    (hoffer : Offer (g.hopCost cost) src u v n') (hsrc : src ∈ order) (hv : v ∉ order) :
    ∃ r, IsRoute (g.hopCost cost) src v r n' ∧ (src :: r).Nodup ∧ r ⊆ v :: order := by
  obtain ⟨hdist, r, hroute, hsimple, hsub⟩ := h
  obtain ⟨hnot, hnodup⟩ := List.nodup_cons.mp hsimple
  have hne : src ≠ v := fun heq => hv (heq ▸ hsrc)
  refine ⟨v :: r, hoffer.isRoute hdist hroute, ?_, List.cons_subset_cons v hsub⟩
  exact List.nodup_cons.mpr ⟨List.not_mem_cons_of_ne_of_not_mem hne hnot,
    List.nodup_cons.mpr ⟨fun hmem => hv (hsub hmem), hnodup⟩⟩

/-- A node outside the taken ones that has a link from a node is in the queue. -/
theorem mem_queue_of_hopCost (hg : Finalized g) (hs : SearchInv g src order st) {m : ℕ}
    (hm : g.hopCost cost u v = some m) (hv : v ∉ order) : v ∈ st.queue := by
  obtain ⟨e, he, -⟩ := Option.map_eq_some_iff.mp hm
  have hnodes := ((hg.minEdges_get_eq_some_iff.mp he).2.isLink.ends hg).2
  exact (List.mem_append.mp (hs.perm.symm.subset hnodes)).resolve_left hv

namespace CostInv

/-- **The least node of the queue is settled.** -/
theorem settle (hg : Finalized g) (hs : SearchInv g src order st) (h : CostInv g cost src order st)
    (hleast : leastNode st.dist st.queue = some u) (hl : Label st u d ps) :
    Reached g cost src (u :: order) u d.toNat ∧
      Settled (g.hopCost cost) src (· ∈ u :: order) := by
  have hfirst := leastNode_eq_some_iff.mp hleast
  have hu := hfirst.mem
  obtain ⟨⟨ps', hget, -, hsrc, hps⟩, -⟩ := hs.layered_cons hu hfirst.lt_bound
  obtain rfl : ps' = ps := Option.some.inj (hget.symm.trans hl.2)
  cases ps' with
  | nil =>
    obtain ⟨rfl, rfl⟩ := hsrc rfl
    have hzero := (hl.unique (hs.start rfl u (hs.mem_nodes hu))).1
    rw [if_pos rfl] at hzero
    subst hzero
    exact ⟨⟨isDist_self, [], .refl, by simp, by simp⟩, by simpa using settled_source⟩
  | cons p ps =>
    have hp := (hps p List.mem_cons_self).1
    have hoffer := h.attained u (hs.mem_nodes hu) d _ hl p List.mem_cons_self
    have hnotin := hs.not_mem_order hg hu
    have hsettled := h.settled (List.ne_nil_of_mem hp)
    -- no offer out of the taken nodes is below the least distance of the queue
    have hmin : ∀ u' d' y m', u' ∈ order → IsDist (g.hopCost cost) src u' d' → y ∉ order →
        g.hopCost cost u' y = some m' → d.toNat ≤ d' + m' := by
      intro u' d' y m' hu' hd' hy hm'
      have hyq := mem_queue_of_hopCost hg hs hm' hy
      obtain ⟨dy, py, hly⟩ := hs.label y (hs.mem_nodes hyq)
      have hle := h.lower y hyq dy py hly u' hu' _ ⟨d', m', hd', hm', rfl⟩
      exact Nat.le_trans (hl.le_of_leastNode hleast hyq hly) hle
    obtain ⟨dp, psp, hlp⟩ := hs.label p (hs.perm.subset (List.mem_append_left _ hp))
    have hroute := (h.reached p hp dp psp hlp).snoc hoffer hsettled.source hnotin
    obtain ⟨c, m, hc, hm, hcm⟩ := hoffer
    rw [← hcm] at hmin hroute ⊢
    obtain ⟨hdu, hsettled'⟩ := hsettled.settle hnotin hc hm hmin
    exact ⟨⟨hdu, hroute⟩, by simpa using hsettled'⟩

/-- An offer to a node that is not taken does not overflow. -/
theorem offer_lt (hfit : CostsFit g cost) {n n' : ℕ} (hu : Reached g cost src order u n)
    (hoffer : Offer (g.hopCost cost) src u v n') (hsrc : src ∈ order) (hv : v ∉ order) :
    n' < uint32Max.toNat := by
  obtain ⟨r, hroute, hsimple, -⟩ := hu.snoc hoffer hsrc hv
  exact hfit src v r n' hroute hsimple

/-- A new offer leaves the distance the least one, made by every node of the list. -/
theorem offer_relaxed {alt : UInt32} (hattained : ∀ p ∈ ps, Offer (g.hopCost cost) src p v d.toNat)
    (hlower : ∀ x ∈ order, ∀ n, Offer (g.hopCost cost) src x v n → d.toNat ≤ n)
    (hoffer : Offer (g.hopCost cost) src u v alt.toNat) :
    (∀ p ∈ (relaxed u alt d ps).2,
        Offer (g.hopCost cost) src p v (relaxed u alt d ps).1.toNat) ∧
      ∀ x ∈ u :: order, ∀ n, Offer (g.hopCost cost) src x v n →
        (relaxed u alt d ps).1.toNat ≤ n := by
  have hle : ∀ d' : UInt32, d'.toNat ≤ alt.toNat → d'.toNat ≤ d.toNat →
      ∀ x ∈ u :: order, ∀ n, Offer (g.hopCost cost) src x v n → d'.toNat ≤ n := by
    intro d' halt hd x hx n hn
    obtain rfl | hx := List.mem_cons.mp hx
    · exact hn.unique hoffer ▸ halt
    · exact Nat.le_trans hd (hlower x hx n hn)
  unfold relaxed
  split_ifs with hlt heq
  · rw [UInt32.lt_iff_toNat_lt] at hlt
    exact ⟨by simpa using hoffer, hle alt (Nat.le_refl _) (Nat.le_of_lt hlt)⟩
  · subst heq
    refine ⟨fun p hp => ?_, hle alt (Nat.le_refl _) (Nat.le_refl _)⟩
    obtain hp | hp := List.mem_append.mp hp
    · exact hattained p hp
    · exact List.mem_singleton.mp hp ▸ hoffer
  · rw [UInt32.lt_iff_toNat_lt] at hlt
    exact ⟨hattained, hle d (Nat.not_lt.mp hlt) (Nat.le_refl _)⟩

/-- What a round does to the label of a node that stays in the queue. -/
theorem label_pop (hadds : ops.Adds cost) (hfit : CostsNoWrap g cost)
    (hs : SearchInv g src order st) (h : CostInv g cost src order st) {du : UInt32}
    {pu : List NodeId} (hlu : Label st u du pu)
    (hreached : Reached g cost src (u :: order) u du.toNat) (hsrc : src ∈ u :: order)
    {paths : List (List NodeId)} (hpop : Popped g ops u paths st st') (hv : v ∈ st.queue.erase u)
    (hvo : v ∉ u :: order) (hl : Label st' v d ps) :
    (∀ p ∈ ps, Offer (g.hopCost cost) src p v d.toNat) ∧
      ∀ x ∈ u :: order, ∀ n, Offer (g.hopCost cost) src x v n → d.toNat ≤ n := by
  have hq := List.mem_of_mem_erase hv
  obtain ⟨d₀, ps₀, hl₀⟩ := hs.label v (hs.mem_nodes hq)
  have hattained := h.attained v (hs.mem_nodes hq) d₀ ps₀ hl₀
  have hlower := h.lower v hq d₀ ps₀ hl₀
  cases he : g.minEdges.get (u, v) with
  | none =>
    obtain ⟨rfl, rfl⟩ := hl.unique ((hpop.same v (.inr he)).label_iff.mpr hl₀)
    refine ⟨hattained, fun x hx n hn => ?_⟩
    obtain rfl | hx := List.mem_cons.mp hx
    · obtain ⟨c, m, -, hm, -⟩ := hn
      simp [Graph.hopCost, he] at hm
    · exact hlower x hx n hn
  | some e =>
    obtain ⟨x, hx⟩ := hpop.offer v hv e d₀ ps₀ he hl₀
    obtain ⟨rfl, rfl⟩ := hl.unique hx
    have hoffer : Offer (g.hopCost cost) src u v (du.toNat + (cost e).toNat) :=
      ⟨_, _, hreached.dist, by simp [Graph.hopCost, he], rfl⟩
    obtain ⟨r, hroute, hsimple, -⟩ := hreached.snoc hoffer hsrc hvo
    refine offer_relaxed hattained hlower ?_
    rwa [hadds, hlu.distOf, UInt32.toNat_add, Nat.mod_eq_of_lt (hfit src v r _ hroute hsimple)]

/-- **Step lemma** of the costs. -/
theorem pop (hg : Finalized g) (hadds : ops.Adds cost) (hfit : CostsNoWrap g cost)
    (hs : SearchInv g src order st) (h : CostInv g cost src order st)
    (hleast : leastNode st.dist st.queue = some u) (hs' : SearchInv g src (u :: order) st')
    {paths : List (List NodeId)} (hpop : Popped g ops u paths st st') :
    CostInv g cost src (u :: order) st' := by
  have hu := (leastNode_eq_some_iff.mp hleast).mem
  obtain ⟨du, pu, hlu⟩ := hs.label u (hs.mem_nodes hu)
  obtain ⟨hreached, hsettled⟩ := h.settle hg hs hleast hlu
  have hnew : ∀ v ∈ st.queue.erase u, ∀ d ps, Label st' v d ps →
      (∀ p ∈ ps, Offer (g.hopCost cost) src p v d.toNat) ∧
        ∀ x ∈ u :: order, ∀ n, Offer (g.hopCost cost) src x v n → d.toNat ≤ n := by
    intro v hv d ps hl
    exact h.label_pop hadds hfit hs hlu hreached hsettled.source hpop hv (hs.not_mem_cons hg hv) hl
  refine ⟨fun _ => hsettled, fun x hx d ps hl => ?_, fun v hv d ps hl => ?_, fun v hv d ps hl => ?_⟩
  · rw [(hs.prev_same hg hpop hx).label_iff] at hl
    obtain rfl | hx := List.mem_cons.mp hx
    · obtain ⟨rfl, rfl⟩ := hl.unique hlu
      exact hreached
    · exact (h.reached x hx d ps hl).mono u
  · by_cases hq : v ∈ st.queue.erase u
    · exact (hnew v hq d ps hl).1
    · rw [(hpop.same v (.inl hq)).label_iff] at hl
      exact h.attained v hv d ps hl
  · rw [hpop.queue] at hv
    exact (hnew v hv d ps hl).2

/-- Before the loop no offer was made. -/
theorem init (g : Graph ε) (cost : Edge ε → UInt32) (src : NodeId) (ops : DOps ε σ) :
    CostInv g cost src [] (dijkstraInit g src ops) := by
  refine ⟨fun h => absurd rfl h, by simp, fun v hv d ps hl => ?_, by simp⟩
  obtain ⟨-, rfl⟩ := hl.unique ((SearchInv.init g src ops).start rfl v hv)
  simp

/-- Nodes left in the queue are out of reach. -/
theorem unreachable (hg : Finalized g) (hfit : CostsFit g cost) (hs : SearchInv g src order st)
    (h : CostInv g cost src order st) (hne : order ≠ [])
    (hend : leastNode st.dist st.queue = none) (hv : v ∈ st.queue) {r : List NodeId} {c : ℕ} :
    ¬ IsRoute (g.hopCost cost) src v r c := by
  have hsettled := h.settled hne
  have hvo := hs.not_mem_order hg hv
  refine hsettled.not_isRoute (fun u y m hu hy hm => ?_) hvo
  have hyq := mem_queue_of_hopCost hg hs hm hy
  obtain ⟨d, ps, hl⟩ := hs.label y (hs.mem_nodes hyq)
  have hmax : d = uint32Max := by
    have hnot := leastNode_eq_none_iff.mp hend y hyq
    rwa [hl.distOf, lt_uint32Max_iff, not_not] at hnot
  obtain ⟨du, pu, hlu⟩ := hs.label u (hs.perm.subset (List.mem_append_left _ hu))
  have hreached := h.reached u hu du pu hlu
  have hoffer : Offer (g.hopCost cost) src u y (du.toNat + m) := ⟨_, m, hreached.dist, hm, rfl⟩
  have hlower := h.lower y hyq d ps hl u hu _ hoffer
  have hlt := offer_lt hfit hreached hoffer hsettled.source hy
  rw [hmax] at hlower
  exact Nat.not_lt.mpr hlower hlt

/-- The chains of the `prev` table have the least cost. -/
theorem shortest_of_chain (hs : SearchInv g src order st) (h : CostInv g cost src order st)
    {r : List NodeId} (hc : Chain st.prev v r) (hv : v ∈ order) :
    Shortest (g.hopCost cost) src v r := by
  induction hc with
  | nil hget =>
    obtain ⟨ps, hget', -, hsrc, -⟩ := hs.layered.of_mem hv
    rw [shortest_nil_iff]
    exact hsrc (Option.some.inj (hget'.symm.trans hget))
  | @cons v p ps r hget hp _ ih =>
    obtain ⟨ps', hget', -, -, hps⟩ := hs.layered.of_mem hv
    obtain rfl := Option.some.inj (hget'.symm.trans hget)
    have hnodes := hs.perm.subset (List.mem_append_left _ hv)
    obtain ⟨d, ps'', hl⟩ := hs.label v hnodes
    obtain rfl := Option.some.inj (hl.2.symm.trans hget)
    obtain ⟨c, hroute, hdist⟩ := ih (hps p hp).1
    exact ⟨_, (h.attained v hnodes d _ hl p hp).isRoute hdist hroute,
      (h.reached v hv d _ hl).dist⟩

end CostInv

/-- Every taken node has a chain. -/
theorem Layered.exists_chain {prev : Table NodeId (List NodeId)} (h : Layered g src prev order)
    (hv : v ∈ order) : ∃ r, Chain prev v r := by
  induction order generalizing v with
  | nil => simp at hv
  | cons x before ih =>
    obtain ⟨⟨ps, hget, -, -, hps⟩, hbefore⟩ := h
    obtain rfl | hv := List.mem_cons.mp hv
    · cases ps with
      | nil => exact ⟨[], .nil hget⟩
      | cons p ps =>
        obtain ⟨r, hr⟩ := ih hbefore (hps p List.mem_cons_self).1
        exact ⟨v :: r, .cons hget List.mem_cons_self hr⟩
    · exact ih hbefore hv

/-- The invariants hold when the search ends. -/
theorem exists_costInv (hg : Finalized g) (hadds : ops.Adds cost) (hfit : CostsNoWrap g cost)
    (src : NodeId) :
    ∃ order st, dijkstraLoop g ops (g.nodes.length + 1) (dijkstraInit g src ops) = .ok st ∧
      SearchInv g src order st ∧ CostInv g cost src order st ∧
      leastNode st.dist st.queue = none :=
  SearchInv.loop hg (CostInv g cost src)
    (fun _ _ _ _ _ hs h hleast hs' _ hpop => h.pop hg hadds hfit hs hleast hs' hpop)
    (g.nodes.length + 1) (SearchInv.init g src ops) (CostInv.init g cost src ops)
    (Nat.lt_succ_self _)

/-- The paths that a search has recorded have the least cost. -/
theorem CostInv.paths (hs : SearchInv g src order st) (h : CostInv g cost src order st)
    (hv : v ∈ g.nodes) : ∃ paths, st.path.get v = some paths ∧
      ∀ r ∈ paths, Shortest (g.hopCost cost) src v r := by
  obtain hv | hv := List.mem_append.mp (hs.perm.symm.subset hv)
  · obtain ⟨paths, hget, -, hmem⟩ := hs.pathOrder v hv
    exact ⟨paths, hget, fun r hr => h.shortest_of_chain hs ((hmem r).mp hr) hv⟩
  · exact ⟨[], hs.pathQueue v hv, by simp⟩

/-- **Recorded paths.** Whenever the sums of a cost fit in 32 bits, `graph_dijkstra` records
paths of least cost alone. -/
theorem graphDijkstra_shortest (hg : Finalized g) (hadds : ops.Adds cost)
    (hfit : CostsNoWrap g cost) (src : NodeId) :
    ∃ res, graphDijkstra g src ops = .ok res ∧ ∀ v ∈ g.nodes, ∃ paths,
      res.path.get v = some paths ∧ ∀ r ∈ paths, Shortest (g.hopCost cost) src v r := by
  obtain ⟨order, st, hloop, hs, h, -⟩ := exists_costInv hg hadds hfit src
  exact ⟨_, by rw [graphDijkstra, hloop]; rfl, fun v hv => h.paths hs hv⟩

/-- **Least costs.** With callbacks that add up a cost, `graph_dijkstra` records paths of least
cost alone, and no path only to a node that is out of reach. -/
theorem graphDijkstra_least (hg : Finalized g) (hadds : ops.Adds cost) (hfit : CostsFit g cost)
    (hsrc : src ∈ g.nodes) :
    ∃ res, graphDijkstra g src ops = .ok res ∧ ∀ v ∈ g.nodes, ∃ paths,
      res.path.get v = some paths ∧ (∀ r ∈ paths, Shortest (g.hopCost cost) src v r) ∧
      (paths = [] → ∀ r c, ¬ IsRoute (g.hopCost cost) src v r c) := by
  obtain ⟨order, st, hloop, hs, h, hend⟩ := exists_costInv hg hadds hfit.noWrap src
  have hne := hs.order_ne_nil hsrc hend
  refine ⟨_, by rw [graphDijkstra, hloop]; rfl, fun v hv => ?_⟩
  obtain ⟨paths, hget, hshort⟩ := h.paths hs hv
  refine ⟨paths, hget, hshort, fun hnil => ?_⟩
  obtain hv | hv := List.mem_append.mp (hs.perm.symm.subset hv)
  · -- a taken node has a chain, so its paths are not empty
    obtain ⟨paths', hget', -, hmem⟩ := hs.pathOrder v hv
    obtain rfl := Option.some.inj (hget.symm.trans hget')
    obtain ⟨r, hr⟩ := hs.layered.exists_chain hv
    simpa [hnil] using (hmem r).mpr hr
  · exact fun _ _ => h.unreachable hg hfit hs hne hend hv

end Srn
