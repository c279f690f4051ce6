import Mathlib.Algebra.GroupWithZero.Nat
import Mathlib.Data.List.Perm.Subperm
import Srn.Graph.Additive

/-!
# Srn.Graph.Shortest

`graph_dijkstra` without callbacks, on a graph with positive metrics in which the cost of a
simple path stays below `UINT32_MAX`: the recorded distances are the distances of the graph,
the `prev` lists are the predecessors on shortest paths, and the recorded paths are all the
shortest paths.
-/

namespace Srn

open Route

variable {ε σ : Type} {g : Graph ε}

/-! ## Walks along the edges -/

/-- A walk along links of the graph, in travel order. -/
inductive EdgeWalk (g : Graph ε) (u : NodeId) : List (Edge ε) → NodeId → Prop
  | nil : EdgeWalk g u [] u
  | snoc {es x v e} : EdgeWalk g u es x → IsLink g x v e → EdgeWalk g u (es ++ [e]) v

/-- The total metric of a walk. -/
def walkCost (es : List (Edge ε)) : ℕ := (es.map fun e => e.metric.toNat).sum

/-- The nodes a walk visits after its start. -/
def walkNodes (es : List (Edge ε)) : List NodeId := es.map Edge.remoteId

/-- `c` is the least total metric of a walk. -/
def IsWalkDist (g : Graph ε) (u v : NodeId) (c : ℕ) : Prop :=
  (∃ es, EdgeWalk g u es v ∧ walkCost es = c) ∧ ∀ es, EdgeWalk g u es v → c ≤ walkCost es

/-- A walk of least total metric. -/
def ShortestWalk (g : Graph ε) (u : NodeId) (es : List (Edge ε)) (v : NodeId) : Prop :=
  EdgeWalk g u es v ∧ ∀ es', EdgeWalk g u es' v → walkCost es ≤ walkCost es'

/-- All metrics are at least one. -/
def PositiveMetrics (g : Graph ε) : Prop := ∀ e ∈ g.edges, 1 ≤ e.metric

/-- The cost of a simple path stays below `UINT32_MAX`. -/
def NoOverflow (g : Graph ε) : Prop :=
  ∀ u es v, EdgeWalk g u es v → (u :: walkNodes es).Nodup → walkCost es < uint32Max.toNat

@[simp] theorem walkCost_nil : walkCost ([] : List (Edge ε)) = 0 := rfl

@[simp] theorem walkCost_snoc (es : List (Edge ε)) (e : Edge ε) :
    walkCost (es ++ [e]) = walkCost es + e.metric.toNat := by
  simp [walkCost]

@[simp] theorem walkNodes_snoc (es : List (Edge ε)) (e : Edge ε) :
    walkNodes (es ++ [e]) = walkNodes es ++ [e.remoteId] := by
  simp [walkNodes]

variable {u v : NodeId} {r : List NodeId} {c m : ℕ} {es : List (Edge ε)}

/-- A walk ends in the last node it visits. -/
theorem EdgeWalk.end_eq (h : EdgeWalk g u es v) : ∃ p, u :: walkNodes es = p ++ [v] := by
  cases h with
  | nil => exact ⟨[], rfl⟩
  | @snoc es x v e _ he =>
    exact ⟨u :: walkNodes es, by rw [walkNodes_snoc, he.remoteId, List.cons_append]⟩

/-- The hops of a finalized graph. -/
theorem Finalized.weight_eq_some_iff (hg : Finalized g) :
    g.weight u v = some m ↔ u ≠ v ∧ ∃ e, IsMinEdge g u v e ∧ e.metric.toNat = m := by
  simp only [Graph.weight, Option.map_eq_some_iff, hg.minEdges_get_eq_some_iff, and_assoc,
    exists_and_left]

/-- Metrics of links are positive weights. -/
theorem Finalized.positive (hg : Finalized g) (hpos : PositiveMetrics g) : Positive g.weight := by
  intro u v m hm
  obtain ⟨-, e, he, rfl⟩ := hg.weight_eq_some_iff.mp hm
  exact UInt32.le_iff_toNat_le.mp (hpos e he.isLink.mem)

/-- A route is the walk along minimal edges, for any cost. -/
theorem Finalized.walk_of_hops (hg : Finalized g) {cost : Edge ε → UInt32}
    (h : IsRoute (g.hopCost cost) u v r c) :
    ∃ es, EdgeWalk g u es v ∧ (es.map fun e => (cost e).toNat).sum = c ∧
      (walkNodes es).reverse = r ∧
      ∀ e ∈ es, g.minEdges.get (e.localId, e.remoteId) = some e := by
  induction h with
  | refl => exact ⟨[], .nil, rfl, rfl, by simp⟩
  | snoc _ hw ih =>
    obtain ⟨es, hwalk, rfl, rfl, hmin⟩ := ih
    obtain ⟨e, he, rfl⟩ := Option.map_eq_some_iff.mp hw
    obtain ⟨-, hfirst⟩ := hg.minEdges_get_eq_some_iff.mp he
    have hlink := hfirst.isLink
    refine ⟨es ++ [e], hwalk.snoc hlink, by simp, by simp [hlink.remoteId], fun f hf => ?_⟩
    obtain hf | hf := List.mem_append.mp hf
    · exact hmin f hf
    · rw [List.mem_singleton.mp hf, hlink.localId, hlink.remoteId, he]

theorem Finalized.walk_of_route (hg : Finalized g) (h : IsRoute g.weight u v r c) :
    ∃ es, EdgeWalk g u es v ∧ walkCost es = c ∧ (walkNodes es).reverse = r := by
  have hroute : IsRoute (g.hopCost Edge.metric) u v r c := h
  obtain ⟨es, hwalk, hcost, hnodes, -⟩ := hg.walk_of_hops hroute
  exact ⟨es, hwalk, hcost, hnodes⟩

/-- Where there is a walk there is a route. -/
theorem Finalized.exists_isRoute (hg : Finalized g) (h : EdgeWalk g u es v) :
    ∃ r c, IsRoute g.weight u v r c := by
  induction h with
  | nil => exact ⟨[], 0, .refl⟩
  | @snoc es x v e _ he ih =>
    obtain ⟨r, c, hroute⟩ := ih
    by_cases hxv : x = v
    · -- a link back to its own node is no hop
      exact ⟨r, c, hxv ▸ hroute⟩
    · obtain ⟨f, hf⟩ := he.exists_isMinEdge
      exact ⟨_, _, hroute.snoc (hg.weight_eq_some_iff.mpr ⟨hxv, f, hf, rfl⟩)⟩

/-- A walk is a route, or there is a cheaper one. -/
theorem Finalized.route_of_walk (hg : Finalized g) (hpos : PositiveMetrics g)
    (h : EdgeWalk g u es v) : IsRoute g.weight u v (walkNodes es).reverse (walkCost es) ∨
      ∃ r c, IsRoute g.weight u v r c ∧ c < walkCost es := by
  induction h with
  | nil => exact .inl .refl
  | @snoc es x v e hwalk he ih =>
    have hmetric : 1 ≤ e.metric.toNat := UInt32.le_iff_toNat_le.mp (hpos e he.mem)
    rw [walkCost_snoc, walkNodes_snoc, List.reverse_append, he.remoteId]
    by_cases hxv : x = v
    · subst hxv
      rcases ih with hroute | ⟨r, c, hroute, hlt⟩
      · exact .inr ⟨_, _, hroute, by omega⟩
      · exact .inr ⟨r, c, hroute, by omega⟩
    · obtain ⟨f, hf⟩ := he.exists_isMinEdge
      have hle := hf.le he
      have hw : g.weight x v = some f.metric.toNat :=
        hg.weight_eq_some_iff.mpr ⟨hxv, f, hf, rfl⟩
      rcases ih with hroute | ⟨r, c, hroute, hlt⟩
      · rcases Nat.lt_or_eq_of_le hle with hlt | heq
        · exact .inr ⟨_, _, hroute.snoc hw, by omega⟩
        · exact .inl (heq ▸ hroute.snoc hw)
      · exact .inr ⟨_, _, hroute.snoc hw, by omega⟩

/-- Distances along edges are distances along hops. -/
theorem Finalized.isWalkDist_iff (hg : Finalized g) (hpos : PositiveMetrics g) :
    IsWalkDist g u v c ↔ IsDist g.weight u v c := by
  have hle : ∀ es, EdgeWalk g u es v → ∃ r c, IsRoute g.weight u v r c ∧ c ≤ walkCost es := by
    intro es hwalk
    rcases hg.route_of_walk hpos hwalk with h | ⟨r, c, h, hlt⟩
    · exact ⟨_, _, h, Nat.le_refl _⟩
    · exact ⟨r, c, h, Nat.le_of_lt hlt⟩
  constructor
  · rintro ⟨⟨es, hwalk, rfl⟩, hmin⟩
    have hmin' : ∀ r c, IsRoute g.weight u v r c → walkCost es ≤ c := by
      intro r c h
      obtain ⟨es', hwalk', rfl, -⟩ := hg.walk_of_route h
      exact hmin es' hwalk'
    obtain ⟨r, c, h, hc⟩ := hle es hwalk
    rw [Nat.le_antisymm hc (hmin' r c h)] at h
    exact ⟨⟨r, h⟩, hmin'⟩
  · rintro ⟨⟨r, h⟩, hmin⟩
    obtain ⟨es, hwalk, rfl, -⟩ := hg.walk_of_route h
    refine ⟨⟨es, hwalk, rfl⟩, fun es' hwalk' => ?_⟩
    obtain ⟨r', c', h', hc'⟩ := hle es' hwalk'
    exact Nat.le_trans (hmin r' c' h') hc'

/-- Shortest walks and shortest routes visit the same nodes. -/
theorem Finalized.shortestWalk_iff (hg : Finalized g) (hpos : PositiveMetrics g) :
    (∃ es, ShortestWalk g u es v ∧ (walkNodes es).reverse = r) ↔ Shortest g.weight u v r := by
  constructor
  · rintro ⟨es, ⟨hwalk, hmin⟩, rfl⟩
    have hdist := (hg.isWalkDist_iff hpos).mp ⟨⟨es, hwalk, rfl⟩, hmin⟩
    rcases hg.route_of_walk hpos hwalk with h | ⟨r, c, h, hlt⟩
    · exact ⟨_, h, hdist⟩
    · exact absurd (hdist.2 r c h) (Nat.not_le.mpr hlt)
  · rintro ⟨c, h, hdist⟩
    obtain ⟨es, hwalk, rfl, rfl⟩ := hg.walk_of_route h
    exact ⟨es, ⟨hwalk, ((hg.isWalkDist_iff hpos).mpr hdist).2⟩, rfl⟩

/-- Predecessors in terms of edges. -/
theorem Finalized.isPred_iff (hg : Finalized g) (hpos : PositiveMetrics g) {src : NodeId} :
    IsPred g.weight src u v ↔ ∃ c e, IsWalkDist g src u c ∧ IsMinEdge g u v e ∧
      IsWalkDist g src v (c + e.metric.toNat) := by
  simp only [hg.isWalkDist_iff hpos]
  constructor
  · rintro ⟨c, m, hc, hw, hv⟩
    obtain ⟨-, e, he, rfl⟩ := hg.weight_eq_some_iff.mp hw
    exact ⟨c, e, hc, he, hv⟩
  · rintro ⟨c, e, hc, he, hv⟩
    refine ⟨c, _, hc, hg.weight_eq_some_iff.mpr ⟨?_, e, he, rfl⟩, hv⟩
    rintro rfl
    have := hc.unique hv
    have := UInt32.le_iff_toNat_le.mp (hpos e he.isLink.mem)
    rw [show (1 : UInt32).toNat = 1 from rfl] at this
    omega

/-- The cost of a simple route stays below `UINT32_MAX`. -/
theorem NoOverflow.route_lt (hover : NoOverflow g) (hg : Finalized g)
    (h : IsRoute g.weight u v r c) (hsimple : (u :: r).Nodup) : c < uint32Max.toNat := by
  obtain ⟨es, hwalk, rfl, rfl⟩ := hg.walk_of_route h
  refine hover u es v hwalk ?_
  simpa using hsimple

theorem NoOverflow.costsFit (hover : NoOverflow g) (hg : Finalized g) : CostsFit g Edge.metric :=
  fun _ _ _ _ h hsimple => hover.route_lt hg h hsimple

/-! ## The invariant of the distances -/

/-- The distance `d` and the list `ps` are the best offer for a node by the nodes `order`:
no offer is lower, and `ps` lists those that make it. -/
structure BestOffer (g : Graph ε) (src : NodeId) (order : List NodeId) (v : NodeId) (d : UInt32)
    (ps : List NodeId) : Prop where
  lower : ∀ u ∈ order, ∀ c m, IsDist g.weight src u c → g.weight u v = some m → d.toNat ≤ c + m
  attained : ∀ x, x ∈ ps ↔
    x ∈ order ∧ ∃ c m, IsDist g.weight src x c ∧ g.weight x v = some m ∧ c + m = d.toNat

/-- The node `u` offers `v` the distance `n`. -/
def Offers (g : Graph ε) (src u v : NodeId) (n : ℕ) : Prop :=
  ∃ c m, IsDist g.weight src u c ∧ g.weight u v = some m ∧ c + m = n

theorem Offers.unique {src : NodeId} {n n' : ℕ} (h : Offers g src u v n)
    (h' : Offers g src u v n') : n = n' :=
  Offer.unique (w := g.weight) h h'

theorem not_offers {src : NodeId} {n : ℕ} (hw : g.weight u v = none) : ¬ Offers g src u v n := by
  rintro ⟨c, m, -, hm, -⟩
  rw [hw] at hm
  contradiction

section

variable {src : NodeId} {order : List NodeId} {d alt : UInt32} {ps : List NodeId}

theorem BestOffer.of_offers (hlower : ∀ x ∈ order, ∀ n, Offers g src x v n → d.toNat ≤ n)
    (hattained : ∀ x, x ∈ ps ↔ x ∈ order ∧ Offers g src x v d.toNat) :
    BestOffer g src order v d ps :=
  ⟨fun x hx c m hc hm => hlower x hx _ ⟨c, m, hc, hm, rfl⟩, hattained⟩

theorem BestOffer.le (h : BestOffer g src order v d ps) {x : NodeId} (hx : x ∈ order) {n : ℕ}
    (hn : Offers g src x v n) : d.toNat ≤ n := by
  obtain ⟨c, m, hc, hm, rfl⟩ := hn
  exact h.lower x hx c m hc hm

/-- A node without a link to `v` makes no offer. -/
theorem BestOffer.skip (h : BestOffer g src order v d ps) (hw : g.weight u v = none) :
    BestOffer g src (u :: order) v d ps := by
  refine .of_offers (fun x hx n hn => ?_) fun x => ?_
  · rcases List.mem_cons.mp hx with rfl | hx
    · exact absurd hn (not_offers hw)
    · exact h.le hx hn
  · rw [h.attained, List.mem_cons]
    refine ⟨fun ⟨hx, hn⟩ => ⟨.inr hx, hn⟩, fun ⟨hx, hn⟩ => ⟨hx.resolve_left ?_, hn⟩⟩
    rintro rfl
    exact not_offers hw hn

/-- The distances below the old one and a new offer. -/
theorem BestOffer.le_cons (h : BestOffer g src order v d ps) (hnew : Offers g src u v alt.toNat)
    {d' : UInt32} (hd : d'.toNat ≤ d.toNat) (halt : d'.toNat ≤ alt.toNat) :
    ∀ x ∈ u :: order, ∀ n, Offers g src x v n → d'.toNat ≤ n := by
  intro x hx n hn
  rcases List.mem_cons.mp hx with rfl | hx
  · rw [hn.unique hnew]
    exact halt
  · exact Nat.le_trans hd (h.le hx hn)

/-- A new offer is accepted when it is at least as good. -/
theorem BestOffer.relaxed (h : BestOffer g src order v d ps) (hnew : Offers g src u v alt.toNat) :
    BestOffer g src (u :: order) v (relaxed u alt d ps).1 (relaxed u alt d ps).2 := by
  unfold Srn.relaxed
  split_ifs with hlt heq
  · show BestOffer g src (u :: order) v alt [u]
    rw [UInt32.lt_iff_toNat_lt] at hlt
    refine .of_offers (h.le_cons hnew (Nat.le_of_lt hlt) (Nat.le_refl _)) fun x => ?_
    rw [List.mem_singleton, List.mem_cons]
    constructor
    · rintro rfl
      exact ⟨.inl rfl, hnew⟩
    · rintro ⟨hx, hn⟩
      exact hx.resolve_right fun hx => absurd (h.le hx hn) (Nat.not_le.mpr hlt)
  · subst heq
    refine .of_offers (h.le_cons hnew (Nat.le_refl _) (Nat.le_refl _)) fun x => ?_
    rw [List.mem_append, h.attained, List.mem_singleton, List.mem_cons]
    constructor
    · rintro (⟨hx, hn⟩ | rfl)
      · exact ⟨.inr hx, hn⟩
      · exact ⟨.inl rfl, hnew⟩
    · rintro ⟨rfl | hx, hn⟩
      · exact .inr rfl
      · exact .inl ⟨hx, hn⟩
  · show BestOffer g src (u :: order) v d ps
    rw [UInt32.lt_iff_toNat_lt] at hlt
    refine .of_offers (h.le_cons hnew (Nat.le_refl _) (Nat.not_lt.mp hlt)) fun x => ?_
    rw [h.attained, List.mem_cons]
    refine ⟨fun ⟨hx, hn⟩ => ⟨.inr hx, hn⟩, fun ⟨hx, hn⟩ => ⟨hx.resolve_left ?_, hn⟩⟩
    rintro rfl
    exact heq (UInt32.toNat_inj.mp (hnew.unique hn))

end

/-- The tables when the nodes `order` have been taken: exact for these nodes, and for the
others the best offer made by one of them. -/
structure DistInv (g : Graph ε) (src : NodeId) (order : List NodeId) (st : DState σ) :
    Prop where
  settled : order ≠ [] → Settled g.weight src (· ∈ order)
  exact : ∀ u ∈ order, ∀ d ps, Label st u d ps → IsDist g.weight src u d.toNat ∧
    ∀ x, x ∈ ps ↔ IsPred g.weight src x u
  offers : ∀ v ∈ st.queue, ∀ d ps, Label st v d ps → BestOffer g src order v d ps

namespace DistInv

variable {src : NodeId} {order : List NodeId} {st st' : DState Unit}
  {paths : List (List NodeId)} {d : UInt32} {ps : List NodeId}

/-- The distances are least costs, as for any search that adds up a cost. -/
theorem costInv (hg : Finalized g) (hpos : PositiveMetrics g) (hs : SearchInv g src order st)
    (h : DistInv g src order st) : CostInv g Edge.metric src order st where
  settled := h.settled
  reached u hu d ps hl := by
    have hpositive := hg.positive hpos
    have hdist := (h.exact u hu d ps hl).1
    obtain ⟨r, hroute⟩ := hdist.1
    have hshort : Shortest g.weight src u r := ⟨_, hroute, hdist⟩
    exact ⟨hdist, r, hroute, hshort.nodup hpositive,
      fun x hx => (h.settled (List.ne_nil_of_mem hu)).of_mem hpositive hu hshort hx⟩
  attained v hv d ps hl p hp := by
    rcases List.mem_append.mp (hs.perm.symm.subset hv) with hv | hv
    · obtain ⟨hdist, hpred⟩ := h.exact v hv d ps hl
      obtain ⟨c, m, hc, hm, hcm⟩ := (hpred p).mp hp
      exact ⟨c, m, hc, hm, hcm.unique hdist⟩
    · exact (((h.offers v hv d ps hl).attained p).mp hp).2
  lower v hv d ps hl u hu n hn := (h.offers v hv d ps hl).le hu hn

/-- **The least node of the queue is settled.** -/
theorem settle (hg : Finalized g) (hpos : PositiveMetrics g) (hs : SearchInv g src order st)
    (h : DistInv g src order st) (hleast : leastNode st.dist st.queue = some u)
    (hl : Label st u d ps) : Reached g Edge.metric src (u :: order) u d.toNat ∧
      Settled g.weight src (· ∈ u :: order) ∧ ∀ x, x ∈ ps ↔ IsPred g.weight src x u := by
  obtain ⟨hreached, hcost⟩ := (h.costInv hg hpos hs).settle hg hs hleast hl
  have hdu : IsDist g.weight src u d.toNat := hreached.dist
  have hsettled : Settled g.weight src (· ∈ u :: order) := hcost
  refine ⟨hreached, hsettled, fun x => ?_⟩
  rw [(h.offers u (leastNode_eq_some_iff.mp hleast).mem d ps hl).attained x]
  constructor
  · rintro ⟨-, cx, mx, hcx, hmx, hsum⟩
    exact ⟨cx, mx, hcx, hmx, hsum ▸ hdu⟩
  · intro hpred
    have hcons : Settled g.weight src fun y => y = u ∨ y ∈ order := by simpa using hsettled
    refine ⟨hcons.of_isPred (hg.positive hpos) hpred, ?_⟩
    obtain ⟨cx, mx, hcx, hmx, hsum⟩ := hpred
    exact ⟨cx, mx, hcx, hmx, hsum.unique hdu⟩

/-- **Step lemma** of the distances, when the offers to the nodes in the queue do not wrap. -/
theorem pop_of_lt (hg : Finalized g) (hpos : PositiveMetrics g)
    (hs : SearchInv g src order st) (h : DistInv g src order st)
    (hleast : leastNode st.dist st.queue = some u) (hs' : SearchInv g src (u :: order) st')
    (hpop : Popped g defaultOps u paths st st')
    (hfit : ∀ v ∈ st.queue.erase u, ∀ n, Offers g src u v n → n < UInt32.size) :
    DistInv g src (u :: order) st' := by
  have hu := (leastNode_eq_some_iff.mp hleast).mem
  obtain ⟨du, pu, hlu⟩ := hs.label u (hs.mem_nodes hu)
  obtain ⟨hreached, hsettled, hpred⟩ := h.settle hg hpos hs hleast hlu
  have hdu : IsDist g.weight src u du.toNat := hreached.dist
  refine ⟨fun _ => hsettled, fun x hx d ps hl => ?_, fun v hv d ps hl => ?_⟩
  · rw [(hs.prev_same hg hpop hx).label_iff] at hl
    rcases List.mem_cons.mp hx with rfl | hx
    · obtain ⟨rfl, rfl⟩ := hl.unique hlu
      exact ⟨hdu, hpred⟩
    · exact h.exact x hx d ps hl
  · rw [hpop.queue] at hv
    have hq := List.mem_of_mem_erase hv
    obtain ⟨d₀, ps₀, hl₀⟩ := hs.label v (hs.mem_nodes hq)
    have hoffer := h.offers v hq d₀ ps₀ hl₀
    cases he : g.minEdges.get (u, v) with
    | none =>
      obtain ⟨rfl, rfl⟩ := hl.unique ((hpop.same v (.inr he)).label_iff.mpr hl₀)
      exact hoffer.skip (by simp [Graph.weight, he])
    | some e =>
      obtain ⟨x, hx⟩ := hpop.offer v hv e d₀ ps₀ he hl₀
      obtain ⟨rfl, rfl⟩ := hl.unique hx
      have hw : g.weight u v = some e.metric.toNat := by simp [Graph.weight, he]
      refine hoffer.relaxed ⟨_, _, hdu, hw, ?_⟩
      have hlt := hfit v hv _ ⟨_, _, hdu, hw, rfl⟩
      rw [defaultOps, hlu.distOf, UInt32.toNat_add, Nat.mod_eq_of_lt hlt]

/-- Offers do not wrap when simple paths are cheap enough. -/
theorem pop (hg : Finalized g) (hpos : PositiveMetrics g) (hover : NoOverflow g)
    (hs : SearchInv g src order st) (h : DistInv g src order st)
    (hleast : leastNode st.dist st.queue = some u) (hs' : SearchInv g src (u :: order) st')
    (hpop : Popped g defaultOps u paths st st') : DistInv g src (u :: order) st' := by
  refine h.pop_of_lt hg hpos hs hleast hs' hpop fun v hv n hn => ?_
  obtain ⟨d, ps, hl⟩ := hs.label u (hs.mem_nodes (leastNode_eq_some_iff.mp hleast).mem)
  obtain ⟨hreached, hsettled, -⟩ := h.settle hg hpos hs hleast hl
  have hlt := CostInv.offer_lt (hover.costsFit hg) hreached hn hsettled.source
    (hs.not_mem_cons hg hv)
  exact Nat.lt_trans hlt (by decide)

/-- Before the loop no offer was made. -/
theorem init (g : Graph ε) (src : NodeId) : DistInv g src [] (dijkstraInit g src defaultOps) := by
  refine ⟨fun h => absurd rfl h, by simp, fun v hv d ps hl => ⟨by simp, fun x => ?_⟩⟩
  obtain ⟨-, rfl⟩ := hl.unique ((SearchInv.init g src defaultOps).start rfl v hv)
  simp

end DistInv

/-! ## A bound on metrics -/

/-- A walk stays within the nodes of the graph. -/
theorem EdgeWalk.walkNodes_subset (hg : Finalized g) (h : EdgeWalk g u es v) :
    walkNodes es ⊆ g.nodes := by
  induction h with
  | nil => simp [walkNodes]
  | snoc _ he ih =>
    rw [walkNodes_snoc, List.append_subset, he.remoteId]
    exact ⟨ih, by simpa using (he.ends hg).2⟩

theorem EdgeWalk.walkCost_le (h : EdgeWalk g u es v) {b : ℕ}
    (hb : ∀ e ∈ g.edges, e.metric.toNat ≤ b) : walkCost es ≤ es.length * b := by
  induction h with
  | nil => simp
  | snoc _ he ih =>
    have := hb _ he.mem
    rw [walkCost_snoc, List.length_append, List.length_singleton, Nat.succ_mul]
    omega

/-- Metrics bounded by `UINT32_MAX` over the number of nodes. -/
theorem noOverflow_of_le (hg : Finalized g) {b : ℕ} (hb : ∀ e ∈ g.edges, e.metric.toNat ≤ b)
    (hlt : g.nodes.length * b < uint32Max.toNat) : NoOverflow g := by
  intro u es v hwalk hsimple
  have hlen : es.length ≤ g.nodes.length := by
    have := (List.subperm_of_subset (List.nodup_cons.mp hsimple).2
      (hwalk.walkNodes_subset hg)).length_le
    simpa [walkNodes] using this
  exact Nat.lt_of_le_of_lt (Nat.le_trans (hwalk.walkCost_le hb) (Nat.mul_le_mul_right b hlen)) hlt

/-! ## The result -/

/-- The result of a search is exact: distances, predecessors and shortest paths of the
graph. -/
structure Exact (g : Graph ε) (src : NodeId) (res : Dres) : Prop where
  dist : ∀ v ∈ g.nodes, ∃ d, res.dist.get v = some d ∧ (IsDist g.weight src v d.toNat ∨
    d = uint32Max ∧ ∀ r c, ¬ IsRoute g.weight src v r c)
  prev : ∀ v ∈ g.nodes, ∃ ps, res.prev.get v = some ps ∧ ps.Nodup ∧
    ∀ u, u ∈ ps ↔ IsPred g.weight src u v
  path : ∀ v ∈ g.nodes, ∃ paths, res.path.get v = some paths ∧ paths.Nodup ∧
    ∀ r, r ∈ paths ↔ Shortest g.weight src v r

/-- The chains of exact lists are the shortest routes. -/
theorem chain_iff_shortest {src : NodeId} {order : List NodeId} {prev : Table NodeId (List NodeId)}
    (hpositive : Positive g.weight) (hlayered : Layered g src prev order)
    (hexact : ∀ v ∈ order, ∀ ps, prev.get v = some ps → ∀ x, x ∈ ps ↔ IsPred g.weight src x v)
    (r : List NodeId) (hv : v ∈ order) : Chain prev v r ↔ Shortest g.weight src v r := by
  obtain ⟨ps, hget, -, hsrc, hps⟩ := hlayered.of_mem hv
  induction r generalizing v ps with
  | nil =>
    rw [shortest_nil_iff]
    constructor
    · rintro ⟨hget'⟩
      exact hsrc (Option.some.inj (hget.symm.trans hget'))
    · rintro rfl
      refine .nil (hget.trans (congrArg some (List.eq_nil_iff_forall_not_mem.mpr fun x hx => ?_)))
      exact not_isPred_source hpositive ((hexact v hv ps hget x).mp hx)
  | cons y r ih =>
    constructor
    · intro hc
      cases hc with
      | cons hget' hp hc =>
        obtain rfl := Option.some.inj (hget.symm.trans hget')
        obtain ⟨hpo, -⟩ := hps _ hp
        obtain ⟨ps', hget'', -, hsrc', hps'⟩ := hlayered.of_mem hpo
        exact ((hexact _ hv ps hget _).mp hp).shortest
          ((ih hpo ps' hget'' hsrc' hps').mp hc)
    · intro hshort
      obtain ⟨rfl, u, hpred, hu⟩ := hshort.isPred
      have hp := (hexact y hv ps hget u).mpr hpred
      obtain ⟨hpo, -⟩ := hps u hp
      obtain ⟨ps', hget', -, hsrc', hps'⟩ := hlayered.of_mem hpo
      exact .cons hget hp ((ih hpo ps' hget' hsrc' hps').mpr hu)

/-- Nodes left in the queue are out of reach. -/
theorem DistInv.unreachable {src : NodeId} {order : List NodeId} {st : DState Unit}
    (hg : Finalized g) (hpos : PositiveMetrics g) (hover : NoOverflow g)
    (hs : SearchInv g src order st) (h : DistInv g src order st) (hne : order ≠ [])
    (hend : leastNode st.dist st.queue = none) (hv : v ∈ st.queue) :
    Label st v uint32Max [] ∧ ∀ r c, ¬ IsRoute g.weight src v r c := by
  have hcost := h.costInv hg hpos hs
  have hno : ∀ r c, ¬ IsRoute g.weight src v r c := fun _ _ =>
    hcost.unreachable hg (hover.costsFit hg) hs hne hend hv
  obtain ⟨d, ps, hl⟩ := hs.label v (hs.mem_nodes hv)
  have hmax : d = uint32Max := by
    have hnot := leastNode_eq_none_iff.mp hend v hv
    rwa [hl.distOf, lt_uint32Max_iff, not_not] at hnot
  have hps : ps = [] := by
    refine List.eq_nil_iff_forall_not_mem.mpr fun x hx => ?_
    obtain ⟨c, m, ⟨⟨r, hroute⟩, -⟩, hm, -⟩ := hcost.attained v (hs.mem_nodes hv) d ps hl x hx
    exact hno _ _ (hroute.snoc hm)
  exact ⟨hmax ▸ hps ▸ hl, hno⟩

/-- **Exactness.** -/
theorem graphDijkstra_exact (hg : Finalized g) (hpos : PositiveMetrics g) (hover : NoOverflow g)
    {src : NodeId} (hsrc : src ∈ g.nodes) :
    ∃ res, graphDijkstra g src defaultOps = .ok res ∧ Exact g src res := by
  obtain ⟨order, st, hloop, hs, h, hend⟩ := SearchInv.loop hg (DistInv g src)
    (fun _ _ _ _ _ hs h hleast hs' _ hpop => h.pop hg hpos hover hs hleast hs' hpop)
    (g.nodes.length + 1) (SearchInv.init g src defaultOps) (DistInv.init g src)
    (Nat.lt_succ_self _)
  have hne := hs.order_ne_nil hsrc hend
  have hcases : ∀ v ∈ g.nodes, v ∈ order ∨ v ∈ st.queue :=
    fun v hv => List.mem_append.mp (hs.perm.symm.subset hv)
  have hout : ∀ {v}, v ∈ st.queue → Label st v uint32Max [] ∧ ∀ r c, ¬ IsRoute g.weight src v r c :=
    fun hv => h.unreachable hg hpos hover hs hne hend hv
  refine ⟨_, by rw [graphDijkstra, hloop]; rfl, fun v hv => ?_, fun v hv => ?_, fun v hv => ?_⟩
  · rcases hcases v hv with hv' | hv'
    · obtain ⟨d, ps, hl⟩ := hs.label v hv
      exact ⟨d, hl.1, .inl (h.exact v hv' d ps hl).1⟩
    · exact ⟨_, (hout hv').1.1, .inr ⟨rfl, (hout hv').2⟩⟩
  · rcases hcases v hv with hv' | hv'
    · obtain ⟨d, ps, hl⟩ := hs.label v hv
      obtain ⟨ps', hget, hnodup, -⟩ := hs.layered.of_mem hv'
      obtain rfl := Option.some.inj (hl.2.symm.trans hget)
      exact ⟨ps, hl.2, hnodup, (h.exact v hv' d ps hl).2⟩
    · refine ⟨[], (hout hv').1.2, List.nodup_nil, fun u => ?_⟩
      have : ¬ IsPred g.weight src u v := by
        rintro ⟨c, m, -, -, ⟨r, hroute⟩, -⟩
        exact (hout hv').2 r _ hroute
      simp [this]
  · rcases hcases v hv with hv' | hv'
    · obtain ⟨paths, hget, hnodup, hmem⟩ := hs.pathOrder v hv'
      refine ⟨paths, hget, hnodup, fun r => ?_⟩
      rw [hmem]
      refine chain_iff_shortest (hg.positive hpos) hs.layered (fun x hx ps hps => ?_) r hv'
      obtain ⟨d, ps', hl⟩ := hs.label x (hs.perm.subset (List.mem_append_left _ hx))
      obtain rfl := Option.some.inj (hl.2.symm.trans hps)
      exact (h.exact x hx d ps' hl).2
    · refine ⟨[], hs.pathQueue v hv', List.nodup_nil, fun r => ?_⟩
      have : ¬ Shortest g.weight src v r := by
        rintro ⟨c, hroute, -⟩
        exact (hout hv').2 r c hroute
      simp [this]

/-- **Main theorem.** `graph_dijkstra` without callbacks returns for every node the least
total metric of a walk from the source, or `UINT32_MAX` when there is no walk; the
predecessors that attain it over a minimal edge, each once; and all shortest walks, each
once, as their nodes in reverse order without the source. -/
theorem graphDijkstra_correct (g : Graph ε) (src : NodeId) (hg : Finalized g)
    (hpos : PositiveMetrics g) (hover : NoOverflow g) (hsrc : src ∈ g.nodes) :
    ∃ res, graphDijkstra g src defaultOps = .ok res ∧ ∀ v ∈ g.nodes,
      (∃ d, res.dist.get v = some d ∧ (IsWalkDist g src v d.toNat ∨
        d = uint32Max ∧ ∀ es, ¬ EdgeWalk g src es v)) ∧
      (∃ ps, res.prev.get v = some ps ∧ ps.Nodup ∧
        (∀ u, u ∈ ps ↔ ∃ c e, IsWalkDist g src u c ∧ IsMinEdge g u v e ∧
          IsWalkDist g src v (c + e.metric.toNat)) ∧
        (v = src ∨ (∀ es, ¬ EdgeWalk g src es v) → ps = [])) ∧
      (∃ paths, res.path.get v = some paths ∧ paths.Nodup ∧
        ∀ r, r ∈ paths ↔ ∃ es, ShortestWalk g src es v ∧ (walkNodes es).reverse = r) := by
  obtain ⟨res, hrun, hexact⟩ := graphDijkstra_exact hg hpos hover hsrc
  refine ⟨res, hrun, fun v hv => ⟨?_, ?_, ?_⟩⟩
  · obtain ⟨d, hget, hd⟩ := hexact.dist v hv
    refine ⟨d, hget, hd.imp (hg.isWalkDist_iff hpos).mpr (And.imp_right fun hno es hwalk => ?_)⟩
    rcases hg.route_of_walk hpos hwalk with h | ⟨r, c, h, -⟩
    · exact hno _ _ h
    · exact hno _ _ h
  · obtain ⟨ps, hget, hnodup, hmem⟩ := hexact.prev v hv
    refine ⟨ps, hget, hnodup, fun u => (hmem u).trans (hg.isPred_iff hpos), fun hempty => ?_⟩
    refine List.eq_nil_iff_forall_not_mem.mpr fun u hu => ?_
    have hpred := (hmem u).mp hu
    rcases hempty with rfl | hno
    · exact not_isPred_source (hg.positive hpos) hpred
    · obtain ⟨c, m, -, -, ⟨r, hroute⟩, -⟩ := hpred
      obtain ⟨es, hwalk, -⟩ := hg.walk_of_route hroute
      exact hno es hwalk
  · obtain ⟨paths, hget, hnodup, hmem⟩ := hexact.path v hv
    exact ⟨paths, hget, hnodup, fun r => (hmem r).trans (hg.shortestWalk_iff hpos).symm⟩

/-- A graph with two shortest paths from 1 to 3, a self-loop and a parallel edge. -/
def twoPaths : Graph Unit := graphOf [1, 2, 3]
  [⟨1, 1, 2, 1, ()⟩, ⟨2, 2, 3, 1, ()⟩, ⟨3, 1, 3, 2, ()⟩, ⟨4, 1, 1, 1, ()⟩, ⟨5, 1, 2, 7, ()⟩]

theorem finalized_twoPaths : Finalized twoPaths := finalized_graphOf (by decide) (by decide)

/-- The results for `twoPaths` from node 1. -/
theorem graphDijkstra_correct_twoPaths :
    Finalized twoPaths ∧ PositiveMetrics twoPaths ∧ NoOverflow twoPaths ∧ 1 ∈ twoPaths.nodes ∧
      ∃ res, graphDijkstra twoPaths 1 defaultOps = .ok res ∧ ∀ v ∈ twoPaths.nodes,
        ∃ paths, res.path.get v = some paths ∧ paths.Nodup ∧
          ∀ r, r ∈ paths ↔ ∃ es, ShortestWalk twoPaths 1 es v ∧ (walkNodes es).reverse = r := by
  have hg := finalized_twoPaths
  have hpos : PositiveMetrics twoPaths := by
    intro e he
    revert e
    decide
  have hover : NoOverflow twoPaths := noOverflow_of_le hg (b := 7) (by decide) (by decide)
  have hsrc : 1 ∈ twoPaths.nodes := by decide
  obtain ⟨res, hrun, hres⟩ := graphDijkstra_correct twoPaths 1 hg hpos hover hsrc
  exact ⟨hg, hpos, hover, hsrc, res, hrun, fun v hv => (hres v hv).2.2⟩

end Srn
