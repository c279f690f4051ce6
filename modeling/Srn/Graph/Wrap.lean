import Srn.Graph.Shortest

/-!
# Srn.Graph.Wrap

The additions of `graph_dijkstra` without callbacks, which are made modulo 2^32.

A sum that wraps is smaller than the distance of the node just taken from the queue, and so smaller
than the distance of every node still in it: a node in the queue that is offered such a sum accepts
it, and has a distance that is too small ever after.  The search is therefore right about distances
exactly as long as each sum that wraps comes too late, when the node it would be offered to has left
the queue.  Nodes leave the queue in the order of their distances, and nodes at the same distance in
the order of the list of nodes.
-/

namespace Srn

open Route

variable {ε : Type} {g : Graph ε} {src u v : NodeId}

/-! ## The condition -/

/-- No reported distance is smaller than the least total metric of a walk; `UINT32_MAX` stands for
no distance. -/
def NeverCheaper (g : Graph ε) (src : NodeId) (res : Dres) : Prop :=
  ∀ v ∈ g.nodes, ∀ d, res.dist.get v = some d →
    d = uint32Max ∨ ∃ c, IsWalkDist g src v c ∧ c ≤ d.toNat

/-- Where the distance of a node and the least metric of a link add up to 2^32 or more, the link
leads to a node that is closer to the source, or as close and earlier in the list of nodes. -/
def NoWrap (g : Graph ε) (src : NodeId) : Prop :=
  ∀ u v c e, IsWalkDist g src u c → c < uint32Max.toNat → u ≠ v → IsMinEdge g u v e →
    UInt32.size ≤ c + e.metric.toNat →
    ∃ c', IsWalkDist g src v c' ∧ (c' < c ∨ c' = c ∧ [v, u].Sublist g.nodes)

/-- The node `v` is taken from the queue before `u`. -/
def TakenBefore (g : Graph ε) (src v u : NodeId) : Prop :=
  ∃ c' c, IsDist g.weight src v c' ∧ IsDist g.weight src u c ∧
    (c' < c ∨ c' = c ∧ [v, u].Sublist g.nodes)

/-- The condition in terms of offers. -/
theorem noWrap_iff (hg : Finalized g) (hpos : PositiveMetrics g) : NoWrap g src ↔
    ∀ u v c n, IsDist g.weight src u c → c < uint32Max.toNat → Offers g src u v n →
      UInt32.size ≤ n → TakenBefore g src v u := by
  constructor
  · rintro h u v c n hc hlt ⟨c', m, hc', hm, rfl⟩ hsize
    obtain rfl := hc.unique hc'
    obtain ⟨hne, e, he, rfl⟩ := hg.weight_eq_some_iff.mp hm
    obtain ⟨d, hd, hcases⟩ := h u v c e ((hg.isWalkDist_iff hpos).mpr hc) hlt hne he hsize
    exact ⟨d, c, (hg.isWalkDist_iff hpos).mp hd, hc, hcases⟩
  · intro h u v c e hc hlt hne he hsize
    rw [hg.isWalkDist_iff hpos] at hc
    have hm := hg.weight_eq_some_iff.mpr ⟨hne, e, he, rfl⟩
    obtain ⟨d, c', hd, hc', hcases⟩ := h u v c _ hc hlt ⟨c, _, hc, hm, rfl⟩ hsize
    obtain rfl := hc.unique hc'
    exact ⟨d, (hg.isWalkDist_iff hpos).mpr hd, hcases⟩

/-! ## Distances that are too small -/

/-- Some label is below the distance of its node. -/
def Cheap (g : Graph ε) (src : NodeId) (st : DState Unit) : Prop :=
  ∃ v ∈ g.nodes, ∃ d ps, Label st v d ps ∧ d < uint32Max ∧
    ∀ c, IsDist g.weight src v c → d.toNat < c

variable {order : List NodeId} {st st' : DState Unit} {paths : List (List NodeId)}

/-- Labels do not grow. -/
theorem Popped.label_le (hpop : Popped g defaultOps u paths st st') {d : UInt32} {ps : List NodeId}
    (hl : Label st v d ps) : ∃ d' ps', Label st' v d' ps' ∧ d'.toNat ≤ d.toNat := by
  by_cases hv : v ∈ st.queue.erase u
  · cases he : g.minEdges.get (u, v) with
    | none => exact ⟨d, ps, (hpop.same v (.inr he)).label_iff.mpr hl, Nat.le_refl _⟩
    | some e =>
      obtain ⟨x, hx⟩ := hpop.offer v hv e d ps he hl
      refine ⟨_, _, hx, ?_⟩
      unfold relaxed
      split_ifs with hlt
      · exact Nat.le_of_lt (UInt32.lt_iff_toNat_lt.mp hlt)
      · exact Nat.le_refl _
      · exact Nat.le_refl _
  · exact ⟨d, ps, (hpop.same v (.inl hv)).label_iff.mpr hl, Nat.le_refl _⟩

/-- A label that is too small stays so. -/
theorem Cheap.pop (h : Cheap g src st) (hpop : Popped g defaultOps u paths st st') :
    Cheap g src st' := by
  obtain ⟨v, hv, d, ps, hl, hlt, hsmall⟩ := h
  obtain ⟨d', ps', hl', hle⟩ := hpop.label_le hl
  rw [UInt32.lt_iff_toNat_lt] at hlt
  exact ⟨v, hv, d', ps', hl', UInt32.lt_iff_toNat_lt.mpr (Nat.lt_of_le_of_lt hle hlt),
    fun c hc => Nat.lt_of_le_of_lt hle (hsmall c hc)⟩

/-! ## Nodes at the same distance -/

theorem not_sublist_swap {α : Type} {a b : α} {l : List α} (hl : l.Nodup)
    (h : [a, b].Sublist l) : ¬ [b, a].Sublist l := by
  induction l with
  | nil => cases h
  | cons x l ih =>
    obtain ⟨hx, hl⟩ := List.nodup_cons.mp hl
    intro h'
    rw [List.cons_sublist_cons'] at h h'
    rcases h with h | ⟨rfl, h⟩
    · rcases h' with h' | ⟨rfl, -⟩
      · exact ih hl h h'
      · exact hx (h.subset (by simp))
    · rcases h' with h' | ⟨rfl, -⟩
      · exact hx (h'.subset (by simp))
      · exact hx (h.subset (by simp))

/-- The nodes that stay in the queue are at least as far away as the next one. -/
theorem DistInv.le_dist (hg : Finalized g) (hpos : PositiveMetrics g)
    (hs : SearchInv g src order st) (h : DistInv g src order st)
    (hleast : leastNode st.dist st.queue = some u) {d : UInt32} {ps : List NodeId}
    (hl : Label st u d ps) (hv : v ∈ st.queue.erase u) {c : ℕ} (hc : IsDist g.weight src v c) :
    d.toNat ≤ c := by
  obtain ⟨hreached, hsettled, -⟩ := h.settle hg hpos hs hleast hl
  have hdu : IsDist g.weight src u d.toNat := hreached.dist
  obtain ⟨r, hroute⟩ := hc.1
  exact hsettled.separated u _ v r c List.mem_cons_self hdu (hs.not_mem_cons hg hv) hroute

/-- A node as close as the next one has been offered its distance: the last hop of a shortest route
to it comes from a node that has been taken. -/
theorem DistInv.label_le (hg : Finalized g) (hpos : PositiveMetrics g)
    (hs : SearchInv g src order st) (h : DistInv g src order st)
    (hleast : leastNode st.dist st.queue = some u) {d e : UInt32} {ps qs : List NodeId}
    (hl : Label st u d ps) (hv : v ∈ st.queue.erase u) (hlv : Label st v e qs)
    (hdv : IsDist g.weight src v d.toNat) : e.toNat ≤ d.toNat := by
  obtain ⟨hreached, hsettled, -⟩ := h.settle hg hpos hs hleast hl
  have hdu : IsDist g.weight src u d.toNat := hreached.dist
  obtain ⟨r, hroute⟩ := hdv.1
  cases r with
  | nil =>
    have hsource := (isRoute_nil_iff.mp hroute).1 ▸ hsettled.source
    exact absurd hsource (hs.not_mem_cons hg hv)
  | cons y r =>
    obtain ⟨rfl, p, ⟨cp, m, hcp, hm, hdist⟩, -⟩ := Shortest.isPred ⟨_, hroute, hdv⟩
    have hm0 := hg.positive hpos _ _ _ hm
    have hsum := hdist.unique hdv
    have hp : p ∈ order := by
      by_contra hp
      have hpu : p ≠ u := by
        rintro rfl
        have := hcp.unique hdu
        omega
      obtain ⟨rp, hrp⟩ := hcp.1
      have := hsettled.separated u _ p rp cp List.mem_cons_self hdu (by simp [hpu, hp]) hrp
      omega
    have := (h.offers y (List.mem_of_mem_erase hv) e qs hlv).lower p hp cp m hcp hm
    omega

/-- Of two nodes at the same distance the first in the queue is taken first. -/
theorem DistInv.sublist_queue (hg : Finalized g) (hpos : PositiveMetrics g)
    (hs : SearchInv g src order st) (h : DistInv g src order st)
    (hleast : leastNode st.dist st.queue = some u) {c : ℕ} (hu : IsDist g.weight src u c)
    (hv : v ∈ st.queue.erase u) (hdv : IsDist g.weight src v c) : [u, v].Sublist st.queue := by
  have hfirst := leastNode_eq_some_iff.mp hleast
  obtain ⟨d, ps, hl⟩ := hs.label u (hs.mem_nodes hfirst.mem)
  obtain ⟨hreached, -, -⟩ := h.settle hg hpos hs hleast hl
  have hdu : IsDist g.weight src u d.toNat := hreached.dist
  obtain rfl := hdu.unique hu
  have hq := List.mem_of_mem_erase hv
  obtain ⟨e, qs, hlv⟩ := hs.label v (hs.mem_nodes hq)
  have hle := h.label_le hg hpos hs hleast hl hv hlv hdv
  obtain ⟨pre, post, hqueue, -, hpre, -⟩ := hfirst
  have hpost : v ∈ post := by
    rw [hqueue] at hq
    rcases List.mem_append.mp hq with hq | hq
    · have hlt := hpre v hq
      rw [hl.distOf, hlv.distOf, UInt32.lt_iff_toNat_lt] at hlt
      omega
    · exact (List.mem_cons.mp hq).resolve_left (List.ne_of_not_mem_cons (hs.not_mem_cons hg hv))
  rw [hqueue]
  exact ((List.singleton_sublist.mpr hpost).cons_cons u).trans (List.sublist_append_right _ _)

/-! ## The invariant -/

/-- Each of the nodes `order` was taken after those behind it, and its offers that wrap lead to
these. -/
def FitsSoFar (g : Graph ε) (src : NodeId) : List NodeId → Prop
  | [] => True
  | u :: before => (∀ v n, Offers g src u v n → UInt32.size ≤ n → v ∈ before) ∧
      (∀ v ∈ before, TakenBefore g src v u) ∧ FitsSoFar g src before

theorem FitsSoFar.takenBefore (h : FitsSoFar g src order) (hu : u ∈ order) {n : ℕ}
    (hn : Offers g src u v n) (hsize : UInt32.size ≤ n) : TakenBefore g src v u := by
  induction order with
  | nil => simp at hu
  | cons x before ih =>
    obtain ⟨hfits, htaken, hbefore⟩ := h
    rcases List.mem_cons.mp hu with rfl | hu
    · exact htaken v (hfits v n hn hsize)
    · exact ih hbefore hu

/-- The search has been right so far. -/
structure WrapInv (g : Graph ε) (src : NodeId) (order : List NodeId) (st : DState Unit) :
    Prop where
  dist : DistInv g src order st
  queue : st.queue.Sublist g.nodes
  tie : ∀ v ∈ order, ∀ u ∈ st.queue, ∀ c, IsDist g.weight src v c → IsDist g.weight src u c →
    [v, u].Sublist g.nodes
  fits : FitsSoFar g src order

namespace WrapInv

/-- What was taken before the next node is closer, or as close and earlier in the list. -/
theorem takenBefore (h : WrapInv g src order st) (hu : u ∈ st.queue) {c : ℕ}
    (hdu : IsDist g.weight src u c) (hout : u ∉ order) (hv : v ∈ order) :
    TakenBefore g src v u := by
  have hsettled := h.dist.settled (List.ne_nil_of_mem hv)
  obtain ⟨c', hc'⟩ := hsettled.exact v hv
  obtain ⟨r, hroute⟩ := hdu.1
  refine ⟨c', c, hc', hdu, ?_⟩
  rcases Nat.lt_or_eq_of_le (hsettled.separated v c' u r c hv hc' hout hroute) with hlt | rfl
  · exact .inl hlt
  · exact .inr ⟨rfl, h.tie v hv u hu c' hc' hdu⟩

/-- **Step lemma** while no offer wraps. -/
theorem pop_of_fits (hg : Finalized g) (hpos : PositiveMetrics g) (hs : SearchInv g src order st)
    (h : WrapInv g src order st) (hleast : leastNode st.dist st.queue = some u)
    (hs' : SearchInv g src (u :: order) st') (hpop : Popped g defaultOps u paths st st')
    (hfit : ∀ v ∈ st.queue.erase u, ∀ n, Offers g src u v n → n < UInt32.size) :
    WrapInv g src (u :: order) st' := by
  have hu := (leastNode_eq_some_iff.mp hleast).mem
  have hout := hs.not_mem_order hg hu
  obtain ⟨d, ps, hl⟩ := hs.label u (hs.mem_nodes hu)
  obtain ⟨hreached, -, -⟩ := h.dist.settle hg hpos hs hleast hl
  have hdu : IsDist g.weight src u d.toNat := hreached.dist
  refine ⟨h.dist.pop_of_lt hg hpos hs hleast hs' hpop hfit, ?_, ?_, ?_, ?_, h.fits⟩
  · rw [hpop.queue]
    exact List.erase_sublist.trans h.queue
  · intro x hx y hy c hcx hcy
    rw [hpop.queue] at hy
    rcases List.mem_cons.mp hx with rfl | hx
    · exact (h.dist.sublist_queue hg hpos hs hleast hcx hy hcy).trans h.queue
    · exact h.tie x hx y (List.mem_of_mem_erase hy) c hcx hcy
  · rintro v n ⟨c, m, hc, hm, rfl⟩ hsize
    obtain ⟨hne, e, he, -⟩ := hg.weight_eq_some_iff.mp hm
    by_contra hv
    have hvq : v ∈ st.queue :=
      (List.mem_append.mp (hs.perm.symm.subset (he.isLink.ends hg).2)).resolve_left hv
    have hlt := hfit v ((List.mem_erase_of_ne (Ne.symm hne)).mpr hvq) _ ⟨c, m, hc, hm, rfl⟩
    omega
  · exact fun v hv => h.takenBefore hu hdu hout hv

/-- An offer that wraps is accepted by a node in the queue, and makes its distance too small. -/
theorem cheap_of_wrap (hg : Finalized g) (hpos : PositiveMetrics g) (hs : SearchInv g src order st)
    (h : WrapInv g src order st) (hleast : leastNode st.dist st.queue = some u)
    (hpop : Popped g defaultOps u paths st st') (hv : v ∈ st.queue.erase u) {n : ℕ}
    (hn : Offers g src u v n) (hsize : UInt32.size ≤ n) : Cheap g src st' := by
  have hq := List.mem_of_mem_erase hv
  obtain ⟨d, ps, hl⟩ := hs.label u (hs.mem_nodes (leastNode_eq_some_iff.mp hleast).mem)
  obtain ⟨e, qs, hlv⟩ := hs.label v (hs.mem_nodes hq)
  obtain ⟨hreached, -, -⟩ := h.dist.settle hg hpos hs hleast hl
  have hdu : IsDist g.weight src u d.toNat := hreached.dist
  obtain ⟨c, m, hc, hm, rfl⟩ := hn
  obtain rfl := hc.unique hdu
  obtain ⟨x, hx, rfl⟩ := Option.map_eq_some_iff.mp hm
  have halt : (d + x.metric).toNat < d.toNat := by
    have := x.metric.toNat_lt
    have := d.toNat_lt
    rw [UInt32.toNat_add]
    simp only [UInt32.size] at hsize
    omega
  have hle := hl.le_of_leastNode hleast hq hlv
  have haccept : d + x.metric < e := UInt32.lt_iff_toNat_lt.mpr (by omega)
  obtain ⟨s, hnew⟩ := hpop.offer v hv x e qs hx hlv
  simp only [defaultOps, hl.distOf, relaxed, if_pos haccept] at hnew
  have hmax : d.toNat < UInt32.size := d.toNat_lt
  refine ⟨v, hs.mem_nodes hq, _, _, hnew, UInt32.lt_iff_toNat_lt.mpr ?_, fun c hc => ?_⟩
  · rw [show uint32Max.toNat = UInt32.size - 1 from rfl]
    omega
  · exact Nat.lt_of_lt_of_le halt (h.dist.le_dist hg hpos hs hleast hl hv hc)

/-- Such an offer is what the condition excludes. -/
theorem not_noWrap (hg : Finalized g) (hpos : PositiveMetrics g) (hs : SearchInv g src order st)
    (h : WrapInv g src order st) (hleast : leastNode st.dist st.queue = some u)
    (hv : v ∈ st.queue.erase u) {n : ℕ} (hn : Offers g src u v n) (hsize : UInt32.size ≤ n) :
    ¬ NoWrap g src := by
  have hfirst := leastNode_eq_some_iff.mp hleast
  obtain ⟨d, ps, hl⟩ := hs.label u (hs.mem_nodes hfirst.mem)
  obtain ⟨hreached, -, -⟩ := h.dist.settle hg hpos hs hleast hl
  have hdu : IsDist g.weight src u d.toNat := hreached.dist
  have hlt := hfirst.lt_bound
  rw [hl.distOf, UInt32.lt_iff_toNat_lt] at hlt
  intro hno
  obtain ⟨c', c, hc', hc, hcases⟩ := (noWrap_iff hg hpos).mp hno u v d.toNat n hdu hlt hn hsize
  obtain rfl := hc.unique hdu
  rcases hcases with hcloser | ⟨rfl, hswap⟩
  · exact absurd (h.dist.le_dist hg hpos hs hleast hl hv hc') (Nat.not_le.mpr hcloser)
  · have htie := (h.dist.sublist_queue hg hpos hs hleast hdu hv hc').trans h.queue
    exact not_sublist_swap hg.nodup htie hswap

/-- Nodes left in the queue are not within `UINT32_MAX`. -/
theorem mem_order (h : WrapInv g src order st) (hg : Finalized g) (hs : SearchInv g src order st)
    (hne : order ≠ []) (hend : leastNode st.dist st.queue = none) {c : ℕ}
    (hdu : IsDist g.weight src u c) (hlt : c < uint32Max.toNat) : u ∈ order := by
  by_contra hu
  have hsettled := h.dist.settled hne
  obtain ⟨r, hroute⟩ := hdu.1
  have hmax : uint32Max.toNat ≤ c := by
    refine hsettled.le_of_route (fun x d y m hx hd hy hm => ?_) hu hroute
    obtain ⟨-, e, he, -⟩ := hg.weight_eq_some_iff.mp hm
    have hynodes := (he.isLink.ends hg).2
    have hyq := (List.mem_append.mp (hs.perm.symm.subset hynodes)).resolve_left hy
    obtain ⟨dy, ps, hl⟩ := hs.label y hynodes
    have hfull := leastNode_eq_none_iff.mp hend y hyq
    rw [hl.distOf, UInt32.lt_iff_toNat_lt] at hfull
    have hle := (h.dist.offers y hyq dy ps hl).lower x hx d m hd hm
    omega
  omega

/-- At the end of a search that has been right, the condition holds. -/
theorem noWrap (h : WrapInv g src order st) (hg : Finalized g) (hpos : PositiveMetrics g)
    (hs : SearchInv g src order st) (hne : order ≠ [])
    (hend : leastNode st.dist st.queue = none) : NoWrap g src := by
  refine (noWrap_iff hg hpos).mpr fun u v c n hc hlt hn hsize => ?_
  exact h.fits.takenBefore (h.mem_order hg hs hne hend hc hlt) hn hsize

/-- So does the property. -/
theorem neverCheaper (h : WrapInv g src order st) (hg : Finalized g) (hpos : PositiveMetrics g)
    (hs : SearchInv g src order st) (hend : leastNode st.dist st.queue = none) :
    NeverCheaper g src ⟨st.dist, st.path, st.prev⟩ := by
  intro v hv d hget
  obtain ⟨d', ps, hl⟩ := hs.label v hv
  obtain rfl : d' = d := Option.some.inj (hl.1.symm.trans hget)
  rcases List.mem_append.mp (hs.perm.symm.subset hv) with hvo | hvq
  · exact .inr ⟨d'.toNat, (hg.isWalkDist_iff hpos).mpr (h.dist.exact v hvo d' ps hl).1,
      Nat.le_refl _⟩
  · have hfull := leastNode_eq_none_iff.mp hend v hvq
    rw [hl.distOf, lt_uint32Max_iff, not_not] at hfull
    exact .inl hfull

end WrapInv

theorem Cheap.not_neverCheaper (h : Cheap g src st) (hg : Finalized g) (hpos : PositiveMetrics g) :
    ¬ NeverCheaper g src ⟨st.dist, st.path, st.prev⟩ := by
  intro hnever
  obtain ⟨v, hv, d, ps, hl, hlt, hsmall⟩ := h
  rcases hnever v hv d hl.1 with rfl | ⟨c, hc, hle⟩
  · exact absurd rfl (lt_uint32Max_iff.mp hlt)
  · exact absurd (hsmall c ((hg.isWalkDist_iff hpos).mp hc)) (Nat.not_lt.mpr hle)

/-- **The search** without callbacks reports no distance that is too small exactly under the
condition. -/
theorem graphDijkstra_neverCheaper_iff (hg : Finalized g) (hpos : PositiveMetrics g)
    (hsrc : src ∈ g.nodes) :
    ∃ res, graphDijkstra g src defaultOps = .ok res ∧ (NeverCheaper g src res ↔ NoWrap g src) := by
  have hinit : WrapInv g src [] (dijkstraInit g src defaultOps) :=
    ⟨.init g src, .refl _, by simp, trivial⟩
  -- the search has been right so far, or it has gone wrong for good
  obtain ⟨order, st, hloop, hs, h, hend⟩ := SearchInv.loop hg
    (fun order st => WrapInv g src order st ∨ Cheap g src st ∧ ¬ NoWrap g src)
    (fun order st u paths st' hs h hleast hs' _ hpop => by
      rcases h with h | ⟨hcheap, hwrap⟩
      · by_cases hfit : ∀ v ∈ st.queue.erase u, ∀ n, Offers g src u v n → n < UInt32.size
        · exact .inl (h.pop_of_fits hg hpos hs hleast hs' hpop hfit)
        · simp only [not_forall, Nat.not_lt] at hfit
          obtain ⟨v, hv, n, hn, hsize⟩ := hfit
          exact .inr ⟨h.cheap_of_wrap hg hpos hs hleast hpop hv hn hsize,
            h.not_noWrap hg hpos hs hleast hv hn hsize⟩
      · exact .inr ⟨hcheap.pop hpop, hwrap⟩)
    (g.nodes.length + 1) (SearchInv.init g src defaultOps) (.inl hinit) (Nat.lt_succ_self _)
  have hne := hs.order_ne_nil hsrc hend
  refine ⟨⟨st.dist, st.path, st.prev⟩, by rw [graphDijkstra, hloop]; rfl, ?_⟩
  rcases h with h | ⟨hcheap, hwrap⟩
  · exact iff_of_true (h.neverCheaper hg hpos hs hend) (h.noWrap hg hpos hs hne hend)
  · exact iff_of_false (hcheap.not_neverCheaper hg hpos) hwrap

end Srn
