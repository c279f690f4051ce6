import Mathlib.Data.List.Nodup
import Srn.Graph.Tables
import Srn.Lib.Fault
import Srn.Lib.Route

/-!
# Srn.Graph.Search

The search of `graph_dijkstra` for arbitrary callbacks, whatever costs they return: it
ends without a fault, and the paths it records are exactly the chains of the `prev` table,
each of which is a route of the graph that repeats no node.

The argument needs nothing about costs.  A node enters `prev` lists only when it is taken
from the queue, and the `prev` list of a node is not touched after the node itself was
taken; so every node's list points to nodes that were taken before it, back to the source,
which is always the first.
-/

namespace Srn

variable {ε σ : Type} {g : Graph ε} {ops : DOps ε σ}

/-! ## The least node of the queue -/

theorem leastNode_eq_some_iff {dist : Table NodeId UInt32} {queue : List NodeId} {u : NodeId} :
    leastNode dist queue = some u ↔ Least.IsFirst (distOf dist) uint32Max queue u :=
  Least.foldl_step_eq_some_iff fun _ _ => UInt32.lt_iff_toNat_lt

theorem leastNode_eq_none_iff {dist : Table NodeId UInt32} {queue : List NodeId} :
    leastNode dist queue = none ↔ ∀ v ∈ queue, ¬ distOf dist v < uint32Max :=
  Least.foldl_step_eq_none_iff fun _ _ => UInt32.lt_iff_toNat_lt

/-! ## One round -/

/-- What the tables record about a node. -/
def Label (st : DState σ) (v : NodeId) (d : UInt32) (ps : List NodeId) : Prop :=
  st.dist.get v = some d ∧ st.prev.get v = some ps

/-- Two states record the same about a node. -/
def SameAt (st st' : DState σ) (v : NodeId) : Prop :=
  st'.dist.get v = st.dist.get v ∧ st'.prev.get v = st.prev.get v

/-- The effect of an offer of cost `alt` through `u`. -/
def relaxed (u : NodeId) (alt d : UInt32) (ps : List NodeId) : UInt32 × List NodeId :=
  if alt < d then (alt, [u]) else if alt = d then (d, ps ++ [u]) else (d, ps)

theorem Label.distOf {st : DState σ} {v : NodeId} {d : UInt32} {ps : List NodeId}
    (h : Label st v d ps) : distOf st.dist v = d := by
  simp [Srn.distOf, h.1]

/-- The next node has the least distance of the queue. -/
theorem Label.le_of_leastNode {st : DState σ} {u v : NodeId} {d e : UInt32} {ps qs : List NodeId}
    (h : Label st u d ps) (hleast : leastNode st.dist st.queue = some u) (hv : v ∈ st.queue)
    (h' : Label st v e qs) : d.toNat ≤ e.toNat := by
  have hnot := (leastNode_eq_some_iff.mp hleast).not_lt (fun _ _ => UInt32.lt_iff_toNat_lt) hv
  rw [h.distOf, h'.distOf, UInt32.lt_iff_toNat_lt] at hnot
  exact Nat.not_lt.mp hnot

theorem Label.unique {st : DState σ} {v : NodeId} {d d' : UInt32} {ps ps' : List NodeId}
    (h : Label st v d ps) (h' : Label st v d' ps') : d = d' ∧ ps = ps' :=
  ⟨Option.some.inj (h.1.symm.trans h'.1), Option.some.inj (h.2.symm.trans h'.2)⟩

theorem SameAt.label_iff {st st' : DState σ} {v : NodeId} (h : SameAt st st' v) {d : UInt32}
    {ps : List NodeId} : Label st' v d ps ↔ Label st v d ps := by
  rw [Label, Label, h.1, h.2]

/-- One neighbour in the queue. -/
theorem relax_of_mem (ops : DOps ε σ) {st : DState σ} {u v : NodeId} {e : Edge ε} {d : UInt32}
    {ps : List NodeId} (hv : v ∈ st.queue) (he : g.minEdges.get (u, v) = some e)
    (hlabel : Label st v d ps) :
    ∃ st', relax g ops u st v = .ok st' ∧ st'.queue = st.queue ∧ st'.path = st.path ∧
      (∀ x, x ≠ v → SameAt st st' x) ∧
      Label st' v (relaxed u (ops.cost (distOf st.dist u) e st.state) d ps).1
        (relaxed u (ops.cost (distOf st.dist u) e st.state) d ps).2 := by
  have hother : ∀ {x : NodeId}, x ≠ v → ¬ v = x := fun h => Ne.symm h
  unfold relax relaxed
  rw [if_neg (not_not.mpr hv), he]
  simp only [offer, hlabel.distOf, hlabel.2]
  split_ifs with hlt heq
  · exact ⟨_, rfl, rfl, rfl, fun x hx => by simp [SameAt, hother hx], by simp [Label]⟩
  · exact ⟨_, rfl, rfl, rfl, fun x hx => by simp [SameAt, hother hx],
      by simp [Label, hlabel.1]⟩
  · exact ⟨_, rfl, rfl, rfl, fun x _ => ⟨rfl, rfl⟩, hlabel⟩

/-- What the loop over a list of neighbours `ns` of `u` does to the tables. -/
structure Relaxed (g : Graph ε) (ops : DOps ε σ) (u : NodeId) (ns : List NodeId)
    (st st' : DState σ) : Prop where
  queue : st'.queue = st.queue
  path : st'.path = st.path
  same : ∀ v, v ∉ ns ∨ v ∉ st.queue → SameAt st st' v
  offer : ∀ v ∈ ns, v ∈ st.queue → ∀ e d ps, g.minEdges.get (u, v) = some e → Label st v d ps →
    ∃ x, Label st' v (relaxed u (ops.cost (distOf st.dist u) e x) d ps).1
      (relaxed u (ops.cost (distOf st.dist u) e x) d ps).2

/-- The nodes of the queue keep a label. -/
theorem Relaxed.label {u : NodeId} {ns : List NodeId} {st st' : DState σ}
    (h : Relaxed g ops u ns st st')
    (hmin : ∀ v ∈ ns, v ∈ st.queue → ∃ e, g.minEdges.get (u, v) = some e) {v : NodeId}
    (hv : v ∈ st.queue) (hlabel : ∃ d ps, Label st v d ps) :
    ∃ d ps, Label st' v d ps := by
  obtain ⟨d, ps, hl⟩ := hlabel
  by_cases hns : v ∈ ns
  · obtain ⟨e, he⟩ := hmin v hns hv
    obtain ⟨x, hx⟩ := h.offer v hns hv e d ps he hl
    exact ⟨_, _, hx⟩
  · exact ⟨d, ps, (h.same v (.inl hns)).label_iff.mpr hl⟩

/-- One neighbour, in the queue or not. -/
theorem relax_spec (ops : DOps ε σ) {st : DState σ} {u v : NodeId}
    (hlabel : ∀ v ∈ st.queue, ∃ d ps, Label st v d ps)
    (hmin : v ∈ st.queue → ∃ e, g.minEdges.get (u, v) = some e) :
    ∃ st', relax g ops u st v = .ok st' ∧ Relaxed g ops u [v] st st' := by
  by_cases hv : v ∈ st.queue
  · obtain ⟨e, he⟩ := hmin hv
    obtain ⟨d, ps, hl⟩ := hlabel v hv
    obtain ⟨st', hrelax, hqueue, hpath, hsame, hnew⟩ := relax_of_mem ops hv he hl
    refine ⟨st', hrelax, hqueue, hpath, fun x hx => hsame x ?_, fun x hx _ e' d' ps' he' hl' => ?_⟩
    · rintro rfl
      simp [hv] at hx
    · obtain rfl := List.mem_singleton.mp hx
      obtain ⟨rfl, rfl⟩ := hl.unique hl'
      rw [he, Option.some.injEq] at he'
      exact ⟨st.state, he' ▸ hnew⟩
  · refine ⟨st, by rw [relax, if_pos hv], rfl, rfl, fun x _ => ⟨rfl, rfl⟩, fun x hx hxq => ?_⟩
    exact absurd (List.mem_singleton.mp hx ▸ hxq) hv

/-- Two loops in a row, over disjoint lists of neighbours. -/
theorem Relaxed.append {u : NodeId} {ns₁ ns₂ : List NodeId} {st₀ st₁ st₂ : DState σ}
    (h₁ : Relaxed g ops u ns₁ st₀ st₁) (h₂ : Relaxed g ops u ns₂ st₁ st₂)
    (hdisjoint : List.Disjoint ns₁ ns₂) (hu : u ∉ st₀.queue) :
    Relaxed g ops u (ns₁ ++ ns₂) st₀ st₂ where
  queue := h₂.queue.trans h₁.queue
  path := h₂.path.trans h₁.path
  same v hv := by
    rw [List.mem_append, not_or] at hv
    have s₁ := h₁.same v (hv.imp_left And.left)
    have s₂ := h₂.same v (hv.imp And.right fun h => h₁.queue.symm ▸ h)
    exact ⟨s₂.1.trans s₁.1, s₂.2.trans s₁.2⟩
  offer v hv hq e d ps he hl := by
    have hdist : distOf st₁.dist u = distOf st₀.dist u := by
      rw [distOf, distOf, (h₁.same u (.inr hu)).1]
    rcases List.mem_append.mp hv with hv | hv
    · obtain ⟨x, hx⟩ := h₁.offer v hv hq e d ps he hl
      exact ⟨x, (h₂.same v (.inl fun h => hdisjoint hv h)).label_iff.mpr hx⟩
    · have hl₁ := (h₁.same v (.inl fun h => hdisjoint h hv)).label_iff.mpr hl
      obtain ⟨x, hx⟩ := h₂.offer v hv (h₁.queue.symm ▸ hq) e d ps he hl₁
      exact ⟨x, hdist ▸ hx⟩

/-- **The loop over the neighbours.** -/
theorem foldlM_relax (ops : DOps ε σ) {u : NodeId} (ns : List NodeId) (hns : ns.Nodup)
    (st : DState σ) (hu : u ∉ st.queue) (hlabel : ∀ v ∈ st.queue, ∃ d ps, Label st v d ps)
    (hmin : ∀ v ∈ ns, v ∈ st.queue → ∃ e, g.minEdges.get (u, v) = some e) :
    ∃ st', ns.foldlM (relax g ops u) st = .ok st' ∧ Relaxed g ops u ns st st' := by
  induction ns generalizing st with
  | nil => exact ⟨st, rfl, rfl, rfl, fun v _ => ⟨rfl, rfl⟩, by simp⟩
  | cons v ns ih =>
    obtain ⟨hvns, hns'⟩ := List.nodup_cons.mp hns
    obtain ⟨st₁, hrelax, h₁⟩ := relax_spec ops hlabel (hmin v List.mem_cons_self)
    have hlabel₁ : ∀ x ∈ st₁.queue, ∃ d ps, Label st₁ x d ps := by
      intro x hx
      rw [h₁.queue] at hx
      refine h₁.label (fun y hy => ?_) hx (hlabel x hx)
      rw [List.mem_singleton.mp hy]
      exact hmin v List.mem_cons_self
    obtain ⟨st', hfold, h₂⟩ := ih hns' st₁ (h₁.queue.symm ▸ hu) hlabel₁
      fun x hx hq => hmin x (List.mem_cons_of_mem _ hx) (h₁.queue ▸ hq)
    refine ⟨st', ?_, h₁.append h₂ (by simpa using hvns) hu⟩
    rw [List.foldlM_cons, hrelax]
    exact hfold

/-- What one round of the main loop does: `u` leaves the queue with its paths, and makes an
offer to every node of the queue it has a minimal edge to. -/
structure Popped (g : Graph ε) (ops : DOps ε σ) (u : NodeId) (paths : List (List NodeId))
    (st st' : DState σ) : Prop where
  queue : st'.queue = st.queue.erase u
  path : st'.path = st.path.set u paths
  same : ∀ v, v ∉ st.queue.erase u ∨ g.minEdges.get (u, v) = none → SameAt st st' v
  offer : ∀ v ∈ st.queue.erase u, ∀ e d ps, g.minEdges.get (u, v) = some e → Label st v d ps →
    ∃ x, Label st' v (relaxed u (ops.cost (distOf st.dist u) e x) d ps).1
      (relaxed u (ops.cost (distOf st.dist u) e x) d ps).2

/-- Every node keeps a label. -/
theorem Popped.label {u v : NodeId} {paths : List (List NodeId)} {st st' : DState σ}
    (h : Popped g ops u paths st st') (hlabel : ∃ d ps, Label st v d ps) :
    ∃ d ps, Label st' v d ps := by
  obtain ⟨d, ps, hl⟩ := hlabel
  by_cases hv : v ∈ st.queue.erase u
  · cases he : g.minEdges.get (u, v) with
    | none => exact ⟨d, ps, (h.same v (.inr he)).label_iff.mpr hl⟩
    | some e =>
      obtain ⟨x, hx⟩ := h.offer v hv e d ps he hl
      exact ⟨_, _, hx⟩
  · exact ⟨d, ps, (h.same v (.inl hv)).label_iff.mpr hl⟩

/-- The loop over all neighbours of a node that has left the queue. -/
theorem Relaxed.popped {u : NodeId} {ns : List NodeId} {st st' : DState σ}
    {paths : List (List NodeId)} (hu : u ∉ st.queue.erase u)
    (hmem : ∀ v, v ≠ u → (v ∈ ns ↔ ∃ e, g.minEdges.get (u, v) = some e))
    (h : Relaxed g ops u ns
      { st with path := st.path.set u paths, queue := st.queue.erase u } st') :
    Popped g ops u paths st st' := by
  have hne : ∀ {v}, v ∈ st.queue.erase u → v ≠ u := fun hv h => hu (h ▸ hv)
  refine ⟨h.queue, h.path, fun v hv => ?_, fun v hv e d ps he hl => ?_⟩
  · by_cases hq : v ∈ st.queue.erase u
    · refine h.same v (.inl fun hns => ?_)
      obtain ⟨e, he⟩ := (hmem v (hne hq)).mp hns
      rw [hv.resolve_left (not_not.mpr hq)] at he
      contradiction
    · exact h.same v (.inr hq)
  · exact h.offer v ((hmem v (hne hv)).mpr ⟨e, he⟩) hv e d ps he hl

/-- **One round** of the main loop. -/
theorem dijkstraRound_spec (hg : Finalized g) (ops : DOps ε σ) {u : NodeId} {st : DState σ}
    {paths : List (List NodeId)} (hu : u ∈ g.nodes) (hnodup : st.queue.Nodup)
    (hlabel : ∀ v ∈ st.queue, ∃ d ps, Label st v d ps)
    (hpaths : computePaths st.prev (g.nodes.length + 1) u = .ok paths) :
    ∃ st', dijkstraRound g ops u st = .ok st' ∧ Popped g ops u paths st st' := by
  obtain ⟨ns, hget, hns, hmem⟩ := hg.neighs_get hu
  have herase : u ∉ st.queue.erase u := hnodup.not_mem_erase
  have hne : ∀ {v}, v ∈ st.queue.erase u → v ≠ u := fun hv h => herase (h ▸ hv)
  obtain ⟨st', hfold, h⟩ := foldlM_relax ops ns hns
    { st with path := st.path.set u paths, queue := st.queue.erase u } herase
    (fun v hv => hlabel v (List.mem_of_mem_erase hv)) (fun v hv hq => (hmem v (hne hq)).mp hv)
  refine ⟨st', ?_, h.popped herase hmem⟩
  rw [dijkstraRound, hpaths]
  simp only [bind, Except.bind, hget]
  exact hfold

/-! ## Chains -/

/-- The paths `__compute_paths` follows: from a node along the `prev` lists to a node
without predecessor, which is not listed. -/
inductive Chain (prev : Table NodeId (List NodeId)) : NodeId → List NodeId → Prop
  | nil {u} : prev.get u = some [] → Chain prev u []
  | cons {u p ps r} : prev.get u = some ps → p ∈ ps → Chain prev p r → Chain prev u (u :: r)

/-- The nodes taken from the queue so far, the last one first: the `prev` list of each
points to nodes taken before it, and only the source has none. -/
def Layered (g : Graph ε) (src : NodeId) (prev : Table NodeId (List NodeId)) :
    List NodeId → Prop
  | [] => True
  | v :: before => (∃ ps, prev.get v = some ps ∧ ps.Nodup ∧ (ps = [] → before = [] ∧ v = src) ∧
      ∀ u ∈ ps, u ∈ before ∧ ∃ e, g.minEdges.get (u, v) = some e) ∧ Layered g src prev before

variable {src : NodeId} {prev prev' : Table NodeId (List NodeId)} {order : List NodeId}

/-- The source is taken first. -/
theorem Layered.src_mem (h : Layered g src prev order) (hne : order ≠ []) : src ∈ order := by
  induction order with
  | nil => exact absurd rfl hne
  | cons v before ih =>
    obtain ⟨⟨ps, -, -, hsrc, hps⟩, hbefore⟩ := h
    by_cases hb : before = []
    · cases ps with
      | nil => simp [(hsrc rfl).2]
      | cons p ps => simpa [hb] using hps p List.mem_cons_self
    · exact List.mem_cons_of_mem _ (ih hbefore hb)

/-- Layers depend only on the lists of their nodes. -/
theorem Layered.congr (h : Layered g src prev order)
    (hsame : ∀ v ∈ order, prev'.get v = prev.get v) : Layered g src prev' order := by
  induction order with
  | nil => trivial
  | cons v before ih =>
    obtain ⟨⟨ps, hget, hrest⟩, hbefore⟩ := h
    exact ⟨⟨ps, (hsame v List.mem_cons_self).trans hget, hrest⟩,
      ih hbefore fun x hx => hsame x (List.mem_cons_of_mem _ hx)⟩

/-- The list of a taken node. -/
theorem Layered.of_mem (h : Layered g src prev order) {v : NodeId} (hv : v ∈ order) :
    ∃ ps, prev.get v = some ps ∧ ps.Nodup ∧ (ps = [] → v = src) ∧
      ∀ u ∈ ps, u ∈ order ∧ ∃ e, g.minEdges.get (u, v) = some e := by
  induction order with
  | nil => simp at hv
  | cons x before ih =>
    obtain ⟨⟨ps, hget, hnodup, hsrc, hps⟩, hbefore⟩ := h
    rcases List.mem_cons.mp hv with rfl | hv
    · exact ⟨ps, hget, hnodup, fun h => (hsrc h).2,
        fun u hu => ⟨List.mem_cons_of_mem _ (hps u hu).1, (hps u hu).2⟩⟩
    · obtain ⟨ps', hget', hnodup', hsrc', hps'⟩ := ih hbefore hv
      exact ⟨ps', hget', hnodup', hsrc',
        fun u hu => ⟨List.mem_cons_of_mem _ (hps' u hu).1, (hps' u hu).2⟩⟩

/-- So do the chains of a taken node. -/
theorem Chain.congr (h : Layered g src prev order)
    (hsame : ∀ v ∈ order, prev'.get v = prev.get v) {v : NodeId} (hv : v ∈ order)
    {r : List NodeId} (hc : Chain prev v r) : Chain prev' v r := by
  induction hc with
  | nil hget => exact .nil ((hsame _ hv).trans hget)
  | cons hget hp _ ih =>
    obtain ⟨ps, hget', -, -, hps⟩ := h.of_mem hv
    rw [hget, Option.some.injEq] at hget'
    exact .cons ((hsame _ hv).trans hget) hp (ih (hps _ (hget' ▸ hp)).1)

/-- A chain determines the node it starts from. -/
theorem Chain.start_unique (h : Layered g src prev order) {u v : NodeId} (hu : u ∈ order)
    (hv : v ∈ order) {r : List NodeId} (hcu : Chain prev u r) (hcv : Chain prev v r) : u = v := by
  cases hcu with
  | nil hgetu =>
    cases hcv with
    | nil hgetv =>
      obtain ⟨ps, hget, -, hsrc, -⟩ := h.of_mem hu
      obtain ⟨ps', hget', -, hsrc', -⟩ := h.of_mem hv
      rw [hgetu, Option.some.injEq] at hget
      rw [hgetv, Option.some.injEq] at hget'
      rw [hsrc hget.symm, hsrc' hget'.symm]
  | cons => cases hcv; rfl

/-- **Every chain is a simple route** from the source. -/
theorem Chain.isRoute (h : Layered g src prev order) (hnodup : order.Nodup) {v : NodeId}
    (hv : v ∈ order) {r : List NodeId} (hc : Chain prev v r) :
    (src :: r).Nodup ∧ r ⊆ order ∧ ∃ c, Route.IsRoute g.weight src v r c := by
  induction order generalizing v r with
  | nil => simp at hv
  | cons x before ih =>
    obtain ⟨hx, hbefore'⟩ := List.nodup_cons.mp hnodup
    obtain ⟨⟨ps, hget, hnodup', hsrc, hps⟩, hbefore⟩ := h
    rcases List.mem_cons.mp hv with rfl | hv
    · cases hc with
      | nil hget' =>
        rw [hget, Option.some.injEq] at hget'
        rw [(hsrc hget').2]
        exact ⟨by simp, by simp, 0, .refl⟩
      | cons hget' hp hc =>
        rw [hget, Option.some.injEq] at hget'
        subst hget'
        obtain ⟨hp', e, he⟩ := hps _ hp
        obtain ⟨hsimple, hsub, c, hroute⟩ := ih hbefore hbefore' hp' hc
        have hsource : src ≠ v := by
          rintro rfl
          exact hx (hbefore.src_mem (List.ne_nil_of_mem hp'))
        have hfresh : v ∉ _ := fun hvr => hx (hsub hvr)
        refine ⟨?_, ?_, _, hroute.snoc (m := e.metric.toNat) (by simp [Graph.weight, he])⟩
        · simp only [List.nodup_cons, List.mem_cons, not_or] at hsimple ⊢
          exact ⟨⟨hsource, hsimple.1⟩, hfresh, hsimple.2⟩
        · exact List.cons_subset.mpr
            ⟨List.mem_cons_self, fun y hy => List.mem_cons_of_mem _ (hsub hy)⟩
    · obtain ⟨hsimple, hsub, hroute⟩ := ih hbefore hbefore' hv hc
      exact ⟨hsimple, fun y hy => List.mem_cons_of_mem _ (hsub hy), hroute⟩

/-! ## The recorded paths -/

theorem chain_iff_of_nil {u : NodeId} (hget : prev.get u = some []) {r : List NodeId} :
    Chain prev u r ↔ r = [] := by
  constructor
  · rintro (_ | ⟨hget', hp, -⟩)
    · rfl
    · rw [hget, Option.some.injEq] at hget'
      simp [← hget'] at hp
  · rintro rfl
    exact .nil hget

theorem chain_iff_of_ne_nil {u : NodeId} {ps : List NodeId} (hget : prev.get u = some ps)
    (hne : ps ≠ []) {r : List NodeId} :
    Chain prev u r ↔ ∃ q ∈ ps, ∃ r', Chain prev q r' ∧ u :: r' = r := by
  constructor
  · rintro (hget' | ⟨hget', hq, hc⟩)
    · exact absurd (Option.some.inj (hget.symm.trans hget')) hne
    · rw [hget, Option.some.injEq] at hget'
      exact ⟨_, hget' ▸ hq, _, hc, rfl⟩
  · rintro ⟨q, hq, r', hc, rfl⟩
    exact .cons hget hq hc

/-- **`compute_paths`** ends and lists every chain once. -/
theorem computePathsFrom_spec (h : Layered g src prev order) {u : NodeId} (hu : u ∈ order)
    (fuel : ℕ) (hfuel : order.length ≤ fuel) :
    ∃ paths : List (List NodeId), paths.Nodup ∧ (∀ r, r ∈ paths ↔ Chain prev u r) ∧
      ∀ tmp, computePathsFrom prev fuel tmp u = .ok (paths.map (tmp ++ ·)) := by
  induction order generalizing u fuel with
  | nil => simp at hu
  | cons v before ih =>
    obtain ⟨⟨ps, hget, hnodup, hsrc, hps⟩, hbefore⟩ := h
    obtain ⟨fuel, rfl⟩ : ∃ n, fuel = n + 1 := ⟨fuel - 1, by simp at hfuel; omega⟩
    have hfuel' : before.length ≤ fuel := by simpa using hfuel
    rcases List.mem_cons.mp hu with rfl | hu
    · cases ps with
      | nil =>
        refine ⟨[[]], by simp, fun r => ?_, fun tmp => by simp [computePathsFrom, hget]⟩
        rw [List.mem_singleton, chain_iff_of_nil hget]
      | cons p ps =>
        choose! paths hnodup' hmem hrun using fun q hq => ih hbefore (u := q) hq fuel hfuel'
        refine ⟨(p :: ps).flatMap fun q => (paths q).map (u :: ·), ?_, fun r => ?_,
          fun tmp => ?_⟩
        · rw [List.nodup_flatMap]
          refine ⟨fun q hq => (hnodup' q (hps q hq).1).map (List.cons_injective), ?_⟩
          refine hnodup.imp_of_mem fun {a b} ha hb hab => ?_
          intro r hra hrb
          obtain ⟨ra, hra', rfl⟩ := List.mem_map.mp hra
          obtain ⟨rb, hrb', heq⟩ := List.mem_map.mp hrb
          rw [List.cons_injective heq] at hrb'
          exact hab (Chain.start_unique hbefore (hps a ha).1 (hps b hb).1
            ((hmem a (hps a ha).1 _).mp hra') ((hmem b (hps b hb).1 _).mp hrb'))
        · rw [chain_iff_of_ne_nil hget (List.cons_ne_nil _ _)]
          simp only [List.mem_flatMap, List.mem_map]
          refine exists_congr fun q => and_congr_right fun hq => exists_congr fun r' => ?_
          rw [hmem q (hps q hq).1 r']
        · rw [computePathsFrom, hget]
          simp only
          rw [Fault.mapM_eq_ok fun q hq => hrun q (hps q hq).1 (tmp ++ [u])]
          simp [bind, Except.bind, pure, Except.pure, List.flatMap, List.map_flatten,
            Function.comp_def]
    · exact ih hbefore hu _ (by omega)

/-- Two tables that agree on taken nodes have the same chains there. -/
theorem chain_congr (h : Layered g src prev order)
    (hsame : ∀ v ∈ order, prev'.get v = prev.get v) {v : NodeId} (hv : v ∈ order)
    {r : List NodeId} : Chain prev' v r ↔ Chain prev v r :=
  ⟨Chain.congr (h.congr hsame) (fun x hx => (hsame x hx).symm) hv, Chain.congr h hsame hv⟩

/-! ## The invariant of the main loop -/

/-- The state of the search when the nodes `order` have been taken from the queue. -/
structure SearchInv (g : Graph ε) (src : NodeId) (order : List NodeId) (st : DState σ) :
    Prop where
  perm : (order ++ st.queue).Perm g.nodes
  label : ∀ v ∈ g.nodes, ∃ d ps, Label st v d ps
  start : order = [] → ∀ v ∈ g.nodes, Label st v (if v = src then 0 else uint32Max) []
  layered : Layered g src st.prev order
  waiting : order ≠ [] → ∀ v ∈ st.queue, ∀ d ps, Label st v d ps → ps.Nodup ∧
    (∀ u ∈ ps, u ∈ order ∧ ∃ e, g.minEdges.get (u, v) = some e) ∧ (ps = [] → d = uint32Max)
  pathQueue : ∀ v ∈ st.queue, st.path.get v = some []
  pathOrder : ∀ v ∈ order, ∃ paths, st.path.get v = some paths ∧ paths.Nodup ∧
    ∀ r, r ∈ paths ↔ Chain st.prev v r

namespace SearchInv

variable {st st' : DState σ} {u : NodeId}

theorem nodup (hg : Finalized g) (h : SearchInv g src order st) : (order ++ st.queue).Nodup :=
  h.perm.nodup_iff.mpr hg.nodup

theorem mem_nodes (h : SearchInv g src order st) {v : NodeId} (hv : v ∈ st.queue) :
    v ∈ g.nodes :=
  h.perm.subset (List.mem_append_right _ hv)

theorem not_mem_order (hg : Finalized g) (h : SearchInv g src order st) {v : NodeId}
    (hv : v ∈ st.queue) : v ∉ order := fun hvo =>
  (List.nodup_append.mp (h.nodup hg)).2.2 v hvo v hv rfl

/-- The nodes that stay in the queue are none of those that have been taken. -/
theorem not_mem_cons (hg : Finalized g) (h : SearchInv g src order st) {v : NodeId}
    (hv : v ∈ st.queue.erase u) : v ∉ u :: order := by
  intro hvo
  rcases List.mem_cons.mp hvo with rfl | hvo
  · exact (List.nodup_append.mp (h.nodup hg)).2.1.not_mem_erase hv
  · exact h.not_mem_order hg (List.mem_of_mem_erase hv) hvo

/-- A node of the queue with a finite distance fits on top of the layers. -/
theorem layered_cons (h : SearchInv g src order st) (hu : u ∈ st.queue)
    (hdist : distOf st.dist u < uint32Max) : Layered g src st.prev (u :: order) := by
  obtain ⟨d, ps, hl⟩ := h.label u (h.mem_nodes hu)
  rw [hl.distOf] at hdist
  refine ⟨⟨ps, hl.2, ?_⟩, h.layered⟩
  by_cases horder : order = []
  · obtain ⟨rfl, rfl⟩ := hl.unique (h.start horder u (h.mem_nodes hu))
    refine ⟨List.nodup_nil, fun _ => ⟨horder, ?_⟩, by simp⟩
    by_contra hsrc
    rw [if_neg hsrc, lt_uint32Max_iff] at hdist
    exact hdist rfl
  · obtain ⟨hnodup, hps, hnil⟩ := h.waiting horder u hu d ps hl
    exact ⟨hnodup, fun hps => absurd (hnil hps) (lt_uint32Max_iff.mp hdist), hps⟩

/-- A round leaves the lists of the taken nodes alone. -/
theorem prev_same (hg : Finalized g) (h : SearchInv g src order st)
    {paths : List (List NodeId)} (hpop : Popped g ops u paths st st') {v : NodeId}
    (hv : v ∈ u :: order) : SameAt st st' v :=
  hpop.same v (.inl fun hq => h.not_mem_cons hg hq hv)

/-- What the tables record about the nodes that stay in the queue. -/
theorem waiting_erase (hg : Finalized g) (h : SearchInv g src order st) (hu : u ∈ st.queue)
    (hdist : distOf st.dist u < uint32Max) {v : NodeId} (hv : v ∈ st.queue.erase u) {d : UInt32}
    {ps : List NodeId} (hl : Label st v d ps) : ps.Nodup ∧
      (∀ x ∈ ps, x ∈ order ∧ ∃ e, g.minEdges.get (x, v) = some e) ∧ (ps = [] → d = uint32Max) := by
  have hq := List.mem_of_mem_erase hv
  by_cases horder : order = []
  · have hvu : v ≠ u := List.ne_of_not_mem_cons (h.not_mem_cons hg hv)
    have husrc : u = src := by
      obtain ⟨⟨ps', hget, -, hsrc, hps⟩, -⟩ := h.layered_cons hu hdist
      cases ps' with
      | nil => exact (hsrc rfl).2
      | cons p ps' => simpa [horder] using (hps p List.mem_cons_self).1
    obtain ⟨rfl, rfl⟩ := hl.unique (h.start horder v (h.mem_nodes hq))
    exact ⟨List.nodup_nil, by simp, fun _ => if_neg (husrc ▸ hvu)⟩
  · exact h.waiting horder v hq d ps hl

/-- What the tables record about them after the round. -/
theorem waiting_pop (hg : Finalized g) (h : SearchInv g src order st) (hu : u ∈ st.queue)
    (hdist : distOf st.dist u < uint32Max) {paths : List (List NodeId)}
    (hpop : Popped g ops u paths st st') {v : NodeId} (hv : v ∈ st.queue.erase u) {d' : UInt32}
    {ps' : List NodeId} (hl' : Label st' v d' ps') : ps'.Nodup ∧
      (∀ x ∈ ps', x ∈ u :: order ∧ ∃ e, g.minEdges.get (x, v) = some e) ∧
      (ps' = [] → d' = uint32Max) := by
  obtain ⟨d, ps, hl⟩ := h.label v (h.mem_nodes (List.mem_of_mem_erase hv))
  obtain ⟨hnodup, hps, hnil⟩ := h.waiting_erase hg hu hdist hv hl
  have hps' : ∀ x ∈ ps, x ∈ u :: order ∧ ∃ e, g.minEdges.get (x, v) = some e :=
    fun x hx => ⟨List.mem_cons_of_mem _ (hps x hx).1, (hps x hx).2⟩
  cases he : g.minEdges.get (u, v) with
  | none =>
    obtain ⟨rfl, rfl⟩ := hl'.unique ((hpop.same v (.inr he)).label_iff.mpr hl)
    exact ⟨hnodup, hps', hnil⟩
  | some e =>
    obtain ⟨x, hx⟩ := hpop.offer v hv e d ps he hl
    obtain ⟨rfl, rfl⟩ := hl'.unique hx
    have huv : ∀ y ∈ [u], y ∈ u :: order ∧ ∃ e, g.minEdges.get (y, v) = some e := by
      simp [he]
    unfold relaxed
    split_ifs with hlt heq
    · exact ⟨by simp, huv, by simp⟩
    · refine ⟨?_, fun y hy => (List.mem_append.mp hy).elim (hps' y) (huv y), by simp⟩
      refine List.nodup_append.mpr ⟨hnodup, by simp, ?_⟩
      rintro y hy z hz rfl
      rw [List.mem_singleton.mp hz] at hy
      exact (List.nodup_append.mp (h.nodup hg)).2.2 u (hps u hy).1 u hu rfl
    · exact ⟨hnodup, hps', hnil⟩

/-- **Step lemma** of the main loop. -/
theorem pop (hg : Finalized g) (h : SearchInv g src order st) (hu : u ∈ st.queue)
    (hdist : distOf st.dist u < uint32Max) {paths : List (List NodeId)}
    (hnodup : paths.Nodup) (hpaths : ∀ r, r ∈ paths ↔ Chain st.prev u r)
    (hpop : Popped g ops u paths st st') : SearchInv g src (u :: order) st' := by
  have hlayered := h.layered_cons hu hdist
  have hsame : ∀ v ∈ u :: order, st'.prev.get v = st.prev.get v :=
    fun v hv => (h.prev_same hg hpop hv).2
  have hfresh := List.nodup_append.mp (h.nodup hg)
  constructor
  · rw [hpop.queue]
    refine List.Perm.trans ?_ h.perm
    exact (List.perm_middle.symm).trans ((List.perm_cons_erase hu).symm.append_left order)
  · exact fun v hv => hpop.label (h.label v hv)
  · simp
  · exact hlayered.congr hsame
  · intro _ v hv d ps hl
    rw [hpop.queue] at hv
    exact h.waiting_pop hg hu hdist hpop hv hl
  · intro v hv
    rw [hpop.queue] at hv
    have hvu : ¬ u = v := by
      rintro rfl
      exact h.not_mem_cons hg hv List.mem_cons_self
    rw [hpop.path, Table.get_set, if_neg hvu]
    exact h.pathQueue v (List.mem_of_mem_erase hv)
  · intro v hv
    rw [hpop.path, Table.get_set]
    simp only [chain_congr hlayered hsame hv]
    split_ifs with huv
    · exact ⟨paths, rfl, hnodup, huv ▸ hpaths⟩
    · exact h.pathOrder v ((List.mem_cons.mp hv).resolve_left (Ne.symm huv))

/-- **Run lemma** for a loop whose rounds do what those of the main loop do: it ends without a
fault when no node of the queue is at a finite distance, and what every round preserves holds at
the end.  The states of the loop may be more than what `view` shows of them. -/
theorem loop_of_rounds {S : Type} (hg : Finalized g) (view : S → DState σ)
    (round : NodeId → S → Except GraphFault S) (run : ℕ → S → Except GraphFault S)
    (hdone : ∀ fuel s, leastNode (view s).dist (view s).queue = none → run (fuel + 1) s = .ok s)
    (hrun : ∀ fuel s u, leastNode (view s).dist (view s).queue = some u →
      run (fuel + 1) s = round u s >>= run fuel)
    (hround : ∀ u s paths, u ∈ g.nodes → (view s).queue.Nodup →
      (∀ v ∈ (view s).queue, ∃ d ps, Label (view s) v d ps) →
      computePaths (view s).prev (g.nodes.length + 1) u = .ok paths →
      ∃ s', round u s = .ok s' ∧ Popped g ops u paths (view s) (view s'))
    (I : List NodeId → S → Prop)
    (hstep : ∀ order s u paths s', SearchInv g src order (view s) → I order s →
      leastNode (view s).dist (view s).queue = some u → SearchInv g src (u :: order) (view s') →
      round u s = .ok s' → Popped g ops u paths (view s) (view s') → I (u :: order) s')
    (fuel : ℕ) {s : S} (h : SearchInv g src order (view s)) (hinv : I order s)
    (hfuel : (view s).queue.length < fuel) :
    ∃ order' s', run fuel s = .ok s' ∧ SearchInv g src order' (view s') ∧
      I order' s' ∧ leastNode (view s').dist (view s').queue = none := by
  induction fuel generalizing order s with
  | zero => omega
  | succ fuel ih =>
    cases hleast : leastNode (view s).dist (view s).queue with
    | none => exact ⟨order, s, hdone fuel s hleast, h, hinv, hleast⟩
    | some u =>
      have hfirst := leastNode_eq_some_iff.mp hleast
      have hu := hfirst.mem
      have hdist := hfirst.lt_bound
      have hlen : (u :: order).length ≤ g.nodes.length + 1 := by
        have hperm := h.perm.length_eq
        rw [List.length_append] at hperm
        rw [List.length_cons]
        omega
      obtain ⟨paths, hnodup, hpaths, hpathsRun⟩ :=
        computePathsFrom_spec (h.layered_cons hu hdist) List.mem_cons_self
          (g.nodes.length + 1) hlen
      obtain ⟨s', hs', hpop⟩ := hround u s _ (h.mem_nodes hu)
        (List.nodup_append.mp (h.nodup hg)).2.1 (fun v hv => h.label v (h.mem_nodes hv))
        (hpathsRun [])
      simp only [List.nil_append, List.map_id'] at hpop
      have h' := h.pop hg hu hdist hnodup hpaths hpop
      have hfuel' : (view s').queue.length < fuel := by
        rw [hpop.queue, List.length_erase_of_mem hu]
        have := List.length_pos_of_mem hu
        omega
      have hinv' := hstep _ _ _ _ _ h hinv hleast h' hs' hpop
      obtain ⟨order', s'', hloop, hend⟩ := ih h' hinv' hfuel'
      refine ⟨order', s'', ?_, hend⟩
      rw [hrun fuel s u hleast, hs']
      exact hloop

/-- The main loop. -/
theorem loop (hg : Finalized g) (I : List NodeId → DState σ → Prop)
    (hstep : ∀ order st u paths st', SearchInv g src order st → I order st →
      leastNode st.dist st.queue = some u → SearchInv g src (u :: order) st' →
      dijkstraRound g ops u st = .ok st' → Popped g ops u paths st st' → I (u :: order) st')
    (fuel : ℕ) (h : SearchInv g src order st) (hinv : I order st)
    (hfuel : st.queue.length < fuel) :
    ∃ order' st', dijkstraLoop g ops fuel st = .ok st' ∧ SearchInv g src order' st' ∧
      I order' st' ∧ leastNode st'.dist st'.queue = none :=
  loop_of_rounds hg (fun st => st) (dijkstraRound g ops) (dijkstraLoop g ops)
    (fun fuel st hleast => by rw [dijkstraLoop, hleast])
    (fun fuel st u hleast => by rw [dijkstraLoop, hleast])
    (fun _ _ _ hu hnodup hlabel hpaths => dijkstraRound_spec hg ops hu hnodup hlabel hpaths)
    I hstep fuel h hinv hfuel

/-- The invariant before the loop. -/
theorem init (g : Graph ε) (src : NodeId) (ops : DOps ε σ) :
    SearchInv g src [] (dijkstraInit g src ops) := by
  have hdist : ∀ v ∈ g.nodes, (dijkstraInit g src ops).dist.get v =
      some (if v = src then 0 else uint32Max) := by
    intro v hv
    rw [dijkstraInit, Table.get_foldl_set (fun v => if v = src then 0 else uint32Max), if_pos hv]
  have hnil : ∀ {α : Type} (v : NodeId), v ∈ g.nodes →
      (g.nodes.foldl (fun (t : Table NodeId (List α)) v => t.set v []) .empty).get v = some [] := by
    intro α v hv
    rw [Table.get_foldl_set (fun _ => []), if_pos hv]
  exact ⟨.refl _, fun v hv => ⟨_, _, hdist v hv, hnil v hv⟩,
    fun _ v hv => ⟨hdist v hv, hnil v hv⟩, trivial, fun h => absurd rfl h, fun v hv => hnil v hv,
    by simp⟩

/-- A search that has ended has taken its source. -/
theorem order_ne_nil (h : SearchInv g src order st) (hsrc : src ∈ g.nodes)
    (hend : leastNode st.dist st.queue = none) : order ≠ [] := by
  rintro rfl
  have hmax := leastNode_eq_none_iff.mp hend src (h.perm.symm.subset hsrc)
  rw [(h.start rfl src hsrc).distOf, if_pos rfl] at hmax
  exact hmax (by decide)

end SearchInv

/-- What a finished search records. -/
theorem SearchInv.paths (hg : Finalized g) {st : DState σ} (h : SearchInv g src order st)
    {v : NodeId} (hv : v ∈ g.nodes) : (∃ ps, st.prev.get v = some ps) ∧
      ∃ paths, st.path.get v = some paths ∧
        ∀ r ∈ paths, (src :: r).Nodup ∧ ∃ c, Route.IsRoute g.weight src v r c := by
  obtain ⟨d, ps, hl⟩ := h.label v hv
  refine ⟨⟨ps, hl.2⟩, ?_⟩
  have hnodup := List.nodup_append.mp (h.nodup hg)
  rcases List.mem_append.mp (h.perm.symm.subset hv) with hv | hv
  · obtain ⟨paths, hget, -, hpaths⟩ := h.pathOrder v hv
    refine ⟨paths, hget, fun r hr => ?_⟩
    obtain ⟨hsimple, -, hroute⟩ := ((hpaths r).mp hr).isRoute h.layered hnodup.1 hv
    exact ⟨hsimple, hroute⟩
  · exact ⟨[], h.pathQueue v hv, by simp⟩

/-- **Search theorem.** For any callbacks `graph_dijkstra` ends without a fault and with an
entry for every node, and every path it records is a route of the graph from the source that
repeats no node. -/
theorem graphDijkstra_path (hg : Finalized g) (ops : DOps ε σ) (src : NodeId) :
    ∃ d, graphDijkstra g src ops = .ok d ∧ ∀ v ∈ g.nodes, (∃ ps, d.prev.get v = some ps) ∧
      ∃ paths, d.path.get v = some paths ∧
        ∀ r ∈ paths, (src :: r).Nodup ∧ ∃ c, Route.IsRoute g.weight src v r c := by
  obtain ⟨order, st, hloop, h, -, -⟩ := SearchInv.loop hg (fun _ _ => True)
    (fun _ _ _ _ _ _ _ _ _ _ _ => trivial) (g.nodes.length + 1) (SearchInv.init g src ops) trivial
    (Nat.lt_succ_self _)
  exact ⟨_, by rw [graphDijkstra, hloop]; rfl, fun v hv => h.paths hg hv⟩

/-! ## The cache -/

/-- The search does not read the cache. -/
theorem dijkstraLoop_dcache (g : Graph ε) (dcache : Table NodeId Dres) (dirty cloned : Bool)
    (ops : DOps ε σ) (fuel : ℕ) (st : DState σ) :
    dijkstraLoop { g with dcache, dirty, cloned } ops fuel st = dijkstraLoop g ops fuel st := by
  induction fuel generalizing st with
  | zero => rfl
  | succ fuel ih =>
    simp only [dijkstraLoop, ih]
    rfl

theorem graphDijkstra_dcache (g : Graph ε) (dcache : Table NodeId Dres) (dirty cloned : Bool)
    (src : NodeId) : graphDijkstra { g with dcache, dirty, cloned } src defaultOps =
      graphDijkstra g src defaultOps := by
  rw [graphDijkstra, dijkstraLoop_dcache]
  rfl

theorem finalized_graphBuildCacheOne (hg : Finalized g) (node : NodeId) :
    ∃ g', graphBuildCacheOne g node = .ok g' ∧ Finalized g' ∧
      g' = { g with dcache := g'.dcache } := by
  obtain ⟨res, hres, -⟩ := graphDijkstra_path hg defaultOps node
  refine ⟨_, by rw [graphBuildCacheOne, hres]; rfl, ?_, rfl⟩
  refine ⟨hg.nodup, hg.ends, hg.minEdges, hg.neighs, fun u d hd => ?_⟩
  rw [graphDijkstra_dcache]
  rw [Table.get_set] at hd
  split_ifs at hd with hu
  · rw [← hu, hres, Option.some.inj hd]
  · exact hg.dcache u d hd

theorem finalized_foldlM_graphBuildCacheOne (nodes : List NodeId) (hg : Finalized g) :
    ∃ g', nodes.foldlM graphBuildCacheOne g = .ok g' ∧ Finalized g' ∧
      g' = { g with dcache := g'.dcache } := by
  induction nodes generalizing g with
  | nil => exact ⟨g, rfl, hg, rfl⟩
  | cons node nodes ih =>
    obtain ⟨g₁, hone, hg₁, heq₁⟩ := finalized_graphBuildCacheOne hg node
    obtain ⟨g₂, hrest, hg₂, heq₂⟩ := ih hg₁
    refine ⟨g₂, by rw [List.foldlM_cons, hone]; exact hrest, hg₂, ?_⟩
    rw [heq₂, heq₁]

/-- Building the cache of a finalised graph succeeds and changes nothing else. -/
theorem finalized_graphBuildCache (hg : Finalized g) :
    ∃ g', graphBuildCache g = .ok g' ∧ Finalized g' ∧ g' = { g with dcache := g'.dcache } :=
  finalized_foldlM_graphBuildCacheOne g.nodes hg

end Srn
