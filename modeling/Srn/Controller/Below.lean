import Srn.Controller.Delay

/-!
# Srn.Controller.Below

`graph_dijkstra` with `delay_below_ops`: the least metric among the paths whose delay stays within
that of the flow.  The callbacks keep a delay for every node, and refuse an edge that would exceed
the bound by offering `UINT32_MAX` for it.

The delay of a node is written when its `prev` list is replaced, and it is not when a predecessor
of equal cost is appended.  So it is the delay through the *first* node of the list, and what the
search says about delays holds for the first of the recorded paths, along the first nodes of the
lists (`FirstChain`); the other paths may exceed the bound.
-/

namespace Srn

open Route

/-! ## The first path -/

section

variable {ε σ : Type} {g : Graph ε} {ops : DOps ε σ} {src u v : NodeId} {order : List NodeId}
  {prev prev' : Table NodeId (List NodeId)} {st st' : DState σ} {r : List NodeId}

/-- The path along the first nodes of the `prev` lists. -/
inductive FirstChain (prev : Table NodeId (List NodeId)) : NodeId → List NodeId → Prop
  | nil {u : NodeId} : prev.get u = some [] → FirstChain prev u []
  | cons {u p : NodeId} {ps r : List NodeId} : prev.get u = some (p :: ps) →
      FirstChain prev p r → FirstChain prev u (u :: r)

theorem FirstChain.chain (h : FirstChain prev u r) : Chain prev u r := by
  induction h with
  | nil hget => exact .nil hget
  | cons hget _ ih => exact .cons hget List.mem_cons_self ih

/-- It depends only on the lists of the taken nodes. -/
theorem FirstChain.congr (hlayered : Layered g src prev order)
    (hsame : ∀ x ∈ order, prev'.get x = prev.get x) (h : FirstChain prev u r) (hu : u ∈ order) :
    FirstChain prev' u r := by
  induction h with
  | nil hget => exact .nil ((hsame _ hu).trans hget)
  | cons hget _ ih =>
    obtain ⟨ps, hget', -, -, hps⟩ := hlayered.of_mem hu
    obtain rfl := Option.some.inj (hget.symm.trans hget')
    exact .cons ((hsame _ hu).trans hget) (ih (hps _ List.mem_cons_self).1)

/-- **`compute_paths`** lists that path first. -/
theorem computePathsFrom_first {fuel : ℕ} {tmp : List NodeId} {paths : List (List NodeId)}
    (h : computePathsFrom prev fuel tmp u = .ok paths) :
    ∃ r rest, paths = (tmp ++ r) :: rest ∧ FirstChain prev u r := by
  induction fuel generalizing tmp u paths with
  | zero => simp [computePathsFrom] at h
  | succ fuel ih =>
    rw [computePathsFrom] at h
    cases hget : prev.get u with
    | none => simp [hget] at h
    | some w =>
      cases w with
      | nil =>
        simp only [hget, Except.ok.injEq] at h
        exact ⟨[], [], by simp [← h], .nil hget⟩
      | cons p ps =>
        simp only [hget, List.mapM_cons] at h
        obtain ⟨pss, hpss, h⟩ := Fault.bind_eq_ok_iff.mp h
        obtain ⟨first, hfirst, hpss⟩ := Fault.bind_eq_ok_iff.mp hpss
        obtain ⟨others, -, hpss⟩ := Fault.bind_eq_ok_iff.mp hpss
        obtain rfl : first :: others = pss := Except.ok.inj hpss
        obtain rfl : (first :: others).flatten = paths := Except.ok.inj h
        obtain ⟨r, rest, rfl, hchain⟩ := ih hfirst
        exact ⟨u :: r, rest ++ others.flatten, by simp, .cons hget hchain⟩

/-- What one neighbour does to the state, if it succeeds. -/
theorem relax_cases (h : relax g ops u st v = .ok st') :
    st' = st ∨ v ∈ st.queue ∧ ∃ e ps, g.minEdges.get (u, v) = some e ∧ st.prev.get v = some ps ∧
      (ops.cost (distOf st.dist u) e st.state < distOf st.dist v ∧
          st' = { st with
            prev := st.prev.set v [u]
            dist := st.dist.set v (ops.cost (distOf st.dist u) e st.state)
            state := ops.update e st.state } ∨
        ops.cost (distOf st.dist u) e st.state = distOf st.dist v ∧
          st' = { st with prev := st.prev.set v (ps ++ [u]) }) := by
  unfold relax at h
  by_cases hv : v ∈ st.queue
  · rw [if_neg (not_not.mpr hv)] at h
    cases he : g.minEdges.get (u, v) with
    | none => simp [he] at h
    | some e =>
      cases hps : st.prev.get v with
      | none =>
        simp only [he, offer, hps] at h
        split_ifs at h <;> cases h
        exact .inl rfl
      | some ps =>
        simp only [he, offer, hps] at h
        split_ifs at h with hlt heq
        · exact .inr ⟨hv, e, ps, rfl, rfl, .inl ⟨hlt, (Except.ok.inj h).symm⟩⟩
        · exact .inr ⟨hv, e, ps, rfl, rfl, .inr ⟨heq, (Except.ok.inj h).symm⟩⟩
        · exact .inl (Except.ok.inj h).symm
  · rw [if_pos hv] at h
    exact .inl (Except.ok.inj h).symm

/-- A round is a loop over neighbours, after the paths of the node have been listed. -/
theorem exists_of_dijkstraRound (h : dijkstraRound g ops u st = .ok st') :
    ∃ paths, ∃ ns : List NodeId, computePaths st.prev (g.nodes.length + 1) u = .ok paths ∧
      ns.foldlM (relax g ops u)
        { st with path := st.path.set u paths, queue := st.queue.erase u } = .ok st' := by
  obtain ⟨paths, hpaths, h⟩ := Fault.bind_eq_ok_iff.mp h
  cases hns : g.neighs.get u with
  | none => simp [hns] at h
  | some ns => exact ⟨paths, ns, hpaths, by simpa only [hns] using h⟩

end

/-! ## The callbacks -/

/-- `delay_init`: the delay of each node so far. -/
def delayInit (g : Graph Link) (src : NodeId) : Table NodeId UInt32 :=
  g.nodes.foldl (fun dist n => dist.set n (if n = src then 0 else uint32Max)) .empty

/-- `delay_below_cost`. -/
def delayBelowCost (fl : Flow) (curCost : UInt32) (e : Edge Link) (dist : Table NodeId UInt32) :
    UInt32 :=
  let curDelay := distOf dist e.localId
  if curDelay + e.data.delay > fl.delay then uint32Max else curCost + e.metric

/-- `delay_update`. -/
def delayUpdate (e : Edge Link) (dist : Table NodeId UInt32) : Table NodeId UInt32 :=
  let curDelay := distOf dist e.localId
  dist.set e.remoteId (curDelay + e.data.delay)

/-- `delay_below_ops`. -/
def delayBelowOps (fl : Flow) : DOps Link (Table NodeId UInt32) where
  init := delayInit
  cost := delayBelowCost fl
  update := delayUpdate

variable {g : Graph Link} {fl : Flow} {src u v : NodeId} {order : List NodeId}
  {st st' : DState (Table NodeId UInt32)}

/-- An offer that is an improvement is within the bound. -/
theorem delay_le_of_delayBelowCost_lt {curCost d : UInt32} {e : Edge Link}
    {dist : Table NodeId UInt32} (h : delayBelowCost fl curCost e dist < d) :
    distOf dist e.localId + linkDelay e ≤ fl.delay := by
  by_contra hle
  have hmax : delayBelowCost fl curCost e dist = uint32Max := if_pos (UInt32.not_le.mp hle)
  rw [hmax, UInt32.lt_iff_toNat_lt] at h
  have hd := d.toNat_lt
  have hsize : uint32Max.toNat = 4294967295 := rfl
  omega

/-! ## The invariant of the delays -/

/-- The delay recorded for `v` is that of `p` and of the minimal edge from there. -/
def DelayVia (g : Graph Link) (fl : Flow) (dist : Table NodeId UInt32) (p v : NodeId) : Prop :=
  ∃ e, g.minEdges.get (p, v) = some e ∧ distOf dist v = distOf dist p + linkDelay e ∧
    distOf dist v ≤ fl.delay

/-- The recorded delays within a round: that of the source is zero, and that of any other node at a
finite distance leads through the first node of its list, which has left the queue. -/
structure DelayInv (g : Graph Link) (fl : Flow) (src : NodeId)
    (st : DState (Table NodeId UInt32)) : Prop where
  source : distOf st.state src = 0
  first : ∀ v d p ps, Label st v d (p :: ps) → d ≠ uint32Max →
    p ∉ st.queue ∧ DelayVia g fl st.state p v
  fresh : ∀ v ∈ st.queue, v ≠ src → ∀ d, Label st v d [] → d = uint32Max

/-- The delays of other nodes stay as they are. -/
theorem distOf_delayUpdate (dist : Table NodeId UInt32) (e : Edge Link) (x : NodeId) :
    distOf (delayUpdate e dist) x =
      if e.remoteId = x then distOf dist e.localId + linkDelay e else distOf dist x := by
  unfold delayUpdate
  rw [distOf, Table.get_set]
  split_ifs <;> rfl

theorem DelayVia.update {dist : Table NodeId UInt32} {p x : NodeId} {e : Edge Link}
    (h : DelayVia g fl dist p x) (hx : e.remoteId ≠ x) (hp : e.remoteId ≠ p) :
    DelayVia g fl (delayUpdate e dist) p x := by
  obtain ⟨e', he', hdelay, hle⟩ := h
  refine ⟨e', he', ?_, ?_⟩
  · rw [distOf_delayUpdate, if_neg hx, distOf_delayUpdate, if_neg hp, hdelay]
  · rwa [distOf_delayUpdate, if_neg hx]

/-- An edge within the bound leads to its end. -/
theorem delayVia_update_self {dist : Table NodeId UInt32} {e : Edge Link}
    (he : g.minEdges.get (e.localId, e.remoteId) = some e) (hne : e.remoteId ≠ e.localId)
    (hle : distOf dist e.localId + linkDelay e ≤ fl.delay) :
    DelayVia g fl (delayUpdate e dist) e.localId e.remoteId := by
  refine ⟨e, he, ?_, ?_⟩
  · rw [distOf_delayUpdate, if_pos rfl, distOf_delayUpdate, if_neg hne]
  · rwa [distOf_delayUpdate, if_pos rfl]

/-- **Step lemma**: one neighbour. -/
theorem DelayInv.relax (hg : Finalized g) (h : DelayInv g fl src st) (hu : u ∉ st.queue)
    (hsrc : src ∉ st.queue) (hrelax : relax g (delayBelowOps fl) u st v = .ok st') :
    DelayInv g fl src st' := by
  obtain rfl | ⟨hv, e, ps, he, hps, ⟨hlt, rfl⟩ | ⟨heq, rfl⟩⟩ := relax_cases hrelax
  · exact h
  · -- the list is replaced, and the delay with it
    have hlink := (hg.minEdges_get_eq_some_iff.mp he).2.isLink
    obtain rfl : e.localId = u := hlink.localId
    obtain rfl : e.remoteId = v := hlink.remoteId
    have hne : ∀ {x}, x ∉ st.queue → e.remoteId ≠ x := fun hx heq => hx (heq ▸ hv)
    refine ⟨?_, fun x d p ps' hl hd => ?_, fun x hx hxs d hl => ?_⟩
    · exact (distOf_delayUpdate _ _ _).trans ((if_neg (hne hsrc)).trans h.source)
    · by_cases hxv : e.remoteId = x
      · subst hxv
        have hp : e.localId = p ∧ [] = ps' := by simpa [Label] using hl.2
        obtain ⟨rfl, -⟩ := hp
        exact ⟨hu, delayVia_update_self he (hne hu) (delay_le_of_delayBelowCost_lt hlt)⟩
      · have hl' : Label st x d (p :: ps') := by simpa [Label, hxv] using hl
        obtain ⟨hp, hvia⟩ := h.first x d p ps' hl' hd
        exact ⟨hp, hvia.update hxv (hne hp)⟩
    · by_cases hxv : e.remoteId = x
      · subst hxv
        simp [Label] at hl
      · exact h.fresh x hx hxs d (by simpa [Label, hxv] using hl)
  · -- a node is appended, so the first one stays unless the list was empty
    refine ⟨h.source, fun x d p ps' hl hd => ?_, fun x hx hxs d hl => ?_⟩
    · by_cases hxv : x = v
      · subst hxv
        have hlist : ps ++ [u] = p :: ps' := by simpa [Label] using hl.2
        have hdist : st.dist.get x = some d := hl.1
        cases ps with
        | nil => exact absurd (h.fresh x hv (fun heq => hsrc (heq ▸ hv)) d ⟨hdist, hps⟩) hd
        | cons q qs =>
          obtain ⟨rfl, -⟩ := List.cons.inj hlist
          exact h.first x d q qs ⟨hdist, hps⟩ hd
      · exact h.first x d p ps' (by simpa [Label, Ne.symm hxv] using hl) hd
    · by_cases hxv : x = v
      · subst hxv
        simp [Label] at hl
      · exact h.fresh x hx hxs d (by simpa [Label, Ne.symm hxv] using hl)

/-- The loop over the neighbours. -/
theorem DelayInv.foldlM_relax (hg : Finalized g) (h : DelayInv g fl src st) (hu : u ∉ st.queue)
    (hsrc : src ∉ st.queue) {ns : List NodeId}
    (hfold : ns.foldlM (Srn.relax g (delayBelowOps fl) u) st = .ok st') :
    DelayInv g fl src st' := by
  refine (Fault.foldlM_invariant (P := fun s => s.queue = st.queue ∧ DelayInv g fl src s)
    (fun s v s' _ hs hrelax => ?_) ⟨rfl, h⟩ hfold).2
  obtain ⟨hqueue, hs⟩ := hs
  refine ⟨?_, hs.relax hg (hqueue ▸ hu) (hqueue ▸ hsrc) hrelax⟩
  rw [← hqueue]
  obtain rfl | ⟨-, e, ps, -, -, ⟨-, rfl⟩ | ⟨-, rfl⟩⟩ := relax_cases hrelax <;> rfl

/-- What the search keeps: the recorded delays, a finite distance of each node that has been taken,
and its first path. -/
structure BelowInv (g : Graph Link) (fl : Flow) (src : NodeId) (order : List NodeId)
    (st : DState (Table NodeId UInt32)) : Prop where
  delays : DelayInv g fl src st
  finite : ∀ v ∈ order, ∀ d ps, Label st v d ps → d ≠ uint32Max
  paths : ∀ v ∈ order, ∃ r rest, st.path.get v = some (r :: rest) ∧ FirstChain st.prev v r

theorem BelowInv.init (g : Graph Link) (fl : Flow) (src : NodeId) :
    BelowInv g fl src [] (dijkstraInit g src (delayBelowOps fl)) := by
  have hstate : ∀ v, (delayInit g src).get v =
      if v ∈ g.nodes then some (if v = src then 0 else uint32Max) else none := by
    intro v
    rw [delayInit, Table.get_foldl_set (fun v => if v = src then 0 else uint32Max), Table.get_empty]
  have hprev : ∀ v ps, (dijkstraInit g src (delayBelowOps fl)).prev.get v = some ps → ps = [] := by
    intro v ps hget
    rw [dijkstraInit, Table.get_foldl_set (fun _ => []), Table.get_empty] at hget
    split_ifs at hget
    exact (Option.some.inj hget).symm
  refine ⟨⟨?_, fun v d p ps hl => ?_, fun v hv hsrc d hl => ?_⟩, by simp, by simp⟩
  · show distOf (delayInit g src) src = 0
    rw [distOf, hstate, if_pos rfl]
    split_ifs <;> rfl
  · exact absurd (hprev v _ hl.2) (List.cons_ne_nil p ps)
  · have hstart := (SearchInv.init g src (delayBelowOps fl)).start rfl v hv
    rw [if_neg hsrc] at hstart
    exact (hl.unique hstart).1

/-- **Step lemma**: one round. -/
theorem BelowInv.pop (hg : Finalized g) (hs : SearchInv g src order st)
    (h : BelowInv g fl src order st) (hleast : leastNode st.dist st.queue = some u)
    (hs' : SearchInv g src (u :: order) st')
    (hround : dijkstraRound g (delayBelowOps fl) u st = .ok st') {paths : List (List NodeId)}
    (hpop : Popped g (delayBelowOps fl) u paths st st') : BelowInv g fl src (u :: order) st' := by
  have hfirst := leastNode_eq_some_iff.mp hleast
  have hnodup := (List.nodup_append.mp (hs.nodup hg)).2.1
  have hsame : ∀ x ∈ u :: order, SameAt st st' x := fun x hx => hs.prev_same hg hpop hx
  have hlayered := hs.layered_cons hfirst.mem hfirst.lt_bound
  have hsrc : src ∉ st.queue.erase u := fun hmem =>
    hs.not_mem_cons hg hmem (hlayered.src_mem (List.cons_ne_nil u order))
  obtain ⟨paths', ns, hpaths, hfold⟩ := exists_of_dijkstraRound hround
  refine ⟨?_, fun v hv d ps hl => ?_, fun v hv => ?_⟩
  · have hstart : DelayInv g fl src
        { st with path := st.path.set u paths', queue := st.queue.erase u } :=
      ⟨h.delays.source,
        fun v d p ps hl hd => by
          obtain ⟨hp, hvia⟩ := h.delays.first v d p ps hl hd
          exact ⟨fun hmem => hp (List.mem_of_mem_erase hmem), hvia⟩,
        fun v hv hvs d hl => h.delays.fresh v (List.mem_of_mem_erase hv) hvs d hl⟩
    exact hstart.foldlM_relax hg hnodup.not_mem_erase hsrc hfold
  · have hl' := (hsame v hv).label_iff.mp hl
    rcases List.mem_cons.mp hv with rfl | hv
    · have hlt := hfirst.lt_bound
      rw [hl'.distOf] at hlt
      exact lt_uint32Max_iff.mp hlt
    · exact h.finite v hv d ps hl'
  · have hprev : ∀ x ∈ u :: order, st'.prev.get x = st.prev.get x := fun x hx => (hsame x hx).2
    have hpath' : st'.path = st.path.set u paths' := by
      refine Fault.foldlM_invariant (P := fun s => s.path = st.path.set u paths')
        (fun s x s' _ hpath hrelax => ?_) rfl hfold
      obtain rfl | ⟨-, e, ps, -, -, ⟨-, rfl⟩ | ⟨-, rfl⟩⟩ := relax_cases hrelax <;> exact hpath
    rw [hpath', Table.get_set]
    by_cases huv : u = v
    · subst huv
      obtain ⟨r, rest, rfl, hchain⟩ := computePathsFrom_first hpaths
      exact ⟨r, rest, by rw [if_pos rfl, List.nil_append], hchain.congr hlayered hprev hv⟩
    · obtain ⟨r, rest, hget, hchain⟩ :=
        h.paths v ((List.mem_cons.mp hv).resolve_left (Ne.symm huv))
      exact ⟨r, rest, by rw [if_neg huv, hget], hchain.congr hlayered hprev hv⟩

/-! ## The delay of the first path -/

/-- The first path of a taken node is a route of the recorded delay. -/
theorem BelowInv.isRoute (hg : Finalized g) (hfit : CostsNoWrap g linkDelay)
    (hs : SearchInv g src order st) (h : BelowInv g fl src order st) {r : List NodeId}
    (hchain : FirstChain st.prev v r) (hv : v ∈ order) :
    IsRoute (g.hopCost linkDelay) src v r (distOf st.state v).toNat ∧
      distOf st.state v ≤ fl.delay := by
  have hnodup := (List.nodup_append.mp (hs.nodup hg)).1
  induction hchain with
  | nil hget =>
    obtain ⟨ps, hget', -, hsrc, -⟩ := hs.layered.of_mem hv
    obtain rfl := Option.some.inj (hget.symm.trans hget')
    rw [hsrc rfl, h.delays.source]
    exact ⟨.refl, UInt32.zero_le⟩
  | @cons v p ps r hget hrest ih =>
    obtain ⟨ps', hget', -, -, hps⟩ := hs.layered.of_mem hv
    obtain rfl := Option.some.inj (hget.symm.trans hget')
    obtain ⟨hroute, -⟩ := ih (hps p List.mem_cons_self).1
    obtain ⟨d, ps', hl⟩ := hs.label v (hs.perm.subset (List.mem_append_left _ hv))
    obtain rfl := Option.some.inj (hget.symm.trans hl.2)
    obtain ⟨-, e, he, hdelay, hle⟩ := h.delays.first v d p ps hl (h.finite v hv d _ hl)
    have hsnoc : IsRoute (g.hopCost linkDelay) src v (v :: r)
        ((distOf st.state p).toNat + (linkDelay e).toNat) :=
      hroute.snoc (by rw [Graph.hopCost, he, Option.map_some])
    -- the route is simple, so its delay is the sum of distinct edges and does not wrap
    have hsimple := ((FirstChain.cons hget hrest).chain.isRoute hs.layered hnodup hv).1
    have hlt := hfit src v _ _ hsnoc hsimple
    refine ⟨?_, hle⟩
    rwa [hdelay, UInt32.toNat_add, Nat.mod_eq_of_lt hlt]

/-- **The search with a bound on the delay.**  If the delays of all links together fit in 32 bits,
the search ends, and the first path it has recorded for a node has exactly the delay that the
callbacks have recorded for the node, which is at most that of the flow. -/
theorem delayBelow_first_path (g : Graph Link) (fl : Flow) (src : NodeId) (hg : Finalized g)
    (hsum : totalDelay g.edges < UInt32.size) :
    ∃ st, dijkstraLoop g (delayBelowOps fl) (g.nodes.length + 1)
        (dijkstraInit g src (delayBelowOps fl)) = .ok st ∧
      graphDijkstra g src (delayBelowOps fl) = .ok ⟨st.dist, st.path, st.prev⟩ ∧
      ∀ v ∈ g.nodes, ∀ first rest, st.path.get v = some (first :: rest) →
        IsRoute (g.hopCost linkDelay) src v first (distOf st.state v).toNat ∧
          pathCost g linkDelay (src :: first.reverse) = (distOf st.state v).toNat ∧
          distOf st.state v ≤ fl.delay := by
  obtain ⟨order, st, hloop, hs, h, -⟩ := SearchInv.loop hg (BelowInv g fl src)
    (fun _ _ _ _ _ hs h hleast hs' hround hpop => h.pop hg hs hleast hs' hround hpop)
    (g.nodes.length + 1) (SearchInv.init g src (delayBelowOps fl)) (BelowInv.init g fl src)
    (Nat.lt_succ_self _)
  refine ⟨st, hloop, by rw [graphDijkstra, hloop]; rfl, fun v hv first rest hget => ?_⟩
  rcases List.mem_append.mp (hs.perm.symm.subset hv) with hv | hv
  · obtain ⟨r, rest', hget', hchain⟩ := h.paths v hv
    obtain ⟨rfl, -⟩ := List.cons.inj (Option.some.inj (hget.symm.trans hget'))
    obtain ⟨hroute, hle⟩ := h.isRoute hg (costsNoWrap_of_sum hg hsum) hs hchain hv
    exact ⟨hroute, pathCost_of_isRoute hroute, hle⟩
  · rw [hs.pathQueue v hv] at hget
    simp at hget

/-- Three routers, with a direct link from 1 to 3 that is slow and a fast way over 2. -/
def detour : Graph Link :=
  graphOf [1, 2, 3] [⟨1, 1, 3, 1, ⟨1, 2, 100, 100, 10⟩⟩, ⟨2, 1, 2, 1, ⟨3, 4, 100, 100, 2⟩⟩,
    ⟨3, 2, 3, 1, ⟨5, 6, 100, 100, 3⟩⟩]

/-- For a delay of at most 5 the search takes the way over 2, with a delay of exactly 5. -/
theorem delayBelow_first_path_detour :
    Finalized detour ∧ totalDelay detour.edges < UInt32.size ∧
      ∃ st : DState (Table NodeId UInt32),
        graphDijkstra detour 1 (delayBelowOps ⟨0, 5⟩) = .ok ⟨st.dist, st.path, st.prev⟩ ∧
        st.path.get 3 = some [[3, 2]] ∧ distOf st.state 3 = 5 ∧
        IsRoute (detour.hopCost linkDelay) 1 3 [3, 2] (distOf st.state 3).toNat := by
  have hg : Finalized detour := finalized_graphOf (by decide) (by decide)
  obtain ⟨st, hloop, hrun, hpaths⟩ := delayBelow_first_path detour ⟨0, 5⟩ 1 hg (by decide)
  have hfacts : (dijkstraLoop detour (delayBelowOps ⟨0, 5⟩) 4
      (dijkstraInit detour 1 (delayBelowOps ⟨0, 5⟩))).map
        (fun st => (st.path.get 3, distOf st.state 3)) = .ok (some [[3, 2]], 5) := by
    decide +kernel
  rw [show dijkstraLoop detour (delayBelowOps ⟨0, 5⟩) 4
    (dijkstraInit detour 1 (delayBelowOps ⟨0, 5⟩)) = .ok st from hloop] at hfacts
  obtain ⟨hpath, hdelay⟩ := Prod.mk.inj (Except.ok.inj hfacts)
  exact ⟨hg, by decide, st, hrun, hpath, hdelay, (hpaths 3 (by decide) [3, 2] [] hpath).1⟩

end Srn
