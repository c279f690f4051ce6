import Mathlib.Data.List.Chain
import Srn.Graph.Search

/-!
# Srn.Graph.Callbacks

`graph_dijkstra` with callbacks that know no rule: `cost` may return anything, and it may change the
state of the search just as `update` may.  The values of `DOps` are those callbacks whose `cost`
leaves the state alone (`graphDijkstraWith_toCallbacks`).

Which costs were returned does not matter to the invariant of `Srn.Graph.Search`.  A search with
callbacks is therefore looked at without its state (`DState.forget`), as a search in which each cost
is what a state happens to be (`anyOps`), and `graphDijkstraWith_path` follows from the invariant
alone.
-/

namespace Srn

variable {ε σ : Type} {g : Graph ε}

/-! ## The search -/

/-- `struct d_ops`: `cost` returns a cost, and both callbacks may change what `state` points to. -/
structure DCallbacks (ε σ : Type) where
  init : Graph ε → NodeId → σ
  cost : UInt32 → Edge ε → σ → UInt32 × σ
  update : Edge ε → σ → σ

/-- The body of the loop over the neighbours `v` of the node `u`. -/
def relaxWith (g : Graph ε) (ops : DCallbacks ε σ) (u : NodeId) (st : DState σ) (v : NodeId) :
    Except GraphFault (DState σ) :=
  if v ∉ st.queue then .ok st
  else match g.minEdges.get (u, v) with
    | none => .error .assertion
    | some minEdge =>
      let alt := ops.cost (distOf st.dist u) minEdge st.state
      (offer st.dist st.prev v u alt.1).map fun (dist, prev, new) =>
        { st with dist, prev, state := if new then ops.update minEdge alt.2 else alt.2 }

/-- One round of the main loop, for the node `u` found in the queue. -/
def dijkstraRoundWith (g : Graph ε) (ops : DCallbacks ε σ) (u : NodeId) (st : DState σ) :
    Except GraphFault (DState σ) := do
  let paths ← computePaths st.prev (g.nodes.length + 1) u
  match g.neighs.get u with
  | none => .error .nullDereference
  | some neighs =>
    neighs.foldlM (relaxWith g ops u)
      { st with path := st.path.set u paths, queue := st.queue.erase u }

/-- The main loop. -/
def dijkstraLoopWith (g : Graph ε) (ops : DCallbacks ε σ) :
    ℕ → DState σ → Except GraphFault (DState σ)
  | 0, _ => .error .outOfFuel
  | fuel + 1, st =>
    match leastNode st.dist st.queue with
    | none => .ok st
    | some u => do
      let st' ← dijkstraRoundWith g ops u st
      dijkstraLoopWith g ops fuel st'

/-- The state before the loop. -/
def dijkstraInitWith (g : Graph ε) (src : NodeId) (ops : DCallbacks ε σ) : DState σ :=
  dijkstraInit g src ⟨ops.init, fun cost _ _ => cost, fun _ s => s⟩

/-- `graph_dijkstra`. -/
def graphDijkstraWith (g : Graph ε) (src : NodeId) (ops : DCallbacks ε σ) :
    Except GraphFault Dres := do
  let st ← dijkstraLoopWith g ops (g.nodes.length + 1) (dijkstraInitWith g src ops)
  return { dist := st.dist, path := st.path, prev := st.prev }

/-! ## Callbacks that leave the state alone -/

def DOps.toCallbacks (ops : DOps ε σ) : DCallbacks ε σ where
  init := ops.init
  cost curCost edge state := (ops.cost curCost edge state, state)
  update := ops.update

theorem dijkstraLoopWith_toCallbacks (ops : DOps ε σ) (fuel : ℕ) (st : DState σ) :
    dijkstraLoopWith g ops.toCallbacks fuel st = dijkstraLoop g ops fuel st := by
  induction fuel generalizing st with
  | zero => rfl
  | succ fuel ih =>
    simp only [dijkstraLoopWith, dijkstraLoop, ih]
    rfl

/-- The searches of `Srn.Graph` are those with such callbacks. -/
theorem graphDijkstraWith_toCallbacks (g : Graph ε) (src : NodeId) (ops : DOps ε σ) :
    graphDijkstraWith g src ops.toCallbacks = graphDijkstra g src ops := by
  rw [graphDijkstraWith, dijkstraLoopWith_toCallbacks]
  rfl

/-! ## Forgetting the state -/

/-- Callbacks whose cost is the state. -/
def anyOps : DOps ε UInt32 where
  init _ _ := 0
  cost _ _ state := state
  update _ state := state

/-- A state of a search, with a number in the place of the callbacks' state. -/
def DState.withCost (st : DState σ) (cost : UInt32) : DState UInt32 :=
  { dist := st.dist, prev := st.prev, path := st.path, queue := st.queue, state := cost }

def DState.forget (st : DState σ) : DState UInt32 := st.withCost 0

/-- Up to the state, one neighbour is treated as with the cost that the callback returns. -/
theorem relaxWith_forget (ops : DCallbacks ε σ) (u : NodeId) (st : DState σ) (v : NodeId) :
    ∃ cost, (relaxWith g ops u st v).map DState.forget =
      (relax g anyOps u (st.withCost cost) v).map DState.forget := by
  cases hmin : g.minEdges.get (u, v) with
  | none =>
    refine ⟨0, ?_⟩
    simp only [relaxWith, relax, hmin, DState.withCost]
    split_ifs <;> rfl
  | some e =>
    refine ⟨(ops.cost (distOf st.dist u) e st.state).1, ?_⟩
    simp only [relaxWith, relax, hmin, DState.withCost, anyOps]
    split_ifs
    · cases offer st.dist st.prev v u (ops.cost (distOf st.dist u) e st.state).1 <;> rfl
    · rfl

/-- One neighbour, in the queue or not. -/
theorem relaxWith_spec (ops : DCallbacks ε σ) {st : DState σ} {u v : NodeId}
    (hlabel : ∀ v ∈ st.queue, ∃ d ps, Label st v d ps)
    (hmin : v ∈ st.queue → ∃ e, g.minEdges.get (u, v) = some e) :
    ∃ st', relaxWith g ops u st v = .ok st' ∧ Relaxed g anyOps u [v] st.forget st'.forget := by
  obtain ⟨cost, hforget⟩ := relaxWith_forget (g := g) ops u st v
  have hlabel' : ∀ v ∈ (st.withCost cost).queue, ∃ d ps, Label (st.withCost cost) v d ps := hlabel
  obtain ⟨st₁, hrelax, h₁⟩ := relax_spec anyOps hlabel' hmin
  rw [hrelax] at hforget
  cases hwith : relaxWith g ops u st v with
  | error e =>
    rw [hwith] at hforget
    cases hforget
  | ok st' =>
    rw [hwith] at hforget
    have heq : st'.forget = st₁.forget := Except.ok.inj hforget
    refine ⟨st', rfl, ?_⟩
    rw [heq]
    exact ⟨h₁.queue, h₁.path, h₁.same, h₁.offer⟩

/-- **The loop over the neighbours.** -/
theorem foldlM_relaxWith (ops : DCallbacks ε σ) {u : NodeId} (ns : List NodeId) (hns : ns.Nodup)
    (st : DState σ) (hu : u ∉ st.queue) (hlabel : ∀ v ∈ st.queue, ∃ d ps, Label st v d ps)
    (hmin : ∀ v ∈ ns, v ∈ st.queue → ∃ e, g.minEdges.get (u, v) = some e) :
    ∃ st', ns.foldlM (relaxWith g ops u) st = .ok st' ∧
      Relaxed g anyOps u ns st.forget st'.forget := by
  induction ns generalizing st with
  | nil => exact ⟨st, rfl, rfl, rfl, fun v _ => ⟨rfl, rfl⟩, by simp⟩
  | cons v ns ih =>
    obtain ⟨hvns, hns'⟩ := List.nodup_cons.mp hns
    obtain ⟨st₁, hrelax, h₁⟩ := relaxWith_spec ops hlabel (hmin v List.mem_cons_self)
    have hqueue : st₁.queue = st.queue := h₁.queue
    have hlabel₁ : ∀ x ∈ st₁.queue, ∃ d ps, Label st₁ x d ps := by
      intro x hx
      rw [hqueue] at hx
      refine h₁.label (fun y hy => ?_) hx (hlabel x hx)
      rw [List.mem_singleton.mp hy]
      exact hmin v List.mem_cons_self
    obtain ⟨st', hfold, h₂⟩ := ih hns' st₁ (hqueue.symm ▸ hu) hlabel₁
      fun x hx hq => hmin x (List.mem_cons_of_mem _ hx) (hqueue ▸ hq)
    refine ⟨st', ?_, h₁.append h₂ (by simpa using hvns) hu⟩
    rw [List.foldlM_cons, hrelax]
    exact hfold

/-- **One round** of the main loop. -/
theorem dijkstraRoundWith_spec (hg : Finalized g) (ops : DCallbacks ε σ) {u : NodeId}
    {st : DState σ} {paths : List (List NodeId)} (hu : u ∈ g.nodes) (hnodup : st.queue.Nodup)
    (hlabel : ∀ v ∈ st.queue, ∃ d ps, Label st v d ps)
    (hpaths : computePaths st.prev (g.nodes.length + 1) u = .ok paths) :
    ∃ st', dijkstraRoundWith g ops u st = .ok st' ∧
      Popped g anyOps u paths st.forget st'.forget := by
  obtain ⟨ns, hget, hns, hmem⟩ := hg.neighs_get hu
  have herase : u ∉ st.queue.erase u := hnodup.not_mem_erase
  have hne : ∀ {v}, v ∈ st.queue.erase u → v ≠ u := fun hv h => herase (h ▸ hv)
  obtain ⟨st', hfold, h⟩ := foldlM_relaxWith ops ns hns
    { st with path := st.path.set u paths, queue := st.queue.erase u } herase
    (fun v hv => hlabel v (List.mem_of_mem_erase hv)) (fun v hv hq => (hmem v (hne hq)).mp hv)
  refine ⟨st', ?_, h.popped herase hmem⟩
  rw [dijkstraRoundWith, hpaths]
  simp only [bind, Except.bind, hget]
  exact hfold

/-! ## Simple paths -/

/-- There is a link from one node to the other. -/
def Linked (g : Graph ε) (u v : NodeId) : Prop := ∃ e, IsLink g u v e

/-- The nodes are a path from one node to the other, in which each is joined to the next and none
is repeated. -/
structure SimplePath {ν : Type} (joined : ν → ν → Prop) (src dst : ν) (nodes : List ν) : Prop where
  first : nodes.head? = some src
  last : nodes.getLast? = some dst
  linked : nodes.IsChain joined
  nodup : nodes.Nodup

/-- A route follows links. -/
theorem isChain_of_isRoute (hg : Finalized g) {src v : NodeId} {r : List NodeId} {c : ℕ}
    (h : Route.IsRoute g.weight src v r c) :
    (src :: r.reverse).IsChain (Linked g) ∧ (src :: r.reverse).getLast? = some v := by
  induction h with
  | refl => simp
  | @snoc u v r c m hroute hweight ih =>
    obtain ⟨hchain, hlast⟩ := ih
    obtain ⟨e, he, -⟩ := Option.map_eq_some_iff.mp hweight
    have hlinked : Linked g u v := ⟨e, (hg.minEdges_get_eq_some_iff.mp he).2.isLink⟩
    rw [List.reverse_cons, ← List.cons_append]
    refine ⟨List.isChain_append.mpr ⟨hchain, List.isChain_singleton v, ?_⟩,
      List.getLast?_concat⟩
    intro x hx y hy
    rw [hlast] at hx
    obtain rfl := Option.some.inj hx
    obtain rfl := Option.some.inj hy
    exact hlinked

/-- A route of a finalized graph that repeats no node. -/
theorem simplePath_of_isRoute (hg : Finalized g) {src v : NodeId} {r : List NodeId} {c : ℕ}
    (h : Route.IsRoute g.weight src v r c) (hnodup : (src :: r).Nodup) :
    SimplePath (Linked g) src v (src :: r.reverse) where
  first := rfl
  last := (isChain_of_isRoute hg h).2
  linked := (isChain_of_isRoute hg h).1
  nodup := by simpa using hnodup

/-- **The search** over a finalized graph ends whatever the callbacks return, and each list that it
records for a node is, reversed and with the source in front of it, a simple path to this node. -/
theorem graphDijkstraWith_path (hg : Finalized g) (ops : DCallbacks ε σ) (src : NodeId) :
    ∃ d, graphDijkstraWith g src ops = .ok d ∧ ∀ v ∈ g.nodes, ∃ paths,
      d.path.get v = some paths ∧
        ∀ r ∈ paths, SimplePath (Linked g) src v (src :: r.reverse) := by
  obtain ⟨order, st, hloop, h, -, -⟩ := SearchInv.loop_of_rounds hg DState.forget
    (dijkstraRoundWith g ops) (dijkstraLoopWith g ops)
    (fun fuel st hleast => by
      rw [dijkstraLoopWith, show leastNode st.dist st.queue = none from hleast])
    (fun fuel st u hleast => by
      rw [dijkstraLoopWith, show leastNode st.dist st.queue = some u from hleast])
    (fun u st paths hu hnodup hlabel hpaths =>
      dijkstraRoundWith_spec hg ops hu hnodup hlabel hpaths)
    (fun _ _ => True) (fun _ _ _ _ _ _ _ _ _ _ _ => trivial) (g.nodes.length + 1)
    (s := dijkstraInitWith g src ops) (SearchInv.init g src anyOps) trivial (Nat.lt_succ_self _)
  refine ⟨_, by rw [graphDijkstraWith, hloop]; rfl, fun v hv => ?_⟩
  obtain ⟨-, paths, hget, hpaths⟩ := h.paths hg hv
  refine ⟨paths, hget, fun r hr => ?_⟩
  obtain ⟨hnodup, c, hroute⟩ := hpaths r hr
  exact simplePath_of_isRoute hg hroute hnodup

end Srn
