import Mathlib.Data.List.Basic
import Mathlib.Data.Nat.Find

/-!
# Route

Routes in a weighted directed graph over an arbitrary type of vertices.  The graph is a
partial weight function `w : V → V → Option ℕ`; a route is listed from its end back to, and
without, its source, so that extending a route by one edge is a `cons`.

The second half is the theory behind Dijkstra's algorithm: a set of vertices is *settled*
when every other vertex is at least as far away, and the vertex outside with the least
label is the next one to settle.
-/

namespace Route

variable {V : Type*} (w : V → V → Option ℕ)

/-! ## Routes -/

/-- `IsRoute w s v r c`: the vertices `r`, from `v` back to the source `s` without it, are a
route of cost `c`. -/
inductive IsRoute (s : V) : V → List V → ℕ → Prop
  | refl : IsRoute s s [] 0
  | snoc {u v r c m} : IsRoute s u r c → w u v = some m → IsRoute s v (v :: r) (c + m)

/-- `c` is the least cost of a route. -/
def IsDist (s v : V) (c : ℕ) : Prop :=
  (∃ r, IsRoute w s v r c) ∧ ∀ r c', IsRoute w s v r c' → c ≤ c'

/-- A route of least cost. -/
def Shortest (s v : V) (r : List V) : Prop := ∃ c, IsRoute w s v r c ∧ IsDist w s v c

/-- `u` is the vertex before `v` on a route of least cost. -/
def IsPred (s u v : V) : Prop :=
  ∃ c m, IsDist w s u c ∧ w u v = some m ∧ IsDist w s v (c + m)

/-- `u` is the only vertex before `v` on routes of least cost. -/
def OnlyPred (s u v : V) : Prop := ∀ x, IsPred w s x v ↔ x = u

/-- `r` is the only route of least cost. -/
def OnlyShortest (s v : V) (r : List V) : Prop := ∀ r', Shortest w s v r' ↔ r' = r

/-- All weights are positive. -/
def Positive : Prop := ∀ u v m, w u v = some m → 0 < m

variable {w} {s u v x : V} {r r' : List V} {c c' m : ℕ}

theorem isRoute_nil_iff : IsRoute w s v [] c ↔ v = s ∧ c = 0 := by
  constructor
  · intro h
    cases h
    exact ⟨rfl, rfl⟩
  · rintro ⟨rfl, rfl⟩
    exact .refl

theorem isRoute_cons_iff : IsRoute w s v (x :: r) c ↔
    x = v ∧ ∃ u c' m, IsRoute w s u r c' ∧ w u v = some m ∧ c = c' + m := by
  constructor
  · intro h
    cases h with
    | snoc hu hw => exact ⟨rfl, _, _, _, hu, hw, rfl⟩
  · rintro ⟨rfl, u, c', m, hu, hw, rfl⟩
    exact hu.snoc hw

/-- A route ends in its first vertex, the empty one in the source. -/
theorem IsRoute.end_eq (h : IsRoute w s v r c) : v = r.headD s := by
  cases h <;> rfl

/-- Every vertex of a route is reached at no higher cost. -/
theorem IsRoute.of_mem (h : IsRoute w s v r c) (hx : x ∈ r) :
    ∃ r' c', IsRoute w s x r' c' ∧ c' ≤ c := by
  induction h with
  | refl => simp at hx
  | @snoc u v r c m hu hw ih =>
    rcases List.mem_cons.mp hx with rfl | hx
    · exact ⟨_, _, hu.snoc hw, Nat.le_refl _⟩
    · obtain ⟨r', c', h', hle⟩ := ih hx
      exact ⟨r', c', h', Nat.le_trans hle (Nat.le_add_right _ _)⟩

/-- Two routes in a row. -/
theorem IsRoute.append (h : IsRoute w s u r c) (h' : IsRoute w u v r' c') :
    IsRoute w s v (r' ++ r) (c + c') := by
  induction h' with
  | refl => exact h
  | snoc _ hw ih => rw [← Nat.add_assoc]; exact ih.snoc hw

/-- A route splits at every point. -/
theorem IsRoute.split (h : IsRoute w s v (r' ++ r) c) :
    ∃ u c₁ c₂, IsRoute w s u r c₁ ∧ IsRoute w u v r' c₂ ∧ c = c₁ + c₂ := by
  induction r' generalizing v c with
  | nil => exact ⟨v, c, 0, h, .refl, rfl⟩
  | cons y r' ih =>
    obtain ⟨rfl, z, c', m, hz, hw, rfl⟩ := isRoute_cons_iff.mp h
    obtain ⟨u, c₁, c₂, h₁, h₂, rfl⟩ := ih hz
    exact ⟨u, c₁, c₂ + m, h₁, h₂.snoc hw, by rw [Nat.add_assoc]⟩

theorem IsDist.unique (h : IsDist w s v c) (h' : IsDist w s v c') : c = c' := by
  obtain ⟨⟨r, hr⟩, hmin⟩ := h
  obtain ⟨⟨r', hr'⟩, hmin'⟩ := h'
  exact Nat.le_antisymm (hmin r' c' hr') (hmin' r c hr)

/-- The source is at distance zero from itself. -/
theorem isDist_self : IsDist w s s 0 := ⟨⟨[], .refl⟩, fun _ _ _ => Nat.zero_le _⟩

/-! ## Shortest routes -/

/-- The first part of a shortest route is one. -/
theorem Shortest.isPred (h : Shortest w s v (x :: r)) :
    x = v ∧ ∃ u, IsPred w s u v ∧ Shortest w s u r := by
  obtain ⟨c, hroute, hdist⟩ := h
  obtain ⟨rfl, u, c', m, hu, hw, rfl⟩ := isRoute_cons_iff.mp hroute
  have hmin : IsDist w s u c' := by
    refine ⟨⟨r, hu⟩, fun r₂ c₂ h₂ => ?_⟩
    have := hdist.2 _ _ (h₂.snoc hw)
    omega
  exact ⟨rfl, u, ⟨c', m, hmin, hw, hdist⟩, c', hu, hmin⟩

/-- A shortest route to a predecessor extends to one. -/
theorem IsPred.shortest (h : IsPred w s u v) (hu : Shortest w s u r) :
    Shortest w s v (v :: r) := by
  obtain ⟨c, m, hdist, hw, hdist'⟩ := h
  obtain ⟨c', hroute, hd⟩ := hu
  rw [hd.unique hdist] at hroute
  exact ⟨c + m, hroute.snoc hw, hdist'⟩

/-- With positive weights only the source is reached by the empty route, and by no other
shortest one. -/
theorem shortest_nil_iff : Shortest w s v [] ↔ v = s := by
  constructor
  · rintro ⟨c, h, -⟩
    exact (isRoute_nil_iff.mp h).1
  · rintro rfl
    exact ⟨0, .refl, isDist_self⟩

theorem not_isPred_source (hw : Positive w) : ¬ IsPred w s u s := by
  rintro ⟨c, m, -, hm, hdist⟩
  have := hw _ _ _ hm
  have := hdist.unique isDist_self
  omega

/-- With positive weights a shortest route repeats no vertex. -/
theorem Shortest.nodup (hw : Positive w) (h : Shortest w s v r) : (s :: r).Nodup := by
  induction r generalizing v with
  | nil => simp
  | cons x r ih =>
    obtain ⟨rfl, u, hpred, hu⟩ := h.isPred
    have hsource : s ≠ x := by
      rintro rfl
      exact not_isPred_source hw hpred
    have hfresh : x ∉ r := by
      intro hx
      obtain ⟨c, m, hdist, hm, hdist'⟩ := hpred
      obtain ⟨c', hroute, hd⟩ := hu
      obtain ⟨r', c₂, h₂, hle⟩ := hroute.of_mem hx
      have := hdist'.2 _ _ h₂
      have := hd.unique hdist
      have := hw _ _ _ hm
      omega
    have := List.nodup_cons.mp (ih hu)
    simp [hsource, hfresh, this]

/-- The last hop of a shortest route is itself one. -/
theorem IsPred.direct (h : IsPred w s u v) : IsPred w u u v := by
  obtain ⟨c, m, ⟨⟨r, hroute⟩, -⟩, hm, hdist⟩ := h
  refine ⟨0, m, isDist_self, hm, ⟨_, IsRoute.refl.snoc hm⟩, fun r' c' h' => ?_⟩
  have := hdist.2 _ _ (hroute.append h')
  omega

/-- So is its first hop. -/
theorem Shortest.isPred_source (h : Shortest w s v (r ++ [x])) : IsPred w s s x := by
  obtain ⟨c, hroute, hdist⟩ := h
  obtain ⟨u, c₁, c₂, h₁, h₂, rfl⟩ := hroute.split
  obtain ⟨rfl, z, c', m, hz, hm, rfl⟩ := isRoute_cons_iff.mp h₁
  obtain ⟨rfl, rfl⟩ := isRoute_nil_iff.mp hz
  refine ⟨0, m, isDist_self, hm, ⟨_, h₁⟩, fun r' d h' => ?_⟩
  have := hdist.2 _ _ (h'.append h₂)
  omega

theorem onlyShortest_self (hw : Positive w) : OnlyShortest w s s [] := by
  intro r
  constructor
  · intro h
    cases r with
    | nil => rfl
    | cons x r =>
      obtain ⟨rfl, u, hpred, -⟩ := h.isPred
      exact absurd hpred (not_isPred_source hw)
  · rintro rfl
    exact shortest_nil_iff.mpr rfl

/-- The only shortest route to the only predecessor extends to the only shortest route. -/
theorem OnlyShortest.snoc (hw : Positive w) (h : OnlyShortest w s u r) (hp : OnlyPred w s u v) :
    OnlyShortest w s v (v :: r) := by
  have hpred : IsPred w s u v := (hp u).mpr rfl
  intro r'
  constructor
  · intro h'
    cases r' with
    | nil =>
      rw [shortest_nil_iff] at h'
      subst h'
      exact absurd hpred (not_isPred_source hw)
    | cons x r' =>
      obtain ⟨rfl, u', hpred', hu'⟩ := h'.isPred
      rw [(hp u').mp hpred'] at hu'
      rw [(h r').mp hu']
  · rintro rfl
    exact hpred.shortest ((h r).mpr rfl)

/-! ## Offers -/

variable (w s) in
/-- Through `u`, the vertex `v` can be reached at the cost `n`: the distance of `u` and an edge. -/
def Offer (u v : V) (n : ℕ) : Prop := ∃ c m, IsDist w s u c ∧ w u v = some m ∧ c + m = n

theorem Offer.unique {n n' : ℕ} (h : Offer w s u v n) (h' : Offer w s u v n') : n = n' := by
  obtain ⟨c, m, hc, hm, rfl⟩ := h
  obtain ⟨c', m', hc', hm', rfl⟩ := h'
  rw [hm, Option.some.injEq] at hm'
  rw [hc.unique hc', hm']

/-- An offer extends a route of least cost. -/
theorem Offer.isRoute {n : ℕ} (h : Offer w s u v n) (hdist : IsDist w s u c)
    (hroute : IsRoute w s u r c) : IsRoute w s v (v :: r) n := by
  obtain ⟨c', m, hc', hm, rfl⟩ := h
  rw [hc'.unique hdist]
  exact hroute.snoc hm

/-! ## Settled sets -/

variable (w s) in
/-- A set of vertices around the source such that all others are at least as far away. -/
structure Settled (P : V → Prop) : Prop where
  source : P s
  exact : ∀ u, P u → ∃ d, IsDist w s u d
  separated : ∀ u d v r c, P u → IsDist w s u d → ¬ P v → IsRoute w s v r c → d ≤ c

variable {P : V → Prop}

/-- A route that ends outside a set leaves it somewhere. -/
theorem IsRoute.exit (hsource : P s) (h : IsRoute w s v r c) (hv : ¬ P v) :
    ∃ u y r' d m, P u ∧ ¬ P y ∧ IsRoute w s u r' d ∧ w u y = some m ∧ d + m ≤ c := by
  induction h with
  | refl => exact absurd hsource hv
  | @snoc u v r c m hu hw ih =>
    by_cases hP : P u
    · exact ⟨u, v, r, c, m, hP, hv, hu, hw, Nat.le_refl _⟩
    · obtain ⟨u', y, r', d, m', hu', hy, hroute, hm', hle⟩ := ih hP
      exact ⟨u', y, r', d, m', hu', hy, hroute, hm', Nat.le_trans hle (Nat.le_add_right _ _)⟩

/-- The source alone is settled. -/
theorem settled_source : Settled w s (· = s) where
  source := rfl
  exact u hu := ⟨0, hu ▸ isDist_self⟩
  separated u d v r c hu hd _ _ := by
    rw [hu] at hd
    rw [hd.unique isDist_self]
    exact Nat.zero_le _

/-- Every route out of a settled set costs at least the least label. -/
theorem Settled.le_of_route (h : Settled w s P) {l : ℕ}
    (hmin : ∀ u d y m, P u → IsDist w s u d → ¬ P y → w u y = some m → l ≤ d + m)
    (hv : ¬ P v) (hroute : IsRoute w s v r c) : l ≤ c := by
  obtain ⟨u, y, r', d', m, hu, hy, hu', hm, hle⟩ := hroute.exit h.source hv
  obtain ⟨d, hd⟩ := h.exact u hu
  have := hmin u d y m hu hd hy hm
  have := hd.2 _ _ hu'
  omega

/-- **Settling**: the vertex with the least label is at that distance, and can be added. -/
theorem Settled.settle (h : Settled w s P) (hv : ¬ P v) {d : ℕ} (hd : IsDist w s u d)
    (hm : w u v = some m)
    (hmin : ∀ u' d' y m', P u' → IsDist w s u' d' → ¬ P y → w u' y = some m' → d + m ≤ d' + m') :
    IsDist w s v (d + m) ∧ Settled w s fun y => y = v ∨ P y := by
  obtain ⟨⟨r, hroute⟩, -⟩ := hd
  have hdist : IsDist w s v (d + m) :=
    ⟨⟨_, hroute.snoc hm⟩, fun r' c' h' => h.le_of_route hmin hv h'⟩
  refine ⟨hdist, .inr h.source, ?_, ?_⟩
  · rintro y (rfl | hy)
    · exact ⟨_, hdist⟩
    · exact h.exact y hy
  · rintro y e z r' c' hy he hz hroute'
    rw [not_or] at hz
    rcases hy with rfl | hy
    · rw [he.unique hdist]
      exact h.le_of_route hmin hz.2 hroute'
    · exact h.separated y e z r' c' hy he hz.2 hroute'

/-- With positive weights the predecessors of a vertex next to a settled set are in it. -/
theorem Settled.of_isPred (hw : Positive w) (h : Settled w s fun y => y = v ∨ P y)
    (hpred : IsPred w s u v) : P u := by
  by_contra hu
  obtain ⟨c, m, ⟨⟨r, hroute⟩, -⟩, hm, hdist⟩ := hpred
  have hpos := hw _ _ _ hm
  by_cases huv : u = v
  · subst huv
    have := hdist.2 _ _ hroute
    omega
  · have := h.separated v (c + m) u r c (.inl rfl) hdist (by simp [huv, hu]) hroute
    omega

/-- A shortest route to a settled vertex stays in the settled set. -/
theorem Settled.of_mem (hw : Positive w) (h : Settled w s P) (hv : P v)
    (hroute : Shortest w s v r) (hx : x ∈ r) : P x := by
  induction r generalizing v with
  | nil => simp at hx
  | cons y r ih =>
    obtain ⟨rfl, u, hpred, hu⟩ := hroute.isPred
    rcases List.mem_cons.mp hx with rfl | hx
    · exact hv
    · have hPu : P u := by
        by_contra hPu
        obtain ⟨c, m, ⟨⟨r', hr'⟩, -⟩, hm, hdist⟩ := hpred
        have := h.separated y (c + m) u r' c hv hdist hPu hr'
        have := hw _ _ _ hm
        omega
      exact ih hPu hu hx

/-- Without an edge out of a settled set nothing else is reachable. -/
theorem Settled.not_isRoute (h : Settled w s P) (hno : ∀ u y m, P u → ¬ P y → w u y ≠ some m)
    (hv : ¬ P v) : ¬ IsRoute w s v r c := by
  intro hroute
  obtain ⟨u, y, r', d, m, hu, hy, -, hm, -⟩ := hroute.exit h.source hv
  exact hno u y m hu hy hm

end Route
