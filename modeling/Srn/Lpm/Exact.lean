import Srn.Lpm.Delete

/-!
# Srn.Lpm.Exact

What the two searches of `lib/lpm.c` return for a well-formed tree in memory.  `lpm_lookup` returns
the data of the longest stored prefix of an address; `__lpm_lookup_exact` returns the node of a
prefix, and where there is none it leaves the place where `lpm_insert` has to go on: the deepest
node whose prefix is not longer and matches.
-/

namespace Srn.LpmTree

variable {δ : Type} {n m : LpmNode δ} {c₀ c₁ d₀ d₁ t : LpmTree δ} {p q : In6Addr} {j k : ℕ}
  {b : Bool} {path path' : List Bool}

/-- The path ends at the node of a stored prefix. -/
def StoredAt (p : In6Addr) (k : ℕ) (t : LpmTree δ) (path : List Bool) : Prop :=
  ∃ n c₀ c₁, t.follow path = .node n c₀ c₁ ∧ IsKey p k n ∧ n.data ≠ .minusOne

/-- The path ends at a node that is not longer than the prefix and matches it, and passes all
other such nodes. -/
def Deepest (p : In6Addr) (k : ℕ) (t : LpmTree δ) (path : List Bool) : Prop :=
  CoversExact p k (t.follow path) ∧ ∀ path', CoversExact p k (t.follow path') → path' <+: path

/-! ## Paths -/

@[simp] theorem follow_null (path : List Bool) : (null : LpmTree δ).follow path = .null := by
  induction path with
  | nil => rfl
  | cons b path ih => exact ih

theorem follow_append (t : LpmTree δ) (path path' : List Bool) :
    t.follow (path ++ path') = (t.follow path).follow path' := by
  induction path generalizing t with
  | nil => rfl
  | cons b path ih => exact ih (t.child b)

theorem mem_nodes_of_follow (h : t.follow path = .node n c₀ c₁) : n ∈ t.nodes := by
  induction path generalizing t with
  | nil =>
    obtain rfl : t = .node n c₀ c₁ := h
    exact List.mem_cons_self
  | cons b path ih =>
    cases t with
    | null => exact absurd h (by simp)
    | node m d₀ d₁ => exact (mem_nodes_node b).mpr (.inr (.inl (ih h)))

theorem CoversExact.exists_node (h : CoversExact p k t) :
    ∃ n c₀ c₁, t = .node n c₀ c₁ ∧ n.plen ≤ k ∧ Agree n.pfx p n.plen := by
  cases t with
  | null => exact h.elim
  | node n c₀ c₁ => exact ⟨n, c₀, c₁, rfl, h⟩

theorem wfNode_follow (h : WfNode t) (hf : t.follow path = .node n c₀ c₁) :
    WfNode (.node n c₀ c₁) := by
  induction path generalizing t with
  | nil =>
    obtain rfl : t = .node n c₀ c₁ := hf
    exact h
  | cons b path ih =>
    cases t with
    | null => exact h.elim
    | node m d₀ d₁ =>
      refine ih (wfNode_child (b := b) h fun hnull => ?_) hf
      rw [follow, hnull, follow_null] at hf
      cases hf

/-- Prefixes get longer on the way down. -/
theorem plen_lt_of_follow (h : WfNode (node n c₀ c₁))
    (hf : (node n c₀ c₁).follow (b :: path) = .node m d₀ d₁) : n.plen < m.plen :=
  (((wfNode_iff b).mp h).2.1.of_mem (mem_nodes_of_follow hf)).1

/-- Where a node covers the prefix, so does everything above it. -/
theorem coversExact_of_follow (h : WfBelow q j b t) (hc : CoversExact p k (t.follow path)) :
    CoversExact p k t := by
  obtain ⟨m, d₀, d₁, hf, hle, hagree⟩ := hc.exists_node
  have hm := mem_nodes_of_follow hf
  cases t with
  | null => exact absurd hf (by simp)
  | node n c₀ c₁ => exact ⟨(h.wfNode.of_mem hm).1.trans hle, h.covers_of_mem hm hagree⟩

/-! ## The end of the exact search -/

/-- Only the slot of the next bit can cover the prefix. -/
theorem coversExact_follow_cons (h : WfNode (node n c₀ c₁))
    (hc : CoversExact p k ((node n c₀ c₁).follow (b :: path))) :
    b = p.getMsbD n.plen ∧ CoversExact p k ((node n c₀ c₁).child b) := by
  have hbelow := ((wfNode_iff b).mp h).2.1
  have hroot := coversExact_of_follow hbelow hc
  exact ⟨(hbelow.bit_eq hroot.covers).symm, hroot⟩

theorem deepest_here (h : WfNode (node n c₀ c₁)) (hcover : CoversExact p k (node n c₀ c₁))
    (hstop : ¬ CoversExact p k ((node n c₀ c₁).child (p.getMsbD n.plen))) :
    Deepest p k (node n c₀ c₁) [] := by
  refine ⟨hcover, fun path' hc => ?_⟩
  cases path' with
  | nil => exact List.prefix_rfl
  | cons b path' =>
    obtain ⟨rfl, hchild⟩ := coversExact_follow_cons h hc
    exact absurd hchild hstop

theorem deepest_there (h : WfNode (node n c₀ c₁))
    (hd : Deepest p k ((node n c₀ c₁).child (p.getMsbD n.plen)) path) :
    Deepest p k (node n c₀ c₁) (p.getMsbD n.plen :: path) := by
  refine ⟨hd.1, fun path' hc => ?_⟩
  cases path' with
  | nil => exact List.nil_prefix
  | cons b path' =>
    obtain ⟨rfl, -⟩ := coversExact_follow_cons h hc
    exact List.cons_prefix_cons.mpr ⟨rfl, hd.2 path' hc⟩

theorem storedAt_here :
    StoredAt p k (node n c₀ c₁) [] ↔ IsKey p k n ∧ n.data ≠ .minusOne := by
  constructor
  · rintro ⟨m, d₀, d₁, hf, hm⟩
    cases hf
    exact hm
  · exact fun hn => ⟨n, c₀, c₁, rfl, hn⟩

/-- **The exact search** ends at the deepest node, and finds it if it is the one of the prefix. -/
theorem lookupExact_deepest (t : LpmTree δ) (h : WfNode t) (hcover : CoversExact p k t) :
    ∃ path found, lookupExact p k t = .ok (path, found) ∧ Deepest p k t path ∧
      (found = true ↔ StoredAt p k t path) := by
  induction t using childInduction with
  | null => exact h.elim
  | node n c₀ c₁ ih =>
    have hp : Agree n.pfx p n.plen := hcover.2
    obtain hlen | hlen := Nat.lt_or_eq_of_le hcover.1
    · rw [lookupExact_node h hp hlen]
      split_ifs with hc
      · have hbelow := ((wfNode_iff (p.getMsbD n.plen)).mp h).2.1
        obtain ⟨path, found, hrun, hdeepest, hfound⟩ :=
          ih _ (hbelow.wfNode_of_covers hc.covers) hc
        rw [hrun]
        exact ⟨p.getMsbD n.plen :: path, found, rfl, deepest_there h hdeepest, hfound⟩
      · refine ⟨[], false, rfl, deepest_here h hcover hc, ?_⟩
        rw [storedAt_here]
        exact iff_of_false (by decide) fun hn => not_isKey_of_lt hlen hn.1
    · obtain ⟨found, hrun, hvirtual⟩ := lookupExact_self h hp hlen
      refine ⟨[], found, hrun, deepest_here h hcover fun hc => ?_, ?_⟩
      · -- a child is longer than the prefix
        obtain ⟨m, d₀, d₁, hchild, hle, -⟩ := hc.exists_node
        have hf : (node n c₀ c₁).follow [p.getMsbD n.plen] = .node m d₀ d₁ := hchild
        have hlt := plen_lt_of_follow h hf
        omega
      · have hkey : IsKey p k n := ⟨hlen, hlen ▸ hp⟩
        rw [storedAt_here, and_iff_right hkey, Ne, ← hvirtual, Bool.not_eq_false]

/-- The node of a prefix is the deepest one. -/
theorem StoredAt.eq_deepest (hs : StoredAt p k t path') (h : WfNode t)
    (hd : Deepest p k t path) : path' = path := by
  obtain ⟨n, c₀, c₁, hf, hkey, -⟩ := hs
  have hcover : CoversExact p k (t.follow path') := by
    rw [hf]
    exact ⟨hkey.1.le, hkey.1 ▸ hkey.2⟩
  obtain ⟨rest, rfl⟩ := hd.2 path' hcover
  cases rest with
  | nil => exact (List.append_nil path').symm
  | cons b rest =>
    obtain ⟨m, d₀, d₁, hf', hle, -⟩ := hd.1.exists_node
    rw [follow_append, hf] at hf'
    have hlt := plen_lt_of_follow (wfNode_follow h hf) hf'
    have hplen := hkey.1
    omega

end Srn.LpmTree

namespace Srn.LpmHeap

open LpmTree

variable {δ : Type}

/-- **The two searches** in the memory of a well-formed tree.  For every address `lpm_lookup`
returns the data of the longest stored prefix.  For every prefix `__lpm_lookup_exact` returns the
node that stores it, which there is only one of; or no node stores it, and it returns `NULL` and
saves the deepest node that is not longer and matches. -/
theorem lookups_of_wf (h : LpmHeap δ) (head : LpmAddr) (t : LpmTree δ) (l : List LpmAddr)
    (hrep : Rep h none (some head) t l) (hwf : Wf t) (fuel : ℕ) (hfuel : 129 ≤ fuel) :
    (∀ a, ∃ m, Longest a t m ∧ h.lpmLookup fuel head a = .ok (result m)) ∧
    ∀ p k, ∃ path x, h.addrAt head path = some x ∧
      ((StoredAt p k t path ∧ (∀ path', StoredAt p k t path' → path' = path) ∧
          h.lookupSave p k fuel head = .ok (some x, x)) ∨
        ((∀ path', ¬ StoredAt p k t path') ∧ Deepest p k t path ∧
          h.lookupSave p k fuel head = .ok (none, x))) := by
  have hnode := wfNode_of_wf hwf
  have hdepth : depth t ≤ fuel := (depth_le_of_wfNode hnode).trans hfuel
  constructor
  · intro a
    obtain ⟨m, hm, hlookup⟩ := lpmLookup_spec t hwf a
    exact ⟨m, hm, lpmLookup_rep hrep hdepth hlookup⟩
  · intro p k
    obtain ⟨path, found, hsearch, hdeepest, hfound⟩ :=
      lookupExact_deepest t hnode (coversExact_of_wf hwf p k)
    obtain ⟨x, hx, hrun⟩ := lookupSave_rep t hrep hdepth hsearch
    refine ⟨path, x, hx, ?_⟩
    cases found with
    | true => exact .inl ⟨hfound.mp rfl, fun path' hs => hs.eq_deepest hnode hdeepest, hrun⟩
    | false =>
      refine .inr ⟨fun path' hs => ?_, hdeepest, hrun⟩
      rw [hs.eq_deepest hnode hdeepest] at hs
      exact absurd (hfound.mpr hs) (by decide)

/-- A tree with a virtual node. -/
theorem lookups_of_wf_fork :
    (∀ a, ∃ m, Longest a forkTree m ∧ forkHeap.lpmLookup 129 0 a = .ok (result m)) ∧
    ∀ p k, ∃ path x, forkHeap.addrAt 0 path = some x ∧
      ((StoredAt p k forkTree path ∧ (∀ path', StoredAt p k forkTree path' → path' = path) ∧
          forkHeap.lookupSave p k 129 0 = .ok (some x, x)) ∨
        ((∀ path', ¬ StoredAt p k forkTree path') ∧ Deepest p k forkTree path ∧
          forkHeap.lookupSave p k 129 0 = .ok (none, x))) := by
  obtain ⟨⟨l, hrep, -⟩, hwf, -⟩ := wellFormed_forkHeap
  exact lookups_of_wf forkHeap 0 forkTree l hrep hwf 129 (by decide)

end Srn.LpmHeap
