import Srn.Lpm.Wf

/-!
# Srn.Lpm.Lookup

`lpm_lookup` on a well-formed tree: it ends, and the node it stops at is the longest
prefix that matches the address among the nodes that are not virtual.
-/

namespace Srn.LpmTree

variable {δ : Type} {n : LpmNode δ} {c₀ c₁ : LpmTree δ} {a : In6Addr}

/-- A node that is not virtual and matches an address. -/
def Matches (a : In6Addr) (x : LpmNode δ) : Prop := x.data ≠ .minusOne ∧ Agree x.pfx a x.plen

/-- The longest matching node of a tree. -/
structure Longest (a : In6Addr) (t : LpmTree δ) (m : LpmNode δ) : Prop where
  mem : m ∈ t.nodes
  is_match : Matches a m
  longest : ∀ x ∈ t.nodes, Matches a x → x.plen ≤ m.plen

/-- `last_match` after a node was visited. -/
def visit (n lastMatch : LpmNode δ) : LpmNode δ :=
  match n.data with
  | .minusOne => lastMatch
  | _ => n

theorem visit_of_virtual (h : n.data = .minusOne) (last : LpmNode δ) : visit n last = last := by
  simp [visit, h]

theorem visit_of_real (h : n.data ≠ .minusOne) (last : LpmNode δ) : visit n last = n := by
  unfold visit
  split
  · next hd => exact absurd hd h
  · rfl

/-- One step down: only the slot of the next bit can match. -/
theorem lookupFrom_node (h : WfNode (node n c₀ c₁)) (ha : Agree n.pfx a n.plen)
    (last : LpmNode δ) :
    lookupFrom a (node n c₀ c₁) last =
      if Covers a ((node n c₀ c₁).child (a.getMsbD n.plen)) then
        lookupFrom a ((node n c₀ c₁).child (a.getMsbD n.plen)) (visit n last)
      else .ok (visit n last) := by
  have h₀ := matchChild_eq h.2.1.below ha
  have h₁ := matchChild_eq h.2.2.below ha
  have hb₀ := fun hc : Covers a c₀ => h.2.1.bit_eq hc
  have hb₁ := fun hc : Covers a c₁ => h.2.2.bit_eq hc
  rw [lookupFrom]
  change (do
    if ← matchChild a n.plen c₀ then lookupFrom a c₀ (visit n last)
    else if ← matchChild a n.plen c₁ then lookupFrom a c₁ (visit n last)
    else return visit n last) = _
  rw [h₀, h₁]
  simp only [bind, Except.bind, pure, Except.pure, decide_eq_true_iff, child]
  cases hbit : a.getMsbD n.plen with
  | false => grind
  | true => grind

/-- Nothing matches in the slot of the other bit. -/
theorem not_matches_other (h : WfNode (node n c₀ c₁)) {x : LpmNode δ}
    (hx : x ∈ ((node n c₀ c₁).child (!a.getMsbD n.plen)).nodes) : ¬ Matches a x := by
  intro hm
  have hw := ((wfNode_iff (a.getMsbD n.plen)).mp h).2.2
  have := hw.bit_eq (hw.covers_of_mem hx hm.2)
  simp at this

/-- The longest match of the slot of the next bit is the longest match of the tree. -/
theorem Longest.of_child (h : WfNode (node n c₀ c₁)) {m : LpmNode δ}
    (hm : Longest a ((node n c₀ c₁).child (a.getMsbD n.plen)) m) :
    Longest a (node n c₀ c₁) m := by
  refine ⟨(mem_nodes_node _).mpr (.inr (.inl hm.mem)), hm.is_match, fun x hx hxm => ?_⟩
  rcases (mem_nodes_node (a.getMsbD n.plen)).mp hx with rfl | hx | hx
  · exact (((wfNode_iff _).mp h).2.1.of_mem hm.mem).1.le
  · exact hm.longest x hx hxm
  · exact absurd hxm (not_matches_other h hx)

/-- **The search** from a node that matches: the longest match below it, or the last match
above it where nothing below matches. -/
theorem lookupFrom_spec (t : LpmTree δ) (h : WfNode t) (ha : Covers a t) (last : LpmNode δ) :
    ∃ m, lookupFrom a t last = .ok m ∧
      ((m = last ∧ ∀ x ∈ t.nodes, ¬ Matches a x) ∨ Longest a t m) := by
  induction t using childInduction generalizing last with
  | null => exact h.elim
  | node n c₀ c₁ ih =>
    have hbelow := ((wfNode_iff (a.getMsbD n.plen)).mp h).2.1
    obtain ⟨m, hm, hcase⟩ : ∃ m, lookupFrom a (node n c₀ c₁) last = .ok m ∧
        ((m = visit n last ∧
            ∀ x ∈ ((node n c₀ c₁).child (a.getMsbD n.plen)).nodes, ¬ Matches a x) ∨
          Longest a ((node n c₀ c₁).child (a.getMsbD n.plen)) m) := by
      rw [lookupFrom_node h ha]
      split_ifs with hc
      · exact ih _ (hbelow.wfNode_of_covers hc) hc _
      · exact ⟨_, rfl, .inl ⟨rfl, fun x hx hxm => hc (hbelow.covers_of_mem hx hxm.2)⟩⟩
    refine ⟨m, hm, ?_⟩
    rcases hcase with ⟨rfl, hnone⟩ | hlongest
    · have hrest : ∀ x ∈ (node n c₀ c₁).nodes, Matches a x → x = n := by
        intro x hx hxm
        rcases (mem_nodes_node (a.getMsbD n.plen)).mp hx with rfl | hx | hx
        · rfl
        · exact absurd hxm (hnone x hx)
        · exact absurd hxm (not_matches_other h hx)
      by_cases hvirtual : n.data = .minusOne
      · refine .inl ⟨visit_of_virtual hvirtual last, fun x hx hxm => ?_⟩
        exact hxm.1 (hrest x hx hxm ▸ hvirtual)
      · rw [visit_of_real hvirtual]
        exact .inr ⟨List.mem_cons_self, ⟨hvirtual, ha⟩,
          fun x hx hxm => (congrArg LpmNode.plen (hrest x hx hxm)).le⟩
    · exact .inr (hlongest.of_child h)

/-- The data `lpm_lookup` returns for a node. -/
def result (n : LpmNode δ) : Option δ :=
  match n.data with
  | .entry d => some d
  | _ => none

/-- **Lookup** in a well-formed tree returns the data of the longest matching node. -/
theorem lpmLookup_spec (t : LpmTree δ) (h : Wf t) (a : In6Addr) :
    ∃ m, Longest a t m ∧ lpmLookup t a = .ok (result m) := by
  cases t with
  | null => exact h.elim
  | node n c₀ c₁ =>
    obtain ⟨hplen, hreal, hwf⟩ := h
    have hhead : Covers a (node n c₀ c₁) := by
      intro i hi
      rw [hplen] at hi
      omega
    obtain ⟨m, hm, hcase⟩ := lookupFrom_spec (node n c₀ c₁) hwf hhead n
    refine ⟨m, ?_, ?_⟩
    · rcases hcase with ⟨-, hnone⟩ | hlongest
      · exact absurd ⟨hreal, hhead⟩ (hnone n List.mem_cons_self)
      · exact hlongest
    · rw [lpmLookup, hm]
      simp only [bind, Except.bind, pure, Except.pure, result]
      cases m.data <;> rfl

end Srn.LpmTree
