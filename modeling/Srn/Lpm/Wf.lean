import Mathlib.Data.List.TakeWhile
import Srn.Lpm

/-!
# Srn.Lpm.Wf

Well-formed prefix trees, and what the building blocks of the search compute on them.

In a well-formed tree the prefix of a node is longer than the prefix of its parent, extends
it, and continues with the bit of the child slot in which the node sits.  On such a tree
`match_node` is a test of whole prefixes although it compares only the bits that the
parent has not compared, and at most one child of a node can match.
-/

namespace Srn

variable {δ : Type}

/-! ## The pieces of the search -/

/-- `match_node` below a node that agrees with the address. -/
theorem matchNode_eq {n : LpmNode δ} {a : In6Addr} {curPlen : ℕ} (hcur : curPlen ≤ n.plen)
    (hplen : n.plen ≤ 128) (hagree : Agree n.pfx a curPlen) :
    matchNode n a curPlen = .ok (decide (Agree n.pfx a n.plen)) := by
  unfold matchNode
  split_ifs with hzero hneg hbound
  · simp [hzero, Agree]
  · omega
  · omega
  · congr 1
    rw [Bool.eq_iff_iff, beq_iff_eq, decide_eq_true_iff, addrToBinary_slice_eq_iff _ _ hplen]
    constructor
    · intro h i hi
      rcases Nat.lt_or_ge i curPlen with hlt | hge
      · exact hagree i hlt
      · exact h i hge hi
    · exact fun h i _ hi => h i hi

/-- The slot for a bit of an address. -/
theorem slotAt_eq (a : In6Addr) {i : ℕ} (hi : i < 128) :
    slotAt (addrToBinary a) i = .ok (a.getMsbD i) := by
  rw [slotAt, addrToBinary_getElem a hi]
  cases a.getMsbD i <;> rfl

/-- `takeWhile` stops at the first element that fails the test. -/
theorem takeWhile_length_spec {α : Type*} (f : α → Bool) (l : List α) :
    (∀ i < (l.takeWhile f).length, ∀ x, l[i]? = some x → f x = true) ∧
      ∀ x, l[(l.takeWhile f).length]? = some x → f x = false := by
  induction l with
  | nil => simp
  | cons y l ih =>
    by_cases hy : f y = true
    · rw [List.takeWhile_cons_of_pos hy]
      refine ⟨fun i hi x hx => ?_, fun x hx => ih.2 x (by simpa using hx)⟩
      cases i with
      | zero =>
        obtain rfl : y = x := by simpa using hx
        exact hy
      | succ i => exact ih.1 i (by simpa using hi) x (by simpa using hx)
    · rw [List.takeWhile_cons_of_neg hy]
      refine ⟨by simp, fun x hx => ?_⟩
      obtain rfl : y = x := by simpa using hx
      simpa using hy

/-- `common_prefix_len` is the position of the first difference. -/
theorem commonPrefixLen_spec (p q : In6Addr) {m : ℕ} (hm : m ≤ 128) :
    commonPrefixLen p q m ≤ m ∧ Agree p q (commonPrefixLen p q m) ∧
      (commonPrefixLen p q m < m →
        p.getMsbD (commonPrefixLen p q m) ≠ q.getMsbD (commonPrefixLen p q m)) := by
  have hget : ∀ i < m, (((addrToBinary p).zip (addrToBinary q)).take m)[i]? =
      some (binChar (p.getMsbD i), binChar (q.getMsbD i)) := by
    intro i hi
    rw [List.getElem?_take, if_pos hi, List.getElem?_zip_eq_some]
    exact ⟨addrToBinary_getElem p (by omega), addrToBinary_getElem q (by omega)⟩
  obtain ⟨hsame, hdiff⟩ := takeWhile_length_spec (fun c : Char × Char => c.1 == c.2)
    (((addrToBinary p).zip (addrToBinary q)).take m)
  have hle : commonPrefixLen p q m ≤ m :=
    (List.takeWhile_prefix _).length_le.trans (List.length_take_le _ _)
  refine ⟨hle, fun i hi => ?_, fun hlt => ?_⟩
  · have := hsame i hi _ (hget i (Nat.lt_of_lt_of_le hi hle))
    exact binChar_inj.mp (by simpa using this)
  · have := hdiff _ (hget _ hlt)
    exact fun h => beq_eq_false_iff_ne.mp this (binChar_inj.mpr h)

namespace LpmTree

/-! ## Nodes -/

/-- Induction along the child slots. -/
theorem childInduction {P : LpmTree δ → Prop} (null : P .null)
    (node : ∀ n c₀ c₁, (∀ b, P ((LpmTree.node n c₀ c₁).child b)) → P (.node n c₀ c₁))
    (t : LpmTree δ) : P t := by
  induction t with
  | null => exact null
  | node n c₀ c₁ ih₀ ih₁ => exact node n c₀ c₁ fun b => by cases b <;> assumption

/-- The nodes of a tree, from the root down. -/
def nodes : LpmTree δ → List (LpmNode δ)
  | .null => []
  | .node n c₀ c₁ => n :: (c₀.nodes ++ c₁.nodes)

/-- The nodes below the two slots of a node, in either order of the slots. -/
theorem mem_nodes_node (b : Bool) {n x : LpmNode δ} {c₀ c₁ : LpmTree δ} :
    x ∈ (node n c₀ c₁).nodes ↔ x = n ∨ x ∈ ((node n c₀ c₁).child b).nodes ∨
      x ∈ ((node n c₀ c₁).child (!b)).nodes := by
  cases b <;> simp [nodes, child, or_comm]

/-- The nodes after a change of one slot. -/
theorem mem_nodes_setChild {b : Bool} {n x : LpmNode δ} {c₀ c₁ c : LpmTree δ} :
    x ∈ ((node n c₀ c₁).setChild b c).nodes ↔ x = n ∨ x ∈ c.nodes ∨
      x ∈ ((node n c₀ c₁).child (!b)).nodes := by
  cases b <;> simp [nodes, child, setChild, or_comm]

/-! ## Well-formedness -/

/-- The tree in slot `b` of a node with prefix `q` of length `k` is well-formed. -/
def WfBelow (q : In6Addr) (k : ℕ) (b : Bool) : LpmTree δ → Prop
  | .null => True
  | .node n c₀ c₁ => k < n.plen ∧ n.plen ≤ 128 ∧ Agree n.pfx q k ∧ n.pfx.getMsbD k = b ∧
      WfBelow n.pfx n.plen false c₀ ∧ WfBelow n.pfx n.plen true c₁

/-- The two slots of a node are well-formed. -/
def WfNode : LpmTree δ → Prop
  | .null => False
  | .node n c₀ c₁ => n.plen ≤ 128 ∧ WfBelow n.pfx n.plen false c₀ ∧ WfBelow n.pfx n.plen true c₁

/-- A well-formed tree: the head has the empty prefix and is not virtual. -/
def Wf : LpmTree δ → Prop
  | .null => False
  | .node n c₀ c₁ => n.plen = 0 ∧ n.data ≠ .minusOne ∧ WfNode (.node n c₀ c₁)

variable {q : In6Addr} {k : ℕ} {b : Bool} {n : LpmNode δ} {c₀ c₁ : LpmTree δ}

theorem wfNode_iff (b : Bool) : WfNode (node n c₀ c₁) ↔ n.plen ≤ 128 ∧
    WfBelow n.pfx n.plen b ((node n c₀ c₁).child b) ∧
    WfBelow n.pfx n.plen (!b) ((node n c₀ c₁).child (!b)) := by
  cases b <;> simp [WfNode, child, and_comm]

theorem wfNode_setChild {c : LpmTree δ} (h : WfNode (node n c₀ c₁))
    (hc : WfBelow n.pfx n.plen b c) : WfNode ((node n c₀ c₁).setChild b c) := by
  cases b
  · exact ⟨h.1, hc, h.2.2⟩
  · exact ⟨h.1, h.2.1, hc⟩

theorem WfBelow.wfNode (h : WfBelow q k b (node n c₀ c₁)) : WfNode (node n c₀ c₁) :=
  ⟨h.2.1, h.2.2.2.2⟩

/-- The whole tree in a slot extends the prefix of the node by the bit of the slot. -/
theorem WfBelow.of_mem {t : LpmTree δ} (h : WfBelow q k b t) {x : LpmNode δ}
    (hx : x ∈ t.nodes) : k < x.plen ∧ Agree x.pfx q k ∧ x.pfx.getMsbD k = b := by
  induction t generalizing q k b with
  | null => simp [nodes] at hx
  | node n c₀ c₁ ih₀ ih₁ =>
    obtain ⟨hk, -, hagree, hbit, h₀, h₁⟩ := h
    have hbelow : n.plen < x.plen ∧ Agree x.pfx n.pfx n.plen →
        k < x.plen ∧ Agree x.pfx q k ∧ x.pfx.getMsbD k = b := fun ⟨hlt, hx⟩ =>
      ⟨by omega, (hx.mono hk.le).trans hagree, (hx k hk).trans hbit⟩
    simp only [nodes, List.mem_cons, List.mem_append] at hx
    rcases hx with rfl | hx | hx
    · exact ⟨hk, hagree, hbit⟩
    · exact hbelow ⟨(ih₀ h₀ hx).1, (ih₀ h₀ hx).2.1⟩
    · exact hbelow ⟨(ih₁ h₁ hx).1, (ih₁ h₁ hx).2.1⟩

/-- The root of a well-formed node is the shortest prefix and a prefix of all others. -/
theorem WfNode.of_mem (h : WfNode (node n c₀ c₁)) {x : LpmNode δ}
    (hx : x ∈ (node n c₀ c₁).nodes) : n.plen ≤ x.plen ∧ Agree x.pfx n.pfx n.plen := by
  simp only [nodes, List.mem_cons, List.mem_append] at hx
  rcases hx with rfl | hx | hx
  · exact ⟨Nat.le_refl _, Agree.refl _ _⟩
  · exact ⟨(h.2.1.of_mem hx).1.le, (h.2.1.of_mem hx).2.1⟩
  · exact ⟨(h.2.2.of_mem hx).1.le, (h.2.2.of_mem hx).2.1⟩

/-! ## Matching a slot -/

/-- The node in a slot matches an address. -/
def Covers (a : In6Addr) : LpmTree δ → Prop
  | .null => False
  | .node n _ _ => Agree n.pfx a n.plen

instance (a : In6Addr) : (t : LpmTree δ) → Decidable (Covers a t)
  | .null => inferInstanceAs (Decidable False)
  | .node n _ _ => inferInstanceAs (Decidable (Agree n.pfx a n.plen))

/-- The node in a slot matches a prefix and is not longer. -/
def CoversExact (p : In6Addr) (l : ℕ) : LpmTree δ → Prop
  | .null => False
  | .node n _ _ => n.plen ≤ l ∧ Agree n.pfx p n.plen

instance (p : In6Addr) (l : ℕ) : (t : LpmTree δ) → Decidable (CoversExact p l t)
  | .null => inferInstanceAs (Decidable False)
  | .node n _ _ => inferInstanceAs (Decidable (n.plen ≤ l ∧ Agree n.pfx p n.plen))

theorem CoversExact.covers {p : In6Addr} {l : ℕ} {t : LpmTree δ} (h : CoversExact p l t) :
    Covers p t := by
  cases t with
  | null => exact h
  | node n c₀ c₁ => exact h.2

/-- All that the test of a slot asks of the node in it: its prefix extends the first `k` bits of
`q`. -/
def Below (q : In6Addr) (k : ℕ) : LpmTree δ → Prop
  | .null => True
  | .node n _ _ => k ≤ n.plen ∧ n.plen ≤ 128 ∧ Agree n.pfx q k

theorem WfBelow.below {t : LpmTree δ} (h : WfBelow q k b t) : Below q k t := by
  cases t with
  | null => trivial
  | node n c₀ c₁ => exact ⟨h.1.le, h.2.1, h.2.2.1⟩

theorem matchChild_eq {t : LpmTree δ} {a : In6Addr} (h : Below q k t) (ha : Agree q a k) :
    matchChild a k t = .ok (decide (Covers a t)) := by
  cases t with
  | null => rfl
  | node n c₀ c₁ => exact matchNode_eq h.1 h.2.1 (h.2.2.trans ha)

theorem matchChildExact_eq {t : LpmTree δ} {p : In6Addr} {l : ℕ} (h : Below q k t)
    (hp : Agree q p k) : matchChildExact p l k t = .ok (decide (CoversExact p l t)) := by
  cases t with
  | null => rfl
  | node n c₀ c₁ =>
    rw [matchChildExact, matchNode_eq h.1 h.2.1 (h.2.2.trans hp)]
    by_cases hl : n.plen ≤ l <;> simp [CoversExact, hl]

/-- A matching slot is the one of the next bit. -/
theorem WfBelow.bit_eq {t : LpmTree δ} {a : In6Addr} (h : WfBelow q k b t) (hc : Covers a t) :
    a.getMsbD k = b := by
  cases t with
  | null => exact hc.elim
  | node n c₀ c₁ => rw [← hc k h.1]; exact h.2.2.2.1

theorem WfBelow.wfNode_of_covers {t : LpmTree δ} {a : In6Addr} (h : WfBelow q k b t)
    (hc : Covers a t) : WfNode t := by
  cases t with
  | null => exact hc.elim
  | node n c₀ c₁ => exact h.wfNode

/-- Where the root does not match, nothing below does. -/
theorem WfBelow.covers_of_mem {t : LpmTree δ} {a : In6Addr} (h : WfBelow q k b t)
    {x : LpmNode δ} (hx : x ∈ t.nodes) (ha : Agree x.pfx a x.plen) : Covers a t := by
  cases t with
  | null => simp [nodes] at hx
  | node n c₀ c₁ =>
    have := h.wfNode.of_mem hx
    exact this.2.symm.trans (ha.mono this.1)

end LpmTree

end Srn
