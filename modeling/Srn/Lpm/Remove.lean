import Srn.Lpm.Heap
import Srn.Lpm.Insert

/-!
# Srn.Lpm.Remove

What a deletion is for: the tree without one prefix, in which again every virtual node has two
children.  A node that became virtual gives way to its only child, or goes if it has none, and then
the node above it may have to give way in turn (`collapse`).
-/

namespace Srn.LpmTree

variable {δ : Type} {n x : LpmNode δ} {c₀ c₁ c t : LpmTree δ} {p q : In6Addr} {k l : ℕ} {b : Bool}
  {path : List Bool}

/-- Every virtual node has two children. -/
def Branching : LpmTree δ → Prop
  | .null => True
  | .node n c₀ c₁ => (n.data = .minusOne → c₀ ≠ .null ∧ c₁ ≠ .null) ∧ Branching c₀ ∧ Branching c₁

/-- A stored prefix: a node that is not virtual. -/
def Entry (t : LpmTree δ) (x : LpmNode δ) : Prop := x ∈ t.nodes ∧ x.data ≠ .minusOne

/-- The node of the prefix of length `l` of `p`. -/
def IsKey (p : In6Addr) (l : ℕ) (x : LpmNode δ) : Prop := x.plen = l ∧ Agree x.pfx p l

/-- What is left of a virtual node with the given children. -/
def giveWay (n : LpmNode δ) : LpmTree δ → LpmTree δ → LpmTree δ
  | .null, c => c
  | c, .null => c
  | c₀, c₁ => .node n c₀ c₁

/-- A virtual node with less than two children gives way. -/
def collapse : LpmTree δ → LpmTree δ
  | .null => .null
  | .node n c₀ c₁ => if n.isVirtual then giveWay n c₀ c₁ else .node n c₀ c₁

/-- The tree without the node at the end of a path. -/
def remove : List Bool → LpmTree δ → LpmTree δ
  | [], .null => .null
  | [], .node n c₀ c₁ => collapse (.node { n with data := .minusOne } c₀ c₁)
  | b :: path, t => collapse (t.setChild b (remove path (t.child b)))

/-! ## Giving way -/

theorem setChild_false : (node n c₀ c₁).setChild false c = node n c c₁ := rfl

theorem setChild_true : (node n c₀ c₁).setChild true c = node n c₀ c := rfl

theorem branching_iff (b : Bool) : Branching (node n c₀ c₁) ↔
    (n.data = .minusOne → (node n c₀ c₁).child b ≠ .null ∧ (node n c₀ c₁).child (!b) ≠ .null) ∧
      Branching ((node n c₀ c₁).child b) ∧ Branching ((node n c₀ c₁).child (!b)) := by
  cases b <;> simp [Branching, child, and_comm]

theorem Branching.child (h : Branching t) (b : Bool) : Branching (t.child b) := by
  cases t with
  | null => trivial
  | node n c₀ c₁ => exact ((branching_iff b).mp h).2.1

/-- A node stays, or gives way to the only child it may have. -/
theorem collapse_cases (n : LpmNode δ) (c₀ c₁ : LpmTree δ) :
    (collapse (node n c₀ c₁) = node n c₀ c₁ ∧
        (n.data = .minusOne → c₀ ≠ .null ∧ c₁ ≠ .null)) ∨
      ∃ b, n.data = .minusOne ∧ (node n c₀ c₁).child (!b) = .null ∧
        collapse (node n c₀ c₁) = (node n c₀ c₁).child b := by
  rw [collapse]
  by_cases hvirtual : n.data = .minusOne
  · rw [if_pos (LpmNode.isVirtual_iff.mpr hvirtual)]
    cases c₀ with
    | null => exact .inr ⟨true, hvirtual, rfl, rfl⟩
    | node =>
      cases c₁ with
      | null => exact .inr ⟨false, hvirtual, rfl, rfl⟩
      | node => exact .inl ⟨rfl, by simp⟩
  · rw [if_neg (by simpa using hvirtual)]
    exact .inl ⟨rfl, fun h => absurd h hvirtual⟩

theorem collapse_of_branching (h : n.data = .minusOne → c₀ ≠ .null ∧ c₁ ≠ .null) :
    collapse (node n c₀ c₁) = node n c₀ c₁ := by
  obtain ⟨heq, -⟩ | ⟨b, hvirtual, hnull, -⟩ := collapse_cases n c₀ c₁
  · exact heq
  · obtain ⟨h₀, h₁⟩ := h hvirtual
    cases b
    · exact absurd hnull h₁
    · exact absurd hnull h₀

theorem collapse_of_only (hvirtual : n.data = .minusOne)
    (hnull : (node n c₀ c₁).child (!b) = .null) :
    collapse (node n c₀ c₁) = (node n c₀ c₁).child b := by
  rw [collapse, if_pos (LpmNode.isVirtual_iff.mpr hvirtual)]
  cases b with
  | true =>
    obtain rfl : c₀ = .null := hnull
    rfl
  | false =>
    obtain rfl : c₁ = .null := hnull
    cases c₀ <;> rfl

/-- A slot can be emptied unless the node is virtual and this was its last child. -/
theorem collapse_setChild_null_ne (h : Branching (node n c₀ c₁)) (b : Bool) :
    collapse ((node n c₀ c₁).setChild b .null) ≠ .null := by
  by_cases hvirtual : n.data = .minusOne
  · have hother : (node n c₀ c₁).child (!b) ≠ .null := (((branching_iff b).mp h).1 hvirtual).2
    cases b
    · rw [setChild_false, collapse_of_only (b := true) hvirtual rfl]
      exact hother
    · rw [setChild_true, collapse_of_only (b := false) hvirtual rfl]
      exact hother
  · have hstay : ∀ d₀ d₁, collapse (node n d₀ d₁) ≠ .null := fun d₀ d₁ => by
      rw [collapse_of_branching fun hd => absurd hd hvirtual]
      simp
    cases b <;> exact hstay _ _

/-- A tree below a node fits where the node is. -/
theorem WfBelow.lift (h : WfBelow q k b (node n c₀ c₁)) {b' : Bool}
    (hc : WfBelow n.pfx n.plen b' c) : WfBelow q k b c := by
  cases c with
  | null => trivial
  | node cn d₀ d₁ =>
    exact ⟨h.1.trans hc.1, hc.2.1, (hc.2.2.1.mono h.1.le).trans h.2.2.1,
      (hc.2.2.1 k h.1).trans h.2.2.2.1, hc.2.2.2.2⟩

theorem WfBelow.collapse (h : WfBelow q k b t) : WfBelow q k b (collapse t) := by
  cases t with
  | null => trivial
  | node n c₀ c₁ =>
    obtain ⟨heq, -⟩ | ⟨b', -, -, heq⟩ := collapse_cases n c₀ c₁
    · rwa [heq]
    · rw [heq]
      exact h.lift ((wfNode_iff b').mp h.wfNode).2.1

theorem branching_collapse (h : ∀ b, Branching ((node n c₀ c₁).child b)) :
    Branching (collapse (node n c₀ c₁)) := by
  obtain ⟨heq, hne⟩ | ⟨b, -, -, heq⟩ := collapse_cases n c₀ c₁
  · rw [heq]
    exact ⟨hne, h false, h true⟩
  · rw [heq]
    exact h b

theorem entry_node (b : Bool) : Entry (node n c₀ c₁) x ↔ (x = n ∧ n.data ≠ .minusOne) ∨
    Entry ((node n c₀ c₁).child b) x ∨ Entry ((node n c₀ c₁).child (!b)) x := by
  simp only [Entry, mem_nodes_node b, or_and_right]
  refine or_congr_left (and_congr_right ?_)
  rintro rfl
  rfl

theorem entry_setChild : Entry ((node n c₀ c₁).setChild b c) x ↔ (x = n ∧ n.data ≠ .minusOne) ∨
    Entry c x ∨ Entry ((node n c₀ c₁).child (!b)) x := by
  simp only [Entry, mem_nodes_setChild, or_and_right]
  refine or_congr_left (and_congr_right ?_)
  rintro rfl
  rfl

@[simp] theorem not_entry_null : ¬ Entry (null : LpmTree δ) x := by simp [Entry, nodes]

/-- Only virtual nodes give way. -/
theorem entry_collapse : Entry (collapse t) x ↔ Entry t x := by
  cases t with
  | null => rfl
  | node n c₀ c₁ =>
    obtain ⟨heq, -⟩ | ⟨b, hvirtual, hnull, heq⟩ := collapse_cases n c₀ c₁
    · rw [heq]
    · rw [heq, entry_node b, hnull]
      simp [hvirtual]

/-! ## Removal -/

/-- The path leads from the root to the node of a stored prefix, along the bits of the prefix. -/
inductive Reaches (p : In6Addr) (l : ℕ) : LpmTree δ → List Bool → Prop
  | here {n : LpmNode δ} {c₀ c₁ : LpmTree δ} (key : IsKey p l n) (real : n.data ≠ .minusOne) :
      Reaches p l (.node n c₀ c₁) []
  | there {n : LpmNode δ} {c₀ c₁ : LpmTree δ} {path : List Bool} (short : n.plen < l)
      (below : Reaches p l ((node n c₀ c₁).child (p.getMsbD n.plen)) path) :
      Reaches p l (.node n c₀ c₁) (p.getMsbD n.plen :: path)

theorem not_isKey_of_lt (h : n.plen < l) : ¬ IsKey p l n := fun hkey => h.ne hkey.1

theorem wfNode_child (h : WfNode (node n c₀ c₁)) (hne : (node n c₀ c₁).child b ≠ .null) :
    WfNode ((node n c₀ c₁).child b) := by
  have hbelow := ((wfNode_iff b).mp h).2.1
  cases hchild : (node n c₀ c₁).child b with
  | null => exact absurd hchild hne
  | node cn d₀ d₁ => exact (hchild ▸ hbelow).wfNode

theorem Reaches.ne_null (hreach : Reaches p l t path) : t ≠ .null := by
  cases hreach <;> simp

/-- The prefix is not in the slot of the other bit. -/
theorem not_isKey_other (h : WfNode (node n c₀ c₁)) (hlen : n.plen < l)
    (hx : x ∈ ((node n c₀ c₁).child (!p.getMsbD n.plen)).nodes) : ¬ IsKey p l x := by
  rintro ⟨-, hagree⟩
  have hbit := (((wfNode_iff (p.getMsbD n.plen)).mp h).2.2.of_mem hx).2.2
  rw [hagree _ hlen] at hbit
  simp at hbit

/-- **The exact search** ends at the node of the prefix, or the prefix is not stored. -/
theorem lookupExact_spec (t : LpmTree δ) (h : WfNode t) (hcover : CoversExact p l t) :
    ∃ path found, lookupExact p l t = .ok (path, found) ∧ (found = true → Reaches p l t path) ∧
      (found = false → ∀ x, Entry t x → ¬ IsKey p l x) := by
  induction t using childInduction with
  | null => exact h.elim
  | node n c₀ c₁ ih =>
    obtain ⟨hle, hp⟩ := hcover
    have hbelow := ((wfNode_iff (p.getMsbD n.plen)).mp h).2.1
    rcases Nat.lt_or_eq_of_le hle with hlen | hlen
    · have hother : ∀ x, Entry ((node n c₀ c₁).child (!p.getMsbD n.plen)) x → ¬ IsKey p l x :=
        fun x hx => not_isKey_other h hlen hx.1
      rw [lookupExact_node h hp hlen]
      split_ifs with hc
      · obtain ⟨path, found, hrun, hfound, hnone⟩ :=
          ih _ (hbelow.wfNode_of_covers hc.covers) hc
        rw [hrun]
        refine ⟨p.getMsbD n.plen :: path, found, rfl, fun hf => .there hlen (hfound hf), ?_⟩
        intro hf x hx
        obtain ⟨rfl, -⟩ | hx | hx := (entry_node (p.getMsbD n.plen)).mp hx
        · exact not_isKey_of_lt hlen
        · exact hnone hf x hx
        · exact hother x hx
      · refine ⟨[], false, rfl, by simp, fun _ x hx => ?_⟩
        obtain ⟨rfl, -⟩ | hx | hx := (entry_node (p.getMsbD n.plen)).mp hx
        · exact not_isKey_of_lt hlen
        · -- a node of the prefix would make the child match
          rintro ⟨hplen, hagree⟩
          refine hc ?_
          cases hchild : (node n c₀ c₁).child (p.getMsbD n.plen) with
          | null =>
            rw [hchild] at hx
            exact absurd hx not_entry_null
          | node cn d₀ d₁ =>
            rw [hchild] at hx hbelow
            obtain ⟨hshort, hpfx⟩ := hbelow.wfNode.of_mem hx.1
            rw [hplen] at hshort
            exact ⟨hshort, hpfx.symm.trans (hagree.mono hshort)⟩
        · exact hother x hx
    · obtain ⟨found, hrun, hvirtual⟩ := lookupExact_self h hp hlen
      refine ⟨[], found, hrun, fun hf => .here ⟨hlen, hlen ▸ hp⟩ fun hd => ?_, fun hf x hx => ?_⟩
      · simp [hvirtual.mpr hd] at hf
      · obtain ⟨rfl, hreal⟩ | hx | hx := (entry_node false).mp hx
        · exact absurd (hvirtual.mp hf) hreal
        · exact fun hkey => (h.2.1.of_mem hx.1).1.ne (hlen.trans hkey.1.symm)
        · exact fun hkey => (h.2.2.of_mem hx.1).1.ne (hlen.trans hkey.1.symm)

theorem wfBelow_setChild (h : WfBelow q k b (node n c₀ c₁)) {b' : Bool}
    (hc : WfBelow n.pfx n.plen b' c) : WfBelow q k b ((node n c₀ c₁).setChild b' c) := by
  obtain ⟨h₁, h₂, h₃, h₄, h₅, h₆⟩ := h
  cases b'
  · exact ⟨h₁, h₂, h₃, h₄, hc, h₆⟩
  · exact ⟨h₁, h₂, h₃, h₄, h₅, hc⟩

/-- Removal keeps the slot discipline. -/
theorem Reaches.wfBelow (hreach : Reaches p l t path) (h : WfBelow q k b t) :
    WfBelow q k b (remove path t) := by
  induction hreach generalizing q k b with
  | @here n c₀ c₁ _ _ =>
    have hmark : WfBelow q k b (.node { n with data := .minusOne } c₀ c₁) := h
    exact hmark.collapse
  | @there n c₀ c₁ path _ _ ih =>
    exact (wfBelow_setChild h (ih ((wfNode_iff _).mp h.wfNode).2.1)).collapse

/-- Removal below the head keeps a whole tree well-formed. -/
theorem Reaches.wf (hreach : Reaches p l t path) (hpath : path ≠ []) (h : Wf t) :
    Wf (remove path t) := by
  cases hreach with
  | here => exact absurd rfl hpath
  | @there n c₀ c₁ path short below =>
    obtain ⟨hplen, hreal, hnode⟩ := h
    have hslot := below.wfBelow ((wfNode_iff (p.getMsbD n.plen)).mp hnode).2.1
    have hstay : ∀ d₀ d₁, collapse (node n d₀ d₁) = node n d₀ d₁ := fun d₀ d₁ =>
      collapse_of_branching fun hd => absurd hd hreal
    have hnode' := wfNode_setChild hnode hslot
    rw [remove]
    cases hbit : p.getMsbD n.plen <;> rw [hbit] at hnode'
    · rw [setChild_false, hstay]
      exact ⟨hplen, hreal, hnode'⟩
    · rw [setChild_true, hstay]
      exact ⟨hplen, hreal, hnode'⟩

theorem branching_collapse_setChild (h : Branching (node n c₀ c₁)) (hc : Branching c) (b : Bool) :
    Branching (collapse ((node n c₀ c₁).setChild b c)) := by
  cases b
  · refine branching_collapse fun b' => ?_
    cases b'
    · exact hc
    · exact h.2.2
  · refine branching_collapse fun b' => ?_
    cases b'
    · exact h.2.1
    · exact hc

/-- Removal leaves every virtual node two children. -/
theorem Reaches.branching (hreach : Reaches p l t path) (h : Branching t) :
    Branching (remove path t) := by
  induction hreach with
  | here _ _ => exact branching_collapse fun b => h.child b
  | there _ _ ih => exact branching_collapse_setChild h (ih (h.child _)) _

/-- **Removal** takes away exactly the prefix. -/
theorem Reaches.entry_iff (hreach : Reaches p l t path) (h : WfNode t) (x : LpmNode δ) :
    Entry (remove path t) x ↔ Entry t x ∧ ¬ IsKey p l x := by
  induction hreach with
  | @here n c₀ c₁ key real =>
    have hlong : ∀ b, Entry ((node n c₀ c₁).child b) x → ¬ IsKey p l x := fun b hx hkey =>
      ((((wfNode_iff b).mp h).2.1.of_mem hx.1).1.ne (key.1.trans hkey.1.symm))
    have hmark : Entry (.node { n with data := .minusOne } c₀ c₁) x ↔
        Entry ((node n c₀ c₁).child false) x ∨ Entry ((node n c₀ c₁).child true) x := by
      rw [entry_node false]
      simp [child]
    rw [remove, entry_collapse, hmark, entry_node false]
    constructor
    · rintro (hx | hx)
      · exact ⟨.inr (.inl hx), hlong false hx⟩
      · exact ⟨.inr (.inr hx), hlong true hx⟩
    · rintro ⟨⟨rfl, -⟩ | hx | hx, hkey⟩
      · exact absurd key hkey
      · exact .inl hx
      · exact .inr hx
  | @there n c₀ c₁ path short below ih =>
    have hself : x = n → ¬ IsKey p l x := by
      rintro rfl
      exact not_isKey_of_lt short
    have hother : Entry ((node n c₀ c₁).child (!p.getMsbD n.plen)) x → ¬ IsKey p l x :=
      fun hx => not_isKey_other h short hx.1
    rw [remove, entry_collapse, entry_setChild, ih (wfNode_child h below.ne_null),
      entry_node (p.getMsbD n.plen)]
    constructor
    · rintro (hn | ⟨hx, hkey⟩ | hx)
      · exact ⟨.inl hn, hself hn.1⟩
      · exact ⟨.inr (.inl hx), hkey⟩
      · exact ⟨.inr (.inr hx), hother hx⟩
    · rintro ⟨hn | hx | hx, hkey⟩
      · exact .inl hn
      · exact .inr (.inl ⟨hx, hkey⟩)
      · exact .inr (.inr hx)

end Srn.LpmTree
