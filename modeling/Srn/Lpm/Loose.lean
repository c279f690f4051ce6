import Srn.Lpm.Heap
import Srn.Lpm.Insert

/-!
# Srn.Lpm.Loose

`lpm_insert` can put a child into the wrong slot, and the tree stays in use.  What holds of every
tree that insertions can build is less than well-formedness: the prefix of a node extends that of
its parent and is not shorter, and below the head a node is in the slot of its first bit.  This is
enough for the assertions and for the lengths and positions that the searches compute with.
-/

namespace Srn

variable {δ : Type}

namespace LpmTree

variable {n : LpmNode δ} {c₀ c₁ c t t' : LpmTree δ} {q : In6Addr} {k : ℕ} {b : Bool}

/-- What insertions keep of the tree in slot `b` of a node with prefix `q` of length `k`.  The slot
matters only below the head. -/
def Loose (q : In6Addr) (k : ℕ) (b : Bool) : LpmTree δ → Prop
  | .null => True
  | .node n c₀ c₁ => (k ≤ n.plen ∧ n.plen ≤ 128 ∧ Agree n.pfx q k) ∧ 0 < n.plen ∧
      (k = 0 → n.pfx.getMsbD 0 = b) ∧ Loose n.pfx n.plen false c₀ ∧ Loose n.pfx n.plen true c₁

/-- What insertions keep of the slots of a node. -/
def LooseNode : LpmTree δ → Prop
  | .null => False
  | .node n c₀ c₁ => n.plen ≤ 128 ∧ ∀ b, Loose n.pfx n.plen b ((node n c₀ c₁).child b)

theorem Loose.below (h : Loose q k b t) : Below q k t := by
  cases t with
  | null => trivial
  | node n c₀ c₁ => exact h.1

theorem Loose.looseNode (h : Loose q k b (node n c₀ c₁)) : LooseNode (node n c₀ c₁) := by
  obtain ⟨⟨-, hle, -⟩, -, -, h₀, h₁⟩ := h
  refine ⟨hle, fun b => ?_⟩
  cases b
  · exact h₀
  · exact h₁

theorem Loose.looseNode_of_ne (h : Loose q k b t) (hne : t ≠ .null) : LooseNode t := by
  cases t with
  | null => exact absurd rfl hne
  | node n c₀ c₁ => exact h.looseNode

theorem looseNode_setChild (h : LooseNode (node n c₀ c₁)) (hc : Loose n.pfx n.plen b c) :
    LooseNode ((node n c₀ c₁).setChild b c) := by
  have h₀ := h.2 false
  have h₁ := h.2 true
  cases b
  · refine ⟨h.1, fun b => ?_⟩
    cases b
    · exact hc
    · exact h₁
  · refine ⟨h.1, fun b => ?_⟩
    cases b
    · exact h₀
    · exact hc

/-- A slot takes any other tree with the right root. -/
theorem loose_of_keepsRoot {data : LpmData δ} (h : Loose q k b t) (hroot : KeepsRoot data t t')
    (h' : LooseNode t') : Loose q k b t' := by
  cases t with
  | null => exact hroot.elim
  | node n c₀ c₁ =>
    cases t' with
    | null => exact hroot.elim
    | node n' c₀' c₁' =>
      obtain ⟨hpfx, hplen, -⟩ := hroot
      obtain ⟨hbelow, hpos, hbit, -⟩ := h
      rw [← hpfx, ← hplen] at hbelow
      rw [← hplen] at hpos
      rw [← hpfx] at hbit
      exact ⟨hbelow, hpos, hbit, h'.2 false, h'.2 true⟩

end LpmTree

open LpmTree

variable {n : LpmNode δ} {c₀ c₁ t : LpmTree δ} {p a : In6Addr} {l : ℕ} {data : LpmData δ}

/-! ## Searches -/

/-- Where both tests have a result, the slot is one that passes. -/
theorem exists_nextSlot {test : LpmTree δ → Except LpmFault Bool} {P : LpmTree δ → Prop}
    [DecidablePred P]
    (h : ∀ b, test ((node n c₀ c₁).child b) = .ok (decide (P ((node n c₀ c₁).child b)))) :
    ∃ slot, LpmHeap.nextSlot test c₀ c₁ = .ok slot ∧
      (∀ b, slot = some b → P ((node n c₀ c₁).child b)) ∧
      (slot = none → ∀ b, ¬ P ((node n c₀ c₁).child b)) := by
  have h₀ : test c₀ = .ok (decide (P c₀)) := h false
  have h₁ : test c₁ = .ok (decide (P c₁)) := h true
  rw [LpmHeap.nextSlot, h₀, h₁]
  by_cases hp₀ : P c₀
  · refine ⟨some false, by simp [bind, Except.bind, pure, Except.pure, hp₀], ?_, by simp⟩
    rintro b ⟨⟩
    exact hp₀
  · by_cases hp₁ : P c₁
    · refine ⟨some true, by simp [bind, Except.bind, pure, Except.pure, hp₀, hp₁], ?_, by simp⟩
      rintro b ⟨⟩
      exact hp₁
    · refine ⟨none, by simp [bind, Except.bind, pure, Except.pure, hp₀, hp₁], by simp, ?_⟩
      rintro - (_ | _)
      · exact hp₀
      · exact hp₁

theorem lookupFrom_loose (t : LpmTree δ) (h : LooseNode t) (ha : Covers a t) (last : LpmNode δ) :
    ∃ m, lookupFrom a t last = .ok m := by
  induction t using childInduction generalizing last with
  | null => exact h.elim
  | node n c₀ c₁ ih =>
    obtain ⟨slot, hslot, hcovers, -⟩ := exists_nextSlot (P := Covers a) fun b =>
      matchChild_eq (h.2 b).below ha
    rw [LpmHeap.lookupFrom_eq, hslot]
    cases slot with
    | none => exact ⟨_, rfl⟩
    | some b =>
      have hb := hcovers b rfl
      refine ih b ((h.2 b).looseNode_of_ne ?_) hb _
      intro hnull
      rw [hnull] at hb
      exact hb

/-- **`lpm_lookup`** ends without a fault. -/
theorem lpmLookup_loose (h : LooseNode (node n c₀ c₁)) (hn : n.plen = 0) (a : In6Addr) :
    ∃ r, lpmLookup (node n c₀ c₁) a = .ok r := by
  have ha : Covers a (node n c₀ c₁) := fun i hi => absurd hi (by omega)
  obtain ⟨m, hm⟩ := lookupFrom_loose (node n c₀ c₁) h ha n
  rw [lpmLookup, hm]
  simp only [bind, Except.bind]
  cases m.data <;> exact ⟨_, rfl⟩

/-! ## Insertion -/

/-- The cases of `lpm_insert` behind the search, with the conditions under which they are
reached. -/
inductive InsertCase (p : In6Addr) (l : ℕ) (data : LpmData δ) (save : LpmNode δ)
    (c₀ c₁ : LpmTree δ) : Bool → LpmTree δ × List Bool → Prop
  /-- The prefix is stored. -/
  | found : InsertCase p l data save c₀ c₁ true (.node { save with data := data } c₀ c₁, [])
  /-- A virtual node becomes real. -/
  | virtual (hlen : save.plen = l) (hdata : save.data = .minusOne) :
      InsertCase p l data save c₀ c₁ false (.node { save with data := data } c₀ c₁, [])
  /-- The slot is empty. -/
  | leaf {b} (hlen : save.plen ≠ l) (hslot : slotAt (addrToBinary p) save.plen = .ok b)
      (hnull : (node save c₀ c₁).child b = .null) :
      InsertCase p l data save c₀ c₁ false
        ((node save c₀ c₁).setChild b (.node ⟨data, p, l⟩ .null .null), [b])
  /-- The new prefix covers the child. -/
  | between {b b₂ cn cc₀ cc₁} (hlen : save.plen ≠ l)
      (hslot : slotAt (addrToBinary p) save.plen = .ok b)
      (hchild : (node save c₀ c₁).child b = .node cn cc₀ cc₁) (hpos : l ≠ 0)
      (hcommon : commonPrefixLen cn.pfx p l = l) (hslot₂ : slotAt (addrToBinary p) l = .ok b₂) :
      InsertCase p l data save c₀ c₁ false ((node save c₀ c₁).setChild b
        ((node ⟨data, p, l⟩ .null .null).setChild b₂ (.node cn cc₀ cc₁)), [b])
  /-- The new prefix and the child part at bit `m`. -/
  | fork {b b₂ cn cc₀ cc₁ m} (hlen : save.plen ≠ l)
      (hslot : slotAt (addrToBinary p) save.plen = .ok b)
      (hchild : (node save c₀ c₁).child b = .node cn cc₀ cc₁) (hpos : m ≠ 0)
      (hcommon : commonPrefixLen cn.pfx p l = m) (hm : m < l)
      (hslot₂ : slotAt (addrToBinary p) m = .ok b₂) :
      InsertCase p l data save c₀ c₁ false ((node save c₀ c₁).setChild b
        (((node ⟨.minusOne, p, m⟩ .null .null).setChild b₂
          (.node ⟨data, p, l⟩ .null .null)).setChild (!b₂) (.node cn cc₀ cc₁)), [b, b₂])

theorem insertAt_of_case {found : Bool} {r : LpmTree δ × List Bool}
    (h : InsertCase p l data n c₀ c₁ found r) : insertAt p l data found (node n c₀ c₁) = .ok r := by
  cases h with
  | found => rfl
  | virtual hlen hdata => simp [insertAt, hlen, hdata, pure, Except.pure]
  | leaf hlen hslot hnull =>
    simp [insertAt, hlen, hslot, hnull, bind, Except.bind, pure, Except.pure]
  | between hlen hslot hchild hpos hcommon hslot₂ =>
    simp [insertAt, hlen, hslot, hchild, hpos, hcommon, hslot₂, bind, Except.bind, pure,
      Except.pure]
  | fork hlen hslot hchild hpos hcommon hm hslot₂ =>
    simp [insertAt, hlen, hslot, hchild, hpos, hcommon, hslot₂, hm.ne, hm.not_ge, bind,
      Except.bind, pure, Except.pure]

/-- The insertion has no other results. -/
theorem case_of_insertAt {found : Bool} {r : LpmTree δ × List Bool}
    (h : insertAt p l data found (node n c₀ c₁) = .ok r) :
    InsertCase p l data n c₀ c₁ found r := by
  rw [insertAt] at h
  cases found with
  | true =>
    cases h
    exact .found
  | false =>
    rw [if_neg (by decide)] at h
    by_cases hlen : n.plen = l
    · rw [if_pos hlen] at h
      cases hdata : n.data <;> rw [hdata] at h <;> cases h
      exact .virtual hlen hdata
    · rw [if_neg hlen] at h
      obtain ⟨b, hslot, h⟩ := Fault.bind_eq_ok_iff.mp h
      cases hchild : (node n c₀ c₁).child b with
      | null =>
        rw [hchild] at h
        cases h
        exact .leaf hlen hslot hchild
      | node cn cc₀ cc₁ =>
        rw [hchild] at h
        by_cases hpos : commonPrefixLen cn.pfx p l = 0
        · simp only [if_pos hpos] at h
          cases h
        · simp only [if_neg hpos] at h
          obtain ⟨b₂, hslot₂, h⟩ := Fault.bind_eq_ok_iff.mp h
          by_cases hcommon : commonPrefixLen cn.pfx p l = l
          · rw [if_pos hcommon] at h
            rw [hcommon] at hpos hslot₂
            cases h
            exact .between hlen hslot hchild hpos hcommon hslot₂
          · rw [if_neg hcommon] at h
            by_cases hle : l ≤ commonPrefixLen cn.pfx p l
            · rw [if_pos hle] at h
              cases h
            · rw [if_neg hle] at h
              cases h
              exact .fork hlen hslot hchild hpos rfl (Nat.lt_of_not_le hle) hslot₂

/-- A new node in a slot of the node where the search ended. -/
theorem loose_new {m : ℕ} {d : LpmData δ} (hp : Agree n.pfx p n.plen) (hn : n.plen ≤ m)
    (hpos : 0 < m) (hm : m ≤ 128) (h₀ : Loose p m false c₀) (h₁ : Loose p m true c₁) :
    Loose n.pfx n.plen (p.getMsbD n.plen) (.node ⟨d, p, m⟩ c₀ c₁) :=
  ⟨⟨hn, hm, hp.symm⟩, hpos, fun hzero => by rw [hzero], h₀, h₁⟩

/-- An old node below a new one, in either slot. -/
theorem loose_old {q : In6Addr} {k m : ℕ} {b b' : Bool} {cn : LpmNode δ} {cc₀ cc₁ : LpmTree δ}
    (h : Loose q k b (node cn cc₀ cc₁)) (hpos : 0 < m) (hm : m ≤ cn.plen)
    (hp : Agree cn.pfx p m) : Loose p m b' (node cn cc₀ cc₁) :=
  ⟨⟨hm, h.1.2.1, hp⟩, h.2.1, fun hzero => absurd hzero hpos.ne', h.2.2.2⟩

/-- A child of the node where the search ended has more than the node in common with the prefix,
and parts from it before its own end. -/
theorem commonPrefixLen_child {cn : LpmNode δ} {cc₀ cc₁ : LpmTree δ} (hl : l ≤ 128)
    (hp : Agree n.pfx p n.plen) (hlen : n.plen < l)
    (hchild : Loose n.pfx n.plen (p.getMsbD n.plen) (node cn cc₀ cc₁))
    (hstop : ¬ CoversExact p l (node cn cc₀ cc₁)) :
    n.plen ≤ commonPrefixLen cn.pfx p l ∧ 0 < commonPrefixLen cn.pfx p l ∧
      commonPrefixLen cn.pfx p l < cn.plen := by
  obtain ⟨⟨-, -, hext⟩, -, hbit, -⟩ := hchild
  obtain ⟨hle, hagree, hdiff⟩ := commonPrefixLen_spec cn.pfx p hl
  have hge : n.plen ≤ commonPrefixLen cn.pfx p l := by
    by_contra hlt
    exact hdiff (by omega) ((hext.trans hp) _ (by omega))
  refine ⟨hge, ?_, ?_⟩
  · rcases Nat.eq_zero_or_pos n.plen with hzero | hpos
    · -- below the head, the slot is that of the first bit
      refine Nat.pos_of_ne_zero fun hcommon => hdiff (by omega) ?_
      rw [hcommon, hbit hzero, hzero]
    · omega
  · by_contra hlong
    exact hstop ⟨by omega, hagree.mono (by omega)⟩

/-- Where the search ended without the prefix, one of the cases applies, and keeps the tree
loose. -/
theorem insertCase_of_stop (data : LpmData δ) (h : LooseNode (node n c₀ c₁))
    (hp : Agree n.pfx p n.plen) (hle : n.plen ≤ l) (hl : l ≤ 128)
    (hvirtual : n.plen = l → n.data = .minusOne)
    (hstop : ∀ b, ¬ CoversExact p l ((node n c₀ c₁).child b)) :
    ∃ t' path, InsertCase p l data n c₀ c₁ false (t', path) ∧ LooseNode t' ∧
      KeepsRoot data (node n c₀ c₁) t' := by
  obtain hlen | hlen := Nat.lt_or_eq_of_le hle
  · have hslot := slotAt_eq p (hlen.trans_le hl)
    have hbelow := h.2 (p.getMsbD n.plen)
    have hnot := hstop (p.getMsbD n.plen)
    cases hchild : (node n c₀ c₁).child (p.getMsbD n.plen) with
    | null =>
      have hnew : Loose n.pfx n.plen (p.getMsbD n.plen) (.node ⟨data, p, l⟩ .null .null) :=
        loose_new hp hle (by omega) hl trivial trivial
      exact ⟨_, _, .leaf hlen.ne hslot hchild, looseNode_setChild h hnew,
        keepsRoot_setChild data _ _⟩
    | node cn cc₀ cc₁ =>
      rw [hchild] at hbelow hnot
      obtain ⟨hge, hpos, hlong⟩ := commonPrefixLen_child hl hp hlen hbelow hnot
      obtain ⟨hmax, hagree, -⟩ := commonPrefixLen_spec cn.pfx p hl
      have hslot₂ := slotAt_eq p (hlong.trans_le hbelow.1.2.1)
      obtain hm | hm := Nat.lt_or_eq_of_le hmax
      · refine ⟨_, _, .fork hlen.ne hslot hchild hpos.ne' rfl hm hslot₂,
          looseNode_setChild h ?_, keepsRoot_setChild data _ _⟩
        have hleaf : ∀ b, Loose p (commonPrefixLen cn.pfx p l) b
            (.node ⟨data, p, l⟩ .null .null) := fun b =>
          ⟨⟨hm.le, hl, Agree.refl _ _⟩, hpos.trans hm, fun hzero => absurd hzero hpos.ne',
            trivial, trivial⟩
        have hold : ∀ b, Loose p (commonPrefixLen cn.pfx p l) b (.node cn cc₀ cc₁) := fun b =>
          loose_old hbelow hpos hlong.le hagree
        cases p.getMsbD (commonPrefixLen cn.pfx p l)
        · exact loose_new hp hge hpos (by omega) (hleaf false) (hold true)
        · exact loose_new hp hge hpos (by omega) (hold false) (hleaf true)
      · rw [hm] at hpos hlong hslot₂ hagree
        refine ⟨_, _, .between hlen.ne hslot hchild hpos.ne' hm hslot₂,
          looseNode_setChild h ?_, keepsRoot_setChild data _ _⟩
        have hold : ∀ b, Loose p l b (.node cn cc₀ cc₁) := fun b =>
          loose_old hbelow hpos hlong.le hagree
        cases p.getMsbD l
        · exact loose_new hp hle hpos hl (hold false) trivial
        · exact loose_new hp hle hpos hl trivial (hold true)
  · exact ⟨_, _, .virtual hlen (hvirtual hlen), ⟨h.1, h.2⟩, rfl, rfl, .inr rfl⟩

/-- Where the search goes down, so does the insertion. -/
theorem lpmInsert_child {b : Bool}
    (hsearch : lookupExact p l (node n c₀ c₁) =
      lookupExact p l ((node n c₀ c₁).child b) >>= fun r => .ok (b :: r.1, r.2)) :
    lpmInsert (node n c₀ c₁) p l data =
      lpmInsert ((node n c₀ c₁).child b) p l data >>= fun r =>
        .ok ((node n c₀ c₁).setChild b r.1, b :: r.2) := by
  rw [lpmInsert, lpmInsert, hsearch]
  cases lookupExact p l ((node n c₀ c₁).child b) with
  | error e => rfl
  | ok r => rfl

/-- **Step lemma.** An insertion of a prefix of up to 128 bits ends without a fault and keeps the
tree loose. -/
theorem lpmInsert_loose (data : LpmData δ) (hl : l ≤ 128) (t : LpmTree δ) (h : LooseNode t)
    (hp : CoversExact p l t) :
    ∃ t' path, lpmInsert t p l data = .ok (t', path) ∧ LooseNode t' ∧ KeepsRoot data t t' := by
  induction t using childInduction with
  | null => exact h.elim
  | node n c₀ c₁ ih =>
    obtain ⟨hle, hagree⟩ := hp
    have hself : matchNode n p 0 = .ok true := by
      rw [matchNode_eq (Nat.zero_le _) h.1 fun i hi => absurd hi (Nat.not_lt_zero i),
        decide_eq_true hagree]
    have hsearch := LpmHeap.lookupExact_eq p l n c₀ c₁
    rw [hself] at hsearch
    simp only [bind, Except.bind, Bool.true_and] at hsearch
    by_cases hreal : (n.plen == l && !n.isVirtual) = true
    · refine ⟨.node { n with data := data } c₀ c₁, [], ?_, ⟨h.1, h.2⟩, rfl, rfl, .inr rfl⟩
      rw [if_pos hreal] at hsearch
      rw [lpmInsert, hsearch]
      rfl
    · obtain ⟨slot, hslot, hcovers, hstop⟩ := exists_nextSlot (P := CoversExact p l) fun b =>
        matchChildExact_eq (h.2 b).below hagree
      rw [if_neg hreal, hslot] at hsearch
      cases slot with
      | some b =>
        have hb := hcovers b rfl
        have hne : (node n c₀ c₁).child b ≠ .null := fun hnull => by
          rw [hnull] at hb
          exact hb
        obtain ⟨c', path, hins, hloose, hroot⟩ := ih b ((h.2 b).looseNode_of_ne hne) hb
        refine ⟨(node n c₀ c₁).setChild b c', b :: path, ?_,
          looseNode_setChild h (loose_of_keepsRoot (h.2 b) hroot hloose),
          keepsRoot_setChild data b c'⟩
        rw [lpmInsert_child hsearch, hins]
        rfl
      | none =>
        have hvirtual : n.plen = l → n.data = .minusOne := fun hlen => by
          simpa [hlen] using hreal
        obtain ⟨t', path, hcase, hloose, hroot⟩ :=
          insertCase_of_stop data h hagree hle hl hvirtual (hstop rfl)
        refine ⟨t', path, ?_, hloose, hroot⟩
        rw [lpmInsert, hsearch]
        exact insertAt_of_case hcase

end Srn
