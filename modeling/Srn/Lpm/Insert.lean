import Srn.Lpm.Lookup

/-!
# Srn.Lpm.Insert

`lpm_insert` and the law of the longest prefix match.

Of the five cases of `lpm_insert` four keep a tree well-formed.  The fifth puts the new
node between a node and its child, and chooses the slot for that child by the bit of the
*new* prefix behind its own length.  The child is in the right slot only when its own bit
there is the same, which is the condition `InPlaceOk`.  Without it the tree is no longer
well-formed and later insertions can hide prefixes from the search.
-/

namespace Srn

open LpmTree

variable {δ : Type}

/-! ## What an insertion does -/

/-- An insertion that keeps the slot discipline: the five cases of `lpm_insert`, reached
by descending along the prefixes that cover the new one. -/
inductive InsertStep (p : In6Addr) (l : ℕ) (data : LpmData δ) : LpmTree δ → LpmTree δ → Prop
  /-- The prefix has a node, real or virtual. -/
  | replace {n c₀ c₁} (hlen : n.plen = l) (hp : Agree n.pfx p l) :
      InsertStep p l data (.node n c₀ c₁) (.node { n with data := data } c₀ c₁)
  /-- The slot is empty. -/
  | leaf {n c₀ c₁} (hlen : n.plen < l) (hp : Agree n.pfx p n.plen)
      (hnull : (node n c₀ c₁).child (p.getMsbD n.plen) = .null) :
      InsertStep p l data (.node n c₀ c₁)
        ((node n c₀ c₁).setChild (p.getMsbD n.plen) (.node ⟨data, p, l⟩ .null .null))
  /-- The new prefix covers the child. -/
  | between {n c₀ c₁ cn cc₀ cc₁} (hlen : n.plen < l) (hp : Agree n.pfx p n.plen)
      (hchild : (node n c₀ c₁).child (p.getMsbD n.plen) = .node cn cc₀ cc₁)
      (hlong : l < cn.plen) (hcover : Agree cn.pfx p l)
      (hslot : p.getMsbD l = cn.pfx.getMsbD l) :
      InsertStep p l data (.node n c₀ c₁) ((node n c₀ c₁).setChild (p.getMsbD n.plen)
        ((node ⟨data, p, l⟩ .null .null).setChild (p.getMsbD l) (.node cn cc₀ cc₁)))
  /-- The new prefix and the child part at bit `m`. -/
  | fork {n c₀ c₁ cn cc₀ cc₁ m} (hlen : n.plen < m) (hp : Agree n.pfx p n.plen)
      (hchild : (node n c₀ c₁).child (p.getMsbD n.plen) = .node cn cc₀ cc₁)
      (hm : m < l) (hm' : m < cn.plen) (hcommon : Agree cn.pfx p m)
      (hpart : cn.pfx.getMsbD m ≠ p.getMsbD m) :
      InsertStep p l data (.node n c₀ c₁) ((node n c₀ c₁).setChild (p.getMsbD n.plen)
        (((node ⟨.minusOne, p, m⟩ .null .null).setChild (p.getMsbD m)
          (.node ⟨data, p, l⟩ .null .null)).setChild (!p.getMsbD m) (.node cn cc₀ cc₁)))
  /-- The child covers the new prefix. -/
  | descend {n c₀ c₁ c'} (hlen : n.plen < l) (hp : Agree n.pfx p n.plen)
      (hcover : CoversExact p l ((node n c₀ c₁).child (p.getMsbD n.plen)))
      (hstep : InsertStep p l data ((node n c₀ c₁).child (p.getMsbD n.plen)) c') :
      InsertStep p l data (.node n c₀ c₁) ((node n c₀ c₁).setChild (p.getMsbD n.plen) c')

/-- When a new prefix covers a child, the child's bit behind it is the new prefix's. -/
def InPlaceOkChild (p : In6Addr) (l : ℕ) : LpmTree δ → Prop
  | .null => True
  | .node cn _ _ => commonPrefixLen cn.pfx p l = l → p.getMsbD l = cn.pfx.getMsbD l

/-- The node at which the search ended can take the new prefix below it. -/
def InPlaceOkAt (p : In6Addr) (l : ℕ) : LpmTree δ → Prop
  | .null => True
  | .node save c₀ c₁ => save.plen ≠ l →
      InPlaceOkChild p l ((node save c₀ c₁).child (p.getMsbD save.plen))

/-- The condition on a tree and a prefix to insert: where `lpm_insert` puts the new node
between a node and its child, the child's bit behind the new prefix is the new prefix's. -/
def InPlaceOk (p : In6Addr) (l : ℕ) (t : LpmTree δ) : Prop :=
  match lookupExact p l t with
  | .ok (path, false) => InPlaceOkAt p l (t.follow path)
  | _ => True

instance (p : In6Addr) (l : ℕ) : (t : LpmTree δ) → Decidable (InPlaceOkChild p l t)
  | .null => isTrue trivial
  | .node cn _ _ => inferInstanceAs
      (Decidable (commonPrefixLen cn.pfx p l = l → p.getMsbD l = cn.pfx.getMsbD l))

instance (p : In6Addr) (l : ℕ) : (t : LpmTree δ) → Decidable (InPlaceOkAt p l t)
  | .null => isTrue trivial
  | .node save c₀ c₁ => inferInstanceAs (Decidable (save.plen ≠ l →
      InPlaceOkChild p l ((node save c₀ c₁).child (p.getMsbD save.plen))))

instance (p : In6Addr) (l : ℕ) (t : LpmTree δ) : Decidable (InPlaceOk p l t) :=
  match h : lookupExact p l t with
  | .ok (path, false) => decidable_of_iff (InPlaceOkAt p l (t.follow path)) (by
      rw [InPlaceOk, h])
  | .ok (_, true) => isTrue (by rw [InPlaceOk, h]; trivial)
  | .error _ => isTrue (by rw [InPlaceOk, h]; trivial)

/-! ## The code makes such steps -/

variable {p : In6Addr} {l : ℕ} {data : LpmData δ} {n : LpmNode δ} {c₀ c₁ : LpmTree δ}

/-- One step of the exact search. -/
theorem lookupExact_node (h : WfNode (node n c₀ c₁)) (hp : Agree n.pfx p n.plen)
    (hlen : n.plen < l) :
    lookupExact p l (node n c₀ c₁) =
      if CoversExact p l ((node n c₀ c₁).child (p.getMsbD n.plen)) then do
        let (path, found) ← lookupExact p l ((node n c₀ c₁).child (p.getMsbD n.plen))
        return (p.getMsbD n.plen :: path, found)
      else .ok ([], false) := by
  have hself : matchNode n p 0 = .ok (decide (Agree n.pfx p n.plen)) :=
    matchNode_eq (Nat.zero_le _) h.1 fun i hi => absurd hi (Nat.not_lt_zero i)
  have h₀ : matchChildExact p l n.plen c₀ = .ok (decide (CoversExact p l c₀)) :=
    matchChildExact_eq h.2.1.below hp
  have h₁ : matchChildExact p l n.plen c₁ = .ok (decide (CoversExact p l c₁)) :=
    matchChildExact_eq h.2.2.below hp
  have hb₀ := fun hc : CoversExact p l c₀ => h.2.1.bit_eq hc.covers
  have hb₁ := fun hc : CoversExact p l c₁ => h.2.2.bit_eq hc.covers
  rw [lookupExact, hself, h₀, h₁]
  simp only [bind, Except.bind, pure, Except.pure, decide_eq_true_iff, child]
  cases hbit : p.getMsbD n.plen with
  | false => grind
  | true => grind

/-- The exact search at the node of the prefix itself. -/
theorem lookupExact_self (h : WfNode (node n c₀ c₁)) (hp : Agree n.pfx p n.plen)
    (hlen : n.plen = l) :
    ∃ found, lookupExact p l (node n c₀ c₁) = .ok ([], found) ∧
      (found = false ↔ n.data = .minusOne) := by
  have hself : matchNode n p 0 = .ok (decide (Agree n.pfx p n.plen)) :=
    matchNode_eq (Nat.zero_le _) h.1 fun i hi => absurd hi (Nat.not_lt_zero i)
  have hnot : ∀ {b} {c : LpmTree δ}, WfBelow n.pfx n.plen b c → ¬ CoversExact p l c := by
    intro b c hw hc
    cases c with
    | null => exact hc
    | node cn cc₀ cc₁ => exact absurd hw.1 (Nat.not_lt.mpr (hlen ▸ hc.1))
  rw [lookupExact, hself, matchChildExact_eq h.2.1.below hp, matchChildExact_eq h.2.2.below hp,
    decide_eq_false (hnot h.2.1), decide_eq_false (hnot h.2.2), decide_eq_true hp]
  cases hd : n.data with
  | minusOne => exact ⟨false, by simp [bind, Except.bind, pure, Except.pure], by simp⟩
  | null => exact ⟨true, by simp [bind, Except.bind, pure, Except.pure, hlen], by simp⟩
  | entry d => exact ⟨true, by simp [bind, Except.bind, pure, Except.pure, hlen], by simp⟩

/-- The insertion at the node where the search ended, when the prefix has no node. -/
theorem insertAt_step (data : LpmData δ) (h : WfNode (node n c₀ c₁))
    (hp : Agree n.pfx p n.plen) (hlen : n.plen < l) (hl : l ≤ 128)
    (hstop : ¬ CoversExact p l ((node n c₀ c₁).child (p.getMsbD n.plen)))
    (hok : InPlaceOkAt p l (node n c₀ c₁)) :
    ∃ t' path, insertAt p l data false (node n c₀ c₁) = .ok (t', path) ∧
      InsertStep p l data (node n c₀ c₁) t' := by
  have hslot := slotAt_eq p (Nat.lt_of_lt_of_le hlen hl)
  have hbelow := ((wfNode_iff (p.getMsbD n.plen)).mp h).2.1
  cases hchild : (node n c₀ c₁).child (p.getMsbD n.plen) with
  | null =>
    refine ⟨_, [p.getMsbD n.plen], ?_, .leaf hlen hp hchild⟩
    simp [insertAt, hlen.ne, hslot, bind, Except.bind, pure, Except.pure, hchild]
  | node cn cc₀ cc₁ =>
    rw [hchild] at hbelow hstop
    obtain ⟨hle, hagree, hdiff⟩ := commonPrefixLen_spec cn.pfx p hl
    have hcommon : n.plen < commonPrefixLen cn.pfx p l := by
      rcases Nat.lt_or_ge n.plen (commonPrefixLen cn.pfx p l) with hlt | hge
      · exact hlt
      · refine absurd ?_ (hdiff (Nat.lt_of_le_of_lt hge hlen))
        rcases Nat.lt_or_eq_of_le hge with hlt | heq
        · exact (hbelow.2.2.1.trans hp) _ hlt
        · rw [heq]
          exact hbelow.2.2.2.1
    have hlong : commonPrefixLen cn.pfx p l < cn.plen := by
      rcases Nat.lt_or_ge (commonPrefixLen cn.pfx p l) cn.plen with hlt | hge
      · exact hlt
      · exact absurd ⟨hge.trans hle, hagree.mono hge⟩ hstop
    have hslot₂ := slotAt_eq p (Nat.lt_of_lt_of_le hlong hbelow.2.1)
    have hpos : commonPrefixLen cn.pfx p l ≠ 0 := by omega
    rcases Nat.lt_or_eq_of_le hle with hlt | heq
    · refine ⟨_, [p.getMsbD n.plen, p.getMsbD (commonPrefixLen cn.pfx p l)], ?_,
        .fork hcommon hp hchild hlt hlong hagree (hdiff hlt)⟩
      simp [insertAt, hlen.ne, hslot, bind, Except.bind, pure, Except.pure, hchild, hpos,
        hslot₂, hlt.ne, hlt.not_ge]
    · have hinplace : InPlaceOkChild p l (.node cn cc₀ cc₁) := hchild ▸ hok hlen.ne
      refine ⟨_, [p.getMsbD n.plen], ?_, .between hlen hp hchild (heq ▸ hlong) (heq ▸ hagree)
        (hinplace heq)⟩
      rw [heq] at hslot₂ hpos
      simp [insertAt, hlen.ne, hslot, bind, Except.bind, pure, Except.pure, hchild, heq, hpos,
        hslot₂]

/-- Where the search goes down, so does the insertion. -/
theorem lpmInsert_descend (data : LpmData δ) (h : WfNode (node n c₀ c₁))
    (hp : Agree n.pfx p n.plen) (hlen : n.plen < l)
    (hcover : CoversExact p l ((node n c₀ c₁).child (p.getMsbD n.plen))) :
    lpmInsert (node n c₀ c₁) p l data = (do
      let (c, rest) ← lpmInsert ((node n c₀ c₁).child (p.getMsbD n.plen)) p l data
      return ((node n c₀ c₁).setChild (p.getMsbD n.plen) c, p.getMsbD n.plen :: rest)) := by
  rw [lpmInsert, lpmInsert, lookupExact_node h hp hlen, if_pos hcover]
  cases lookupExact p l ((node n c₀ c₁).child (p.getMsbD n.plen)) with
  | error e => rfl
  | ok r => rfl

/-- The condition is about the node where the search ends. -/
theorem InPlaceOk.descend (hok : InPlaceOk p l (node n c₀ c₁)) (h : WfNode (node n c₀ c₁))
    (hp : Agree n.pfx p n.plen) (hlen : n.plen < l)
    (hcover : CoversExact p l ((node n c₀ c₁).child (p.getMsbD n.plen))) :
    InPlaceOk p l ((node n c₀ c₁).child (p.getMsbD n.plen)) := by
  rw [InPlaceOk, lookupExact_node h hp hlen, if_pos hcover] at hok
  rw [InPlaceOk]
  cases hpath : lookupExact p l ((node n c₀ c₁).child (p.getMsbD n.plen)) with
  | error e => trivial
  | ok r =>
    rw [hpath] at hok
    obtain ⟨path, _ | _⟩ := r
    · exact hok
    · trivial

/-- **One insertion.** On a well-formed tree that meets the condition, `lpm_insert` ends
without a fault and keeps the slot discipline. -/
theorem lpmInsert_step (data : LpmData δ) (hl : l ≤ 128) (t : LpmTree δ) (h : WfNode t)
    (hp : CoversExact p l t) (hok : InPlaceOk p l t) :
    ∃ t' path, lpmInsert t p l data = .ok (t', path) ∧ InsertStep p l data t t' := by
  induction t using childInduction with
  | null => exact h.elim
  | node n c₀ c₁ ih =>
    rcases Nat.lt_or_eq_of_le hp.1 with hlen | hlen
    · by_cases hcover : CoversExact p l ((node n c₀ c₁).child (p.getMsbD n.plen))
      · have hchild := ((wfNode_iff (p.getMsbD n.plen)).mp h).2.1.wfNode_of_covers hcover.covers
        obtain ⟨c', path, hins, hstep⟩ := ih _ hchild hcover (hok.descend h hp.2 hlen hcover)
        refine ⟨_, p.getMsbD n.plen :: path, ?_, .descend hlen hp.2 hcover hstep⟩
        rw [lpmInsert_descend data h hp.2 hlen hcover, hins]
        rfl
      · have hnode := lookupExact_node h hp.2 hlen
        rw [if_neg hcover] at hnode
        rw [InPlaceOk, hnode] at hok
        obtain ⟨t', path, hins, hstep⟩ := insertAt_step data h hp.2 hlen hl hcover hok
        refine ⟨t', path, ?_, hstep⟩
        rw [lpmInsert, hnode]
        exact hins
    · obtain ⟨found, hfound, hvirtual⟩ := lookupExact_self h hp.2 hlen
      refine ⟨_, [], ?_, .replace hlen (hlen ▸ hp.2)⟩
      rw [lpmInsert, hfound]
      cases found with
      | true => rfl
      | false =>
        simp [bind, Except.bind, pure, Except.pure, modifyAt, insertAt, hlen, hvirtual.mp rfl]

/-! ## Steps keep the tree well-formed -/

/-- A new leaf fits into the slot of its bit. -/
theorem wfBelow_leaf (data : LpmData δ) {q : In6Addr} {k : ℕ} (hk : k < l) (hl : l ≤ 128)
    (hp : Agree p q k) :
    WfBelow q k (p.getMsbD k) (.node ⟨data, p, l⟩ .null .null) :=
  ⟨hk, hl, hp, rfl, trivial, trivial⟩

/-- The root keeps its prefix, and its data unless they are the new ones. -/
def KeepsRoot (data : LpmData δ) : LpmTree δ → LpmTree δ → Prop
  | .node n _ _, .node n' _ _ => n'.pfx = n.pfx ∧ n'.plen = n.plen ∧
      (n'.data = n.data ∨ n'.data = data)
  | _, _ => False

theorem keepsRoot_setChild (data : LpmData δ) (b : Bool) (c : LpmTree δ) :
    KeepsRoot data (node n c₀ c₁) ((node n c₀ c₁).setChild b c) := by
  cases b <;> exact ⟨rfl, rfl, .inl rfl⟩

/-- A slot holds any well-formed tree with the right root. -/
theorem wfBelow_of_keepsRoot {q : In6Addr} {k : ℕ} {b : Bool} {t t' : LpmTree δ}
    (h : WfBelow q k b t) (hroot : KeepsRoot data t t') (h' : WfNode t') : WfBelow q k b t' := by
  cases t with
  | null => exact hroot.elim
  | node n c₀ c₁ =>
    cases t' with
    | null => exact hroot.elim
    | node n' c₀' c₁' =>
      obtain ⟨hpfx, hplen, -⟩ := hroot
      exact ⟨hplen ▸ h.1, h'.1, hpfx ▸ h.2.2.1, hpfx ▸ h.2.2.2.1, h'.2⟩

theorem InsertStep.keepsRoot {t t' : LpmTree δ} (hstep : InsertStep p l data t t') :
    KeepsRoot data t t' := by
  cases hstep with
  | replace => exact ⟨rfl, rfl, .inr rfl⟩
  | leaf => exact keepsRoot_setChild _ _ _
  | between => exact keepsRoot_setChild _ _ _
  | fork => exact keepsRoot_setChild _ _ _
  | descend => exact keepsRoot_setChild _ _ _

/-- **A step keeps the slot discipline.** -/
theorem InsertStep.wfNode {t t' : LpmTree δ} (hstep : InsertStep p l data t t') (hl : l ≤ 128)
    (h : WfNode t) : WfNode t' := by
  induction hstep with
  | replace => exact h
  | leaf hlen hp hnull => exact wfNode_setChild h (wfBelow_leaf data hlen hl hp.symm)
  | @between n c₀ c₁ cn cc₀ cc₁ hlen hp hchild hlong hcover hslot =>
    have hbelow := ((wfNode_iff (p.getMsbD n.plen)).mp h).2.1
    rw [hchild] at hbelow
    refine wfNode_setChild h (wfBelow_of_keepsRoot (wfBelow_leaf data hlen hl hp.symm)
      (keepsRoot_setChild data _ _) (wfNode_setChild ⟨hl, trivial, trivial⟩ ?_))
    exact ⟨hlong, hbelow.2.1, hcover, hslot.symm, hbelow.2.2.2.2⟩
  | @fork n c₀ c₁ cn cc₀ cc₁ m hlen hp hchild hm hm' hcommon hpart =>
    have hbelow := ((wfNode_iff (p.getMsbD n.plen)).mp h).2.1
    rw [hchild] at hbelow
    have hleaf := wfBelow_leaf data hm hl (Agree.refl p m)
    have hold : WfBelow p m (!p.getMsbD m) (.node cn cc₀ cc₁) :=
      ⟨hm', hbelow.2.1, hcommon, Bool.eq_not.mpr hpart, hbelow.2.2.2.2⟩
    refine wfNode_setChild h ?_
    cases hbit : p.getMsbD m <;> rw [hbit] at hleaf hold
    · exact ⟨hlen, (hm.trans_le hl).le, hp.symm, rfl, hleaf, hold⟩
    · exact ⟨hlen, (hm.trans_le hl).le, hp.symm, rfl, hold, hleaf⟩
  | @descend n c₀ c₁ c' hlen hp hcover hstep ih =>
    have hbelow := ((wfNode_iff (p.getMsbD n.plen)).mp h).2.1
    exact wfNode_setChild h (wfBelow_of_keepsRoot hbelow hstep.keepsRoot
      (ih (hbelow.wfNode_of_covers hcover.covers)))

/-! ## Steps change exactly one entry -/

/-- A node holds an entry for the prefix of length `k` of an address. -/
def Holds (a : In6Addr) (k : ℕ) (d : δ) (x : LpmNode δ) : Prop :=
  x.data = .entry d ∧ x.plen = k ∧ Agree x.pfx a k

/-- A tree holds an entry for the prefix of length `k` of an address. -/
def Stored (a : In6Addr) (k : ℕ) (d : δ) (t : LpmTree δ) : Prop := ∃ x ∈ t.nodes, Holds a k d x

/-- `t'` holds what `t` holds, except that the prefix of length `l` of `p` has `data`. -/
def Sets (p : In6Addr) (l : ℕ) (data : LpmData δ) (t t' : LpmTree δ) : Prop :=
  ∀ a k d, Stored a k d t' ↔ if k = l ∧ Agree p a l then data = .entry d else Stored a k d t

variable {a : In6Addr} {k : ℕ} {d : δ} {t t' : LpmTree δ}

@[simp] theorem stored_null : Stored a k d (null : LpmTree δ) ↔ False := by simp [Stored, nodes]

theorem stored_node (b : Bool) : Stored a k d (node n c₀ c₁) ↔ Holds a k d n ∨
    Stored a k d ((node n c₀ c₁).child b) ∨ Stored a k d ((node n c₀ c₁).child (!b)) := by
  simp only [Stored, mem_nodes_node b, or_and_right, exists_or, exists_eq_left]

theorem stored_setChild {b : Bool} {c : LpmTree δ} :
    Stored a k d ((node n c₀ c₁).setChild b c) ↔ Holds a k d n ∨ Stored a k d c ∨
      Stored a k d ((node n c₀ c₁).child (!b)) := by
  simp only [Stored, mem_nodes_setChild, or_and_right, exists_or, exists_eq_left]

/-- The entry of the node of a prefix. -/
theorem holds_iff {x : LpmNode δ} (hlen : x.plen = l) (hp : Agree x.pfx p l) :
    Holds a k d x ↔ (k = l ∧ Agree p a l) ∧ x.data = .entry d := by
  constructor
  · rintro ⟨hd, rfl, ha⟩
    exact ⟨⟨hlen, hp.symm.trans (hlen ▸ ha)⟩, hd⟩
  · rintro ⟨⟨rfl, ha⟩, hd⟩
    exact ⟨hd, hlen, hp.trans ha⟩

/-- Adding a node for a prefix that has none. -/
theorem sets_of_new (hnew : ∀ a k d, Stored a k d t' ↔ Holds a k d ⟨data, p, l⟩ ∨ Stored a k d t)
    (hnone : ∀ x ∈ t.nodes, x.plen = l → ¬ Agree x.pfx p l) : Sets p l data t t' := by
  intro a k d
  rw [hnew, holds_iff rfl (Agree.refl p l)]
  split_ifs with hkey
  · have : ¬ Stored a k d t := by
      rintro ⟨x, hx, -, hplen, ha⟩
      exact hnone x hx (hplen.trans hkey.1) ((hkey.1 ▸ ha).trans hkey.2.symm)
    rw [and_iff_right hkey, or_iff_left this]
  · simp [hkey]

/-- A change in the slot of the next bit is a change of the tree. -/
theorem Sets.setChild {c : LpmTree δ} (h : WfNode (node n c₀ c₁)) (hlen : n.plen < l)
    (hc : Sets p l data ((node n c₀ c₁).child (p.getMsbD n.plen)) c) :
    Sets p l data (node n c₀ c₁) ((node n c₀ c₁).setChild (p.getMsbD n.plen) c) := by
  intro a k d
  rw [stored_setChild, hc a k d, stored_node (p.getMsbD n.plen)]
  split_ifs with hkey
  · have hroot : ¬ Holds a k d n := fun hn => hlen.ne (hn.2.1.trans hkey.1)
    have hother : ¬ Stored a k d ((node n c₀ c₁).child (!p.getMsbD n.plen)) := by
      rintro ⟨x, hx, -, hplen, ha⟩
      have hbit := (((wfNode_iff (p.getMsbD n.plen)).mp h).2.2.of_mem hx).2.2
      rw [ha _ (hkey.1 ▸ hlen), ← hkey.2 _ hlen] at hbit
      simp at hbit
    simp [hroot, hother]
  · exact Iff.rfl

/-- **A step sets exactly the new prefix.** -/
theorem InsertStep.sets (hstep : InsertStep p l data t t') (h : WfNode t) :
    Sets p l data t t' := by
  induction hstep with
  | @replace n c₀ c₁ hlen hp =>
    intro a k d
    have hnew : Holds a k d { n with data := data } ↔
        (k = l ∧ Agree p a l) ∧ data = .entry d := holds_iff hlen hp
    rw [stored_node false, stored_node false, hnew, holds_iff hlen hp]
    split_ifs with hkey
    · have hbelow : ∀ {b} {c : LpmTree δ}, WfBelow n.pfx n.plen b c → ¬ Stored a k d c := by
        rintro b c hw ⟨x, hx, -, hplen, -⟩
        have := (hw.of_mem hx).1
        omega
      simp [hkey, child, hkey.1 ▸ hbelow h.2.1, hkey.1 ▸ hbelow h.2.2]
    · simp [hkey, child]
  | leaf hlen hp hnull =>
    refine Sets.setChild h hlen (sets_of_new (fun a k d => ?_) ?_)
    · simp [hnull, Stored, nodes]
    · simp [hnull, nodes]
  | @between n c₀ c₁ cn cc₀ cc₁ hlen hp hchild hlong hcover hslot =>
    have hbelow := ((wfNode_iff (p.getMsbD n.plen)).mp h).2.1
    rw [hchild] at hbelow
    refine Sets.setChild h hlen (sets_of_new (fun a k d => ?_) fun x hx hplen => ?_)
    · rw [hchild, stored_setChild]
      simp [child]
    · rw [hchild] at hx
      have := (hbelow.wfNode.of_mem hx).1
      omega
  | @fork n c₀ c₁ cn cc₀ cc₁ m hlen hp hchild hm hm' hcommon hpart =>
    have hbelow := ((wfNode_iff (p.getMsbD n.plen)).mp h).2.1
    rw [hchild] at hbelow
    refine Sets.setChild h (hlen.trans hm) (sets_of_new (fun a k d => ?_) fun x hx hplen ha => ?_)
    · rw [hchild]
      cases p.getMsbD m <;> simp [setChild, stored_node false, child, Holds, or_comm]
    · rw [hchild] at hx
      rw [← (hbelow.wfNode.of_mem hx).2 m hm'] at hpart
      exact hpart (ha m hm)
  | descend hlen hp hcover hstep ih =>
    exact Sets.setChild h hlen
      (ih (((wfNode_iff _).mp h).2.1.wfNode_of_covers hcover.covers))

theorem mem_nodes_of_setChild {b : Bool} {c : LpmTree δ} {x : LpmNode δ}
    (hc : x ∈ c.nodes → x ∈ ((node n c₀ c₁).child b).nodes)
    (hx : x ∈ ((node n c₀ c₁).setChild b c).nodes) : x ∈ (node n c₀ c₁).nodes := by
  rw [mem_nodes_node b]
  exact (mem_nodes_setChild.mp hx).imp_right (Or.imp_left hc)

/-- A step with other data adds no node with `NULL` data. -/
theorem InsertStep.mem_of_null (hstep : InsertStep p l data t t') (hdata : data ≠ .null)
    {x : LpmNode δ} (hnull : x.data = .null) (hx : x ∈ t'.nodes) : x ∈ t.nodes := by
  have hne : ∀ {q m}, x ≠ ⟨data, q, m⟩ := fun h => hdata (by rw [← hnull, h])
  have hne' : ∀ {q m}, x ≠ ⟨.minusOne, q, m⟩ := fun h => by simp [h] at hnull
  induction hstep with
  | @replace n c₀ c₁ hlen hp =>
    simp only [nodes, List.mem_cons, hne, false_or] at hx
    exact List.mem_cons_of_mem _ hx
  | leaf hlen hp hchild => exact mem_nodes_of_setChild (by simp [nodes, hne]) hx
  | between hlen hp hchild hlong hcover hslot =>
    refine mem_nodes_of_setChild (fun h => ?_) hx
    rw [hchild]
    simpa [mem_nodes_setChild, hne, child, nodes] using h
  | @fork n c₀ c₁ cn cc₀ cc₁ m hlen hp hchild hm hm' hcommon hpart =>
    refine mem_nodes_of_setChild (fun h => ?_) hx
    rw [hchild]
    cases hbit : p.getMsbD m <;> simpa [hbit, setChild, nodes, hne, hne'] using h
  | descend hlen hp hcover hstep ih => exact mem_nodes_of_setChild ih hx

/-! ## Sequences of insertions -/

/-- The data most recently inserted for the prefix of length `k` of an address. -/
def current (es : List (LpmInsertion δ)) (a : In6Addr) (k : ℕ) : Option δ :=
  ((es.filter fun e => e.plen = k ∧ Agree e.pfx a k).getLast?).map LpmInsertion.data

/-- The law of the longest prefix match: the data most recently inserted for the longest
prefix that matches the address, nothing when none does. -/
def LongestMatch (es : List (LpmInsertion δ)) (a : In6Addr) : Option δ → Prop
  | some d => ∃ k, current es a k = some d ∧ ∀ j, (current es a j).isSome → j ≤ k
  | none => ∀ k, current es a k = none

/-- Every insertion of a sequence meets the condition in the tree it finds. -/
def InsertsOk : LpmTree δ → List (LpmInsertion δ) → Prop
  | _, [] => True
  | t, e :: es => InPlaceOk e.pfx e.plen t ∧
      match lpmInsert t e.pfx e.plen (.entry e.data) with
      | .ok (t', _) => InsertsOk t' es
      | .error _ => True

instance instDecidableInsertsOk :
    (es : List (LpmInsertion δ)) → (t : LpmTree δ) → Decidable (InsertsOk t es)
  | [], _ => isTrue trivial
  | e :: es, t =>
    match h : lpmInsert t e.pfx e.plen (.entry e.data) with
    | .ok (t', _) =>
      have := instDecidableInsertsOk es t'
      decidable_of_iff (InPlaceOk e.pfx e.plen t ∧ InsertsOk t' es) (by rw [InsertsOk, h])
    | .error _ => decidable_of_iff (InPlaceOk e.pfx e.plen t) (by simp [InsertsOk, h])

theorem current_concat (es : List (LpmInsertion δ)) (e : LpmInsertion δ) (a : In6Addr) (k : ℕ) :
    current (es ++ [e]) a k =
      if k = e.plen ∧ Agree e.pfx a e.plen then some e.data else current es a k := by
  rw [current, List.filter_append, List.filter_singleton]
  by_cases hkey : k = e.plen ∧ Agree e.pfx a e.plen
  · obtain ⟨rfl, ha⟩ := hkey
    simp [ha]
  · have : ¬ (e.plen = k ∧ Agree e.pfx a k) := fun ⟨h, ha⟩ => hkey ⟨h.symm, h ▸ ha⟩
    simp [this, hkey, current]

/-- A tree that holds what a sequence of insertions put there. -/
structure Represents (es : List (LpmInsertion δ)) (t : LpmTree δ) : Prop where
  wf : Wf t
  /-- Only the head can have `NULL` data. -/
  null : ∀ x ∈ t.nodes, x.data = .null → x.plen = 0
  stored : ∀ a k d, Stored a k d t ↔ current es a k = some d

theorem represents_lpmNew : Represents [] (lpmNew : LpmTree δ) where
  wf := ⟨rfl, by simp, Nat.zero_le _, trivial, trivial⟩
  null x hx _ := by
    obtain rfl : x = ⟨.null, 0, 0⟩ := by simpa [lpmNew, nodes] using hx
    rfl
  stored a k d := by simp [Stored, lpmNew, nodes, Holds, current]

/-- **Step lemma.** An insertion that meets the condition. -/
theorem Represents.insert {es : List (LpmInsertion δ)} {e : LpmInsertion δ}
    (h : Represents es t) (hl : e.plen ≤ 128) (hok : InPlaceOk e.pfx e.plen t) :
    ∃ t' path, lpmInsert t e.pfx e.plen (.entry e.data) = .ok (t', path) ∧
      Represents (es ++ [e]) t' := by
  cases t with
  | null => exact h.wf.elim
  | node n c₀ c₁ =>
    obtain ⟨hplen, hreal, hwf⟩ := h.wf
    have hcover : CoversExact e.pfx e.plen (node n c₀ c₁) :=
      ⟨hplen ▸ Nat.zero_le _, fun i hi => by rw [hplen] at hi; omega⟩
    obtain ⟨t', path, hins, hstep⟩ := lpmInsert_step (.entry e.data) hl _ hwf hcover hok
    refine ⟨t', path, hins, ?_, fun x hx hnull => ?_, fun a k d => ?_⟩
    · have hroot := hstep.keepsRoot
      have hwf' := hstep.wfNode hl hwf
      cases t' with
      | null => exact hroot.elim
      | node n' c₀' c₁' =>
        obtain ⟨-, hplen', hdata⟩ := hroot
        refine ⟨hplen'.trans hplen, ?_, hwf'⟩
        rcases hdata with hdata | hdata <;> simp [hdata, hreal]
    · exact h.null x (hstep.mem_of_null (by simp) hnull hx) hnull
    · rw [hstep.sets hwf a k d, current_concat, h.stored]
      split_ifs <;> simp

/-- **Run lemma.** A sequence of insertions that all meet the condition. -/
theorem Represents.run (es : List (LpmInsertion δ)) {es₀ : List (LpmInsertion δ)}
    (h : Represents es₀ t) (hl : ∀ e ∈ es, e.plen ≤ 128) (hok : InsertsOk t es) :
    ∃ t', lpmRun t es = .ok t' ∧ Represents (es₀ ++ es) t' := by
  induction es generalizing t es₀ with
  | nil => exact ⟨t, rfl, by simpa using h⟩
  | cons e es ih =>
    obtain ⟨hnow, hlater⟩ := hok
    obtain ⟨t', path, hins, h'⟩ := h.insert (hl e List.mem_cons_self) hnow
    rw [hins] at hlater
    obtain ⟨t'', hrun, h''⟩ := ih h' (fun x hx => hl x (List.mem_cons_of_mem _ hx)) hlater
    refine ⟨t'', ?_, by simpa using h''⟩
    rw [lpmRun, hins]
    exact hrun

/-- The head is the only node with the empty prefix. -/
theorem eq_head_of_plen_zero (h : Wf (node n c₀ c₁)) {x : LpmNode δ}
    (hx : x ∈ (node n c₀ c₁).nodes) (hplen : x.plen = 0) : x = n := by
  simp only [nodes, List.mem_cons, List.mem_append] at hx
  rcases hx with hx | hx | hx
  · exact hx
  · have := (h.2.2.2.1.of_mem hx).1
    omega
  · have := (h.2.2.2.2.of_mem hx).1
    omega

/-- What is looked up in such a tree obeys the law. -/
theorem Represents.lookup {es : List (LpmInsertion δ)} (h : Represents es t) (a : In6Addr) :
    ∃ r, lpmLookup t a = .ok r ∧ LongestMatch es a r := by
  obtain ⟨m, hm, hlookup⟩ := lpmLookup_spec t h.wf a
  refine ⟨_, hlookup, ?_⟩
  have hle : ∀ k d, current es a k = some d → k ≤ m.plen := by
    intro k d hk
    obtain ⟨x, hx, hd, hplen, ha⟩ := (h.stored a k d).mpr hk
    exact hplen ▸ hm.longest x hx ⟨by simp [hd], hplen.symm ▸ ha⟩
  cases hdata : m.data with
  | minusOne => exact absurd hdata hm.is_match.1
  | entry d =>
    rw [result, hdata]
    refine ⟨m.plen, (h.stored a m.plen d).mp ⟨m, hm.mem, hdata, rfl, hm.is_match.2⟩, ?_⟩
    intro j hj
    obtain ⟨x, hx⟩ := Option.isSome_iff_exists.mp hj
    exact hle j x hx
  | null =>
    rw [result, hdata]
    intro k
    refine Option.eq_none_iff_forall_not_mem.mpr fun d hk => ?_
    have hzero : m.plen = 0 := h.null m hm.mem hdata
    obtain ⟨x, hx, hd, hplen, -⟩ := (h.stored a k d).mpr hk
    have hk' := hle k d hk
    cases t with
    | null => exact h.wf
    | node n c₀ c₁ =>
      rw [eq_head_of_plen_zero h.wf hx (by omega)] at hd
      rw [eq_head_of_plen_zero h.wf hm.mem hzero, hd] at hdata
      simp at hdata

/-- **Main theorem.** Every sequence of insertions of prefixes of up to 128 bits that all
meet the condition ends without a fault, and afterwards the lookup of every address ends
without a fault and returns the data most recently inserted for the longest prefix that
matches it. -/
theorem lpmRun_longestMatch (es : List (LpmInsertion δ)) (hplen : ∀ e ∈ es, e.plen ≤ 128)
    (hok : InsertsOk lpmNew es) :
    ∃ t, lpmRun lpmNew es = .ok t ∧ ∀ a, ∃ r, lpmLookup t a = .ok r ∧ LongestMatch es a r := by
  obtain ⟨t, hrun, h⟩ := represents_lpmNew.run es hplen hok
  exact ⟨t, hrun, h.lookup⟩

/-- The prefixes with the given first four bits and zeros behind them. -/
def fourBits (b : BitVec 4) : In6Addr := b ++ (0 : BitVec 124)

/-- A prefix inserted in place over a longer one, with the right bit behind it. -/
theorem lpmRun_longestMatch_inPlace :
    ∃ t, lpmRun lpmNew [⟨fourBits 0b1000, 4, 'x'⟩, ⟨fourBits 0b1000, 1, 'y'⟩] = .ok t ∧
      ∀ a, ∃ r, lpmLookup t a = .ok r ∧
        LongestMatch [⟨fourBits 0b1000, 4, 'x'⟩, ⟨fourBits 0b1000, 1, 'y'⟩] a r :=
  lpmRun_longestMatch _ (by simp) (by decide +kernel)

/-- Four prefixes whose bits behind their length are zero.  The second is put in place
over the first, with the first in the wrong slot; the third goes into the slot the first
should have; the fourth makes a virtual node of the length of the second in the wrong
slot, which matches whatever the second matches and hides the third. -/
theorem lpmRun_hides_entry :
    (lpmRun lpmNew [⟨fourBits 0b1111, 4, 1⟩, ⟨fourBits 0b1000, 1, 2⟩, ⟨fourBits 0b1100, 4, 3⟩,
        ⟨fourBits 0b1000, 2, 4⟩] >>= fun t => lpmLookup t (fourBits 0b1100)) = .ok (some 2) ∧
      ¬ LongestMatch [⟨fourBits 0b1111, 4, 1⟩, ⟨fourBits 0b1000, 1, 2⟩, ⟨fourBits 0b1100, 4, 3⟩,
        ⟨fourBits 0b1000, 2, 4⟩] (fourBits 0b1100) (some 2) := by
  refine ⟨by decide +kernel, ?_⟩
  rintro ⟨k, hk, hlongest⟩
  rcases Nat.lt_or_eq_of_le (hlongest 4 (by decide +kernel)) with hlt | rfl
  · have hne : ∀ j ≤ 4, j ≠ k := fun j hj => by omega
    simp [current, hne] at hk
  · exact absurd hk (by decide +kernel)

end Srn
