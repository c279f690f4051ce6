import Mathlib.Data.List.Nodup
import Srn.Lpm.Remove

/-!
# Srn.Lpm.Delete

`lpm_delete` in memory.  On a well-formed tree the deletion of a prefix that is not empty leaves the
tree without that prefix (`lpm_delete_removes`): pointers to parents included, and without touching
any other memory.

The empty prefix is the head, and the head has no parent.  `optimize_virtual` treats it like every
other node all the same.
-/

namespace Srn.LpmHeap

open LpmTree

variable {δ : Type} {h h' : LpmHeap δ} {parent ptr : Option LpmAddr} {a x : LpmAddr}
  {n : LpmNode δ} {c c₀ c₁ t : LpmTree δ} {l : List LpmAddr} {b : Bool}

/-- After an operation on the tree at an address, there is another tree over the same addresses or
fewer, and all other memory is as before. -/
structure Becomes (h : LpmHeap δ) (parent : Option LpmAddr) (a : LpmAddr) (l : List LpmAddr)
    (t : LpmTree δ) (h' : LpmHeap δ) : Prop where
  rep : ∃ l', Rep h' parent (some a) t l' ∧ l'.Nodup ∧ l' ⊆ l
  frame : Mem.EqOff l h h'

/-- An operation after others that stayed within the addresses. -/
theorem Becomes.after {h₁ : LpmHeap δ} {l₁ : List LpmAddr} (hb : Becomes h₁ parent a l₁ t h')
    (hsub : l₁ ⊆ l) (hframe : Mem.EqOff l h h₁) : Becomes h parent a l t h' := by
  obtain ⟨⟨l', hrep, hnodup, hsub'⟩, hframe'⟩ := hb
  exact ⟨⟨l', hrep, hnodup, List.Subset.trans hsub' hsub⟩, hframe.trans (hframe'.mono hsub)⟩

theorem Becomes.ne_null (hb : Becomes h parent a l t h') : t ≠ .null := by
  obtain ⟨⟨l', hrep, -, -⟩, -⟩ := hb
  cases hrep
  simp

/-! ## Cells -/

/-- The addresses of a node and of its two slots. -/
structure Apart (a : LpmAddr) (ls : Bool → List LpmAddr) : Prop where
  root : ∀ b, a ∉ ls b
  nodup : ∀ b, (ls b).Nodup
  disjoint : ∀ b, (ls b).Disjoint (ls !b)

theorem nodup_iff_apart {ls : Bool → List LpmAddr} :
    (a :: (ls false ++ ls true)).Nodup ↔ Apart a ls := by
  rw [List.nodup_cons, List.nodup_append', List.mem_append, not_or]
  constructor
  · rintro ⟨⟨h₀, h₁⟩, hn₀, hn₁, hd⟩
    refine ⟨fun b => ?_, fun b => ?_, fun b => ?_⟩
    · cases b <;> assumption
    · cases b <;> assumption
    · cases b
      · exact fun y hy hy' => hd hy hy'
      · exact fun y hy hy' => hd hy' hy
  · intro hap
    exact ⟨⟨hap.root false, hap.root true⟩, hap.nodup false, hap.nodup true, hap.disjoint false⟩

theorem mem_slots {ls : Bool → List LpmAddr} (b : Bool) (hx : x ∈ ls b) :
    x ∈ a :: (ls false ++ ls true) := by
  refine List.mem_cons_of_mem _ (List.mem_append.mpr ?_)
  cases b
  · exact .inl hx
  · exact .inr hx

/-- Another root over the same two slots. -/
theorem Rep.with_root (hrep : Rep h parent (some a) (.node n c₀ c₁) l) (hl : l.Nodup) :
    ∃ children, h a = some ⟨n, parent, children⟩ ∧ ∀ h' n' parent',
      h' a = some ⟨n', parent', children⟩ → (∀ y ∈ l, y ≠ a → h' y = h y) →
      Rep h' parent' (some a) (.node n' c₀ c₁) l := by
  cases hrep with
  | @node _ _ _ _ _ children ls cell child =>
    have hap := nodup_iff_apart.mp hl
    refine ⟨children, cell, fun h' n' parent' hroot hsame => .node hroot fun b => ?_⟩
    refine (child b).congr fun y hy => hsame y (mem_slots b hy) ?_
    rintro rfl
    exact hap.root b hy

theorem Rep.write_root (hrep : Rep h parent (some a) (.node n c₀ c₁) l) (hl : l.Nodup) :
    ∃ children, h a = some ⟨n, parent, children⟩ ∧ ∀ n' parent',
      Rep (h.store a ⟨n', parent', children⟩) parent' (some a) (.node n' c₀ c₁) l := by
  obtain ⟨children, cell, hwith⟩ := hrep.with_root hl
  exact ⟨children, cell, fun n' parent' =>
    hwith _ n' parent' Mem.store_self fun y _ hy => Mem.store_of_ne hy⟩

/-- Another tree in a slot, over addresses apart from those of the rest. -/
theorem Rep.set_slot {children : Bool → Option LpmAddr} {l' lo : List LpmAddr}
    (hslot : Rep h' (some a) ptr c l')
    (hroot : h' a = some ⟨n, parent, Function.update children b ptr⟩)
    (hother : Rep h' (some a) (children !b) ((LpmTree.node n c₀ c₁).child !b) lo)
    (hnodup : (a :: (l' ++ lo)).Nodup) :
    ∃ l'', Rep h' parent (some a) ((LpmTree.node n c₀ c₁).setChild b c) l'' ∧ l''.Nodup ∧
      l'' ⊆ a :: (l' ++ lo) := by
  cases b
  · refine ⟨a :: (l' ++ lo), .node (l := fun b => if b then lo else l') hroot fun b => ?_, hnodup,
      List.Subset.refl _⟩
    cases b
    · exact hslot
    · exact hother
  · have hperm : (a :: (lo ++ l')).Perm (a :: (l' ++ lo)) := List.perm_append_comm.cons a
    refine ⟨a :: (lo ++ l'), .node (l := fun b => if b then l' else lo) hroot fun b => ?_,
      hperm.nodup_iff.mpr hnodup, hperm.subset⟩
    cases b
    · exact hother
    · exact hslot

/-- Another tree in a slot, over addresses of the slot and new ones. -/
theorem Rep.put_slot {children : Bool → Option LpmAddr} {ls : Bool → List LpmAddr}
    {l' : List LpmAddr} (hslot : Rep h' (some a) ptr c l')
    (child : ∀ b, Rep h (some a) (children b) ((LpmTree.node n c₀ c₁).child b) (ls b))
    (hap : Apart a ls) (hroot : h' a = some ⟨n, parent, Function.update children b ptr⟩)
    (hnodup : l'.Nodup) (hnew : ∀ y ∈ l', y ∈ ls b ∨ y ∉ a :: (ls false ++ ls true))
    (hsame : ∀ y ∈ ls !b, h' y = h y) :
    ∃ l'', Rep h' parent (some a) ((LpmTree.node n c₀ c₁).setChild b c) l'' ∧ l''.Nodup ∧
      ∀ y ∈ l'', y ∈ l' ∨ y ∈ a :: (ls false ++ ls true) := by
  have hapart : ∀ y ∈ a :: (ls false ++ ls true), y ∉ ls b → y ∉ l' := fun y hy hyb hyl =>
    (hnew y hyl).elim hyb fun hnot => hnot hy
  have hcons : (a :: (l' ++ ls !b)).Nodup := by
    rw [List.nodup_cons, List.mem_append, not_or, List.nodup_append']
    exact ⟨⟨hapart a List.mem_cons_self (hap.root b), hap.root !b⟩, hnodup, hap.nodup !b,
      fun y hy hyo => hapart y (mem_slots (!b) hyo) (fun hyb => hap.disjoint b hyb hyo) hy⟩
  obtain ⟨l'', hrep, hnodup', hsub⟩ := hslot.set_slot hroot ((child !b).congr hsame) hcons
  refine ⟨l'', hrep, hnodup', fun y hy => ?_⟩
  obtain _ | ⟨_, hy⟩ := hsub hy
  · exact .inr List.mem_cons_self
  · exact (List.mem_append.mp hy).imp_right fun hyo => mem_slots (!b) hyo

/-- An operation on the tree in a slot is one on the whole tree. -/
theorem becomes_setChild {children : Bool → Option LpmAddr} {ls : Bool → List LpmAddr}
    (cell : h a = some ⟨n, parent, children⟩)
    (child : ∀ b, Rep h (some a) (children b) ((LpmTree.node n c₀ c₁).child b) (ls b))
    (hap : Apart a ls) (hx : children b = some x) (hb : Becomes h (some a) x (ls b) c h') :
    Becomes h parent a (a :: (ls false ++ ls true)) ((LpmTree.node n c₀ c₁).setChild b c) h' := by
  obtain ⟨⟨l', hrep, hnodup, hsub⟩, hframe⟩ := hb
  have hroot : h' a = some ⟨n, parent, Function.update children b (some x)⟩ := by
    rw [← hx, Function.update_eq_self]
    exact (hframe a (hap.root b)).trans cell
  obtain ⟨l'', hrep'', hnodup'', hmem⟩ := hrep.put_slot child hap hroot hnodup
    (fun y hy => .inl (hsub hy)) fun y hy => hframe y fun hyb => hap.disjoint b hyb hy
  exact ⟨⟨l'', hrep'', hnodup'', fun y hy => (hmem y hy).elim (fun hy' => mem_slots b (hsub hy'))
    id⟩, hframe.mono fun y hy => mem_slots b hy⟩

/-! ## Giving way in memory -/

theorem setParent_rep (hrep : Rep h parent ptr t l) (hl : l.Nodup) (q : LpmAddr) :
    ∃ h', h.setParent q ptr = .ok h' ∧ Rep h' (some q) ptr t l ∧ Mem.EqOff l h h' := by
  cases hrep with
  | null => exact ⟨h, rfl, .null, Mem.EqOff.refl _ _⟩
  | node cell child =>
    obtain ⟨children, hcell, hwrite⟩ := (Rep.node cell child).write_root hl
    refine ⟨_, ?_, hwrite _ (some q), Mem.eqOff_store List.mem_cons_self⟩
    rw [setParent, load_eq_ok hcell]
    rfl

/-- Two trees get another parent, one after the other. -/
theorem setParent_slots {children : Bool → Option LpmAddr} {ts : Bool → LpmTree δ}
    {ds : Bool → List LpmAddr} (hap : Apart x ds)
    (hrep : ∀ b, Rep h parent (children b) (ts b) (ds b)) (q : LpmAddr) :
    ∃ h₁ h₂, h.setParent q (children false) = .ok h₁ ∧
      h₁.setParent q (children true) = .ok h₂ ∧
      (∀ b, Rep h₂ (some q) (children b) (ts b) (ds b)) ∧
      Mem.EqOff (ds false ++ ds true) h h₂ := by
  obtain ⟨h₁, hrun₁, hrep₁, hframe₁⟩ := setParent_rep (hrep false) (hap.nodup false) q
  have hsame₁ : ∀ y ∈ ds true, h₁ y = h y := fun y hy =>
    hframe₁ y fun hy' => hap.disjoint false hy' hy
  obtain ⟨h₂, hrun₂, hrep₂, hframe₂⟩ :=
    setParent_rep ((hrep true).congr hsame₁) (hap.nodup true) q
  refine ⟨h₁, h₂, hrun₁, hrun₂, fun b => ?_, ?_⟩
  · cases b with
    | false => exact hrep₁.congr fun y hy => hframe₂ y fun hy' => hap.disjoint false hy hy'
    | true => exact hrep₂
  · exact (hframe₁.mono fun y hy => List.mem_append.mpr (.inl hy)).trans
      (hframe₂.mono fun y hy => List.mem_append.mpr (.inr hy))

/-- The slots of a node with one child. -/
theorem only_cases {children : Bool → Option LpmAddr} (hx : children b = some x)
    (hother : children (!b) = none) :
    children false = some x ∧ children true = none ∨
      children false = none ∧ children true = some x := by
  cases b with
  | false => exact .inl ⟨hx, hother⟩
  | true => exact .inr ⟨hother, hx⟩

/-- **`merge_child`** puts the only child in the place of a node. -/
theorem mergeChild_rep (hrep : Rep h parent (some a) (.node n c₀ c₁) l) (hl : l.Nodup)
    (hne : (LpmTree.node n c₀ c₁).child b ≠ .null)
    (hnull : (LpmTree.node n c₀ c₁).child (!b) = .null) :
    ∃ h', h.mergeChild a = .ok h' ∧
      Becomes h parent a l ((LpmTree.node n c₀ c₁).child b) h' := by
  cases hrep with
  | @node _ _ _ _ _ children ls cell child =>
    have hap := nodup_iff_apart.mp hl
    have hother : children (!b) = none := (hnull ▸ child !b).ptr_eq_none
    have hb := child b
    cases hc : (LpmTree.node n c₀ c₁).child b with
    | null => exact absurd hc hne
    | node cn d₀ d₁ =>
      rw [hc] at hb
      obtain ⟨x, grandchildren, ds, hx, hls, hcell, hgrand⟩ := hb.exists_cell
      have hxap : Apart x ds := nodup_iff_apart.mp (hls ▸ hap.nodup b)
      have hmem : ∀ y ∈ ds false ++ ds true, y ∈ ls b := fun y hy =>
        hls ▸ List.mem_cons_of_mem x hy
      have hxmem : x ∈ ls b := hls ▸ List.mem_cons_self
      have hax : a ≠ x := fun heq => hap.root b (heq ▸ hxmem)
      have ha : a ∉ ds false ++ ds true := fun hy => hap.root b (hmem a hy)
      have hslot : ∀ b', ∀ y ∈ ds b', y ∈ ds false ++ ds true := by
        intro b' y hy
        cases b' with
        | false => exact List.mem_append.mpr (.inl hy)
        | true => exact List.mem_append.mpr (.inr hy)
      -- the node takes over the contents of the child, and the grandchildren a new parent
      have hgrand₁ : ∀ b', Rep (h.store a ⟨cn, parent, grandchildren⟩) (some x)
          (grandchildren b') ((LpmTree.node cn d₀ d₁).child b') (ds b') := fun b' =>
        (hgrand b').congr fun y hy => Mem.store_of_ne fun heq => ha (hslot b' a (heq ▸ hy))
      obtain ⟨h₁, h₂, hrun₁, hrun₂, hrep₂, hframe₂⟩ := setParent_slots hxap hgrand₁ a
      have hroot : Mem.free h₂ x a = some ⟨cn, parent, grandchildren⟩ := by
        rw [Mem.free_of_ne hax, hframe₂ a ha, Mem.store_self]
      have hkids : ∀ b', Rep (Mem.free h₂ x) (some a) (grandchildren b')
          ((LpmTree.node cn d₀ d₁).child b') (ds b') := fun b' =>
        (hrep₂ b').congr fun y hy => Mem.free_of_ne fun heq => hxap.root b' (heq ▸ hy)
      refine ⟨Mem.free h₂ x, ?_, ⟨a :: (ds false ++ ds true), .node hroot hkids, ?_, ?_⟩, ?_⟩
      · rw [mergeChild, load_eq_ok cell]
        obtain ⟨hfalse, htrue⟩ | ⟨hfalse, htrue⟩ := only_cases hx hother
        · simp [bind, Except.bind, pure, Except.pure, hfalse, htrue, load_eq_ok hcell, hrun₁,
            hrun₂]
        · simp [bind, Except.bind, pure, Except.pure, hfalse, htrue, load_eq_ok hcell, hrun₁,
            hrun₂]
      · exact nodup_iff_apart.mpr
          ⟨fun b' hy => ha (hslot b' a hy), hxap.nodup, hxap.disjoint⟩
      · exact List.cons_subset.mpr
          ⟨List.mem_cons_self, fun y hy => mem_slots b (hmem y hy)⟩
      · exact ((Mem.eqOff_store List.mem_cons_self).trans
          (hframe₂.mono fun y hy => mem_slots b (hmem y hy))).trans
          (Mem.eqOff_free (mem_slots b hxmem))

/-- Siblings part where their parent ends. -/
theorem commonPrefixLen_siblings {q : In6Addr} {k : ℕ} {n₀ n₁ : LpmNode δ}
    {d₀ d₁ e₀ e₁ : LpmTree δ} (h₀ : WfBelow q k false (.node n₀ d₀ d₁))
    (h₁ : WfBelow q k true (.node n₁ e₀ e₁)) :
    commonPrefixLen n₀.pfx n₁.pfx (min n₀.plen n₁.plen) = k := by
  have hmin : k < min n₀.plen n₁.plen := Nat.lt_min.mpr ⟨h₀.1, h₁.1⟩
  have hdiff : n₀.pfx.getMsbD k ≠ n₁.pfx.getMsbD k := by
    rw [h₀.2.2.2.1, h₁.2.2.2.1]
    simp
  obtain ⟨-, hagree, hpart⟩ :=
    commonPrefixLen_spec n₀.pfx n₁.pfx ((Nat.min_le_left _ _).trans h₀.2.1)
  rcases Nat.lt_trichotomy (commonPrefixLen n₀.pfx n₁.pfx (min n₀.plen n₁.plen)) k with
    hlt | heq | hgt
  · exact absurd ((h₀.2.2.1.trans h₁.2.2.1.symm) _ hlt) (hpart (hlt.trans hmin))
  · exact heq
  · exact absurd (hagree k hgt) hdiff

/-- **`optimize_virtual`** has nothing to do at a node that is real or has two children. -/
theorem optimizeVirtual_settled (hrep : Rep h parent (some a) t l) (hwf : WfNode t)
    (hbranch : Branching t) (fuel : ℕ) : optimizeVirtual (fuel + 1) h (some a) = .ok h := by
  cases hrep with
  | @node _ _ n c₀ c₁ children ls cell child =>
    rw [optimizeVirtual, load_eq_ok cell]
    simp only [bind, Except.bind]
    by_cases hvirtual : n.data = .minusOne
    · obtain ⟨hne₀, hne₁⟩ := hbranch.1 hvirtual
      cases c₀ with
      | null => exact absurd rfl hne₀
      | node n₀ d₀ d₁ =>
        cases c₁ with
        | null => exact absurd rfl hne₁
        | node n₁ e₀ e₁ =>
          obtain ⟨x₀, children₀, -, hx₀, -, hcell₀, -⟩ := (child false).exists_cell
          obtain ⟨x₁, children₁, -, hx₁, -, hcell₁, -⟩ := (child true).exists_cell
          have hcommon := commonPrefixLen_siblings hwf.2.1 hwf.2.2
          simp [hx₀, hx₁, optimizeVirtualPlen,
            load_eq_ok cell, load_eq_ok hcell₀, load_eq_ok hcell₁, hcommon, bind,
            Except.bind, pure, Except.pure]
    · simp [hvirtual, pure, Except.pure]

/-- It makes a node give way, unless nothing would be left. -/
theorem optimizeVirtual_collapse (hrep : Rep h parent (some a) (.node n c₀ c₁) l) (hl : l.Nodup)
    (hwf : WfNode (.node n c₀ c₁)) (hbranch : ∀ b, Branching ((LpmTree.node n c₀ c₁).child b))
    (hne : collapse (.node n c₀ c₁) ≠ .null) (fuel : ℕ) :
    ∃ h', optimizeVirtual (fuel + 2) h (some a) = .ok h' ∧
      Becomes h parent a l (collapse (.node n c₀ c₁)) h' := by
  obtain ⟨heq, htwo⟩ | ⟨b, hvirtual, hnull, heq⟩ := collapse_cases n c₀ c₁
  · rw [heq]
    refine ⟨h, ?_, ⟨l, hrep, hl, List.Subset.refl l⟩, Mem.EqOff.refl l h⟩
    exact optimizeVirtual_settled hrep hwf ⟨htwo, hbranch false, hbranch true⟩ (fuel + 1)
  · rw [heq] at hne ⊢
    obtain ⟨h', hmerge, hbecomes⟩ := mergeChild_rep hrep hl hne hnull
    obtain ⟨l', hrep', -, -⟩ := hbecomes.rep
    refine ⟨h', ?_, hbecomes⟩
    have hsettled := optimizeVirtual_settled hrep' (wfNode_child hwf hne) (hbranch b) fuel
    obtain ⟨a', children, ls, ha', -, cell, hchild⟩ := hrep.exists_cell
    obtain rfl := Option.some.inj ha'
    obtain ⟨x, hx⟩ := (hchild b).exists_ptr hne
    have hother : children (!b) = none := (hnull ▸ hchild !b).ptr_eq_none
    rw [optimizeVirtual, load_eq_ok cell]
    simp only [bind, Except.bind, hmerge, hsettled]
    obtain ⟨hfalse, htrue⟩ | ⟨hfalse, htrue⟩ := only_cases hx hother
    · simp [hvirtual, hfalse, htrue]
    · simp [hvirtual, hfalse, htrue]

/-- A node without children is unlinked from its parent and freed, and then its parent may have to
give way. -/
theorem lpmDeleteNode_leaf {children : Bool → Option LpmAddr} {ls : Bool → List LpmAddr}
    (cell : h a = some ⟨n, parent, children⟩)
    (child : ∀ b, Rep h (some a) (children b) ((LpmTree.node n c₀ c₁).child b) (ls b))
    (hap : Apart a ls) {m : LpmNode δ}
    (hleaf : (LpmTree.node n c₀ c₁).child b = .node m .null .null) (hx : children b = some x)
    (fuel : ℕ) :
    ∃ h', h.lpmDeleteNode (fuel + 1) x = (do
        let h'' ← optimizeVirtual fuel h' (some a)
        return (h'', m.data)) ∧
      Becomes h parent a (a :: (ls false ++ ls true)) ((LpmTree.node n c₀ c₁).setChild b .null)
        h' := by
  have hb := child b
  rw [hleaf] at hb
  obtain ⟨x', grandchildren, ds, hx', -, hcell, hgrand⟩ := hb.exists_cell
  obtain rfl : x = x' := Option.some.inj (hx.symm.trans hx')
  have hnone : ∀ b', grandchildren b' = none := by
    intro b'
    have hrep := hgrand b'
    cases b' <;> exact hrep.ptr_eq_none
  have hmem : x ∈ ls b := (hx ▸ hb).mem
  have hax : a ≠ x := by
    rintro rfl
    exact hap.root b hmem
  have hidx : (if children false = some x then false else true) = b := by
    cases b
    · exact if_pos hx
    · refine if_neg fun hfalse => hap.disjoint true hmem ?_
      exact (hfalse ▸ child false).mem
  -- the marked node, and the memory after it is unlinked and freed
  have hmark : (h.store x ⟨{ m with data := .minusOne }, some a, grandchildren⟩) x =
      some ⟨{ m with data := .minusOne }, some a, grandchildren⟩ := Mem.store_self
  have hroot : (h.store x ⟨{ m with data := .minusOne }, some a, grandchildren⟩) a =
      some ⟨n, parent, children⟩ := (Mem.store_of_ne hax).trans cell
  refine ⟨Mem.free (Mem.store (h.store x ⟨{ m with data := .minusOne }, some a, grandchildren⟩) a
    ⟨n, parent, Function.update children b none⟩) x, ?_, ?_⟩
  · rw [lpmDeleteNode, load_eq_ok hcell]
    simp only [bind, Except.bind]
    rw [optimizeVirtual, load_eq_ok hmark]
    simp [bind, Except.bind, pure, Except.pure, hnone, optimizeVirtualEmpty, load_eq_ok hmark,
      load_eq_ok hroot, hidx]
  have hframe : ∀ y, y ≠ a → y ≠ x →
      Mem.free (Mem.store (h.store x ⟨{ m with data := .minusOne }, some a, grandchildren⟩) a
        ⟨n, parent, Function.update children b none⟩) x y = h y := fun y hya hyx =>
    ((Mem.free_of_ne hyx).trans (Mem.store_of_ne hya)).trans (Mem.store_of_ne hyx)
  refine ⟨?_, ?_⟩
  · obtain ⟨l', hrep', hnodup', hmem'⟩ := Rep.null.put_slot child hap
      ((Mem.free_of_ne hax).trans Mem.store_self) List.nodup_nil (by simp)
      fun y hy => hframe y (fun heq => hap.root _ (heq ▸ hy))
        (fun heq => hap.disjoint b hmem (heq ▸ hy))
    exact ⟨l', hrep', hnodup', fun y hy => (hmem' y hy).resolve_left List.not_mem_nil⟩
  · refine fun y hy => hframe y ?_ ?_
    · rintro rfl
      exact hy List.mem_cons_self
    · rintro rfl
      exact hy (mem_slots b hmem)

/-! ## Deleting a node -/

theorem remove_cons_of_ne_null (hbranch : Branching (.node n c₀ c₁)) (path : List Bool)
    (hne : remove path ((LpmTree.node n c₀ c₁).child b) ≠ .null) :
    remove (b :: path) (.node n c₀ c₁) =
      (LpmTree.node n c₀ c₁).setChild b (remove path ((LpmTree.node n c₀ c₁).child b)) := by
  rw [remove]
  cases b
  · exact collapse_of_branching fun hvirtual => ⟨hne, (hbranch.1 hvirtual).2⟩
  · exact collapse_of_branching fun hvirtual => ⟨(hbranch.1 hvirtual).1, hne⟩

section

variable {children : Bool → Option LpmAddr} {ls : Bool → List LpmAddr} {m : LpmNode δ}
  {d₀ d₁ : LpmTree δ}

/-- A child without children is deleted: its parent loses it, and gives way if it is virtual. -/
theorem lpmDeleteNode_of_leaf (cell : h a = some ⟨n, parent, children⟩)
    (child : ∀ b, Rep h (some a) (children b) ((LpmTree.node n c₀ c₁).child b) (ls b))
    (hap : Apart a ls) (hbranch : Branching (.node n c₀ c₁)) (hwf : WfNode (.node n c₀ c₁))
    (hleaf : (LpmTree.node n c₀ c₁).child b = .node m .null .null) (hx : children b = some x)
    (fuel : ℕ) :
    ∃ h', h.lpmDeleteNode (fuel + 3) x = .ok (h', m.data) ∧
      Becomes h parent a (a :: (ls false ++ ls true)) (remove [b] (.node n c₀ c₁)) h' := by
  obtain ⟨h₁, hrun₁, ⟨l₁, hrep₁, hnodup₁, hsub₁⟩, hframe₁⟩ :=
    lpmDeleteNode_leaf cell child hap hleaf hx (fuel + 2)
  have hremove : remove [b] (.node n c₀ c₁) =
      collapse ((LpmTree.node n c₀ c₁).setChild b .null) := by
    rw [remove, hleaf]
    simp [remove, collapse, giveWay]
  have hne := collapse_setChild_null_ne hbranch b
  have hwf₁ := wfNode_setChild (b := b) (c := .null) hwf trivial
  obtain ⟨h', hrun', hbecomes'⟩ : ∃ h', optimizeVirtual (fuel + 2) h₁ (some a) = .ok h' ∧
      Becomes h₁ parent a l₁ (collapse ((LpmTree.node n c₀ c₁).setChild b .null)) h' := by
    cases b
    · refine optimizeVirtual_collapse hrep₁ hnodup₁ hwf₁ (fun b' => ?_) hne fuel
      cases b'
      · trivial
      · exact hbranch.2.2
    · refine optimizeVirtual_collapse hrep₁ hnodup₁ hwf₁ (fun b' => ?_) hne fuel
      cases b'
      · exact hbranch.2.1
      · trivial
  refine ⟨h', ?_, ?_⟩
  · rw [hrun₁, hrun']
    rfl
  · rw [hremove]
    exact hbecomes'.after hsub₁ hframe₁

/-- A child that has children gives way, or stays as a virtual node. -/
theorem lpmDeleteNode_of_inner (cell : h a = some ⟨n, parent, children⟩)
    (child : ∀ b, Rep h (some a) (children b) ((LpmTree.node n c₀ c₁).child b) (ls b))
    (hap : Apart a ls) (hbranch : Branching (.node n c₀ c₁)) (hwf : WfNode (.node n c₀ c₁))
    (hc : (LpmTree.node n c₀ c₁).child b = .node m d₀ d₁) (hinner : ¬ (d₀ = .null ∧ d₁ = .null))
    (hx : children b = some x) (fuel : ℕ) :
    ∃ h', h.lpmDeleteNode (fuel + 3) x = .ok (h', m.data) ∧
      Becomes h parent a (a :: (ls false ++ ls true)) (remove [b] (.node n c₀ c₁)) h' := by
  have hslot := child b
  have hwf' := wfNode_child (b := b) hwf (by rw [hc]; simp)
  have hbranch' := hbranch.child b
  have hstays := remove_cons_of_ne_null (b := b) hbranch []
  rw [hc] at hslot hwf' hbranch' hstays
  rw [hx] at hslot
  obtain ⟨grandchildren, hcell, hwrite⟩ := hslot.write_root (hap.nodup b)
  have hmarked := hwrite { m with data := .minusOne } (some a)
  have hne : collapse (.node { m with data := .minusOne } d₀ d₁) ≠ .null := by
    cases d₀ with
    | null =>
      cases d₁ with
      | null => exact absurd ⟨rfl, rfl⟩ hinner
      | node => simp [collapse, giveWay]
    | node => cases d₁ <;> simp [collapse, giveWay]
  obtain ⟨h', hrun, hbecomes⟩ := optimizeVirtual_collapse hmarked (hap.nodup b) hwf'
    (fun b' => hbranch'.child b') hne (fuel + 1)
  refine ⟨h', ?_, ?_⟩
  · rw [lpmDeleteNode, load_eq_ok hcell]
    simp only [bind, Except.bind, hrun]
    rfl
  · rw [hstays hne]
    exact becomes_setChild cell child hap hx
      (hbecomes.after (List.Subset.refl _) (Mem.eqOff_store hslot.mem))

/-- The deletion of a child. -/
theorem lpmDeleteNode_child {p : In6Addr} {k : ℕ} (cell : h a = some ⟨n, parent, children⟩)
    (child : ∀ b, Rep h (some a) (children b) ((LpmTree.node n c₀ c₁).child b) (ls b))
    (hap : Apart a ls) (hbranch : Branching (.node n c₀ c₁)) (hwf : WfNode (.node n c₀ c₁))
    (hreach : Reaches p k ((LpmTree.node n c₀ c₁).child b) []) (hx : children b = some x)
    (fuel : ℕ) :
    ∃ h' m, Entry (.node n c₀ c₁) m ∧ IsKey p k m ∧
      h.lpmDeleteNode (fuel + 3) x = .ok (h', m.data) ∧
      Becomes h parent a (a :: (ls false ++ ls true)) (remove [b] (.node n c₀ c₁)) h' := by
  have hin : ∀ m, Entry ((LpmTree.node n c₀ c₁).child b) m → Entry (.node n c₀ c₁) m :=
    fun m hm => (entry_node b).mpr (.inr (.inl hm))
  cases hc : (LpmTree.node n c₀ c₁).child b with
  | null => exact absurd hc hreach.ne_null
  | node m d₀ d₁ =>
    rw [hc] at hreach hin
    obtain ⟨hkey, hreal⟩ : IsKey p k m ∧ m.data ≠ .minusOne := by
      cases hreach with
      | here key real => exact ⟨key, real⟩
    have hm := hin m ((entry_node false).mpr (.inl ⟨rfl, hreal⟩))
    by_cases hleaf : d₀ = .null ∧ d₁ = .null
    · obtain ⟨rfl, rfl⟩ := hleaf
      obtain ⟨h', hrun, hbecomes⟩ :=
        lpmDeleteNode_of_leaf cell child hap hbranch hwf hc hx fuel
      exact ⟨h', m, hm, hkey, hrun, hbecomes⟩
    · obtain ⟨h', hrun, hbecomes⟩ :=
        lpmDeleteNode_of_inner cell child hap hbranch hwf hc hleaf hx fuel
      exact ⟨h', m, hm, hkey, hrun, hbecomes⟩

end

/-- **`lpm_delete_node`** below the root removes the node from the tree. -/
theorem lpmDeleteNode_below {p : In6Addr} {k : ℕ} {path : List Bool} (hreach : Reaches p k t path)
    (hpath : path ≠ []) (hrep : Rep h parent (some a) t l) (hl : l.Nodup) (hwf : WfNode t)
    (hbranch : Branching t) (hx : h.addrAt a path = some x) (fuel : ℕ) :
    ∃ h' m, Entry t m ∧ IsKey p k m ∧ h.lpmDeleteNode (fuel + 3) x = .ok (h', m.data) ∧
      Becomes h parent a l (remove path t) h' := by
  induction hreach generalizing parent a l with
  | here => exact absurd rfl hpath
  | @there n c₀ c₁ path short below ih =>
    cases hrep with
    | @node _ _ _ _ _ children ls cell child =>
      have hap := nodup_iff_apart.mp hl
      obtain ⟨y, hy⟩ := (child (p.getMsbD n.plen)).exists_ptr below.ne_null
      have hslot := child (p.getMsbD n.plen)
      rw [hy] at hslot
      have hx' : h.addrAt y path = some x := by simpa [addrAt, cell, hy] using hx
      have hwf' := wfNode_child hwf below.ne_null
      have hbranch' := hbranch.child (p.getMsbD n.plen)
      cases path with
      | cons b path =>
        obtain ⟨h', m, hm, hkey, hrun, hbecomes⟩ := ih (List.cons_ne_nil _ _) hslot
          (hap.nodup _) hwf' hbranch' hx'
        refine ⟨h', m, (entry_node _).mpr (.inr (.inl hm)), hkey, hrun, ?_⟩
        rw [remove_cons_of_ne_null hbranch _ hbecomes.ne_null]
        exact becomes_setChild cell child hap hy hbecomes
      | nil =>
        obtain rfl : y = x := Option.some.inj hx'
        exact lpmDeleteNode_child cell child hap hbranch hwf below hy fuel

/-! ## `lpm_delete` -/

/-- A well-formed tree in memory: the head and the nodes below it, each with its parent, in the
slots of their bits, and with two children where they are virtual. -/
structure WellFormed (h : LpmHeap δ) (head : LpmAddr) (t : LpmTree δ) : Prop where
  rep : ∃ l, Rep h none (some head) t l ∧ l.Nodup
  wf : Wf t
  branching : Branching t

theorem wfNode_of_wf (hwf : Wf t) : WfNode t := by
  cases t with
  | null => exact hwf
  | node n c₀ c₁ => exact hwf.2.2

theorem coversExact_of_wf (hwf : Wf t) (p : In6Addr) (k : ℕ) : CoversExact p k t := by
  cases t with
  | null => exact hwf
  | node n c₀ c₁ =>
    refine ⟨hwf.1 ▸ Nat.zero_le k, fun i hi => ?_⟩
    rw [hwf.1] at hi
    exact absurd hi (Nat.not_lt_zero i)

/-- A prefix is stored once. -/
theorem entry_unique {p : In6Addr} {k : ℕ} (t : LpmTree δ) (hwf : WfNode t) {x y : LpmNode δ}
    (hx : Entry t x) (hy : Entry t y) (hkx : IsKey p k x) (hky : IsKey p k y) : x = y := by
  induction t using childInduction with
  | null => exact hwf.elim
  | node n c₀ c₁ ih =>
    have hlong : ∀ b z, Entry ((LpmTree.node n c₀ c₁).child b) z → IsKey p k z → n.plen < k ∧
        b = p.getMsbD n.plen := by
      intro b z hz hkz
      obtain ⟨hlt, -, hbit⟩ := ((wfNode_iff b).mp hwf).2.1.of_mem hz.1
      rw [hkz.1] at hlt
      exact ⟨hlt, hbit.symm.trans (hkz.2 _ hlt)⟩
    have hcases : ∀ z, Entry (.node n c₀ c₁) z → IsKey p k z → (z = n ∧ n.plen = k) ∨
        n.plen < k ∧ Entry ((LpmTree.node n c₀ c₁).child (p.getMsbD n.plen)) z := by
      intro z hz hkz
      obtain ⟨rfl, -⟩ | hz | hz := (entry_node false).mp hz
      · exact .inl ⟨rfl, hkz.1⟩
      · obtain ⟨hlt, heq⟩ := hlong false z hz hkz
        exact .inr ⟨hlt, heq ▸ hz⟩
      · obtain ⟨hlt, heq⟩ := hlong true z hz hkz
        exact .inr ⟨hlt, heq ▸ hz⟩
    obtain ⟨rfl, hxk⟩ | ⟨hlt, hx'⟩ := hcases x hx hkx
    · obtain ⟨rfl, -⟩ | ⟨hlt, -⟩ := hcases y hy hky
      · rfl
      · omega
    · obtain ⟨-, hyk⟩ | ⟨-, hy'⟩ := hcases y hy hky
      · omega
      · refine ih _ (wfNode_child hwf fun hnull => ?_) hx' hy'
        rw [hnull] at hx'
        exact not_entry_null hx'

/-- **Deletion.** From a well-formed tree `lpm_delete` takes exactly the given prefix, without a
fault, and returns its data, or `NULL` if it was not stored; what is left is well-formed. -/
theorem lpm_delete_removes (h : LpmHeap δ) (head : LpmAddr) (t : LpmTree δ)
    (hwf : WellFormed h head t) (p : In6Addr) (k : ℕ) (hk : 1 ≤ k) (fuel : ℕ)
    (hfuel : 129 ≤ fuel) :
    ∃ h' t' data, h.lpmDelete fuel head p k = .ok (h', data) ∧ WellFormed h' head t' ∧
      (∀ x, Entry t' x ↔ Entry t x ∧ ¬ IsKey p k x) ∧
      (∀ x, Entry t x → IsKey p k x → data = x.data) ∧
      ((∀ x, Entry t x → ¬ IsKey p k x) → data = .null) := by
  obtain ⟨⟨l, hrep, hl⟩, hwf, hbranch⟩ := hwf
  have hnode := wfNode_of_wf hwf
  obtain ⟨path, found, hsearch, hfound, hnone⟩ :=
    lookupExact_spec t hnode (coversExact_of_wf hwf p k)
  obtain ⟨x, hx, hrun⟩ :=
    lookupExact_rep t hrep ((depth_le_of_wfNode hnode).trans hfuel) hsearch
  cases found with
  | false =>
    refine ⟨h, t, .null, ?_, ⟨⟨l, hrep, hl⟩, hwf, hbranch⟩, fun y => ?_, fun y hy hky => ?_,
      fun _ => rfl⟩
    · rw [lpmDelete, hrun]
      rfl
    · exact ⟨fun hy => ⟨hy, hnone rfl y hy⟩, And.left⟩
    · exact absurd hky (hnone rfl y hy)
  | true =>
    have hreach := hfound rfl
    have hpath : path ≠ [] := by
      rintro rfl
      cases hreach with
      | here key _ =>
        have := hwf.1.symm.trans key.1
        omega
    obtain ⟨fuel, rfl⟩ : ∃ m, fuel = m + 3 := ⟨fuel - 3, by omega⟩
    obtain ⟨h', m, hm, hkey, hdelete, hbecomes⟩ :=
      lpmDeleteNode_below hreach hpath hrep hl hnode hbranch hx fuel
    obtain ⟨l', hrep', hl', -⟩ := hbecomes.rep
    refine ⟨h', remove path t, m.data, ?_, ⟨⟨l', hrep', hl'⟩, hreach.wf hpath hwf,
      hreach.branching hbranch⟩, hreach.entry_iff hnode, fun y hy hky => ?_,
      fun hno => absurd hkey (hno m hm)⟩
    · rw [lpmDelete, hrun]
      exact hdelete
    · rw [entry_unique t hnode hm hy hkey hky]

/-- A head at address 0 with one virtual child, which has two children. -/
def forkHeap : LpmHeap Char := fun a => List.lookup a
  [(0, ⟨⟨.null, 0, 0⟩, none, fun b => if b then some 1 else none⟩),
    (1, ⟨⟨.minusOne, fourBits 0b1000, 2⟩, some 0, fun b => if b then some 3 else some 2⟩),
    (2, ⟨⟨.entry 'x', fourBits 0b1000, 4⟩, some 1, fun _ => none⟩),
    (3, ⟨⟨.entry 'y', fourBits 0b1010, 4⟩, some 1, fun _ => none⟩)]

/-- The tree in it. -/
def forkTree : LpmTree Char :=
  .node ⟨.null, 0, 0⟩ .null (.node ⟨.minusOne, fourBits 0b1000, 2⟩
    (.node ⟨.entry 'x', fourBits 0b1000, 4⟩ .null .null)
    (.node ⟨.entry 'y', fourBits 0b1010, 4⟩ .null .null))

theorem wellFormed_forkHeap : WellFormed forkHeap 0 forkTree := by
  have hleaf : ∀ (a : LpmAddr) (n : LpmNode Char), forkHeap a = some ⟨n, some 1, fun _ => none⟩ →
      Rep forkHeap (some 1) (some a) (.node n .null .null) (a :: ([] ++ [])) :=
    fun a n hcell => .node (l := fun _ => []) hcell fun b => by cases b <;> exact .null
  have hfork : Rep forkHeap (some 0) (some 1) (forkTree.child true) (1 :: ([2] ++ [3])) := by
    refine .node (l := fun b => if b then [3] else [2]) rfl fun b => ?_
    cases b
    · exact hleaf 2 _ rfl
    · exact hleaf 3 _ rfl
  refine ⟨⟨0 :: ([] ++ [1, 2, 3]), .node (l := fun b => if b then [1, 2, 3] else []) rfl
    fun b => ?_, by decide⟩, ?_, ?_⟩
  · cases b
    · exact .null
    · exact hfork
  · have hx : WfBelow (fourBits 0b1000) 2 false
        (.node ⟨.entry 'x', fourBits 0b1000, 4⟩ .null .null) :=
      ⟨by decide, by decide, by decide +kernel, by decide +kernel, trivial, trivial⟩
    have hy : WfBelow (fourBits 0b1000) 2 true
        (.node ⟨.entry 'y', fourBits 0b1010, 4⟩ .null .null) :=
      ⟨by decide, by decide, by decide +kernel, by decide +kernel, trivial, trivial⟩
    exact ⟨rfl, by simp, by decide, trivial, by decide, by decide, by decide, by decide +kernel,
      hx, hy⟩
  · simp [forkTree, Branching]

/-- One of two children of a virtual node is deleted. -/
theorem lpm_delete_removes_fork :
    ∃ h' t' data, forkHeap.lpmDelete 129 0 (fourBits 0b1010) 4 = .ok (h', data) ∧
      WellFormed h' 0 t' ∧
      (∀ x, Entry t' x ↔ Entry forkTree x ∧ ¬ IsKey (fourBits 0b1010) 4 x) ∧
      (∀ x, Entry forkTree x → IsKey (fourBits 0b1010) 4 x → data = x.data) ∧
      ((∀ x, Entry forkTree x → ¬ IsKey (fourBits 0b1010) 4 x) → data = .null) :=
  lpm_delete_removes forkHeap 0 forkTree wellFormed_forkHeap (fourBits 0b1010) 4 (by decide) 129
    (by decide)

end Srn.LpmHeap
