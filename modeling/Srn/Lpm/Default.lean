import Srn.Lpm.Delete

/-!
# Srn.Lpm.Default

Deleting the default route.  It is stored in the head, which `lpm_delete` marks as virtual and then
treats like any other node.  Without children the head is to be unlinked from a parent that it does
not have.  With one child it takes over the prefix of the child, which no search compares with the
address: whatever was found below the child is then found for every address.  Only a head with two
children stays what the searches take it for.
-/

namespace Srn

open LpmTree

variable {δ : Type} {n : LpmNode δ} {c₀ c₁ c t : LpmTree δ} {a a' : In6Addr}

/-! ## What should be found -/

/-- The data of the longest of some prefixes that matches an address, nothing when none does. -/
def LongestAmong (S : LpmNode δ → Prop) (a : In6Addr) (r : Option δ) : Prop :=
  (∃ x, S x ∧ Agree x.pfx a x.plen ∧ (∀ y, S y → Agree y.pfx a y.plen → y.plen ≤ x.plen) ∧
      r = result x) ∨
    (∀ x, S x → ¬ Agree x.pfx a x.plen) ∧ r = none

/-- Below a node that matches, the search finds the longest prefix. -/
theorem lpmLookup_of_covers (hwf : WfNode t) (ha : Covers a t) :
    ∃ r, lpmLookup t a = .ok r ∧ LongestAmong (Entry t) a r := by
  cases t with
  | null => exact ha.elim
  | node n c₀ c₁ =>
    obtain ⟨m, hm, hcase⟩ := lookupFrom_spec (node n c₀ c₁) hwf ha n
    refine ⟨result m, ?_, ?_⟩
    · rw [lpmLookup, hm]
      simp only [bind, Except.bind, pure, Except.pure, result]
      cases m.data <;> rfl
    · obtain ⟨rfl, hnone⟩ | hlongest := hcase
      · refine .inr ⟨fun x hx hagree => hnone x hx.1 ⟨hx.2, hagree⟩, ?_⟩
        -- the node where the search ended matches, so it is virtual
        by_contra hdata
        refine hnone m List.mem_cons_self ⟨fun hvirtual => hdata ?_, ha⟩
        rw [result, hvirtual]
      · exact .inl ⟨m, ⟨hlongest.mem, hlongest.is_match.1⟩, hlongest.is_match.2,
          fun y hy hagree => hlongest.longest y hy.1 ⟨hy.2, hagree⟩, rfl⟩

/-! ## What the search compares -/

theorem matchChild_congr {q : In6Addr} {k : ℕ} {b : Bool} (hwf : WfBelow q k b c)
    (hsame : ∀ i, k ≤ i → i < 128 → a.getMsbD i = a'.getMsbD i) :
    matchChild a k c = matchChild a' k c := by
  cases c with
  | null => rfl
  | node m d₀ d₁ =>
    have hslice : ((addrToBinary a).drop k).take (m.plen - k) =
        ((addrToBinary a').drop k).take (m.plen - k) :=
      (addrToBinary_slice_eq_iff a a' hwf.2.1).mpr fun i hki hi =>
        hsame i hki (hi.trans_le hwf.2.1)
    rw [matchChild, matchChild, matchNode, matchNode, hslice]

/-- The search from a node compares only the bits behind the prefix of the node. -/
theorem lookupFrom_congr (t : LpmTree δ) (hwf : WfNode t) (last : LpmNode δ) {k : ℕ}
    (hk : ∀ n c₀ c₁, t = node n c₀ c₁ → k ≤ n.plen)
    (hsame : ∀ i, k ≤ i → i < 128 → a.getMsbD i = a'.getMsbD i) :
    lookupFrom a t last = lookupFrom a' t last := by
  induction t using childInduction generalizing last with
  | null => rfl
  | node n c₀ c₁ ih =>
    have hk' := hk n c₀ c₁ rfl
    have hsame' : ∀ i, n.plen ≤ i → i < 128 → a.getMsbD i = a'.getMsbD i :=
      fun i hi => hsame i (hk'.trans hi)
    have hslot : LpmHeap.nextSlot (matchChild a n.plen) c₀ c₁ =
        LpmHeap.nextSlot (matchChild a' n.plen) c₀ c₁ := by
      rw [LpmHeap.nextSlot, LpmHeap.nextSlot, matchChild_congr hwf.2.1 hsame',
        matchChild_congr hwf.2.2 hsame']
    rw [LpmHeap.lookupFrom_eq, LpmHeap.lookupFrom_eq, hslot]
    cases hs : LpmHeap.nextSlot (matchChild a' n.plen) c₀ c₁ with
    | error e => simp only [bind, Except.bind]
    | ok slot =>
      simp only [bind, Except.bind]
      cases slot with
      | none => simp only [Option.elim]
      | some b =>
        have hbelow := ((wfNode_iff b).mp hwf).2.1
        have hne : (node n c₀ c₁).child b ≠ .null := by
          intro hnull
          have htest := LpmHeap.test_of_nextSlot n hs
          rw [hnull] at htest
          simp [matchChild] at htest
        simp only [Option.elim]
        refine ih b (wfNode_child hwf hne) _ fun m d₀ d₁ hm => ?_
        rw [hm] at hbelow
        exact hk'.trans hbelow.1.le

theorem lpmLookup_congr (hwf : WfNode (node n c₀ c₁))
    (hsame : ∀ i, n.plen ≤ i → i < 128 → a.getMsbD i = a'.getMsbD i) :
    lpmLookup (node n c₀ c₁) a = lpmLookup (node n c₀ c₁) a' := by
  have hsearch := lookupFrom_congr (node n c₀ c₁) hwf n (k := n.plen)
    (fun m d₀ d₁ heq => by rw [LpmTree.node.inj heq |>.1]) hsame
  rw [lpmLookup, lpmLookup, hsearch]

/-- Every address finds what an address below the root finds. -/
theorem lpmLookup_graft (hwf : WfNode (node n c₀ c₁)) (a : In6Addr) :
    lpmLookup (node n c₀ c₁) a = lpmLookup (node n c₀ c₁) (graft n.pfx a n.plen) ∧
      Covers (graft n.pfx a n.plen) (node n c₀ c₁) := by
  refine ⟨lpmLookup_congr hwf fun i hi hlt => ?_, (agree_graft _ _ hwf.1).symm⟩
  rw [getMsbD_graft _ _ hwf.1 hlt, if_neg (Nat.not_lt.mpr hi)]

theorem exists_lpmLookup (hwf : WfNode t) (a : In6Addr) : ∃ r, lpmLookup t a = .ok r := by
  cases t with
  | null => exact hwf.elim
  | node n c₀ c₁ =>
    obtain ⟨heq, hcover⟩ := lpmLookup_graft hwf a
    obtain ⟨r, hr, -⟩ := lpmLookup_of_covers hwf hcover
    exact ⟨r, heq.trans hr⟩

/-! ## A head with a prefix -/

/-- Nothing is found below a node: where a prefix matches, the longest one has no data. -/
def Silent (t : LpmTree δ) : Prop := ∀ a m, Covers a t → Longest a t m → result m = none

/-- The search of a tree finds the longest of its prefixes for every address. -/
def Finds (t : LpmTree δ) : Prop :=
  ∀ a, ∃ r, lpmLookup t a = .ok r ∧ LongestAmong (Entry t) a r

/-- Where the root does not match, nothing does. -/
theorem not_agree_of_not_covers (hwf : WfNode t) (ha : ¬ Covers a t) {x : LpmNode δ}
    (hx : Entry t x) : ¬ Agree x.pfx a x.plen := by
  cases t with
  | null => exact hwf.elim
  | node n c₀ c₁ =>
    intro hagree
    obtain ⟨hle, hpfx⟩ := hwf.of_mem hx.1
    exact ha (hpfx.symm.trans (hagree.mono hle))

/-- Two longest matches are one. -/
theorem eq_of_longest (hwf : WfNode t) {x y : LpmNode δ} (hx : Longest a t x)
    (hy : Longest a t y) : x = y := by
  have hlen : x.plen = y.plen :=
    Nat.le_antisymm (hy.longest x hx.mem hx.is_match) (hx.longest y hy.mem hy.is_match)
  exact LpmHeap.entry_unique t hwf ⟨hx.mem, hx.is_match.1⟩ ⟨hy.mem, hy.is_match.1⟩
    ⟨rfl, hx.is_match.2⟩ ⟨hlen.symm, hlen ▸ hy.is_match.2⟩

/-- A search that trusts its root finds the longest prefix when the root is the empty prefix. -/
theorem finds_of_plen_zero (hwf : WfNode (node n c₀ c₁)) (hplen : n.plen = 0) :
    Finds (node n c₀ c₁) := by
  refine fun a => lpmLookup_of_covers hwf fun i hi => ?_
  rw [hplen] at hi
  exact absurd hi (Nat.not_lt_zero i)

/-- With any other root there are addresses that it does not match, and each of them finds what an
address below the root finds. -/
theorem finds_iff_silent (hwf : WfNode (node n c₀ c₁)) (hplen : 1 ≤ n.plen) :
    Finds (node n c₀ c₁) ↔ Silent (node n c₀ c₁) := by
  constructor
  · intro hfinds a m ha hm
    have hsame : ∀ i, n.plen ≤ i → i < 128 → (graft (~~~a) a 1).getMsbD i = a.getMsbD i := by
      intro i hi hlt
      rw [getMsbD_graft _ _ (by decide) hlt, if_neg (by omega)]
    have hnot : ¬ Covers (graft (~~~a) a 1) (node n c₀ c₁) := by
      intro hcover
      have hbit : a.getMsbD 0 = (graft (~~~a) a 1).getMsbD 0 :=
        (ha 0 hplen).symm.trans (hcover 0 hplen)
      rw [getMsbD_graft _ _ (by decide) (by decide), if_pos (by decide), BitVec.getMsbD_not] at hbit
      simp at hbit
    obtain ⟨r, hr, hlongest⟩ := hfinds (graft (~~~a) a 1)
    obtain rfl : r = none := by
      obtain ⟨x, hx, hagree, -⟩ | ⟨-, hnone⟩ := hlongest
      · exact absurd hagree (not_agree_of_not_covers hwf hnot hx)
      · exact hnone
    rw [lpmLookup_congr hwf hsame] at hr
    obtain ⟨r', hr', hlongest'⟩ := lpmLookup_of_covers hwf ha
    obtain rfl := Except.ok.inj (hr.symm.trans hr')
    obtain ⟨x, hx, hagree, hle, hres⟩ | ⟨hnone, -⟩ := hlongest'
    · rw [eq_of_longest hwf hm ⟨hx.1, ⟨hx.2, hagree⟩, fun y hy hym => hle y ⟨hy, hym.1⟩ hym.2⟩]
      exact hres.symm
    · exact absurd hm.is_match.2 (hnone m ⟨hm.mem, hm.is_match.1⟩)
  · intro hsilent a
    by_cases ha : Covers a (node n c₀ c₁)
    · exact lpmLookup_of_covers hwf ha
    · obtain ⟨heq, hcover⟩ := lpmLookup_graft hwf a
      obtain ⟨r, hr, hlongest⟩ := lpmLookup_of_covers hwf hcover
      refine ⟨r, heq.trans hr, .inr ⟨fun x hx => not_agree_of_not_covers hwf ha hx, ?_⟩⟩
      obtain ⟨x, hx, hagree, hle, rfl⟩ | ⟨-, hnone⟩ := hlongest
      · exact hsilent _ x hcover
          ⟨hx.1, ⟨hx.2, hagree⟩, fun y hy hym => hle y ⟨hy, hym.1⟩ hym.2⟩
      · exact hnone

/-- A leaf is real, and the longest match of its own prefix. -/
theorem exists_longest (t : LpmTree δ) (hwf : WfNode t) (hbranch : Branching t) :
    ∃ x, Longest x.pfx t x := by
  induction t using childInduction with
  | null => exact hwf.elim
  | node n c₀ c₁ ih =>
    by_cases hleaf : ∃ b, (node n c₀ c₁).child b ≠ .null
    · obtain ⟨b, hne⟩ := hleaf
      obtain ⟨x, hx⟩ := ih b (wfNode_child hwf hne) (hbranch.child b)
      have hbit := (((wfNode_iff b).mp hwf).2.1.of_mem hx.mem).2.2
      refine ⟨x, Longest.of_child hwf ?_⟩
      rwa [hbit]
    · have hnull : ∀ b, (node n c₀ c₁).child b = .null := fun b =>
        not_not.mp fun hne => hleaf ⟨b, hne⟩
      obtain rfl : c₀ = .null := hnull false
      obtain rfl : c₁ = .null := hnull true
      have hreal : n.data ≠ .minusOne := fun hvirtual => (hbranch.1 hvirtual).1 rfl
      refine ⟨n, List.mem_cons_self, ⟨hreal, Agree.refl _ _⟩, fun x hx _ => ?_⟩
      obtain rfl : x = n := by simpa [nodes] using hx
      exact Nat.le_refl _

/-- So where every prefix has data, something is found. -/
theorem not_silent (hwf : WfNode t) (hbranch : Branching t)
    (hdata : ∀ x, Entry t x → x.data ≠ .null) : ¬ Silent t := by
  intro hsilent
  obtain ⟨x, hx⟩ := exists_longest t hwf hbranch
  have hcover : Covers x.pfx t := by
    cases t with
    | null => exact hwf.elim
    | node n c₀ c₁ => exact (hwf.of_mem hx.mem).2.symm
  have hnone := hsilent x.pfx x hcover hx
  have hne := hdata x ⟨hx.mem, hx.is_match.1⟩
  cases hd : x.data with
  | null => exact hne hd
  | minusOne => exact hx.is_match.1 hd
  | entry d => simp [result, hd] at hnone

/-! ## Deleting the head -/

namespace LpmHeap

variable {h : LpmHeap δ} {head : LpmAddr} {fuel : ℕ}

/-- The deletion of the default route succeeds, and afterwards every search finds the data of the
longest other prefix that matches. -/
def DeletesDefault (fuel : ℕ) (h : LpmHeap δ) (head : LpmAddr) (t : LpmTree δ) : Prop :=
  ∃ h' data, h.lpmDelete fuel head 0 0 = .ok (h', data) ∧ ∀ a, ∃ r,
    LpmHeap.lpmLookup fuel h' head a = .ok r ∧
      LongestAmong (fun x => Entry t x ∧ 1 ≤ x.plen) a r

/-- The head has two children. -/
def TwoChildren (t : LpmTree δ) : Prop := ∀ b, t.child b ≠ .null

/-- The head has one child, below which nothing is found. -/
def OneSilent (t : LpmTree δ) : Prop :=
  ∃ b, t.child b ≠ .null ∧ t.child (!b) = .null ∧ Silent (t.child b)

/-- The head is found and marked. -/
theorem lpmDelete_head {children : Bool → Option LpmAddr} {l : List LpmAddr}
    (hrep : Rep h none (some head) (.node n c₀ c₁) l)
    (hcell : h head = some ⟨n, none, children⟩) (hwf : Wf (.node n c₀ c₁)) (hfuel : 129 ≤ fuel) :
    h.lpmDelete fuel head 0 0 = (do
      let h' ← optimizeVirtual fuel
        (h.store head ⟨{ n with data := .minusOne }, none, children⟩) (some head)
      return (h', n.data)) := by
  obtain ⟨hplen, hreal, hnode⟩ := hwf
  have hagree : Agree n.pfx 0 n.plen := fun i hi => by
    rw [hplen] at hi
    exact absurd hi (Nat.not_lt_zero i)
  obtain ⟨found, hsearch, hfound⟩ := lookupExact_self hnode hagree hplen
  obtain rfl : found = true := by
    cases found
    · exact absurd (hfound.mp rfl) hreal
    · rfl
  obtain ⟨x, hx, hrun⟩ := lookupExact_rep (.node n c₀ c₁) hrep
    ((depth_le_of_wfNode hnode).trans hfuel) hsearch
  obtain rfl : head = x := Option.some.inj hx
  rw [lpmDelete, hrun]
  simp only [bind, Except.bind, if_true]
  rw [lpmDeleteNode, load_eq_ok hcell]
  rfl

/-- The other prefixes are those that are left. -/
theorem entry_remove_head (hwf : Wf (.node n c₀ c₁)) :
    (fun x => Entry (.node n c₀ c₁) x ∧ 1 ≤ x.plen) = Entry (remove [] (.node n c₀ c₁)) := by
  have hreach : Reaches 0 0 (.node n c₀ c₁) [] :=
    .here ⟨hwf.1, fun i hi => absurd hi (Nat.not_lt_zero i)⟩ hwf.2.1
  funext x
  rw [hreach.entry_iff hwf.2.2 x, IsKey, eq_iff_iff]
  refine and_congr_right fun _ => ?_
  constructor
  · intro hx hkey
    omega
  · intro hkey
    rcases Nat.eq_zero_or_pos x.plen with hzero | hpos
    · exact absurd ⟨hzero, fun i hi => absurd hi (Nat.not_lt_zero i)⟩ hkey
    · exact hpos

/-- A head without children follows its missing parent. -/
theorem lpmDelete_head_empty (hwf : WellFormed h head (.node n .null .null))
    (hfuel : 129 ≤ fuel) :
    h.lpmDelete fuel head 0 0 = .error (.lpm .nullDereference) := by
  obtain ⟨⟨l, hrep, hl⟩, hwf, -⟩ := hwf
  obtain ⟨a', children, ls, ha', -, hcell, hchild⟩ := hrep.exists_cell
  obtain rfl := Option.some.inj ha'
  have hnone : ∀ b, children b = none := by
    intro b
    have hslot := hchild b
    cases b <;> exact hslot.ptr_eq_none
  obtain ⟨fuel, rfl⟩ : ∃ m, fuel = m + 1 := ⟨fuel - 1, by omega⟩
  have hmark : (h.store head ⟨{ n with data := .minusOne }, none, children⟩) head =
      some ⟨{ n with data := .minusOne }, none, children⟩ := Mem.store_self
  rw [lpmDelete_head hrep hcell hwf hfuel, optimizeVirtual, load_eq_ok hmark]
  simp [bind, Except.bind, hnone, optimizeVirtualEmpty, load_eq_ok hmark, throw, throwThe,
    MonadExceptOf.throw]

/-- With a child, what is left of the tree stays in memory. -/
theorem lpmDelete_head_remove (hwf : WellFormed h head (.node n c₀ c₁)) (hfuel : 129 ≤ fuel)
    (hne : remove [] (.node n c₀ c₁) ≠ .null) :
    ∃ h' l, h.lpmDelete fuel head 0 0 = .ok (h', n.data) ∧
      Rep h' none (some head) (remove [] (.node n c₀ c₁)) l := by
  obtain ⟨⟨l, hrep, hl⟩, hwf, hbranch⟩ := hwf
  obtain ⟨children, hcell, hwrite⟩ := hrep.write_root hl
  obtain ⟨fuel, rfl⟩ : ∃ m, fuel = m + 2 := ⟨fuel - 2, by omega⟩
  obtain ⟨h', hrun, hbecomes⟩ := optimizeVirtual_collapse (hwrite { n with data := .minusOne } none)
    hl hwf.2.2 (fun b => hbranch.child b) hne fuel
  obtain ⟨l', hrep', -, -⟩ := hbecomes.rep
  refine ⟨h', l', ?_, hrep'⟩
  rw [lpmDelete_head hrep hcell hwf hfuel, hrun]
  rfl

/-- It matters what the searches of the tree that is left find. -/
theorem deletesDefault_iff_finds (hwf : WellFormed h head (.node n c₀ c₁)) (hfuel : 129 ≤ fuel)
    (hnode : WfNode (remove [] (.node n c₀ c₁))) :
    DeletesDefault fuel h head (.node n c₀ c₁) ↔ Finds (remove [] (.node n c₀ c₁)) := by
  have hne : remove [] (.node n c₀ c₁) ≠ .null := by
    intro hnull
    rw [hnull] at hnode
    exact hnode
  obtain ⟨h', l, hrun, hrep⟩ := lpmDelete_head_remove hwf hfuel hne
  have hlookup : ∀ a r, Srn.lpmLookup (remove [] (.node n c₀ c₁)) a = .ok r →
      LpmHeap.lpmLookup fuel h' head a = .ok r := fun a r hr =>
    lpmLookup_rep hrep ((depth_le_of_wfNode hnode).trans hfuel) hr
  rw [DeletesDefault, entry_remove_head hwf.wf]
  constructor
  · rintro ⟨h'', data, hrun', hfinds⟩ a
    obtain ⟨rfl, -⟩ := Prod.mk.inj (Except.ok.inj (hrun.symm.trans hrun'))
    obtain ⟨r, hr, hlongest⟩ := hfinds a
    obtain ⟨r', hr'⟩ := exists_lpmLookup hnode a
    obtain rfl := Except.ok.inj (hr.symm.trans (hlookup a r' hr'))
    exact ⟨r, hr', hlongest⟩
  · intro hfinds
    refine ⟨h', n.data, hrun, fun a => ?_⟩
    obtain ⟨r, hr, hlongest⟩ := hfinds a
    exact ⟨r, hlookup a r hr, hlongest⟩

/-- With two children the head stays where it is. -/
theorem remove_head_of_two (htwo : TwoChildren (.node n c₀ c₁)) :
    remove [] (.node n c₀ c₁) = .node { n with data := .minusOne } c₀ c₁ :=
  collapse_of_branching fun _ => ⟨htwo false, htwo true⟩

/-- With one child it takes the prefix of the child. -/
theorem remove_head_of_one {b : Bool} (hnull : (LpmTree.node n c₀ c₁).child (!b) = .null) :
    remove [] (.node n c₀ c₁) = (LpmTree.node n c₀ c₁).child b := by
  have hnull' : (LpmTree.node { n with data := .minusOne } c₀ c₁).child (!b) = .null := hnull
  exact collapse_of_only rfl hnull'

section

variable (hwf : WellFormed h head (.node n c₀ c₁)) (hfuel : 129 ≤ fuel)

include hwf hfuel

theorem deletesDefault_of_two (htwo : TwoChildren (.node n c₀ c₁)) :
    DeletesDefault fuel h head (.node n c₀ c₁) := by
  obtain ⟨hplen, -, hnode⟩ := hwf.wf
  have heq := remove_head_of_two htwo
  have hmark : WfNode (.node { n with data := .minusOne } c₀ c₁) := hnode
  rw [deletesDefault_iff_finds hwf hfuel (heq ▸ hmark), heq]
  exact finds_of_plen_zero hmark hplen

/-- The parent of the head is read, which is `NULL`. -/
theorem not_deletesDefault_of_empty (hnull : ∀ b, (LpmTree.node n c₀ c₁).child b = .null) :
    ¬ DeletesDefault fuel h head (.node n c₀ c₁) := by
  obtain rfl : c₀ = .null := hnull false
  obtain rfl : c₁ = .null := hnull true
  rintro ⟨h', data, hrun, -⟩
  rw [lpmDelete_head_empty hwf hfuel] at hrun
  contradiction

/-- The head has the prefix of the child, with which no address is compared. -/
theorem deletesDefault_iff_of_one {b : Bool} (hne : (LpmTree.node n c₀ c₁).child b ≠ .null)
    (hnull : (LpmTree.node n c₀ c₁).child (!b) = .null) :
    DeletesDefault fuel h head (.node n c₀ c₁) ↔ Silent ((LpmTree.node n c₀ c₁).child b) := by
  obtain ⟨hplen, -, hnode⟩ := hwf.wf
  have heq := remove_head_of_one hnull
  have hm := wfNode_child hnode hne
  rw [deletesDefault_iff_finds hwf hfuel (heq ▸ hm), heq]
  have hbelow := ((wfNode_iff b).mp hnode).2.1
  cases hchild : (LpmTree.node n c₀ c₁).child b with
  | null => exact absurd hchild hne
  | node m d₀ d₁ =>
    rw [hchild] at hm hbelow
    have hlong : n.plen < m.plen := hbelow.1
    exact finds_iff_silent hm (by omega)

end

/-- **The default route.** Its deletion does what it should exactly when the head has two children,
or one below which nothing is found.  When every other prefix has data, the latter is never so. -/
theorem lpm_delete_default_iff (h : LpmHeap δ) (head : LpmAddr) (t : LpmTree δ)
    (hwf : WellFormed h head t) (fuel : ℕ) (hfuel : 129 ≤ fuel) :
    (DeletesDefault fuel h head t ↔ TwoChildren t ∨ OneSilent t) ∧
      ((∀ x, Entry t x → 1 ≤ x.plen → x.data ≠ .null) → ¬ OneSilent t) := by
  cases t with
  | null => exact hwf.wf.elim
  | node n c₀ c₁ =>
    obtain ⟨hplen, -, hnode⟩ := hwf.wf
    constructor
    · by_cases htwo : TwoChildren (.node n c₀ c₁)
      · exact iff_of_true (deletesDefault_of_two hwf hfuel htwo) (.inl htwo)
      · obtain ⟨b, hnull⟩ : ∃ b, (LpmTree.node n c₀ c₁).child (!b) = .null := by
          obtain ⟨b, hb⟩ := not_forall.mp htwo
          exact ⟨!b, by simpa using hb⟩
        have honly : ∀ b', (LpmTree.node n c₀ c₁).child b' ≠ .null → b' = b := by
          intro b' hne
          by_contra hbb
          rw [Bool.eq_not.mpr hbb] at hne
          exact hne hnull
        rw [or_iff_right htwo]
        by_cases hne : (LpmTree.node n c₀ c₁).child b = .null
        · have hempty : ∀ b', (LpmTree.node n c₀ c₁).child b' = .null := fun b' =>
            by_contra fun hne' => hne' (honly b' hne' ▸ hne)
          refine iff_of_false (not_deletesDefault_of_empty hwf hfuel hempty) ?_
          rintro ⟨b', hne', -⟩
          exact hne' (hempty b')
        · rw [deletesDefault_iff_of_one hwf hfuel hne hnull]
          constructor
          · exact fun hsilent => ⟨b, hne, hnull, hsilent⟩
          · rintro ⟨b', hne', -, hsilent⟩
            exact honly b' hne' ▸ hsilent
    · rintro hdata ⟨b, hne, -, hsilent⟩
      refine not_silent (wfNode_child hnode hne) (hwf.branching.child b) (fun x hx => ?_) hsilent
      refine hdata x ((entry_node b).mpr (.inr (.inl hx))) ?_
      have hlt := (((wfNode_iff b).mp hnode).2.1.of_mem hx.1).1
      omega

/-- A head at address 0 with leaves at the addresses 1 and 2, or without one of them. -/
def leavesHeap (leaf0 leaf1 : Bool) : LpmHeap Char := fun a => List.lookup a
  [(0, ⟨⟨.null, 0, 0⟩, none, fun b =>
      if b then (if leaf1 then some 2 else none) else (if leaf0 then some 1 else none)⟩),
    (1, ⟨⟨.entry 'x', fourBits 0b0100, 4⟩, some 0, fun _ => none⟩),
    (2, ⟨⟨.entry 'y', fourBits 0b1000, 4⟩, some 0, fun _ => none⟩)]

/-- The tree in it. -/
def leavesTree (leaf0 leaf1 : Bool) : LpmTree Char :=
  .node ⟨.null, 0, 0⟩
    (if leaf0 then .node ⟨.entry 'x', fourBits 0b0100, 4⟩ .null .null else .null)
    (if leaf1 then .node ⟨.entry 'y', fourBits 0b1000, 4⟩ .null .null else .null)

theorem wellFormed_leavesHeap (leaf0 leaf1 : Bool) :
    WellFormed (leavesHeap leaf0 leaf1) 0 (leavesTree leaf0 leaf1) := by
  have hleaf : ∀ (a : LpmAddr) (n : LpmNode Char),
      leavesHeap leaf0 leaf1 a = some ⟨n, some 0, fun _ => none⟩ →
      Rep (leavesHeap leaf0 leaf1) (some 0) (some a) (.node n .null .null) (a :: ([] ++ [])) :=
    fun a n hcell => .node (l := fun _ => []) hcell fun b => by cases b <;> exact .null
  have hx : WfBelow 0 0 false (.node ⟨.entry 'x', fourBits 0b0100, 4⟩ .null .null) :=
    ⟨by decide, by decide, by decide, by decide +kernel, trivial, trivial⟩
  have hy : WfBelow 0 0 true (.node ⟨.entry 'y', fourBits 0b1000, 4⟩ .null .null) :=
    ⟨by decide, by decide, by decide, by decide +kernel, trivial, trivial⟩
  refine ⟨⟨0 :: ((if leaf0 then [1] else []) ++ (if leaf1 then [2] else [])),
    .node (l := fun b => if b then (if leaf1 then [2] else []) else (if leaf0 then [1] else []))
      rfl fun b => ?_, ?_⟩, ?_, ?_⟩
  · cases b
    · cases leaf0
      · exact .null
      · exact hleaf 1 _ rfl
    · cases leaf1
      · exact .null
      · exact hleaf 2 _ rfl
  · cases leaf0 <;> cases leaf1 <;> decide
  · cases leaf0 <;> cases leaf1
    · exact ⟨rfl, by simp, by decide, trivial, trivial⟩
    · exact ⟨rfl, by simp, by decide, trivial, hy⟩
    · exact ⟨rfl, by simp, by decide, hx, trivial⟩
    · exact ⟨rfl, by simp, by decide, hx, hy⟩
  · cases leaf0 <;> cases leaf1 <;> simp [leavesTree, Branching]

/-- With two leaves the default route can be deleted. -/
theorem lpm_delete_default_two :
    DeletesDefault 129 (leavesHeap true true) 0 (leavesTree true true) :=
  (lpm_delete_default_iff (leavesHeap true true) 0 (leavesTree true true)
    (wellFormed_leavesHeap true true) 129 (by decide)).1.mpr
    (.inl fun b => by cases b <;> simp [leavesTree, LpmTree.child])

/-- Deleting the default route of an empty tree follows a `NULL` pointer.  With a single prefix in
the tree the deletion succeeds, and then an address that does not match it finds its data. -/
theorem lpm_delete_default_misroutes :
    WellFormed (leavesHeap false false) 0 (leavesTree false false) ∧
      ((leavesHeap false false).lpmDelete 129 0 0 0).map (fun r => r.2) =
        .error (.lpm .nullDereference) ∧
      WellFormed (leavesHeap false true) 0 (leavesTree false true) ∧
      ((leavesHeap false true).lpmDelete 129 0 0 0 >>= fun r =>
        LpmHeap.lpmLookup 129 r.1 0 (fourBits 0b0100)) = .ok (some 'y') ∧
      ¬ LongestAmong (fun x => Entry (leavesTree false true) x ∧ 1 ≤ x.plen) (fourBits 0b0100)
        (some 'y') := by
  refine ⟨wellFormed_leavesHeap false false, by decide +kernel, wellFormed_leavesHeap false true,
    by decide +kernel, ?_⟩
  rintro (⟨x, ⟨⟨hx, -⟩, hlen⟩, hagree, -⟩ | ⟨-, hnone⟩)
  · have hmem : x = ⟨.null, 0, 0⟩ ∨ x = ⟨.entry 'y', fourBits 0b1000, 4⟩ := by
      simpa [leavesTree, nodes] using hx
    obtain rfl | rfl := hmem
    · exact absurd hlen (by decide)
    · exact absurd hagree (by decide +kernel)
  · contradiction

end LpmHeap

end Srn
