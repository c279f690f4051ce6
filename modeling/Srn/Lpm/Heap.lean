import Srn.Lib.Fault
import Srn.Lib.Memory
import Srn.Lpm.Lookup

/-!
# Srn.Lpm.Heap

The prefix tree in memory: nodes at addresses, with pointers to their children and to their parent,
and the functions of `lib/lpm.c` that search it and delete from it.  `Srn.Lpm` has no addresses, but
`lpm_delete` changes nodes in place, frees others and follows the pointers to the parents;
`lpm_insert` in memory is in `Srn.Lpm.Alloc`.

`Rep` relates the nodes in memory to a tree of `Srn.Lpm`, and the searches in memory are those in
the tree it relates them to.
-/

namespace Srn

variable {δ : Type}

/-! ## Nodes in memory -/

/-- The test `node->data == (void *)-1`. -/
def LpmNode.isVirtual (n : LpmNode δ) : Bool :=
  match n.data with
  | .minusOne => true
  | _ => false

@[simp] theorem LpmNode.isVirtual_iff {n : LpmNode δ} :
    n.isVirtual = true ↔ n.data = .minusOne := by
  unfold isVirtual
  split <;> simp_all

@[simp] theorem LpmNode.isVirtual_eq_false_iff {n : LpmNode δ} :
    n.isVirtual = false ↔ n.data ≠ .minusOne := by
  rw [← Bool.not_eq_true, isVirtual_iff]

/-- The address of a node. -/
abbrev LpmAddr := ℕ

/-- `struct lpm_node`. -/
structure LpmCell (δ : Type) extends LpmNode δ where
  parent : Option LpmAddr
  children : Bool → Option LpmAddr

/-- The ways in which an operation in memory can go wrong. -/
inductive LpmHeapFault where
  | lpm (fault : LpmFault)
  | danglingPointer
  | outOfFuel
  deriving DecidableEq, Repr

/-- The nodes of all trees. -/
abbrev LpmHeap (δ : Type) := Mem (LpmCell δ)

/-- A function of the tree without addresses. -/
def liftFault {α : Type} (r : Except LpmFault α) : Except LpmHeapFault α := r.mapError .lpm

namespace LpmHeap

/-- Follow a pointer. -/
def load (h : LpmHeap δ) : Option LpmAddr → Except LpmHeapFault (LpmCell δ)
  | none => .error (.lpm .nullDereference)
  | some a =>
    match h a with
    | none => .error .danglingPointer
    | some cell => .ok cell

/-- The test of a child slot in `__lpm_lookup`. -/
def matchChild (h : LpmHeap δ) (addr : In6Addr) (curPlen : ℕ) :
    Option LpmAddr → Except LpmHeapFault Bool
  | none => .ok false
  | some a => do
    let child ← h.load (some a)
    liftFault (matchNode child.toLpmNode addr curPlen)

/-- The test of a child slot in `__lpm_lookup_exact`. -/
def matchChildExact (h : LpmHeap δ) (pfx : In6Addr) (plen curPlen : ℕ) :
    Option LpmAddr → Except LpmHeapFault Bool
  | none => .ok false
  | some a => do
    let child ← h.load (some a)
    if child.plen ≤ plen then liftFault (matchNode child.toLpmNode pfx curPlen) else return false

/-- The child with which a search goes on: the first one that passes the test. -/
def nextChild (test : Option LpmAddr → Except LpmHeapFault Bool) (cell : LpmCell δ) :
    Except LpmHeapFault (Option LpmAddr) := do
  if ← test (cell.children false) then return cell.children false
  else if ← test (cell.children true) then return cell.children true
  else return none

/-- `__lpm_lookup`. -/
def lookupFrom (h : LpmHeap δ) (addr : In6Addr) :
    ℕ → LpmAddr → LpmAddr → Except LpmHeapFault LpmAddr
  | 0, _, _ => .error .outOfFuel
  | fuel + 1, curNode, lastMatch => do
    let cur ← h.load (some curNode)
    let lastMatch := if cur.isVirtual then lastMatch else curNode
    match ← nextChild (h.matchChild addr cur.plen) cur with
    | some child => lookupFrom h addr fuel child lastMatch
    | none => return lastMatch

/-- `lpm_lookup`. -/
def lpmLookup (fuel : ℕ) (h : LpmHeap δ) (head : LpmAddr) (addr : In6Addr) :
    Except LpmHeapFault (Option δ) := do
  let node ← h.lookupFrom addr fuel head head
  let cell ← h.load (some node)
  match cell.data with
  | .entry d => return some d
  | _ => return none

/-- `__lpm_lookup_exact`: the node that was found, and the one stored in `*save_cur`. -/
def lookupSave (h : LpmHeap δ) (pfx : In6Addr) (plen : ℕ) :
    ℕ → LpmAddr → Except LpmHeapFault (Option LpmAddr × LpmAddr)
  | 0, _ => .error .outOfFuel
  | fuel + 1, curNode => do
    let cur ← h.load (some curNode)
    let matched ← liftFault (matchNode cur.toLpmNode pfx 0)
    if matched && cur.plen == plen && !cur.isVirtual then return (some curNode, curNode)
    match ← nextChild (h.matchChildExact pfx plen cur.plen) cur with
    | some child => lookupSave h pfx plen fuel child
    | none => return (none, curNode)

/-- `__lpm_lookup_exact` with a null `save_cur`. -/
def lookupExact (h : LpmHeap δ) (pfx : In6Addr) (plen fuel : ℕ) (head : LpmAddr) :
    Except LpmHeapFault (Option LpmAddr) :=
  (h.lookupSave pfx plen fuel head).map Prod.fst

/-! ## Deletion -/

/-- `optimize_virtual_plen`. -/
def optimizeVirtualPlen (h : LpmHeap δ) (node : LpmAddr) : Except LpmHeapFault (LpmHeap δ) := do
  let cell ← h.load (some node)
  match cell.children false, cell.children true with
  | some child0, some child1 => do
    let cell0 ← h.load (some child0)
    let cell1 ← h.load (some child1)
    let minplen := min cell0.plen cell1.plen
    let cplen := commonPrefixLen cell0.pfx cell1.pfx minplen
    if cplen < cell.plen then throw (.lpm .assertion)
    if cplen = cell.plen then return h
    return h.store node { cell with pfx := cell0.pfx, plen := cplen }
  | _, _ => return h

/-- The assignment to the parent pointer of a child, if there is one. -/
def setParent (h : LpmHeap δ) (parent : LpmAddr) :
    Option LpmAddr → Except LpmHeapFault (LpmHeap δ)
  | none => .ok h
  | some child => do
    let cell ← h.load (some child)
    return h.store child { cell with parent := some parent }

/-- `merge_child`. -/
def mergeChild (h : LpmHeap δ) (node : LpmAddr) : Except LpmHeapFault (LpmHeap δ) := do
  let cell ← h.load (some node)
  if (cell.children false).isSome && (cell.children true).isSome then return h
  if (cell.children false).isNone && (cell.children true).isNone then return h
  let idx := if (cell.children false).isSome then false else true
  match cell.children idx with
  | none => throw (.lpm .nullDereference)
  | some childNode => do
    let child ← h.load (some childNode)
    let h : LpmHeap δ := h.store node { child with parent := cell.parent }
    let h ← setParent h node (child.children false)
    let h ← setParent h node (child.children true)
    return Mem.free h childNode

/-- `optimize_virtual_empty`. -/
def optimizeVirtualEmpty (h : LpmHeap δ) (node : LpmAddr) : Except LpmHeapFault (LpmHeap δ) := do
  let cell ← h.load (some node)
  if (cell.children false).isSome || (cell.children true).isSome then return h
  match cell.parent with
  | none => throw (.lpm .nullDereference)
  | some parent => do
    let parentCell ← h.load (some parent)
    let pidx := if parentCell.children false = some node then false else true
    let h := h.store parent
      { parentCell with children := Function.update parentCell.children pidx none }
    return h.free node

/-- `optimize_virtual`. -/
def optimizeVirtual : ℕ → LpmHeap δ → Option LpmAddr → Except LpmHeapFault (LpmHeap δ)
  | 0, _, _ => .error .outOfFuel
  | _ + 1, _, none => .error (.lpm .nullDereference)
  | fuel + 1, h, some node => do
    let cell ← h.load (some node)
    if !cell.isVirtual then return h
    else if (cell.children false).isSome && (cell.children true).isSome then
      h.optimizeVirtualPlen node
    else if (cell.children false).isSome || (cell.children true).isSome then
      let h ← h.mergeChild node
      optimizeVirtual fuel h (some node)
    else
      let h ← h.optimizeVirtualEmpty node
      optimizeVirtual fuel h cell.parent

/-- `lpm_delete_node`. -/
def lpmDeleteNode (fuel : ℕ) (h : LpmHeap δ) (node : LpmAddr) :
    Except LpmHeapFault (LpmHeap δ × LpmData δ) := do
  let cell ← h.load (some node)
  let h ← optimizeVirtual fuel (h.store node { cell with data := .minusOne }) (some node)
  return (h, cell.data)

/-- `lpm_delete`. -/
def lpmDelete (fuel : ℕ) (h : LpmHeap δ) (head : LpmAddr) (pfx : In6Addr) (plen : ℕ) :
    Except LpmHeapFault (LpmHeap δ × LpmData δ) := do
  match ← h.lookupExact pfx plen fuel head with
  | none => return (h, .null)
  | some node => h.lpmDeleteNode fuel node

/-! ## Trees in memory -/

open LpmTree

/-- The pointer leads to a tree whose root has the given parent, over the listed addresses. -/
inductive Rep (h : LpmHeap δ) :
    Option LpmAddr → Option LpmAddr → LpmTree δ → List LpmAddr → Prop
  | null {parent} : Rep h parent none .null []
  | node {parent a n c₀ c₁ children} {l : Bool → List LpmAddr}
      (cell : h a = some ⟨n, parent, children⟩)
      (child : ∀ b, Rep h (some a) (children b) ((LpmTree.node n c₀ c₁).child b) (l b)) :
      Rep h parent (some a) (.node n c₀ c₁) (a :: (l false ++ l true))

variable {h h' : LpmHeap δ} {parent ptr : Option LpmAddr} {t : LpmTree δ} {l : List LpmAddr}

/-- A tree depends on its own cells only. -/
theorem Rep.congr (hrep : Rep h parent ptr t l) (hsame : ∀ a ∈ l, h' a = h a) :
    Rep h' parent ptr t l := by
  induction hrep with
  | null => exact .null
  | @node parent a n c₀ c₁ children l cell _ ih =>
    refine .node ((hsame a List.mem_cons_self).trans cell) fun b => ih b fun x hx => hsame x ?_
    refine List.mem_cons_of_mem _ (List.mem_append.mpr ?_)
    cases b
    · exact .inl hx
    · exact .inr hx

theorem Rep.mem {a : LpmAddr} (hrep : Rep h parent (some a) t l) : a ∈ l := by
  cases hrep
  exact List.mem_cons_self

theorem Rep.ptr_eq_none (hrep : Rep h parent ptr .null l) : ptr = none := by
  cases hrep
  rfl

theorem Rep.exists_cell {n : LpmNode δ} {c₀ c₁ : LpmTree δ}
    (hrep : Rep h parent ptr (.node n c₀ c₁) l) : ∃ a children, ∃ ls : Bool → List LpmAddr,
      ptr = some a ∧ l = a :: (ls false ++ ls true) ∧ h a = some ⟨n, parent, children⟩ ∧
      ∀ b, Rep h (some a) (children b) ((LpmTree.node n c₀ c₁).child b) (ls b) := by
  cases hrep with
  | node cell child => exact ⟨_, _, _, rfl, rfl, cell, child⟩

theorem Rep.exists_ptr (hrep : Rep h parent ptr t l) (hne : t ≠ .null) : ∃ a, ptr = some a := by
  cases hrep with
  | null => exact absurd rfl hne
  | node => exact ⟨_, rfl⟩

/-! ## The searches -/

/-- The number of nodes on the longest way down. -/
def depth : LpmTree δ → ℕ
  | .null => 0
  | .node _ c₀ c₁ => max (depth c₀) (depth c₁) + 1

theorem depth_child_lt (n : LpmNode δ) (c₀ c₁ : LpmTree δ) (b : Bool) :
    depth ((node n c₀ c₁).child b) < depth (node n c₀ c₁) := by
  rw [depth]
  cases b with
  | false => exact Nat.lt_succ_of_le (Nat.le_max_left _ _)
  | true => exact Nat.lt_succ_of_le (Nat.le_max_right _ _)

theorem depth_child_le {n : LpmNode δ} {c₀ c₁ : LpmTree δ} {k : ℕ}
    (hk : depth (node n c₀ c₁) ≤ k + 1) (b : Bool) : depth ((node n c₀ c₁).child b) ≤ k :=
  Nat.lt_succ_iff.mp ((depth_child_lt n c₀ c₁ b).trans_le hk)

theorem depth_le {q : In6Addr} {k : ℕ} {b : Bool} (hwf : WfBelow q k b t) :
    depth t ≤ 128 - k := by
  induction t generalizing q k b with
  | null => exact Nat.zero_le _
  | node n c₀ c₁ ih₀ ih₁ =>
    obtain ⟨hk, hle, -, -, h₀, h₁⟩ := hwf
    have hd₀ := ih₀ h₀
    have hd₁ := ih₁ h₁
    simp only [depth]
    omega

theorem depth_le_of_wfNode (hwf : WfNode t) : depth t ≤ 129 := by
  cases t with
  | null => exact Nat.zero_le _
  | node n c₀ c₁ =>
    have h₀ := depth_le hwf.2.1
    have h₁ := depth_le hwf.2.2
    simp only [depth]
    omega

theorem load_eq_ok {a : LpmAddr} {cell : LpmCell δ} (hcell : h a = some cell) :
    h.load (some a) = .ok cell := by
  simp [load, hcell]

@[simp] theorem liftFault_ok {α : Type} (x : α) : liftFault (.ok x) = .ok x := rfl

theorem matchChild_rep (hrep : Rep h parent ptr t l) (addr : In6Addr) (k : ℕ) :
    h.matchChild addr k ptr = liftFault (Srn.matchChild addr k t) := by
  cases hrep with
  | null => rfl
  | node cell _ =>
    rw [matchChild, load_eq_ok cell]
    rfl

theorem matchChildExact_rep (hrep : Rep h parent ptr t l) (pfx : In6Addr) (plen k : ℕ) :
    h.matchChildExact pfx plen k ptr = liftFault (Srn.matchChildExact pfx plen k t) := by
  cases hrep with
  | null => rfl
  | @node _ _ n _ _ _ _ cell _ =>
    rw [matchChildExact, load_eq_ok cell, Srn.matchChildExact]
    simp only [bind, Except.bind]
    split_ifs <;> rfl

/-- The slot with which the search of a tree goes on. -/
def nextSlot (test : LpmTree δ → Except LpmFault Bool) (c₀ c₁ : LpmTree δ) :
    Except LpmFault (Option Bool) := do
  if ← test c₀ then return some false
  else if ← test c₁ then return some true
  else return none

theorem lookupFrom_eq (addr : In6Addr) (n : LpmNode δ) (c₀ c₁ : LpmTree δ) (last : LpmNode δ) :
    Srn.lookupFrom addr (node n c₀ c₁) last =
      nextSlot (Srn.matchChild addr n.plen) c₀ c₁ >>= fun slot =>
        slot.elim (.ok (visit n last)) fun b =>
          Srn.lookupFrom addr ((node n c₀ c₁).child b) (visit n last) := by
  rw [Srn.lookupFrom, nextSlot]
  cases Srn.matchChild addr n.plen c₀ with
  | error e => rfl
  | ok b₀ =>
    cases b₀ with
    | true => rfl
    | false =>
      cases Srn.matchChild addr n.plen c₁ with
      | error e => rfl
      | ok b₁ => cases b₁ <;> rfl

/-- The tests behind the choice of a slot. -/
theorem nextSlot_cases {test : LpmTree δ → Except LpmFault Bool} {c₀ c₁ : LpmTree δ}
    {slot : Option Bool} (hslot : nextSlot test c₀ c₁ = .ok slot) :
    (slot = some false ∧ test c₀ = .ok true) ∨
      (slot = some true ∧ test c₀ = .ok false ∧ test c₁ = .ok true) ∨
      (slot = none ∧ test c₀ = .ok false ∧ test c₁ = .ok false) := by
  obtain ⟨b₀, hb₀, hslot⟩ := Fault.bind_eq_ok_iff.mp hslot
  cases b₀ with
  | true => exact .inl ⟨(Except.ok.inj hslot).symm, hb₀⟩
  | false =>
    obtain ⟨b₁, hb₁, hslot⟩ := Fault.bind_eq_ok_iff.mp hslot
    cases b₁ with
    | true => exact .inr (.inl ⟨(Except.ok.inj hslot).symm, hb₀, hb₁⟩)
    | false => exact .inr (.inr ⟨(Except.ok.inj hslot).symm, hb₀, hb₁⟩)

theorem test_of_nextSlot {test : LpmTree δ → Except LpmFault Bool} (n : LpmNode δ)
    {c₀ c₁ : LpmTree δ} {b : Bool} (hslot : nextSlot test c₀ c₁ = .ok (some b)) :
    test ((node n c₀ c₁).child b) = .ok true := by
  obtain ⟨hb, h₀⟩ | ⟨hb, -, h₁⟩ | ⟨hb, -⟩ := nextSlot_cases hslot
  · obtain rfl := Option.some.inj hb
    exact h₀
  · obtain rfl := Option.some.inj hb
    exact h₁
  · contradiction

/-- A search goes on with the child in the slot with which the search of the tree goes on. -/
theorem nextChild_eq {cell : LpmCell δ} {test : Option LpmAddr → Except LpmHeapFault Bool}
    {test' : LpmTree δ → Except LpmFault Bool} {n : LpmNode δ} {c₀ c₁ : LpmTree δ}
    (htest : ∀ b, test (cell.children b) = liftFault (test' ((node n c₀ c₁).child b)))
    {slot : Option Bool} (hslot : nextSlot test' c₀ c₁ = .ok slot) :
    nextChild test cell = .ok (slot.bind cell.children) := by
  have ht₀ : test (cell.children false) = liftFault (test' c₀) := htest false
  have ht₁ : test (cell.children true) = liftFault (test' c₁) := htest true
  rw [nextChild, ht₀, ht₁]
  obtain ⟨rfl, h₀⟩ | ⟨rfl, h₀, h₁⟩ | ⟨rfl, h₀, h₁⟩ := nextSlot_cases hslot
  · rw [h₀]
    rfl
  · rw [h₀, h₁]
    rfl
  · rw [h₀, h₁]
    rfl

/-- **`__lpm_lookup`** ends at the node at which the search of the tree ends. -/
theorem lookupFrom_rep {addr : In6Addr} (t : LpmTree δ) {l : List LpmAddr} {fuel : ℕ}
    {parent : Option LpmAddr} {a last : LpmAddr} (hrep : Rep h parent (some a) t l)
    (hfuel : depth t ≤ fuel) {cell : LpmCell δ} (hlast : h last = some cell) {m : LpmNode δ}
    (hm : Srn.lookupFrom addr t cell.toLpmNode = .ok m) :
    ∃ x cell', h.lookupFrom addr fuel a last = .ok x ∧ h x = some cell' ∧
      cell'.toLpmNode = m := by
  induction t using childInduction generalizing l fuel parent a last cell with
  | null => cases hrep
  | node n c₀ c₁ ih =>
    obtain ⟨fuel, rfl⟩ : ∃ k, fuel = k + 1 := ⟨fuel - 1, by simp only [depth] at hfuel; omega⟩
    cases hrep with
    | @node _ _ _ _ _ children ls hcell hchild =>
      obtain ⟨last', cell', hlast', hcell', hvisit⟩ : ∃ last' cell',
          (if n.isVirtual then last else a) = last' ∧ h last' = some cell' ∧
            cell'.toLpmNode = visit n cell.toLpmNode := by
        by_cases hvirtual : n.data = .minusOne
        · exact ⟨last, cell, by simp [hvirtual], hlast, (visit_of_virtual hvirtual _).symm⟩
        · exact ⟨a, _, by simp [hvirtual], hcell, (visit_of_real hvirtual _).symm⟩
      rw [lookupFrom_eq, ← hvisit] at hm
      obtain ⟨slot, hslot, hm⟩ := Fault.bind_eq_ok_iff.mp hm
      have hnext : nextChild (h.matchChild addr n.plen) ⟨n, parent, children⟩ =
          .ok (slot.bind children) :=
        nextChild_eq (fun b => matchChild_rep (hchild b) addr n.plen) hslot
      rw [lookupFrom, load_eq_ok hcell]
      simp only [bind, Except.bind, hlast', hnext]
      cases slot with
      | none => exact ⟨last', cell', rfl, hcell', Except.ok.inj hm⟩
      | some b =>
        have hb := hchild b
        have hm' : Srn.lookupFrom addr ((node n c₀ c₁).child b) cell'.toLpmNode = .ok m := hm
        obtain ⟨x, hx⟩ := (hchild b).exists_ptr fun hnull => by
          have htest := test_of_nextSlot n hslot
          rw [hnull] at htest
          simp [Srn.matchChild] at htest
        rw [hx] at hb
        simp only [Option.bind_some, hx]
        exact ih b hb (depth_child_le hfuel b) hcell' hm'

/-- **`lpm_lookup`** returns what it returns for the tree. -/
theorem lpmLookup_rep {head : LpmAddr} {addr : In6Addr} {fuel : ℕ}
    (hrep : Rep h parent (some head) t l) (hfuel : depth t ≤ fuel) {r : Option δ}
    (hr : Srn.lpmLookup t addr = .ok r) : h.lpmLookup fuel head addr = .ok r := by
  cases hrep with
  | @node _ _ n c₀ c₁ children ls hcell hchild =>
    rw [Srn.lpmLookup] at hr
    obtain ⟨m, hm, hr⟩ := Fault.bind_eq_ok_iff.mp hr
    obtain ⟨x, cell, hx, hcellx, rfl⟩ :=
      lookupFrom_rep (node n c₀ c₁) (.node hcell hchild) hfuel hcell hm
    rw [lpmLookup, hx]
    simp only [bind, Except.bind, load_eq_ok hcellx]
    generalize cell.data = data at hr ⊢
    cases data <;> exact congrArg Except.ok (Except.ok.inj hr)

theorem lookupExact_eq (p : In6Addr) (k : ℕ) (n : LpmNode δ) (c₀ c₁ : LpmTree δ) :
    Srn.lookupExact p k (node n c₀ c₁) = matchNode n p 0 >>= fun matched =>
      if matched && n.plen == k && !n.isVirtual then .ok ([], true)
      else nextSlot (Srn.matchChildExact p k n.plen) c₀ c₁ >>= fun slot =>
        slot.elim (.ok ([], false)) fun b =>
          Srn.lookupExact p k ((node n c₀ c₁).child b) >>= fun r => .ok (b :: r.1, r.2) := by
  rw [Srn.lookupExact, nextSlot]
  cases matchNode n p 0 with
  | error e => rfl
  | ok matched =>
    obtain ⟨data, pfx, plen⟩ := n
    simp only [bind, Except.bind, LpmNode.isVirtual]
    cases data <;> cases matched && plen == k <;>
      cases Srn.matchChildExact p k plen c₀ with
      | error e => rfl
      | ok b₀ =>
        cases b₀ with
        | true => rfl
        | false =>
          cases Srn.matchChildExact p k plen c₁ with
          | error e => rfl
          | ok b₁ => cases b₁ <;> rfl

/-- The address at the end of a path of child slots. -/
def addrAt (h : LpmHeap δ) : LpmAddr → List Bool → Option LpmAddr
  | a, [] => some a
  | a, b :: path => (h a).bind fun cell => (cell.children b).bind fun x => addrAt h x path

/-- **`__lpm_lookup_exact`** ends at the node at which the search of the tree ends. -/
theorem lookupSave_rep {p : In6Addr} {k : ℕ} (t : LpmTree δ) {l : List LpmAddr} {fuel : ℕ}
    {parent : Option LpmAddr} {a : LpmAddr} (hrep : Rep h parent (some a) t l)
    (hfuel : depth t ≤ fuel) {path : List Bool} {found : Bool}
    (hr : Srn.lookupExact p k t = .ok (path, found)) :
    ∃ x, h.addrAt a path = some x ∧
      h.lookupSave p k fuel a = .ok (if found then some x else none, x) := by
  induction t using childInduction generalizing l fuel parent a path with
  | null => cases hrep
  | node n c₀ c₁ ih =>
    obtain ⟨fuel, rfl⟩ : ∃ k, fuel = k + 1 := ⟨fuel - 1, by simp only [depth] at hfuel; omega⟩
    cases hrep with
    | @node _ _ _ _ _ children ls hcell hchild =>
      rw [lookupExact_eq] at hr
      obtain ⟨matched, hmatched, hr⟩ := Fault.bind_eq_ok_iff.mp hr
      rw [lookupSave, load_eq_ok hcell]
      simp only [bind, Except.bind, hmatched, liftFault_ok]
      split_ifs at hr with hself
      · obtain ⟨rfl, rfl⟩ := Prod.mk.inj (Except.ok.inj hr)
        exact ⟨a, rfl, by rw [if_pos hself]; rfl⟩
      · obtain ⟨slot, hslot, hr⟩ := Fault.bind_eq_ok_iff.mp hr
        have hnext : nextChild (h.matchChildExact p k n.plen) ⟨n, parent, children⟩ =
            .ok (slot.bind children) :=
          nextChild_eq (fun b => matchChildExact_rep (hchild b) p k n.plen) hslot
        rw [if_neg hself]
        simp only [hnext]
        cases slot with
        | none =>
          obtain ⟨rfl, rfl⟩ := Prod.mk.inj (Except.ok.inj hr)
          exact ⟨a, rfl, rfl⟩
        | some b =>
          have hb := hchild b
          obtain ⟨x, hx⟩ := (hchild b).exists_ptr fun hnull => by
            have htest := test_of_nextSlot n hslot
            rw [hnull] at htest
            simp [Srn.matchChildExact] at htest
          rw [hx] at hb
          obtain ⟨r, hdown, hr⟩ := Fault.bind_eq_ok_iff.mp hr
          obtain ⟨rfl, rfl⟩ := Prod.mk.inj (Except.ok.inj hr)
          obtain ⟨y, hy, hrun⟩ := ih b hb (depth_child_le hfuel b) hdown
          refine ⟨y, ?_, ?_⟩
          · simpa [addrAt, hcell, hx] using hy
          · simpa only [Option.bind_some, hx] using hrun

/-- Without the place for the last node, it finds what it finds in the tree. -/
theorem lookupExact_rep {p : In6Addr} {k : ℕ} (t : LpmTree δ) {l : List LpmAddr} {fuel : ℕ}
    {parent : Option LpmAddr} {a : LpmAddr} (hrep : Rep h parent (some a) t l)
    (hfuel : depth t ≤ fuel) {path : List Bool} {found : Bool}
    (hr : Srn.lookupExact p k t = .ok (path, found)) :
    ∃ x, h.addrAt a path = some x ∧
      h.lookupExact p k fuel a = .ok (if found then some x else none) := by
  obtain ⟨x, hx, hrun⟩ := lookupSave_rep t hrep hfuel hr
  refine ⟨x, hx, ?_⟩
  rw [lookupExact, hrun]
  rfl

end LpmHeap

end Srn
