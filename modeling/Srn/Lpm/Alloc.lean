import Mathlib.Data.List.Perm.Subperm
import Srn.Lpm.Exact
import Srn.Lpm.Loose

/-!
# Srn.Lpm.Alloc

`lpm_insert` in memory: the new nodes come from `malloc`, and the pointers are set one after the
other, those to the parents included.  It leaves the tree that `Srn.lpmInsert` computes
(`lpmInsert_rep`), so that what holds of trees holds of memory, and every search in memory ends
because it follows a tree.
-/

namespace Srn

variable {δ : Type}

/-- A character of a text. -/
def charAt (bin : List Char) (i : ℕ) : Except LpmFault Char :=
  match bin[i]? with
  | none => .error .outOfBounds
  | some c => .ok c

/-- The loop of `common_prefix_len`, with the rounds that are left. -/
def scanCommon (bin₁ bin₂ : List Char) : ℕ → ℕ → Except LpmFault ℕ
  | 0, i => .ok i
  | rounds + 1, i => do
    let c₁ ← charAt bin₁ i
    let c₂ ← charAt bin₂ i
    if c₁ ≠ c₂ then return i else scanCommon bin₁ bin₂ rounds (i + 1)

/-- `node->children[b] = child`. -/
def LpmHeap.setSlot (h : LpmHeap δ) (node : LpmAddr) (b : Bool) (child : LpmAddr) :
    Except LpmHeapFault (LpmHeap δ) := do
  let cell ← h.load (some node)
  return h.store node { cell with children := Function.update cell.children b (some child) }

/-- The nodes in memory, and how many were allocated. -/
structure LpmStore (δ : Type) where
  mem : LpmHeap δ
  allocated : ℕ

namespace LpmStore

section

variable (malloc : ℕ → LpmAddr)

/-- `lpm_create_node`, where the calls of `malloc` return one address after the other. -/
def lpmCreateNode (s : LpmStore δ) (pfx : In6Addr) (plen : ℕ) (data : LpmData δ) :
    LpmStore δ × LpmAddr :=
  (⟨s.mem.store (malloc s.allocated) ⟨⟨data, pfx, plen⟩, none, fun _ => none⟩, s.allocated + 1⟩,
    malloc s.allocated)

/-- The part of `lpm_insert` behind the search. -/
def insertAt (s : LpmStore δ) (pfx : In6Addr) (plen : ℕ) (data : LpmData δ) :
    Option LpmAddr → LpmAddr → Except LpmHeapFault (LpmStore δ × LpmAddr)
  | some mtch, _ => do
    let cell ← s.mem.load (some mtch)
    return (⟨s.mem.store mtch { cell with data := data }, s.allocated⟩, mtch)
  | none, save => do
    let cell ← s.mem.load (some save)
    if cell.plen = plen then
      if cell.isVirtual then
        return (⟨s.mem.store save { cell with data := data }, s.allocated⟩, save)
      else throw (.lpm .assertion)
    let child ← liftFault (slotAt (addrToBinary pfx) cell.plen)
    let (s, newNode) := s.lpmCreateNode malloc pfx plen data
    match cell.children child with
    | none =>
      let h ← s.mem.setSlot save child newNode
      let h ← h.setParent save (some newNode)
      return (⟨h, s.allocated⟩, newNode)
    | some childNode =>
      let childCell ← s.mem.load (some childNode)
      let cplen ← liftFault
        (scanCommon (addrToBinary childCell.pfx) (addrToBinary pfx) plen 0)
      if cplen = 0 then throw (.lpm .assertion)
      let child2 ← liftFault (slotAt (addrToBinary pfx) cplen)
      if cplen = plen then
        let h ← s.mem.setSlot newNode child2 childNode
        let h ← h.setParent newNode (some childNode)
        let h ← h.setSlot save child newNode
        let h ← h.setParent save (some newNode)
        return (⟨h, s.allocated⟩, newNode)
      if plen ≤ cplen then throw (.lpm .assertion)
      let (s, vnode) := s.lpmCreateNode malloc pfx cplen .minusOne
      let h ← s.mem.setSlot vnode child2 newNode
      let h ← h.setSlot vnode (!child2) childNode
      let h ← h.setParent vnode (some newNode)
      let h ← h.setParent vnode (some childNode)
      let h ← h.setSlot save child vnode
      let h ← h.setParent save (some vnode)
      return (⟨h, s.allocated⟩, newNode)

/-- `lpm_insert`. -/
def lpmInsert (fuel : ℕ) (s : LpmStore δ) (head : LpmAddr) (pfx : In6Addr) (plen : ℕ)
    (data : LpmData δ) : Except LpmHeapFault (LpmStore δ × LpmAddr) := do
  let (mtch, save) ← s.mem.lookupSave pfx plen fuel head
  s.insertAt malloc pfx plen data mtch save

/-- `lpm_new`, whose head is the first address. -/
def lpmNew : LpmStore δ :=
  ⟨Mem.store (fun _ => none) (malloc 0) ⟨⟨.null, 0, 0⟩, none, fun _ => none⟩, 1⟩

end

end LpmStore

/-! ## The common prefix -/

theorem scanCommon_eq {bin₁ bin₂ : List Char} {rounds i : ℕ} (h₁ : i + rounds ≤ bin₁.length)
    (h₂ : i + rounds ≤ bin₂.length) :
    scanCommon bin₁ bin₂ rounds i = .ok (i + ((((bin₁.drop i).zip (bin₂.drop i)).take
      rounds).takeWhile fun c => c.1 == c.2).length) := by
  induction rounds generalizing i with
  | zero => simp [scanCommon]
  | succ rounds ih =>
    have hi₁ : i < bin₁.length := by omega
    have hi₂ : i < bin₂.length := by omega
    have hc₁ : charAt bin₁ i = .ok bin₁[i] := by simp [charAt, hi₁]
    have hc₂ : charAt bin₂ i = .ok bin₂[i] := by simp [charAt, hi₂]
    rw [scanCommon, hc₁, hc₂, List.drop_eq_getElem_cons hi₁, List.drop_eq_getElem_cons hi₂,
      List.zip_cons_cons, List.take_succ_cons]
    simp only [bind, Except.bind]
    by_cases hc : bin₁[i] = bin₂[i]
    · rw [if_neg (not_not.mpr hc), List.takeWhile_cons_of_pos (by simpa using hc),
        ih (by omega) (by omega), List.length_cons, Nat.add_assoc, Nat.add_comm 1]
    · rw [if_pos hc, List.takeWhile_cons_of_neg (by simpa using hc)]
      rfl

/-- Within the texts, the loop finds the length that `commonPrefixLen` has. -/
theorem scanCommon_addrToBinary (p q : In6Addr) {maxplen : ℕ} (h : maxplen ≤ 128) :
    scanCommon (addrToBinary p) (addrToBinary q) maxplen 0 =
      .ok (commonPrefixLen p q maxplen) := by
  have hlen : ∀ a : In6Addr, maxplen ≤ (addrToBinary a).length := fun a => by
    rw [addrToBinary_eq]
    simp
    omega
  rw [scanCommon_eq (by simpa using hlen p) (by simpa using hlen q), Nat.zero_add]
  rfl

namespace LpmTree

/-- Another tree at the end of a path. -/
def replaceAt : List Bool → LpmTree δ → LpmTree δ → LpmTree δ
  | [], _, c => c
  | b :: path, t, c => t.setChild b (replaceAt path (t.child b) c)

theorem modifyAt_eq_ok {f : LpmTree δ → Except LpmFault (LpmTree δ × List Bool)}
    {path : List Bool} {t : LpmTree δ} {r : LpmTree δ × List Bool}
    (h : modifyAt f path t = .ok r) :
    ∃ c rest, f (t.follow path) = .ok (c, rest) ∧ r = (replaceAt path t c, path ++ rest) := by
  induction path generalizing t r with
  | nil => exact ⟨r.1, r.2, h, rfl⟩
  | cons b path ih =>
    obtain ⟨r', hr', h⟩ := Fault.bind_eq_ok_iff.mp h
    obtain ⟨c, rest, hf, rfl⟩ := ih hr'
    cases h
    exact ⟨c, rest, hf, rfl⟩

end LpmTree

namespace LpmHeap

open LpmTree

variable {h h' : LpmHeap δ} {parent ptr : Option LpmAddr} {a x : LpmAddr} {n : LpmNode δ}
  {c c₀ c₁ t : LpmTree δ} {l : List LpmAddr} {b : Bool}

/-! ## A place in a tree -/

theorem depth_le_length (hrep : Rep h parent ptr t l) : depth t ≤ l.length := by
  induction hrep with
  | null => exact Nat.zero_le _
  | @node parent a n c₀ c₁ children ls _ _ ih =>
    have h₀ : depth c₀ ≤ (ls false).length := ih false
    have h₁ : depth c₁ ≤ (ls true).length := ih true
    rw [depth, List.length_cons, List.length_append]
    omega

/-- The tree at the end of a path, and the whole tree after another one takes its place: over its
own addresses and new ones, with everything else left alone. -/
theorem Rep.focus {path : List Bool} (hrep : Rep h parent (some a) t l) (hl : l.Nodup)
    (hx : h.addrAt a path = some x) :
    ∃ parentx lx, Rep h parentx (some x) (t.follow path) lx ∧ lx.Nodup ∧ lx ⊆ l ∧
      ∀ h' c lx', Rep h' parentx (some x) c lx' → lx'.Nodup → (∀ y ∈ lx', y ∈ lx ∨ y ∉ l) →
        (∀ y ∈ l, y ∉ lx → h' y = h y) →
        h'.addrAt a path = some x ∧
          ∃ l', Rep h' parent (some a) (replaceAt path t c) l' ∧ l'.Nodup ∧
            ∀ y ∈ l', y ∈ lx' ∨ y ∈ l := by
  induction path generalizing a t l parent with
  | nil =>
    obtain rfl : a = x := Option.some.inj hx
    refine ⟨parent, l, hrep, hl, List.Subset.refl l, fun h' c lx' hrep' hnodup' _ _ => ?_⟩
    exact ⟨rfl, lx', hrep', hnodup', fun y hy => .inl hy⟩
  | cons b path ih =>
    cases hrep with
    | @node _ _ n c₀ c₁ children ls cell child =>
      have hap := nodup_iff_apart.mp hl
      simp only [addrAt, cell, Option.bind_some] at hx
      obtain ⟨y, hy, hx⟩ := Option.bind_eq_some_iff.mp hx
      obtain ⟨parentx, lx, hrepx, hnodupx, hsubx, hput⟩ := ih (hy ▸ child b) (hap.nodup b) hx
      refine ⟨parentx, lx, hrepx, hnodupx, fun z hz => mem_slots b (hsubx hz),
        fun h' c lx' hrep' hnodup' hnew hsame => ?_⟩
      -- below the node the place was taken; the node and its other slot are as before
      have hslot : ∀ z ∈ lx', z ∈ lx ∨ z ∉ ls b := fun z hz =>
        (hnew z hz).imp_right fun hz hzb => hz (mem_slots b hzb)
      obtain ⟨hx', l', hrepb, hnodupb, hmemb⟩ := hput h' c lx' hrep' hnodup' hslot
        fun z hz hzx => hsame z (mem_slots b hz) hzx
      have ha : a ∉ lx := fun hmem => hap.root b (hsubx hmem)
      have hcell : h' a = some ⟨n, parent, children⟩ :=
        (hsame a List.mem_cons_self ha).trans cell
      have hroot : h' a = some ⟨n, parent, Function.update children b (some y)⟩ := by
        rw [hcell, ← hy, Function.update_eq_self]
      have hnewb : ∀ z ∈ l', z ∈ ls b ∨ z ∉ a :: (ls false ++ ls true) := fun z hz =>
        (hmemb z hz).elim (fun hzx => (hnew z hzx).imp_left fun hz' => hsubx hz') .inl
      obtain ⟨l'', hrep'', hnodup'', hmem''⟩ := hrepb.put_slot child hap hroot hnodupb hnewb
        fun z hz => hsame z (mem_slots (!b) hz) fun hzx => hap.disjoint b (hsubx hzx) hz
      refine ⟨by simpa [addrAt, hcell, hy] using hx', l'', hrep'', hnodup'', fun z hz => ?_⟩
      obtain hz | hz := hmem'' z hz
      · exact (hmemb z hz).imp_right fun hzb => mem_slots b hzb
      · exact .inr hz

theorem addrAt_append (h : LpmHeap δ) (a : LpmAddr) (path rest : List Bool) :
    h.addrAt a (path ++ rest) = (h.addrAt a path).bind fun x => h.addrAt x rest := by
  induction path generalizing a with
  | nil => rfl
  | cons b path ih =>
    simp only [List.cons_append, addrAt]
    cases h a with
    | none => rfl
    | some cell =>
      simp only [Option.bind_some]
      cases cell.children b with
      | none => rfl
      | some y => exact ih y

/-! ## Setting pointers -/

theorem exists_setSlot {children : Bool → Option LpmAddr}
    (hcell : h a = some ⟨n, parent, children⟩) (b : Bool) (x : LpmAddr) :
    ∃ h', h.setSlot a b x = .ok h' ∧
      h' a = some ⟨n, parent, Function.update children b (some x)⟩ ∧ ∀ y, y ≠ a → h' y = h y := by
  refine ⟨h.store a ⟨n, parent, Function.update children b (some x)⟩, ?_, Mem.store_self,
    fun y hy => Mem.store_of_ne hy⟩
  rw [setSlot, load_eq_ok hcell]
  rfl

theorem exists_setParent {children : Bool → Option LpmAddr}
    (hcell : h a = some ⟨n, parent, children⟩) (x : LpmAddr) :
    ∃ h', h.setParent x (some a) = .ok h' ∧ h' a = some ⟨n, some x, children⟩ ∧
      ∀ y, y ≠ a → h' y = h y := by
  refine ⟨h.store a ⟨n, some x, children⟩, ?_, Mem.store_self, fun y hy => Mem.store_of_ne hy⟩
  rw [setParent, load_eq_ok hcell]
  rfl

/-- A node without children. -/
theorem rep_leaf (hcell : h a = some ⟨n, parent, fun _ => none⟩) :
    Rep h parent (some a) (.node n .null .null) [a] :=
  .node (l := fun _ => []) hcell fun b => by cases b <;> exact .null

end LpmHeap

namespace LpmStore

open LpmTree LpmHeap

variable {malloc : ℕ → LpmAddr} {s s' : LpmStore δ} {parent : Option LpmAddr} {x : LpmAddr}
  {n : LpmNode δ} {c c₀ c₁ t : LpmTree δ} {l : List LpmAddr} {p : In6Addr} {k : ℕ}
  {data : LpmData δ}

theorem exists_lpmCreateNode (malloc : ℕ → LpmAddr) (s : LpmStore δ) (p : In6Addr) (k : ℕ)
    (data : LpmData δ) :
    ∃ h', s.lpmCreateNode malloc p k data =
        ((⟨h', s.allocated + 1⟩ : LpmStore δ), malloc s.allocated) ∧
      h' (malloc s.allocated) = some ⟨⟨data, p, k⟩, none, fun _ => none⟩ ∧
      ∀ y, y ≠ malloc s.allocated → h' y = s.mem y :=
  ⟨_, rfl, Mem.store_self, fun _ hy => Mem.store_of_ne hy⟩

/-! ## The pointers that an insertion sets -/

section

variable (data : LpmData δ) {children : Bool → Option LpmAddr} {b b₂ : Bool} {cn : LpmNode δ}
  {y : LpmAddr} {grandchildren : Bool → Option LpmAddr}
  (cell : s.mem x = some ⟨n, parent, children⟩) (hlen : n.plen ≠ k)
  (hslot : slotAt (addrToBinary p) n.plen = .ok b) (hxn : x ≠ malloc s.allocated)

include cell hlen hslot hxn

/-- A new leaf in an empty slot. -/
theorem insertAt_leaf (hnone : children b = none) :
    ∃ h', s.insertAt malloc p k data none x =
        .ok (⟨h', s.allocated + 1⟩, malloc s.allocated) ∧
      h' x = some ⟨n, parent, Function.update children b (some (malloc s.allocated))⟩ ∧
      h' (malloc s.allocated) = some ⟨⟨data, p, k⟩, some x, fun _ => none⟩ ∧
      ∀ z, z ≠ x → z ≠ malloc s.allocated → h' z = s.mem z := by
  obtain ⟨h₁, hnew₁, hat₁, hoff₁⟩ := exists_lpmCreateNode malloc s p k data
  obtain ⟨h₂, hset₂, hat₂, hoff₂⟩ :=
    exists_setSlot ((hoff₁ x hxn).trans cell) b (malloc s.allocated)
  obtain ⟨h₃, hparent₃, hat₃, hoff₃⟩ := exists_setParent ((hoff₂ _ hxn.symm).trans hat₁) x
  refine ⟨h₃, ?_, (hoff₃ x hxn).trans hat₂, hat₃, fun z hzx hzn => ?_⟩
  · simp [insertAt, load_eq_ok cell, hlen, hslot, hnone, hnew₁, hset₂, hparent₃, bind,
      Except.bind, pure, Except.pure]
  · exact (hoff₃ z hzn).trans ((hoff₂ z hzx).trans (hoff₁ z hzn))

section

variable (hk : k ≤ 128) (hy : children b = some y)
  (ccell : s.mem y = some ⟨cn, some x, grandchildren⟩) (hxy : x ≠ y) (hyn : y ≠ malloc s.allocated)

include hk hy ccell hxy hyn

/-- A new node between a node and its child. -/
theorem insertAt_between (hpos : k ≠ 0) (hcommon : commonPrefixLen cn.pfx p k = k)
    (hslot₂ : slotAt (addrToBinary p) k = .ok b₂) :
    ∃ h', s.insertAt malloc p k data none x =
        .ok (⟨h', s.allocated + 1⟩, malloc s.allocated) ∧
      h' x = some ⟨n, parent, Function.update children b (some (malloc s.allocated))⟩ ∧
      h' (malloc s.allocated) =
        some ⟨⟨data, p, k⟩, some x, Function.update (fun _ => none) b₂ (some y)⟩ ∧
      h' y = some ⟨cn, some (malloc s.allocated), grandchildren⟩ ∧
      ∀ z, z ≠ x → z ≠ y → z ≠ malloc s.allocated → h' z = s.mem z := by
  obtain ⟨h₁, hnew₁, hat₁, hoff₁⟩ := exists_lpmCreateNode malloc s p k data
  have hscan := scanCommon_addrToBinary cn.pfx p hk
  have hload := load_eq_ok ((hoff₁ y hyn).trans ccell)
  obtain ⟨h₂, hset₂, hat₂, hoff₂⟩ := exists_setSlot hat₁ b₂ y
  obtain ⟨h₃, hparent₃, hat₃, hoff₃⟩ := exists_setParent
    ((hoff₂ y hyn).trans ((hoff₁ y hyn).trans ccell)) (malloc s.allocated)
  obtain ⟨h₄, hset₄, hat₄, hoff₄⟩ := exists_setSlot ((hoff₃ x hxy).trans
    ((hoff₂ x hxn).trans ((hoff₁ x hxn).trans cell))) b (malloc s.allocated)
  obtain ⟨h₅, hparent₅, hat₅, hoff₅⟩ := exists_setParent ((hoff₄ _ hxn.symm).trans
    ((hoff₃ _ hyn.symm).trans hat₂)) x
  refine ⟨h₅, ?_, (hoff₅ x hxn).trans hat₄, hat₅,
    (hoff₅ y hyn).trans ((hoff₄ y hxy.symm).trans hat₃), fun z hzx hzy hzn => ?_⟩
  · simp [insertAt, load_eq_ok cell, hlen, hslot, hy, hnew₁, hload, hscan, hcommon, hpos, hslot₂,
      hset₂, hparent₃, hset₄, hparent₅, bind, Except.bind, pure, Except.pure]
  · exact (hoff₅ z hzn).trans ((hoff₄ z hzx).trans ((hoff₃ z hzy).trans
      ((hoff₂ z hzn).trans (hoff₁ z hzn))))

/-- A virtual node with the new leaf and the child. -/
theorem insertAt_fork {m : ℕ} (hpos : m ≠ 0) (hcommon : commonPrefixLen cn.pfx p k = m)
    (hm : m < k) (hslot₂ : slotAt (addrToBinary p) m = .ok b₂)
    (hxv : x ≠ malloc (s.allocated + 1)) (hyv : y ≠ malloc (s.allocated + 1))
    (hnv : malloc s.allocated ≠ malloc (s.allocated + 1)) :
    ∃ h', s.insertAt malloc p k data none x =
        .ok (⟨h', s.allocated + 2⟩, malloc s.allocated) ∧
      h' x = some ⟨n, parent, Function.update children b (some (malloc (s.allocated + 1)))⟩ ∧
      h' (malloc (s.allocated + 1)) = some ⟨⟨.minusOne, p, m⟩, some x, Function.update
        (Function.update (fun _ => none) b₂ (some (malloc s.allocated))) (!b₂) (some y)⟩ ∧
      h' (malloc s.allocated) =
        some ⟨⟨data, p, k⟩, some (malloc (s.allocated + 1)), fun _ => none⟩ ∧
      h' y = some ⟨cn, some (malloc (s.allocated + 1)), grandchildren⟩ ∧
      ∀ z, z ≠ x → z ≠ y → z ≠ malloc s.allocated → z ≠ malloc (s.allocated + 1) →
        h' z = s.mem z := by
  obtain ⟨h₁, hnew₁, hat₁, hoff₁⟩ := exists_lpmCreateNode malloc s p k data
  obtain ⟨h₂, hnew₂, hat₂, hoff₂⟩ :=
    exists_lpmCreateNode malloc (⟨h₁, s.allocated + 1⟩ : LpmStore δ) p m .minusOne
  have hscan := scanCommon_addrToBinary cn.pfx p hk
  have hload := load_eq_ok ((hoff₁ y hyn).trans ccell)
  -- the two slots of the virtual node, the two parents, and the virtual node below `save`
  obtain ⟨h₃, hset₃, hat₃, hoff₃⟩ := exists_setSlot hat₂ b₂ (malloc s.allocated)
  obtain ⟨h₄, hset₄, hat₄, hoff₄⟩ := exists_setSlot hat₃ (!b₂) y
  have hoff : ∀ z, z ≠ malloc (s.allocated + 1) → h₄ z = h₁ z := fun z hz =>
    (hoff₄ z hz).trans ((hoff₃ z hz).trans (hoff₂ z hz))
  obtain ⟨h₅, hparent₅, hat₅, hoff₅⟩ :=
    exists_setParent ((hoff _ hnv).trans hat₁) (malloc (s.allocated + 1))
  obtain ⟨h₆, hparent₆, hat₆, hoff₆⟩ := exists_setParent ((hoff₅ y hyn).trans
    ((hoff y hyv).trans ((hoff₁ y hyn).trans ccell))) (malloc (s.allocated + 1))
  obtain ⟨h₇, hset₇, hat₇, hoff₇⟩ := exists_setSlot ((hoff₆ x hxy).trans ((hoff₅ x hxn).trans
    ((hoff x hxv).trans ((hoff₁ x hxn).trans cell)))) b (malloc (s.allocated + 1))
  obtain ⟨h₈, hparent₈, hat₈, hoff₈⟩ := exists_setParent ((hoff₇ _ hxv.symm).trans
    ((hoff₆ _ hyv.symm).trans ((hoff₅ _ hnv.symm).trans hat₄))) x
  refine ⟨h₈, ?_, (hoff₈ x hxv).trans hat₇, hat₈,
    (hoff₈ _ hnv).trans ((hoff₇ _ hxn.symm).trans ((hoff₆ _ hyn.symm).trans hat₅)),
    (hoff₈ y hyv).trans ((hoff₇ y hxy.symm).trans hat₆), fun z hzx hzy hzn hzv => ?_⟩
  · simp [insertAt, load_eq_ok cell, hlen, hslot, hy, hnew₁, hnew₂, hload, hscan, hcommon, hpos,
      hm.ne, hm.not_ge, hslot₂, hset₃, hset₄, hparent₅, hparent₆, hset₇, hparent₈, bind,
      Except.bind, pure, Except.pure]
  · exact (hoff₈ z hzv).trans ((hoff₇ z hzx).trans ((hoff₆ z hzy).trans ((hoff₅ z hzn).trans
      ((hoff z hzv).trans (hoff₁ z hzn)))))

end

end

/-! ## The tree that an insertion leaves -/

/-- After an insertion at a node there is another tree, over the old addresses and those that were
allocated for it, and all other memory is as before. -/
structure Grows (malloc : ℕ → LpmAddr) (s : LpmStore δ) (parent : Option LpmAddr) (x : LpmAddr)
    (l : List LpmAddr) (t : LpmTree δ) (s' : LpmStore δ) : Prop where
  le : s.allocated ≤ s'.allocated
  bound : s'.allocated ≤ s.allocated + 2
  rep : ∃ l', Rep s'.mem parent (some x) t l' ∧ l'.Nodup ∧
    ∀ y ∈ l', y ∈ l ∨ ∃ i, s.allocated ≤ i ∧ i < s'.allocated ∧ malloc i = y
  frame : ∀ y ∉ l, (∀ i, s.allocated ≤ i → malloc i ≠ y) → s'.mem y = s.mem y

/-- Other data in a node. -/
theorem grows_data (malloc : ℕ → LpmAddr) (data : LpmData δ) 
    (hrep : Rep s.mem parent (some x) (.node n c₀ c₁) l) (hl : l.Nodup) :
    ∃ children, s.mem x = some ⟨n, parent, children⟩ ∧
      Grows malloc s parent x l (.node { n with data := data } c₀ c₁)
        ⟨s.mem.store x ⟨{ n with data := data }, parent, children⟩, s.allocated⟩ := by
  obtain ⟨children, hcell, hwrite⟩ := hrep.write_root hl
  refine ⟨children, hcell, le_rfl, Nat.le_add_right _ _,
    ⟨l, hwrite { n with data := data } parent, hl, fun y hy => .inl hy⟩, fun y hy _ => ?_⟩
  exact Mem.store_of_ne fun heq => hy (heq ▸ hrep.mem)

/-- Another tree in a slot, over the addresses of the slot and new ones. -/
theorem grows_slot {children : Bool → Option LpmAddr} {ls : Bool → List LpmAddr} {b : Bool}
    {h' : LpmHeap δ} {y : LpmAddr} {lc : List LpmAddr} {m : ℕ}
    (child : ∀ b, Rep s.mem (some x) (children b) ((node n c₀ c₁).child b) (ls b))
    (hap : Apart x ls) (hfresh : ∀ i, s.allocated ≤ i → malloc i ∉ x :: (ls false ++ ls true))
    (hle : s.allocated ≤ m) (hbound : m ≤ s.allocated + 2)
    (hroot : h' x = some ⟨n, parent, Function.update children b (some y)⟩)
    (hslot : Rep h' (some x) (some y) c lc) (hnodup : lc.Nodup)
    (hmem : ∀ z ∈ lc, z ∈ ls b ∨ ∃ i, s.allocated ≤ i ∧ i < m ∧ malloc i = z)
    (hoff : ∀ z, z ≠ x → z ∉ ls b → (∀ i, s.allocated ≤ i → malloc i ≠ z) → h' z = s.mem z) :
    Grows malloc s parent x (x :: (ls false ++ ls true)) ((node n c₀ c₁).setChild b c)
      ⟨h', m⟩ := by
  have hold : ∀ z ∈ x :: (ls false ++ ls true), ∀ i, s.allocated ≤ i → malloc i ≠ z :=
    fun z hz i hi heq => hfresh i hi (heq ▸ hz)
  have hnew : ∀ z ∈ lc, z ∈ ls b ∨ z ∉ x :: (ls false ++ ls true) := by
    intro z hz
    obtain hz | ⟨i, hi, -, rfl⟩ := hmem z hz
    · exact .inl hz
    · exact .inr (hfresh i hi)
  obtain ⟨l', hrep', hnodup', hmem'⟩ := hslot.put_slot child hap hroot hnodup hnew fun z hz =>
    hoff z (fun heq => hap.root _ (heq ▸ hz)) (fun hzb => hap.disjoint b hzb hz)
      (hold z (mem_slots (!b) hz))
  refine ⟨hle, hbound, ⟨l', hrep', hnodup', fun z hz => ?_⟩, fun z hz hznew => ?_⟩
  · obtain hz | hz := hmem' z hz
    · exact (hmem z hz).imp_left fun hzb => mem_slots b hzb
    · exact .inl hz
  · exact hoff z (fun heq => hz (heq ▸ List.mem_cons_self)) (fun hzb => hz (mem_slots b hzb)) hznew

/-- The child in a slot, and what is left of it under another parent. -/
theorem exists_child {children : Bool → Option LpmAddr} {ls : Bool → List LpmAddr} {b : Bool}
    {cn : LpmNode δ} {cc₀ cc₁ : LpmTree δ}
    (child : ∀ b, Rep s.mem (some x) (children b) ((node n c₀ c₁).child b) (ls b))
    (hap : Apart x ls) (hchild : (node n c₀ c₁).child b = .node cn cc₀ cc₁) :
    ∃ y grandchildren, children b = some y ∧ y ∈ ls b ∧
      s.mem y = some ⟨cn, some x, grandchildren⟩ ∧
      ∀ h' parent', h' y = some ⟨cn, parent', grandchildren⟩ →
        (∀ z ∈ ls b, z ≠ y → h' z = s.mem z) →
        Rep h' parent' (some y) (.node cn cc₀ cc₁) (ls b) := by
  have hb := child b
  rw [hchild] at hb
  obtain ⟨y, hy⟩ := hb.exists_ptr (by simp)
  rw [hy] at hb
  obtain ⟨grandchildren, ccell, hwith⟩ := hb.with_root (hap.nodup b)
  exact ⟨y, grandchildren, hy, hb.mem, ccell, fun h' parent' => hwith h' cn parent'⟩

/-- A node with one child. -/
theorem exists_rep_one {h : LpmHeap δ} {y : LpmAddr} {b : Bool}
    (hroot : h x = some ⟨n, parent, Function.update (fun _ => none) b (some y)⟩)
    (hc : Rep h (some x) (some y) c l) (hnodup : (x :: l).Nodup) :
    ∃ l', Rep h parent (some x) ((node n .null .null).setChild b c) l' ∧ l'.Nodup ∧
      l' ⊆ x :: l := by
  have hempty : Rep h (some x) none ((node n .null .null).child !b) [] := by
    cases b <;> exact .null
  have hset := hc.set_slot hroot hempty (by rwa [List.append_nil])
  rwa [List.append_nil] at hset

/-- A node with two children. -/
theorem exists_rep_two {h : LpmHeap δ} {y y' : LpmAddr} {b : Bool} {c' : LpmTree δ}
    {l' : List LpmAddr} (hroot : h x = some ⟨n, parent,
      Function.update (Function.update (fun _ => none) b (some y)) (!b) (some y')⟩)
    (hc : Rep h (some x) (some y) c l) (hc' : Rep h (some x) (some y') c' l')
    (hnodup : (x :: (l' ++ l)).Nodup) :
    ∃ l'', Rep h parent (some x) (((node n .null .null).setChild b c).setChild (!b) c') l'' ∧
      l''.Nodup ∧ l'' ⊆ x :: (l' ++ l) := by
  cases b
  · have hother : Rep h (some x) (Function.update (fun _ => none) false (some y) !true)
        ((node n c .null).child !true) l := hc
    exact hc'.set_slot hroot hother hnodup
  · have hother : Rep h (some x) (Function.update (fun _ => none) true (some y) !false)
        ((node n .null c).child !false) l := hc
    exact hc'.set_slot hroot hother hnodup

/-- What is not allocated yet is no address of the tree. -/
theorem ne_malloc (hfresh : ∀ i, s.allocated ≤ i → malloc i ∉ l) {z : LpmAddr} (hz : z ∈ l) {i : ℕ}
    (hi : s.allocated ≤ i) : z ≠ malloc i := by
  rintro rfl
  exact hfresh i hi hz

section

variable (hfresh : ∀ i, s.allocated ≤ i → malloc i ∉ l) {b : Bool} (hk : k ≤ 128)
  (hrep : Rep s.mem parent (some x) (.node n c₀ c₁) l) (hl : l.Nodup) (hlen : n.plen ≠ k)
  (hslot : slotAt (addrToBinary p) n.plen = .ok b)

include hfresh hrep hl hlen hslot

theorem grows_leaf (data : LpmData δ) (hnull : (node n c₀ c₁).child b = .null) :
    ∃ s' y, s.insertAt malloc p k data none x = .ok (s', y) ∧ s'.mem.addrAt x [b] = some y ∧
      Grows malloc s parent x l ((node n c₀ c₁).setChild b (.node ⟨data, p, k⟩ .null .null))
        s' := by
  cases hrep with
  | @node _ _ _ _ _ children ls cell child =>
    have hxn : x ≠ malloc s.allocated := ne_malloc hfresh List.mem_cons_self le_rfl
    have hnone : children b = none := (hnull ▸ child b).ptr_eq_none
    obtain ⟨h', hrun, hroot, hnew, hoff⟩ :=
      insertAt_leaf data cell hlen hslot hxn hnone
    refine ⟨_, _, hrun, by simp [addrAt, hroot], grows_slot child (nodup_iff_apart.mp hl) hfresh
      (Nat.le_succ _) (by omega) hroot (rep_leaf hnew) (List.nodup_singleton _) ?_ ?_⟩
    · intro z hz
      exact .inr ⟨s.allocated, le_rfl, Nat.lt_succ_self _, (List.mem_singleton.mp hz).symm⟩
    · exact fun z hzx _ hznew => hoff z hzx (hznew s.allocated le_rfl).symm

include hk

theorem grows_between (data : LpmData δ) {b₂ : Bool} {cn : LpmNode δ} {cc₀ cc₁ : LpmTree δ}
    (hchild : (node n c₀ c₁).child b = .node cn cc₀ cc₁) (hpos : k ≠ 0)
    (hcommon : commonPrefixLen cn.pfx p k = k) (hslot₂ : slotAt (addrToBinary p) k = .ok b₂) :
    ∃ s' y, s.insertAt malloc p k data none x = .ok (s', y) ∧ s'.mem.addrAt x [b] = some y ∧
      Grows malloc s parent x l ((node n c₀ c₁).setChild b
        ((node ⟨data, p, k⟩ .null .null).setChild b₂ (.node cn cc₀ cc₁))) s' := by
  cases hrep with
  | @node _ _ _ _ _ children ls cell child =>
    have hap := nodup_iff_apart.mp hl
    obtain ⟨y, grandchildren, hy, hyb, ccell, hmoved⟩ := exists_child child hap hchild
    have hxn : x ≠ malloc s.allocated := ne_malloc hfresh List.mem_cons_self le_rfl
    have hbn : ∀ z ∈ ls b, z ≠ malloc s.allocated := fun z hz =>
      ne_malloc hfresh (mem_slots b hz) le_rfl
    have hbx : ∀ z ∈ ls b, z ≠ x := fun z hz heq => hap.root b (heq ▸ hz)
    obtain ⟨h', hrun, hroot, hnew, hold, hoff⟩ := insertAt_between data cell hlen hslot
      hxn hk hy ccell (hbx y hyb).symm (hbn y hyb) hpos hcommon hslot₂
    have hbelow := hmoved h' _ hold fun z hz hzy => hoff z (hbx z hz) hzy (hbn z hz)
    obtain ⟨lc, hrepc, hnodupc, hsubc⟩ := exists_rep_one hnew hbelow
      (List.nodup_cons.mpr ⟨fun hmem => hbn _ hmem rfl, hap.nodup b⟩)
    refine ⟨_, _, hrun, by simp [addrAt, hroot], grows_slot child hap hfresh (Nat.le_succ _)
      (by omega) hroot hrepc hnodupc ?_ ?_⟩
    · intro z hz
      obtain rfl | hz := List.mem_cons.mp (hsubc hz)
      · exact .inr ⟨s.allocated, le_rfl, Nat.lt_succ_self _, rfl⟩
      · exact .inl hz
    · exact fun z hzx hzb hznew => hoff z hzx (fun heq => hzb (heq ▸ hyb))
        (hznew s.allocated le_rfl).symm

theorem grows_fork (hmalloc : Function.Injective malloc) (data : LpmData δ) {b₂ : Bool}
    {cn : LpmNode δ} {cc₀ cc₁ : LpmTree δ} {m : ℕ}
    (hchild : (node n c₀ c₁).child b = .node cn cc₀ cc₁) (hpos : m ≠ 0)
    (hcommon : commonPrefixLen cn.pfx p k = m) (hm : m < k)
    (hslot₂ : slotAt (addrToBinary p) m = .ok b₂) :
    ∃ s' y, s.insertAt malloc p k data none x = .ok (s', y) ∧ s'.mem.addrAt x [b, b₂] = some y ∧
      Grows malloc s parent x l ((node n c₀ c₁).setChild b
        (((node ⟨.minusOne, p, m⟩ .null .null).setChild b₂
          (.node ⟨data, p, k⟩ .null .null)).setChild (!b₂) (.node cn cc₀ cc₁))) s' := by
  cases hrep with
  | @node _ _ _ _ _ children ls cell child =>
    have hap := nodup_iff_apart.mp hl
    obtain ⟨y, grandchildren, hy, hyb, ccell, hmoved⟩ := exists_child child hap hchild
    have hxi : ∀ i, s.allocated ≤ i → x ≠ malloc i := fun i hi =>
      ne_malloc hfresh List.mem_cons_self hi
    have hbi : ∀ z ∈ ls b, ∀ i, s.allocated ≤ i → z ≠ malloc i := fun z hz i hi =>
      ne_malloc hfresh (mem_slots b hz) hi
    have hbx : ∀ z ∈ ls b, z ≠ x := fun z hz heq => hap.root b (heq ▸ hz)
    have hnv : malloc s.allocated ≠ malloc (s.allocated + 1) := fun heq => by
      have := hmalloc heq
      omega
    have hsucc : s.allocated ≤ s.allocated + 1 := Nat.le_succ _
    obtain ⟨h', hrun, hroot, hv, hnew, hold, hoff⟩ := insertAt_fork data cell hlen hslot
      (hxi _ le_rfl) hk hy ccell (hbx y hyb).symm (hbi y hyb _ le_rfl) hpos hcommon hm hslot₂
      (hxi _ hsucc) (hbi y hyb _ hsucc) hnv
    have hbelow := hmoved h' _ hold fun z hz hzy =>
      hoff z (hbx z hz) hzy (hbi z hz _ le_rfl) (hbi z hz _ hsucc)
    have hnodup : (malloc (s.allocated + 1) :: (ls b ++ [malloc s.allocated])).Nodup := by
      rw [List.nodup_cons, List.mem_append, List.mem_singleton, not_or, List.nodup_append']
      exact ⟨⟨fun hmem => hbi _ hmem _ hsucc rfl, hnv.symm⟩, hap.nodup b,
        List.nodup_singleton _, fun z hz hzn => hbi z hz _ le_rfl (List.mem_singleton.mp hzn)⟩
    obtain ⟨lc, hrepc, hnodupc, hsubc⟩ := exists_rep_two hv (rep_leaf hnew) hbelow hnodup
    refine ⟨_, _, hrun, ?_, grows_slot child hap hfresh (by omega) le_rfl hroot hrepc hnodupc
      ?_ ?_⟩
    · cases b₂ <;> simp [addrAt, hroot, hv]
    · intro z hz
      obtain rfl | hz := List.mem_cons.mp (hsubc hz)
      · exact .inr ⟨s.allocated + 1, hsucc, Nat.lt_succ_self _, rfl⟩
      · obtain hz | hz := List.mem_append.mp hz
        · exact .inl hz
        · exact .inr ⟨s.allocated, le_rfl, by omega, (List.mem_singleton.mp hz).symm⟩
    · exact fun z hzx hzb hznew => hoff z hzx (fun heq => hzb (heq ▸ hyb))
        (hznew _ le_rfl).symm (hznew _ hsucc).symm

end

/-- **The part of `lpm_insert` behind the search** leaves what it leaves of the tree. -/
theorem insertAt_rep (hmalloc : Function.Injective malloc)
    (hfresh : ∀ i, s.allocated ≤ i → malloc i ∉ l) {found : Bool} {r : LpmTree δ × List Bool}
    (hk : k ≤ 128) (hcase : InsertCase p k data n c₀ c₁ found r)
    (hrep : Rep s.mem parent (some x) (.node n c₀ c₁) l) (hl : l.Nodup) :
    ∃ s' y, s.insertAt malloc p k data (if found then some x else none) x = .ok (s', y) ∧
      s'.mem.addrAt x r.2 = some y ∧ Grows malloc s parent x l r.1 s' := by
  cases hcase with
  | found =>
    obtain ⟨children, hcell, hgrows⟩ := grows_data malloc data hrep hl
    refine ⟨_, x, ?_, rfl, hgrows⟩
    rw [if_pos rfl, insertAt, load_eq_ok hcell]
    rfl
  | virtual hlen hdata =>
    obtain ⟨children, hcell, hgrows⟩ := grows_data malloc data hrep hl
    refine ⟨_, x, ?_, rfl, hgrows⟩
    simp [insertAt, load_eq_ok hcell, hlen, hdata, bind, Except.bind, pure, Except.pure]
  | leaf hlen hslot hnull => exact grows_leaf hfresh hrep hl hlen hslot data hnull
  | between hlen hslot hchild hpos hcommon hslot₂ =>
    exact grows_between hfresh hk hrep hl hlen hslot data hchild hpos hcommon hslot₂
  | fork hlen hslot hchild hpos hcommon hm hslot₂ =>
    exact grows_fork hfresh hk hrep hl hlen hslot hmalloc data hchild hpos hcommon hm hslot₂

/-! ## Whole insertions -/

/-- There is a tree in the allocated memory, with its head at an address. -/
def InStore (malloc : ℕ → LpmAddr) (s : LpmStore δ) (head : LpmAddr) (t : LpmTree δ) : Prop :=
  ∃ l, Rep s.mem none (some head) t l ∧ l.Nodup ∧ ∀ y ∈ l, ∃ i < s.allocated, malloc i = y

/-- A tree has no more nodes than were allocated. -/
theorem InStore.depth_le {head : LpmAddr} (hin : InStore malloc s head t) :
    depth t ≤ s.allocated := by
  obtain ⟨l, hrep, hl, hmem⟩ := hin
  have hsub : l ⊆ (List.range s.allocated).map malloc := fun y hy => by
    obtain ⟨i, hi, rfl⟩ := hmem y hy
    exact List.mem_map_of_mem (List.mem_range.mpr hi)
  have hlen := (hl.subperm hsub).length_le
  rw [List.length_map, List.length_range] at hlen
  exact (depth_le_length hrep).trans hlen

/-- **`lpm_insert`** leaves the tree that it leaves without addresses, with at most two new nodes,
and returns the node that it returns there. -/
theorem lpmInsert_rep (hmalloc : Function.Injective malloc) {head : LpmAddr}
    (hin : InStore malloc s head t) (hk : k ≤ 128) {fuel : ℕ} (hfuel : s.allocated ≤ fuel)
    {r : LpmTree δ × List Bool} (hr : Srn.lpmInsert t p k data = .ok r) :
    ∃ s' y, s.lpmInsert malloc fuel head p k data = .ok (s', y) ∧
      s'.mem.addrAt head r.2 = some y ∧ InStore malloc s' head r.1 ∧
      s'.allocated ≤ s.allocated + 2 := by
  have hdepth := hin.depth_le
  obtain ⟨l, hrep, hl, hmem⟩ := hin
  rw [Srn.lpmInsert] at hr
  obtain ⟨⟨path, found⟩, hsearch, hr⟩ := Fault.bind_eq_ok_iff.mp hr
  obtain ⟨c, rest, hc, rfl⟩ := modifyAt_eq_ok hr
  obtain ⟨x, hx, hrun⟩ := lookupSave_rep t hrep (hdepth.trans hfuel) hsearch
  obtain ⟨parentx, lx, hrepx, hlx, hsubx, hput⟩ := hrep.focus hl hx
  have hfresh : ∀ i, s.allocated ≤ i → malloc i ∉ l := by
    intro i hi hil
    obtain ⟨j, hj, heq⟩ := hmem _ hil
    have := hmalloc heq
    omega
  cases hnode : t.follow path with
  | null => rw [hnode] at hc; cases hc
  | node n c₀ c₁ =>
    rw [hnode] at hc hrepx
    obtain ⟨s', y, hins, hy, hgrows⟩ := insertAt_rep hmalloc
      (fun i hi hix => hfresh i hi (hsubx hix)) hk (case_of_insertAt hc) hrepx hlx
    obtain ⟨lx', hrepx', hlx', hmemx'⟩ := hgrows.rep
    have hnew : ∀ z ∈ lx', z ∈ lx ∨ z ∉ l := by
      intro z hz
      obtain hz | ⟨i, hi, -, rfl⟩ := hmemx' z hz
      · exact .inl hz
      · exact .inr (hfresh i hi)
    have hsame : ∀ z ∈ l, z ∉ lx → s'.mem z = s.mem z := fun z hz hzx =>
      hgrows.frame z hzx fun i hi heq => hfresh i hi (heq ▸ hz)
    obtain ⟨hpath, l', hrep', hl', hmem'⟩ := hput s'.mem c lx' hrepx' hlx' hnew hsame
    have hold : ∀ z ∈ l, ∃ i < s'.allocated, malloc i = z := fun z hz => by
      obtain ⟨i, hi, heq⟩ := hmem z hz
      exact ⟨i, hi.trans_le hgrows.le, heq⟩
    refine ⟨s', y, ?_, ?_, ⟨l', hrep', hl', fun z hz => ?_⟩, hgrows.bound⟩
    · rw [lpmInsert, hrun]
      exact hins
    · rw [addrAt_append, hpath]
      exact hy
    · obtain hz | hz := hmem' z hz
      · obtain hz | ⟨i, -, hi, heq⟩ := hmemx' z hz
        · exact hold z (hsubx hz)
        · exact ⟨i, hi, heq⟩
      · exact hold z hz

theorem inStore_lpmNew (malloc : ℕ → LpmAddr) :
    InStore malloc (lpmNew malloc : LpmStore δ) (malloc 0) Srn.lpmNew := by
  have hcell : (lpmNew malloc : LpmStore δ).mem (malloc 0) =
      some ⟨⟨.null, 0, 0⟩, none, fun _ => none⟩ := by
    simp only [lpmNew, Mem.store_self]
  exact ⟨[malloc 0], rep_leaf hcell, List.nodup_singleton _,
    fun _ hy => ⟨0, Nat.one_pos, (List.mem_singleton.mp hy).symm⟩⟩

/-! ## Runs -/

end LpmStore

/-- A call of `lpm_insert` or `lpm_lookup`. -/
inductive LpmOp (δ : Type) where
  | insert (pfx : In6Addr) (plen : ℕ) (data : LpmData δ)
  | lookup (addr : In6Addr)

/-- A prefix has up to 128 bits, and `(void *)-1` is not the data of an entry. -/
def LpmOp.Valid : LpmOp δ → Prop
  | .insert _ plen data => plen ≤ 128 ∧ data ≠ .minusOne
  | .lookup _ => True

namespace LpmStore

open LpmTree LpmHeap

/-- One call on the tree with the given head. -/
def step (malloc : ℕ → LpmAddr) (fuel : ℕ) (head : LpmAddr) (s : LpmStore δ) :
    LpmOp δ → Except LpmHeapFault (LpmStore δ)
  | .insert pfx plen data => do
    let (s, _) ← s.lpmInsert malloc fuel head pfx plen data
    return s
  | .lookup addr => do
    let _ ← s.mem.lpmLookup fuel head addr
    return s

/-- A sequence of calls. -/
def run (malloc : ℕ → LpmAddr) (fuel : ℕ) (head : LpmAddr) (s : LpmStore δ)
    (ops : List (LpmOp δ)) : Except LpmHeapFault (LpmStore δ) :=
  ops.foldlM (step malloc fuel head) s

/-- What holds between two calls: the memory has a loose tree, whose head is the empty prefix and
not virtual. -/
def Safe (malloc : ℕ → LpmAddr) (head : LpmAddr) (s : LpmStore δ) : Prop :=
  ∃ n c₀ c₁, InStore malloc s head (.node n c₀ c₁) ∧ LooseNode (.node n c₀ c₁) ∧ n.plen = 0 ∧
    n.data ≠ .minusOne

variable {malloc : ℕ → LpmAddr} {s : LpmStore δ} {head : LpmAddr}

theorem safe_lpmNew (malloc : ℕ → LpmAddr) :
    Safe malloc (malloc 0) (lpmNew malloc : LpmStore δ) :=
  ⟨⟨.null, 0, 0⟩, .null, .null, inStore_lpmNew malloc,
    ⟨Nat.zero_le _, fun b => by cases b <;> trivial⟩, rfl, by simp⟩

/-- **Step lemma.** A call ends without a fault, after as many rounds as there are nodes. -/
theorem Safe.step (hmalloc : Function.Injective malloc) (hsafe : Safe malloc head s) {op : LpmOp δ}
    (hop : op.Valid) {fuel : ℕ} (hfuel : s.allocated ≤ fuel) :
    ∃ s', s.step malloc fuel head op = .ok s' ∧ Safe malloc head s' ∧
      s'.allocated ≤ s.allocated + 2 := by
  obtain ⟨n, c₀, c₁, hin, hloose, hplen, hdata⟩ := hsafe
  cases op with
  | insert p k data =>
    have hcover : CoversExact p k (.node n c₀ c₁) :=
      ⟨hplen ▸ Nat.zero_le _, fun i hi => absurd hi (by omega)⟩
    obtain ⟨t', path, hins, hloose', hroot⟩ := lpmInsert_loose data hop.1 _ hloose hcover
    obtain ⟨s', y, hrun, -, hin', hle⟩ := lpmInsert_rep hmalloc hin hop.1 hfuel hins
    refine ⟨s', ?_, ?_, hle⟩
    · rw [LpmStore.step, hrun]
      rfl
    · cases t' with
      | null => exact hroot.elim
      | node n' c₀' c₁' =>
        obtain ⟨-, hplen', hdata'⟩ := hroot
        refine ⟨n', c₀', c₁', hin', hloose', hplen'.trans hplen, ?_⟩
        obtain hdata' | hdata' := hdata'
        · rwa [hdata']
        · rw [hdata']
          exact hop.2
  | lookup a =>
    have hdepth := hin.depth_le.trans hfuel
    obtain ⟨r, hr⟩ := lpmLookup_loose hloose hplen a
    refine ⟨s, ?_, ⟨n, c₀, c₁, hin, hloose, hplen, hdata⟩, Nat.le_add_right _ _⟩
    obtain ⟨l, hrep, -, -⟩ := hin
    rw [LpmStore.step, lpmLookup_rep hrep hdepth hr]
    rfl

/-- **Run lemma.** -/
theorem Safe.run (hmalloc : Function.Injective malloc) (hsafe : Safe malloc head s)
    (ops : List (LpmOp δ)) (hops : ∀ op ∈ ops, op.Valid) {fuel : ℕ}
    (hfuel : s.allocated + 2 * ops.length ≤ fuel) :
    ∃ s', s.run malloc fuel head ops = .ok s' ∧ Safe malloc head s' := by
  induction ops generalizing s with
  | nil => exact ⟨s, rfl, hsafe⟩
  | cons op ops ih =>
    rw [List.length_cons] at hfuel
    have hnow : s.allocated ≤ fuel := by omega
    obtain ⟨s₁, hstep, hsafe₁, hle⟩ := hsafe.step hmalloc (hops op List.mem_cons_self) hnow
    obtain ⟨s', hrun, hsafe'⟩ := ih hsafe₁ (fun o ho => hops o (List.mem_cons_of_mem _ ho))
      (by omega)
    refine ⟨s', ?_, hsafe'⟩
    rw [LpmStore.run, List.foldlM_cons, hstep]
    exact hrun

/-- **Safety of insertion and lookup.**  Every sequence of calls on a new tree ends without a
fault: no assertion fails, no character is read outside of a text of 129, no length is negative, no
pointer is followed that leads nowhere, and no search takes more rounds than there are nodes. -/
theorem lpm_run_safe (malloc : ℕ → LpmAddr) (hmalloc : Function.Injective malloc)
    (ops : List (LpmOp δ)) (hops : ∀ op ∈ ops, op.Valid) (fuel : ℕ)
    (hfuel : 2 * ops.length + 1 ≤ fuel) :
    ∃ s, (lpmNew malloc).run malloc fuel (malloc 0) ops = .ok s := by
  have hone : (lpmNew malloc : LpmStore δ).allocated = 1 := rfl
  have hrounds : (lpmNew malloc : LpmStore δ).allocated + 2 * ops.length ≤ fuel := by omega
  obtain ⟨s, hrun, -⟩ := (safe_lpmNew malloc).run hmalloc ops hops hrounds
  exact ⟨s, hrun⟩

/-- Four prefixes whose second one leaves its child in the wrong slot. -/
theorem lpm_run_safe_hidden :
    ∃ s, (lpmNew id).run id 11 0 [.insert (fourBits 0b1111) 4 (.entry 'a'),
      .insert (fourBits 0b1000) 1 (.entry 'b'), .insert (fourBits 0b1100) 4 (.entry 'c'),
      .insert (fourBits 0b1000) 2 (.entry 'd'), .lookup (fourBits 0b1100)] = .ok s :=
  lpm_run_safe id Function.injective_id _ (by simp [LpmOp.Valid]) 11 (by decide)

end LpmStore

end Srn
