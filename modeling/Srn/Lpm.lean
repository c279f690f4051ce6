import Srn.In6Addr

/-!
# Srn.Lpm

The longest prefix match tree of `lib/lpm.c`: a binary tree of prefixes in which the child
slots of a node stand for the bit that follows the node's prefix.

A node is identified by its path from the head, the list of child slots to take, so that
the pointer to the parent is the path without its last slot.  What the code takes for
granted is checked by the model: an operation returns a `LpmFault` when an assertion
fails, when a character of a 129-byte text is read past its end, or when `memcmp` is
given a negative length.
-/

namespace Srn

/-- The `data` pointer of a node: `NULL`, `(void *)-1` for a virtual node, or an entry. -/
inductive LpmData (δ : Type) where
  | null
  | minusOne
  | entry (d : δ)
  deriving DecidableEq, Repr

/-- `struct lpm_node` without its links. -/
structure LpmNode (δ : Type) where
  data : LpmData δ
  pfx : In6Addr
  plen : ℕ

/-- A pointer to a node with everything below it. -/
inductive LpmTree (δ : Type) where
  | null
  | node (n : LpmNode δ) (child0 child1 : LpmTree δ)

/-- The ways in which an operation on the tree can go wrong. -/
inductive LpmFault where
  | assertion
  | outOfBounds
  | negativeLength
  | nullDereference
  deriving DecidableEq, Repr

variable {δ : Type}

namespace LpmTree

/-- `children[b]`. -/
def child : LpmTree δ → Bool → LpmTree δ
  | .null, _ => .null
  | .node _ c₀ c₁, b => if b then c₁ else c₀

/-- `children[b] = c`. -/
def setChild : LpmTree δ → Bool → LpmTree δ → LpmTree δ
  | .null, _, _ => .null
  | .node n c₀ c₁, b, c => if b then .node n c₀ c else .node n c c₁

/-- The node at the end of a path. -/
def follow : LpmTree δ → List Bool → LpmTree δ
  | t, [] => t
  | t, b :: path => (t.child b).follow path

/-- Replace the node at the end of a path, by a function that also returns the path from
there to the node it is about. -/
def modifyAt (f : LpmTree δ → Except LpmFault (LpmTree δ × List Bool)) :
    List Bool → LpmTree δ → Except LpmFault (LpmTree δ × List Bool)
  | [], t => f t
  | b :: path, t => do
    let (c, rest) ← modifyAt f path (t.child b)
    return (t.setChild b c, b :: rest)

end LpmTree

open LpmTree

/-- `lpm_new`. -/
def lpmNew : LpmTree δ := .node { data := .null, pfx := 0, plen := 0 } .null .null

/-- `match_node`. -/
def matchNode (n : LpmNode δ) (addr : In6Addr) (curPlen : ℕ) : Except LpmFault Bool :=
  if n.plen = 0 then .ok true
  else if n.plen < curPlen then .error .negativeLength
  else if 129 < n.plen then .error .outOfBounds
  else .ok (((addrToBinary n.pfx).drop curPlen).take (n.plen - curPlen) ==
    ((addrToBinary addr).drop curPlen).take (n.plen - curPlen))

/-- The test of a child slot in `__lpm_lookup`: it is occupied and the child matches. -/
def matchChild (addr : In6Addr) (curPlen : ℕ) : LpmTree δ → Except LpmFault Bool
  | .null => .ok false
  | .node n _ _ => matchNode n addr curPlen

/-- The test of a child slot in `__lpm_lookup_exact`, where the child must not be longer
than the prefix. -/
def matchChildExact (pfx : In6Addr) (plen curPlen : ℕ) : LpmTree δ → Except LpmFault Bool
  | .null => .ok false
  | .node n _ _ => if n.plen ≤ plen then matchNode n pfx curPlen else .ok false

/-- `__lpm_lookup`: the last node on the way down that is not virtual. -/
def lookupFrom (addr : In6Addr) : LpmTree δ → LpmNode δ → Except LpmFault (LpmNode δ)
  | .null, lastMatch => .ok lastMatch
  | .node n c₀ c₁, lastMatch => do
    let lastMatch := match n.data with
      | .minusOne => lastMatch
      | _ => n
    if ← matchChild addr n.plen c₀ then lookupFrom addr c₀ lastMatch
    else if ← matchChild addr n.plen c₁ then lookupFrom addr c₁ lastMatch
    else return lastMatch

/-- `lpm_lookup`. -/
def lpmLookup (tree : LpmTree δ) (addr : In6Addr) : Except LpmFault (Option δ) :=
  match tree with
  | .null => .error .nullDereference
  | .node head c₀ c₁ => do
    let node ← lookupFrom addr (.node head c₀ c₁) head
    match node.data with
    | .entry d => return some d
    | _ => return none

/-- `__lpm_lookup_exact`: the path to the node where the search ended, and whether it is
the one asked for. -/
def lookupExact (pfx : In6Addr) (plen : ℕ) : LpmTree δ → Except LpmFault (List Bool × Bool)
  | .null => .error .nullDereference
  | .node n c₀ c₁ => do
    let matched ← matchNode n pfx 0
    let real := match n.data with
      | .minusOne => false
      | _ => true
    if matched && n.plen == plen && real then return ([], true)
    else if ← matchChildExact pfx plen n.plen c₀ then
      let (path, found) ← lookupExact pfx plen c₀
      return (false :: path, found)
    else if ← matchChildExact pfx plen n.plen c₁ then
      let (path, found) ← lookupExact pfx plen c₁
      return (true :: path, found)
    else return ([], false)

/-- `common_prefix_len`, for lengths that stay within the texts. -/
def commonPrefixLen (p₁ p₂ : In6Addr) (maxplen : ℕ) : ℕ :=
  ((((addrToBinary p₁).zip (addrToBinary p₂)).take maxplen).takeWhile fun c => c.1 == c.2).length

/-- The child slot for the character at an index: slot 0 for a zero, slot 1 otherwise. -/
def slotAt (bin : List Char) (i : ℕ) : Except LpmFault Bool :=
  match bin[i]? with
  | none => .error .outOfBounds
  | some c => .ok (if c = '0' then false else true)

/-- The part of `lpm_insert` behind the search, at the node `save` where it ended. -/
def insertAt (pfx : In6Addr) (plen : ℕ) (data : LpmData δ) (found : Bool) :
    LpmTree δ → Except LpmFault (LpmTree δ × List Bool)
  | .null => .error .nullDereference
  | .node save c₀ c₁ => do
    if found then return (.node { save with data := data } c₀ c₁, [])
    if save.plen = plen then
      match save.data with
      | .minusOne => return (.node { save with data := data } c₀ c₁, [])
      | _ => throw .assertion
    let child ← slotAt (addrToBinary pfx) save.plen
    let newNode : LpmTree δ := .node { data := data, pfx := pfx, plen := plen } .null .null
    match (node save c₀ c₁).child child with
    | .null => return ((node save c₀ c₁).setChild child newNode, [child])
    | .node cn cc₀ cc₁ =>
      let cplen := commonPrefixLen cn.pfx pfx plen
      if cplen = 0 then throw .assertion
      let child2 ← slotAt (addrToBinary pfx) cplen
      if cplen = plen then
        let newNode := newNode.setChild child2 (.node cn cc₀ cc₁)
        return ((node save c₀ c₁).setChild child newNode, [child])
      if plen ≤ cplen then throw .assertion
      let vnode : LpmTree δ :=
        .node { data := .minusOne, pfx := pfx, plen := cplen } .null .null
      let vnode := (vnode.setChild child2 newNode).setChild (!child2) (.node cn cc₀ cc₁)
      return ((node save c₀ c₁).setChild child vnode, [child, child2])

/-- `lpm_insert`: the new tree and the path to the node it returns. -/
def lpmInsert (tree : LpmTree δ) (pfx : In6Addr) (plen : ℕ) (data : LpmData δ) :
    Except LpmFault (LpmTree δ × List Bool) := do
  let (path, found) ← lookupExact pfx plen tree
  tree.modifyAt (insertAt pfx plen data found) path

/-- A call of `lpm_insert` with a pointer to an entry. -/
structure LpmInsertion (δ : Type) where
  pfx : In6Addr
  plen : ℕ
  data : δ

/-- A sequence of calls of `lpm_insert`. -/
def lpmRun : LpmTree δ → List (LpmInsertion δ) → Except LpmFault (LpmTree δ)
  | t, [] => .ok t
  | t, e :: es => do
    let (t', _) ← lpmInsert t e.pfx e.plen (.entry e.data)
    lpmRun t' es

end Srn
