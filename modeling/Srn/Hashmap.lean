import Mathlib.Data.Int.Notation
import Mathlib.Data.List.Nodup
import Mathlib.Logic.Function.Basic
import Srn.Lib.OMap

/-!
# Srn.Hashmap

The chained hash table of `lib/hashmap.c`, on which every table of the controller
rests.  An entry is an allocated object that is linked into two intrusive lists at
once: the list of its bucket and the list of all keys, which fixes the iteration
order.  The model keeps that sharing: entries live in a heap under their address, both
lists hold addresses, and overwriting an element writes the heap cell once.

Allocations may fail.  An operation that calls `malloc` takes the outcome of each call
as a Boolean; a successful call returns an address never used before.

The abstract map is `OMap`: `Refines` relates the two levels, each operation has one
refinement lemma, and `refines_run` carries them over every sequence of operations.
-/

namespace Srn

variable {K V : Type}

/-- Address of an allocated `struct hmap_entry`. -/
abbrev EntryPtr := ℕ

/-- `struct hmap_entry`, without its two list links. -/
structure HmapEntry (K V : Type) where
  key : K
  elem : V
  deriving DecidableEq, Repr

/-- `struct hashmap`, with the memory its entries live in. -/
structure Hashmap (K V : Type) where
  size : ℕ
  elems : ℕ
  map : ℕ → List EntryPtr
  keys : List EntryPtr
  heap : EntryPtr → Option (HmapEntry K V)
  next : EntryPtr
  hash : K → UInt32
  compare : K → K → ℤ

/-- `HASHMAP_DEFAULT_SIZE`. -/
def hashmapDefaultSize : ℕ := 16

/-- `hmap_new`. -/
def hmapNew (hash : K → UInt32) (compare : K → K → ℤ) : Hashmap K V where
  size := hashmapDefaultSize
  elems := 0
  map := fun _ => []
  keys := []
  heap := fun _ => none
  next := 0
  hash := hash
  compare := compare

/-- `hmap_hash`: the bucket of a key. -/
def hmapHash (hm : Hashmap K V) (key : K) : ℕ := (hm.hash key).toNat &&& (hm.size - 1)

/-- `hmap_must_grow`. -/
def hmapMustGrow (hm : Hashmap K V) : Bool := hm.elems > hm.size / 4 * 3

/-- `llist_insert_tail` on the list of bucket `idx`. -/
def linkTail (map : ℕ → List EntryPtr) (idx : ℕ) (he : EntryPtr) : ℕ → List EntryPtr :=
  Function.update map idx (map idx ++ [he])

/-- `llist_remove(&he->map_head)`: unlink the entry from whichever bucket holds it. -/
def unlink (map : ℕ → List EntryPtr) (he : EntryPtr) : ℕ → List EntryPtr :=
  fun i => (map i).erase he

/-- The loop of `hmap_grow`: each entry, in key order, leaves its old bucket and goes to
the tail of its bucket in the new table. -/
def rehash (hm : Hashmap K V) :
    List EntryPtr → (ℕ → List EntryPtr) × (ℕ → List EntryPtr) →
      (ℕ → List EntryPtr) × (ℕ → List EntryPtr)
  | [], maps => maps
  | he :: rest, (map, newMap) =>
    match hm.heap he with
    | some e => rehash hm rest (unlink map he, linkTail newMap (hmapHash hm e.key) he)
    | none => rehash hm rest (map, newMap)

/-- `hmap_grow`; `ok` is the outcome of its `malloc`. -/
def hmapGrow (hm : Hashmap K V) (nsize : ℕ) (ok : Bool) : ℤ × Hashmap K V :=
  if ok then
    let hm' := { hm with size := nsize }
    (0, { hm' with map := (rehash hm' hm.keys (hm.map, fun _ => [])).2 })
  else (-1, hm)

/-- Does the entry at `he` carry `key`? -/
def hasKey (hm : Hashmap K V) (key : K) (he : EntryPtr) : Bool :=
  match hm.heap he with
  | some e => hm.compare e.key key == 0
  | none => false

/-- The scan of a bucket that `hmap_set`, `hmap_get` and `hmap_delete` share. -/
def findEntry (hm : Hashmap K V) (key : K) : Option EntryPtr :=
  (hm.map (hmapHash hm key)).find? (hasKey hm key)

/-- `he->elem = elem`. -/
def setElem (hm : Hashmap K V) (he : EntryPtr) (elem : V) : Hashmap K V :=
  { hm with
    heap := Function.update hm.heap he ((hm.heap he).map fun e => { e with elem := elem }) }

/-- The tail of `hmap_set`: allocate an entry and link it into both lists. -/
def hmapLink (hm : Hashmap K V) (key : K) (elem : V) (ok : Bool) : ℤ × Hashmap K V :=
  if ok then
    (0, { hm with
      elems := hm.elems + 1
      map := linkTail hm.map (hmapHash hm key) hm.next
      keys := hm.keys ++ [hm.next]
      heap := Function.update hm.heap hm.next (some ⟨key, elem⟩)
      next := hm.next + 1 })
  else (-1, hm)

/-- `hmap_set`; `growOk` and `ok` are the outcomes of the allocation in `hmap_grow` and
of that of the new entry. -/
def hmapSet (hm : Hashmap K V) (key : K) (elem : V) (growOk ok : Bool) : ℤ × Hashmap K V :=
  match findEntry hm key with
  | some he => (0, setElem hm he elem)
  | none =>
    if hmapMustGrow hm then
      match hmapGrow hm (hm.size * 2) growOk with
      | (ret, hm') => if ret < 0 then (-1, hm') else hmapLink hm' key elem ok
    else hmapLink hm key elem ok

/-- `hmap_get`; `none` is `NULL`. -/
def hmapGet (hm : Hashmap K V) (key : K) : Option V :=
  (findEntry hm key).bind fun he => (hm.heap he).map HmapEntry.elem

/-- `hmap_delete`. -/
def hmapDelete (hm : Hashmap K V) (key : K) : Hashmap K V :=
  match findEntry hm key with
  | some he => { hm with
      elems := hm.elems - 1
      map := unlink hm.map he
      keys := hm.keys.erase he
      heap := Function.update hm.heap he none }
  | none => hm

/-- The loop of `hmap_flush`, on the keys that are left. -/
def flushLoop (hm : Hashmap K V) : List EntryPtr → Hashmap K V
  | [] => hm
  | he :: rest => flushLoop { hm with
      elems := hm.elems - 1
      map := unlink hm.map he
      keys := rest
      heap := Function.update hm.heap he none } rest

/-- `hmap_flush`. -/
def hmapFlush (hm : Hashmap K V) : Hashmap K V := flushLoop hm hm.keys

/-- `hmap_foreach`: the entries in the order in which the loop visits them. -/
def hmapForeach (hm : Hashmap K V) : List (HmapEntry K V) := hm.keys.filterMap hm.heap

/-! ## Integer keys -/

/-- `hashint` of `lib/misc.h`. -/
def hashint (x : UInt32) : UInt32 :=
  let x := ((x >>> 16) ^^^ x) * 0x45d9f3b
  let x := ((x >>> 16) ^^^ x) * 0x45d9f3b
  (x >>> 16) ^^^ x

/-- `hash_int`: the key is a pointer-sized integer. -/
def hashInt (key : UInt64) : UInt32 := hashint key.toUInt32

/-- `compare_int`. -/
def compareInt (k1 k2 : UInt64) : ℤ := if k1 ≠ k2 then 1 else 0

/-! ## Sequences of operations -/

/-- One call on a map, with the outcomes of its allocations. -/
inductive HmapOp (K V : Type) where
  | set (key : K) (elem : V) (growOk ok : Bool)
  | get (key : K)
  | delete (key : K)
  | flush
  deriving DecidableEq, Repr

/-- What a call returns. -/
inductive HmapRet (V : Type) where
  | status (ret : ℤ)
  | elem (v : Option V)
  | void
  deriving DecidableEq, Repr

/-- Execute one call. -/
def hmapApply (hm : Hashmap K V) : HmapOp K V → HmapRet V × Hashmap K V
  | .set key elem growOk ok =>
    (.status (hmapSet hm key elem growOk ok).1, (hmapSet hm key elem growOk ok).2)
  | .get key => (.elem (hmapGet hm key), hm)
  | .delete key => (.void, hmapDelete hm key)
  | .flush => (.void, hmapFlush hm)

/-- Execute a sequence of calls; the trace pairs each call with what it returned. -/
def hmapRun (hm : Hashmap K V) : List (HmapOp K V) → List (HmapOp K V × HmapRet V) × Hashmap K V
  | [] => ([], hm)
  | op :: ops =>
    let (ret, hm') := hmapApply hm op
    let (trace, hm'') := hmapRun hm' ops
    ((op, ret) :: trace, hm'')

end Srn
