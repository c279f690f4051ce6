import Srn.Lib.CString

/-!
# Block

The memory of one C object, byte by byte.  A cell of it is a number or one of the bytes of a
pointer, which cannot be read as a number; a pointer is given by what it points to.

`string`, `int` and `pointer` read a value from cells, and have no result where C gives none.
`slice_write` and `slice_write_of_disjoint` are what a write does to the cells of an object.
The members of a structure are laid out as on a machine with pointers of eight bytes.
-/

namespace Block

/-- A byte, or the byte `i` of a pointer. -/
inductive Cell (π : Type) where
  | byte (b : UInt8)
  | pointer (target : π) (i : ℕ)
  deriving DecidableEq, Repr

variable {π α : Type}

/-! ## Cells -/

/-- The `n` cells from an offset on. -/
def slice (m : List α) (offset n : ℕ) : List α := (m.drop offset).take n

/-- Bytes in memory. -/
def bytes (bs : List UInt8) : List (Cell π) := bs.map .byte

/-- What `calloc` returns. -/
def zeros (n : ℕ) : List (Cell π) := List.replicate n (.byte 0)

section

variable {m m' cells : List α} {offset k n : ℕ}

theorem getElem?_slice (m : List α) (k n i : ℕ) :
    (slice m k n)[i]? = if i < n then m[k + i]? else none := by
  rw [slice, List.getElem?_take, List.getElem?_drop]

theorem slice_add (m : List α) (k a b : ℕ) :
    slice m k (a + b) = slice m k a ++ slice m (k + a) b := by
  rw [slice, slice, slice, List.take_add, List.drop_drop]

/-- The cells from an offset on, split behind the first of them. -/
theorem drop_eq_slice_append (m : List α) (k n : ℕ) :
    m.drop k = slice m k n ++ m.drop (k + n) := by
  rw [slice, ← List.drop_drop, List.take_append_drop]

theorem length_write (h : CString.write m offset cells = some m') : m'.length = m.length := by
  rw [CString.write] at h
  split_ifs at h
  obtain rfl := Option.some.inj h
  simp only [List.length_append, List.length_take, List.length_drop]
  omega

theorem getElem?_write (h : CString.write m offset cells = some m') (i : ℕ) :
    m'[i]? = if offset ≤ i ∧ i < offset + cells.length then cells[i - offset]? else m[i]? := by
  rw [CString.write] at h
  split_ifs at h with hfits
  obtain rfl := Option.some.inj h
  have htake : (m.take offset).length = offset := List.length_take_of_le (by omega)
  rw [List.append_assoc, List.getElem?_append, htake]
  split_ifs with hlt hin hin
  · omega
  · rw [List.getElem?_take, if_pos hlt]
  · rw [List.getElem?_append_left (by omega)]
  · rw [List.getElem?_append_right (by omega), List.getElem?_drop]
    congr 1
    omega

/-- What was written is there. -/
theorem slice_write (h : CString.write m offset cells = some m') :
    slice m' offset cells.length = cells := by
  refine List.ext_getElem? fun i => ?_
  rw [getElem?_slice, getElem?_write h]
  split_ifs with hlt hin
  · rw [Nat.add_sub_cancel_left]
  · omega
  · rw [List.getElem?_eq_none (by omega)]

/-- Everything else is as before. -/
theorem slice_write_of_disjoint (h : CString.write m offset cells = some m')
    (hd : offset + cells.length ≤ k ∨ k + n ≤ offset) : slice m' k n = slice m k n := by
  refine List.ext_getElem? fun i => ?_
  rw [getElem?_slice, getElem?_slice, getElem?_write h]
  split_ifs with hlt hin
  · omega
  · rfl
  · rfl

end

theorem slice_zeros {size k n : ℕ} (h : k + n ≤ size) :
    slice (zeros size : List (Cell π)) k n = zeros n := by
  refine List.ext_getElem? fun i => ?_
  simp only [getElem?_slice, zeros, List.getElem?_replicate]
  split_ifs
  · rfl
  · omega
  · rfl

/-! ## Strings -/

/-- The string that begins with the first cell. -/
def string : List (Cell π) → Option (List UInt8)
  | .byte b :: rest => if b = 0 then some [] else (string rest).map (b :: ·)
  | _ => none

theorem string_append {cells : List (Cell π)} {s : List UInt8} (h : string cells = some s)
    (rest : List (Cell π)) : string (cells ++ rest) = some s := by
  induction cells generalizing s with
  | nil => cases h
  | cons cell cells ih =>
    cases cell with
    | pointer t i => cases h
    | byte b =>
      rw [string] at h
      rw [List.cons_append, string]
      split_ifs at h ⊢
      · exact h
      · obtain ⟨s', hs', rfl⟩ := Option.map_eq_some_iff.mp h
        rw [ih hs']
        rfl

theorem string_bytes {s : List UInt8} (h : 0 ∉ s) (rest : List (Cell π)) :
    string (bytes s ++ .byte 0 :: rest) = some s := by
  induction s with
  | nil => rfl
  | cons b s ih =>
    obtain ⟨hb, hs⟩ := not_or.mp (mt List.mem_cons.mpr h)
    rw [bytes, List.map_cons, List.cons_append, string, if_neg (Ne.symm hb)]
    rw [bytes] at ih
    rw [ih hs]
    rfl

/-! ## Numbers -/

/-- The bytes of an `int`, the least significant first. -/
def intBytes (i : Int32) : List UInt8 :=
  [.ofNat i.toUInt32.toNat, .ofNat (i.toUInt32.toNat / 256), .ofNat (i.toUInt32.toNat / 65536),
    .ofNat (i.toUInt32.toNat / 16777216)]

/-- The `int` in four cells. -/
def int : List (Cell π) → Option Int32
  | [.byte a, .byte b, .byte c, .byte d] =>
    some (UInt32.ofNat (a.toNat + 256 * b.toNat + 65536 * c.toNat + 16777216 * d.toNat)).toInt32
  | _ => none

theorem int_intBytes (i : Int32) : int (bytes (intBytes i) : List (Cell π)) = some i := by
  have hlt := i.toUInt32.toNat_lt
  have hsum : ∀ n < 2 ^ 32, n % 256 + 256 * (n / 256 % 256) + 65536 * (n / 65536 % 256) +
      16777216 * (n / 16777216 % 256) = n := by
    intro n hn
    omega
  simp only [bytes, intBytes, List.map_cons, List.map_nil, int, UInt8.toNat_ofNat']
  rw [hsum _ hlt, UInt32.ofNat_toNat]
  rfl

/-! ## Pointers -/

/-- The bytes of a pointer. -/
def pointerCells (target : π) : List (Cell π) := (List.range 8).map (.pointer target)

/-- The pointer in eight cells, which is `NULL` if they are zero. -/
def pointer [DecidableEq π] : List (Cell π) → Option (Option π)
  | .pointer t i :: rest =>
    if .pointer t i :: rest = pointerCells t then some (some t) else none
  | cells => if cells = zeros 8 then some none else none

theorem pointer_pointerCells [DecidableEq π] (t : π) :
    pointer (pointerCells t) = some (some t) := by
  show (if pointerCells t = pointerCells t then some (some t) else none) = _
  rw [if_pos rfl]

/-! ## Structures -/

/-- The type of a member. -/
inductive CType where
  | chars (n : ℕ)
  | int
  | pointer
  deriving DecidableEq, Repr

def CType.size : CType → ℕ
  | .chars n => n
  | .int => 4
  | .pointer => 8

def CType.align : CType → ℕ
  | .chars _ => 1
  | .int => 4
  | .pointer => 8

/-- The members of a structure, by their names. -/
abbrev Struct := List (String × CType)

/-- The next offset with an alignment. -/
def alignUp (offset align : ℕ) : ℕ := (offset + align - 1) / align * align

namespace Struct

/-- The members with their offsets. -/
def layout : ℕ → Struct → List (String × CType × ℕ)
  | _, [] => []
  | offset, (name, type) :: rest =>
    let start := alignUp offset type.align
    (name, type, start) :: layout (start + type.size) rest

/-- The member of that name, with its offset. -/
def member (s : Struct) (name : String) : Option (CType × ℕ) :=
  ((layout 0 s).find? fun x => x.1 = name).map Prod.snd

/-- `offsetof`. -/
def offsetof (s : Struct) (name : String) : ℕ := (s.member name).elim 0 Prod.snd

/-- `sizeof`: the end of the last member, aligned for an array of structures. -/
def sizeof (s : Struct) : ℕ :=
  alignUp ((layout 0 s).getLast?.elim 0 fun x => x.2.2 + x.2.1.size)
    (s.foldl (fun a x => max a x.2.align) 1)

end Struct

end Block
