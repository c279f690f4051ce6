import Srn.Lib.Block
import Srn.Srdb.Entry

/-!
# Srn.Srdb.Memory

`write_desc_data` and `fill_srdb_entry` of `lib/srdb.c` on the bytes of an entry: a descriptor says
at which offset of the structure its field is, `write_desc_data` reads the field there, and
`fill_srdb_entry` copies a column there with `strncpy`, as an `int` or with `strndup`.

The fields of a table do not overlap.  So `fill_srdb_entry` never writes outside the entry and
stores every column in its own field, whatever the line is (`Raw.Ok.fill`); and the fields that a
row was written from are read back from it (`Raw.Ok.roundtrip`).  Memory is always available.
-/

namespace Srn

open Block

/-! ## Fields -/

/-- The bytes of an entry; its pointers are to strings. -/
abbrev RawEntry := List (Cell (List UInt8))

/-- What is in a field: the string in an array, a number, or the string behind a pointer. -/
inductive FieldValue where
  | str (s : List UInt8)
  | int (i : Int32)
  | varstr (s : Option (List UInt8))
  deriving DecidableEq, Repr

/-- The bytes are UTF-8. -/
def IsUtf8 (s : List UInt8) : Prop := (String.fromUTF8? s.toByteArray).isSome

instance (s : List UInt8) : Decidable (IsUtf8 s) :=
  inferInstanceAs (Decidable ((String.fromUTF8? s.toByteArray).isSome = true))

namespace Raw

/-- `json_string`, which returns `NULL` for bytes that are not UTF-8. -/
def jsonString (s : List UInt8) : Option Json := (String.fromUTF8? s.toByteArray).map .string

/-- The string that `json_string_value` points to, which ends at a zero. -/
def jsonStringValue (s : String) : List UInt8 := s.toUTF8.data.toList.takeWhile fun b => b ≠ 0

/-- The field of a descriptor; `none` where reading it is undefined. -/
def field (entry : RawEntry) (desc : SrdbDescriptor ℕ) : Option FieldValue :=
  match desc.type with
  | .str => (string (entry.drop desc.offset)).map .str
  | .int => (int (slice entry desc.offset 4)).map .int
  | .varstr => (pointer (slice entry desc.offset 8)).map .varstr

/-- The value of a column. -/
def toJson : FieldValue → Option Json
  | .str s => jsonString s
  | .int i => some (.integer i.toInt)
  | .varstr s => s.bind jsonString

/-! ## Writing a row -/

/-- `write_desc_data`. -/
def writeDescData (row : List (String × Json)) (desc : SrdbDescriptor ℕ) (entry : RawEntry) :
    Option (List (String × Json)) :=
  (field entry desc).map fun v => objectSetNew row desc.name (toJson v)

/-- The row of `srdb_insert`. -/
def insertRow (descs : List (SrdbDescriptor ℕ)) (entry : RawEntry) :
    Option (List (String × Json)) :=
  descs.foldlM (fun row desc =>
    if !desc.builtin then writeDescData row desc entry else some row) []

/-- `struct srdb_update_transact`. -/
structure UpdateTransact where
  entry : RawEntry
  indexMask : UInt32
  fields : List (String × Json)

/-- `srdb_update_prepare`. -/
def srdbUpdatePrepare (entry : RawEntry) : UpdateTransact := ⟨entry, 0, []⟩

/-- `srdb_update_append_mask`. -/
def srdbUpdateAppendMask (descs : List (SrdbDescriptor ℕ)) (utr : UpdateTransact)
    (indexMask : UInt32) : Option UpdateTransact := do
  let fields ← descs.foldlM (fun row desc =>
    if desc.index = 0 then some row
    else if indexMask &&& entryMask desc.index ≠ 0 then writeDescData row desc utr.entry
    else some row) utr.fields
  return { utr with fields, indexMask := utr.indexMask ||| indexMask }

/-! ## Reading a row -/

/-- The `switch` of `fill_srdb_entry`; `none` if a byte outside the entry is written. -/
def storeColumn (entry : RawEntry) (desc : SrdbDescriptor ℕ) (value : Option Json) :
    Option RawEntry :=
  match desc.type, value with
  | .str, some (.string s) => CString.write entry desc.offset
      (bytes (CString.strncpy 0 desc.maxlen desc.maxlen (jsonStringValue s)))
  | .int, some (.integer i) => CString.write entry desc.offset (bytes (intBytes (Int32.ofInt i)))
  | .varstr, some (.string s) =>
    CString.write entry desc.offset (pointerCells ((jsonStringValue s).take desc.maxlen))
  | _, _ => some entry

/-- A round of the loop of `fill_srdb_entry`; `row` is the first member of an entry. -/
def fillColumn (uuid : List UInt8) (line : Json) (st : RawEntry × UInt32)
    (desc : SrdbDescriptor ℕ) : Option (RawEntry × UInt32) :=
  if desc.name = "row" then
    (CString.write st.1 0 (bytes (CString.strncpy 0 desc.maxlen desc.maxlen uuid))).map
      fun entry => (entry, st.2)
  else
    match line.objectGet desc.name with
    | none => some st
    | some value =>
      (storeColumn st.1 desc (if desc.name = "_version" then
          arrayGet (line.objectGet "_version") 1 else some value)).map fun entry =>
        (entry, if desc.index ≠ 0 then st.2 ||| entryMask desc.index else st.2)

/-- `fill_srdb_entry`, on an entry of `size` bytes from `calloc`. -/
def fillSrdbEntry (size : ℕ) (descs : List (SrdbDescriptor ℕ)) (uuid : List UInt8) (line : Json) :
    Option (RawEntry × UInt32) :=
  descs.foldlM (fillColumn uuid line) (zeros size, 0)

/-! ## Tables -/

/-- The number of bytes of a field. -/
def width (desc : SrdbDescriptor ℕ) : ℕ :=
  match desc.type with
  | .str => desc.maxlen + 1
  | .int => 4
  | .varstr => 8

theorem width_pos (desc : SrdbDescriptor ℕ) : 0 < width desc := by
  rw [width]
  cases desc.type with
  | str => exact Nat.succ_pos _
  | int => exact Nat.succ_pos 3
  | varstr => exact Nat.succ_pos 7

/-- The fields do not overlap. -/
def Apart (d d' : SrdbDescriptor ℕ) : Prop :=
  d.offset + width d ≤ d'.offset ∨ d'.offset + width d' ≤ d.offset

instance (d d' : SrdbDescriptor ℕ) : Decidable (Apart d d') :=
  inferInstanceAs (Decidable (_ ∨ _))

/-- What makes the descriptors of a table with entries of `size` bytes sound. -/
structure Ok (size : ℕ) (descs : List (SrdbDescriptor ℕ)) : Prop where
  names : (descs.map SrdbDescriptor.name).Nodup
  builtin : ∀ d ∈ descs, d.builtin = true ↔ d.name = "row" ∨ d.name = "_version"
  row : ∀ d ∈ descs, d.name = "row" → d.offset = 0 ∧ d.type = .str
  index : ∀ d ∈ descs, d.index < 32 ∧ (d.index = 0 ↔ d.builtin = true)
  apart : descs.Pairwise Apart
  fits : ∀ d ∈ descs, d.offset + width d ≤ size

/-- The value can be in a field of the descriptor, and fits there. -/
def Fits (desc : SrdbDescriptor ℕ) (v : FieldValue) : Prop :=
  match desc.type, v with
  | .str, .str s => s.length ≤ desc.maxlen ∧ 0 ∉ s ∧ IsUtf8 s
  | .int, .int _ => True
  | .varstr, .varstr (some s) => s.length ≤ desc.maxlen ∧ 0 ∉ s ∧ IsUtf8 s
  | _, _ => False

/-- The bytes of a value in a field of a fresh entry. -/
def cells (desc : SrdbDescriptor ℕ) : FieldValue → RawEntry
  | .str s => bytes (CString.strncpy 0 (desc.maxlen + 1) desc.maxlen s)
  | .int i => bytes (intBytes i)
  | .varstr none => zeros 8
  | .varstr (some s) => pointerCells s

/-- The value of a field that is zero. -/
def zeroValue (desc : SrdbDescriptor ℕ) : FieldValue :=
  match desc.type with
  | .str => .str []
  | .int => .int 0
  | .varstr => .varstr none

/-- The value that a field gets from a column; `none` if it is of another type. -/
def ofJson (desc : SrdbDescriptor ℕ) (value : Option Json) : Option FieldValue :=
  match desc.type, value with
  | .str, some (.string s) => some (.str ((jsonStringValue s).take desc.maxlen))
  | .int, some (.integer i) => some (.int (Int32.ofInt i))
  | .varstr, some (.string s) => some (.varstr (some ((jsonStringValue s).take desc.maxlen)))
  | _, _ => none

/-- The value that a field gets from a line. -/
def column (uuid : List UInt8) (line : Json) (desc : SrdbDescriptor ℕ) : Option FieldValue :=
  if desc.name = "row" then some (.str (uuid.take desc.maxlen))
  else (line.objectGet desc.name).bind fun value =>
    ofJson desc (if desc.name = "_version" then arrayGet (line.objectGet "_version") 1
      else some value)

/-- The mask after a column. -/
def addIndex (line : Json) (mask : UInt32) (desc : SrdbDescriptor ℕ) : UInt32 :=
  if desc.name ≠ "row" ∧ (line.objectGet desc.name).isSome ∧ desc.index ≠ 0 then
    mask ||| entryMask desc.index
  else mask

/-! ## One column -/

theorem utf8_of_jsonString {s : List UInt8} {t : String}
    (h : String.fromUTF8? s.toByteArray = some t) :
    t.toUTF8.data.toList = s := by
  unfold String.fromUTF8? at h
  split at h
  · obtain rfl := Option.some.inj h
    show s.toByteArray.data.toList = s
    rw [List.data_toByteArray, List.toList_toArray]
  · cases h

/-- A string with no zero in it is read back from JSON. -/
theorem exists_jsonString {s : List UInt8} (hutf8 : IsUtf8 s) (hzero : 0 ∉ s) :
    ∃ t, jsonString s = some (.string t) ∧ jsonStringValue t = s := by
  obtain ⟨t, ht⟩ := Option.isSome_iff_exists.mp hutf8
  refine ⟨t, by rw [jsonString, ht]; rfl, ?_⟩
  rw [jsonStringValue, utf8_of_jsonString ht]
  have hall : ∀ b ∈ s, decide (b ≠ 0) = true := fun b hb =>
    decide_eq_true fun h => hzero (h ▸ hb)
  rw [← List.append_nil s, List.takeWhile_append_of_pos hall, List.takeWhile_nil]

variable {entry entry' : RawEntry} {desc : SrdbDescriptor ℕ} {v : FieldValue}

/-- The entry after a write to a field: the rest of it is as before. -/
structure Stores (entry entry' : RawEntry) (desc : SrdbDescriptor ℕ) : Prop where
  length : entry'.length = entry.length
  frame : ∀ k n, desc.offset + width desc ≤ k ∨ k + n ≤ desc.offset →
    slice entry' k n = slice entry k n

theorem Stores.refl (entry : RawEntry) (desc : SrdbDescriptor ℕ) : Stores entry entry desc :=
  ⟨rfl, fun _ _ _ => rfl⟩

theorem stores_of_write {cs : RawEntry} (h : CString.write entry desc.offset cs = some entry')
    (hle : cs.length ≤ width desc) : Stores entry entry' desc where
  length := length_write h
  frame k n hd := slice_write_of_disjoint h (by omega)

/-- `strncpy` into a fresh array. -/
theorem exists_strncpy (htype : desc.type = .str) (hfits : desc.offset + width desc ≤ entry.length)
    (s : List UInt8) : ∃ entry', CString.write entry desc.offset
        (bytes (CString.strncpy 0 desc.maxlen desc.maxlen s)) = some entry' ∧
      Stores entry entry' desc ∧
      (slice entry desc.offset (width desc) = zeros (width desc) →
        slice entry' desc.offset (width desc) =
          bytes (CString.strncpy 0 (desc.maxlen + 1) desc.maxlen s)) := by
  have hwidth : width desc = desc.maxlen + 1 := by rw [width, htype]
  have hlength : (bytes (CString.strncpy 0 desc.maxlen desc.maxlen s) : RawEntry).length =
      desc.maxlen := by
    rw [bytes, List.length_map, CString.length_strncpy (Nat.le_refl _)]
  obtain ⟨entry', hwrite⟩ : ∃ entry', CString.write entry desc.offset
      (bytes (CString.strncpy 0 desc.maxlen desc.maxlen s)) = some entry' :=
    ⟨_, CString.write_eq (by omega)⟩
  refine ⟨entry', hwrite, stores_of_write hwrite (by omega), fun hzero => ?_⟩
  have hwritten := slice_write hwrite
  have hlast := slice_write_of_disjoint (k := desc.offset + desc.maxlen) (n := 1) hwrite
    (by omega)
  have hold : (slice entry desc.offset desc.maxlen).length =
      (List.replicate desc.maxlen (Cell.byte 0 : Cell (List UInt8))).length := by
    rw [slice, List.length_take, List.length_drop, List.length_replicate]
    omega
  rw [hwidth, slice_add, zeros, List.replicate_succ'] at hzero
  rw [hlength] at hwritten
  rw [hwidth, slice_add, hwritten, hlast, (List.append_inj hzero hold).2]
  have hrest : ∀ n k : ℕ, k ≤ n → n + 1 - k = n - k + 1 := by omega
  simp only [bytes, CString.strncpy, List.map_append, List.append_assoc]
  rw [hrest _ _ (List.length_take_le _ _), List.replicate_succ', List.map_append]
  rfl

theorem strncpy_take (size n : ℕ) (s : List UInt8) :
    CString.strncpy 0 size n (s.take n) = CString.strncpy 0 size n s := by
  rw [CString.strncpy, CString.strncpy, List.take_take, Nat.min_self]

theorem cells_zeroValue (desc : SrdbDescriptor ℕ) :
    cells desc (zeroValue desc) = zeros (width desc) := by
  rw [zeroValue, width]
  cases desc.type with
  | str => simp [cells, CString.strncpy, bytes, zeros]
  | int => exact (show (bytes (intBytes 0) : RawEntry) = zeros 4 by decide)
  | varstr => rfl

/-- **Step lemma.**  A value is stored in its field. -/
theorem exists_storeColumn (value : Option Json)
    (hfits : desc.offset + width desc ≤ entry.length)
    (hzero : slice entry desc.offset (width desc) = zeros (width desc)) :
    ∃ entry', storeColumn entry desc value = some entry' ∧ Stores entry entry' desc ∧
      slice entry' desc.offset (width desc) =
        cells desc ((ofJson desc value).getD (zeroValue desc)) := by
  unfold storeColumn ofJson
  split
  · next s htype =>
    obtain ⟨entry', hwrite, hstores, hslice⟩ := exists_strncpy htype hfits (jsonStringValue s)
    refine ⟨entry', hwrite, hstores, (hslice hzero).trans ?_⟩
    rw [Option.getD_some, cells, strncpy_take]
  · next i htype =>
    have hwidth : width desc = 4 := by rw [width, htype]
    rw [hwidth] at hfits
    have hwrite := CString.write_eq (show desc.offset + (bytes (intBytes (Int32.ofInt i)) :
      RawEntry).length ≤ entry.length from hfits)
    refine ⟨_, hwrite, stores_of_write hwrite (by rw [hwidth]; rfl), ?_⟩
    rw [hwidth]
    exact slice_write hwrite
  · next s htype =>
    have hwidth : width desc = 8 := by rw [width, htype]
    rw [hwidth] at hfits
    have hwrite := CString.write_eq (show desc.offset + (pointerCells
      ((jsonStringValue s).take desc.maxlen)).length ≤ entry.length from hfits)
    refine ⟨_, hwrite, stores_of_write hwrite (by rw [hwidth]; rfl), ?_⟩
    rw [hwidth]
    exact slice_write hwrite
  · exact ⟨entry, rfl, .refl _ _, by rw [hzero, Option.getD_none, cells_zeroValue]⟩

/-- The value is of the type of the field, and a string ends in its array. -/
def Holds (desc : SrdbDescriptor ℕ) (v : FieldValue) : Prop :=
  match desc.type, v with
  | .str, .str s => s.length ≤ desc.maxlen ∧ 0 ∉ s
  | .int, .int _ => True
  | .varstr, .varstr _ => True
  | _, _ => False

/-- A field with the bytes of a value has that value. -/
theorem field_of_slice (hv : Holds desc v)
    (hslice : slice entry desc.offset (width desc) = cells desc v) : field entry desc = some v := by
  unfold Holds at hv
  split at hv
  · next s htype =>
    obtain ⟨hlength, hz⟩ := hv
    have hcells : cells desc (.str s) =
        bytes s ++ .byte 0 :: bytes (List.replicate (desc.maxlen - s.length) 0) := by
      rw [cells, CString.strncpy, List.take_of_length_le hlength,
        show desc.maxlen + 1 - s.length = desc.maxlen - s.length + 1 by omega,
        List.replicate_succ, bytes, List.map_append]
      rfl
    rw [field, htype, drop_eq_slice_append entry desc.offset (width desc), hslice, hcells]
    show (string _).map _ = _
    rw [string_append (string_bytes hz _)]
    rfl
  · next i htype =>
    have hwidth : width desc = 4 := by rw [width, htype]
    rw [hwidth] at hslice
    rw [field, htype, hslice]
    exact congrArg (Option.map FieldValue.int) (int_intBytes i)
  · next s htype =>
    have hwidth : width desc = 8 := by rw [width, htype]
    rw [hwidth] at hslice
    rw [field, htype, hslice]
    cases s with
    | none => rfl
    | some s => exact congrArg (Option.map FieldValue.varstr) (pointer_pointerCells s)
  · exact hv.elim

theorem Fits.holds (hv : Fits desc v) : Holds desc v := by
  unfold Fits at hv
  unfold Holds
  split at hv
  · next htype => simp only [htype]; exact ⟨hv.1, hv.2.1⟩
  · next htype => simp only [htype]
  · next htype => simp only [htype]
  · exact hv.elim

theorem holds_zeroValue (desc : SrdbDescriptor ℕ) : Holds desc (zeroValue desc) := by
  unfold Holds zeroValue
  cases desc.type with
  | str => exact ⟨Nat.zero_le _, List.not_mem_nil⟩
  | int => trivial
  | varstr => trivial

theorem zero_not_mem_jsonStringValue (s : String) : 0 ∉ jsonStringValue s := by
  intro h
  have hne : decide ((0 : UInt8) ≠ 0) = true := List.all_eq_true.mp List.all_takeWhile 0 h
  exact of_decide_eq_true hne rfl

theorem holds_ofJson {value : Option Json} (h : ofJson desc value = some v) : Holds desc v := by
  unfold ofJson at h
  split at h
  · next s htype =>
    obtain rfl := Option.some.inj h
    simp only [Holds, htype]
    exact ⟨List.length_take_le _ _, fun hz =>
      zero_not_mem_jsonStringValue s (List.mem_of_mem_take hz)⟩
  · next htype =>
    obtain rfl := Option.some.inj h
    simp only [Holds, htype]
  · next htype =>
    obtain rfl := Option.some.inj h
    simp only [Holds, htype]
  · cases h

/-- What a field gets from a line can be read there. -/
theorem holds_column {uuid : List UInt8} {line : Json} (huuid : 0 ∉ uuid)
    (hrow : desc.name = "row" → desc.type = .str) :
    Holds desc ((column uuid line desc).getD (zeroValue desc)) := by
  cases hcolumn : column uuid line desc with
  | none => exact holds_zeroValue desc
  | some v =>
    rw [column] at hcolumn
    by_cases h : desc.name = "row"
    · rw [if_pos h] at hcolumn
      obtain rfl := Option.some.inj hcolumn
      simp only [Holds, hrow h, Option.getD_some]
      exact ⟨List.length_take_le _ _, fun hz => huuid (List.mem_of_mem_take hz)⟩
    · rw [if_neg h] at hcolumn
      obtain ⟨value, -, hvalue⟩ := Option.bind_eq_some_iff.mp hcolumn
      exact holds_ofJson hvalue

/-- A value that fits comes back from JSON. -/
theorem Fits.exists_toJson (hv : Fits desc v) :
    ∃ j, toJson v = some j ∧ ofJson desc (some j) = some v := by
  unfold Fits at hv
  split at hv
  · next s htype =>
    obtain ⟨t, ht, hvalue⟩ := exists_jsonString hv.2.2 hv.2.1
    refine ⟨_, ht, ?_⟩
    simp only [ofJson, htype, hvalue, List.take_of_length_le hv.1]
  · next i htype =>
    refine ⟨_, rfl, ?_⟩
    simp only [ofJson, htype, Int32.ofInt_toInt]
  · next s htype =>
    obtain ⟨t, ht, hvalue⟩ := exists_jsonString hv.2.2 hv.2.1
    refine ⟨_, ht, ?_⟩
    simp only [ofJson, htype, hvalue, List.take_of_length_le hv.1]
  · exact hv.elim

/-! ## The row -/

variable {size : ℕ} {descs : List (SrdbDescriptor ℕ)} {sel : SrdbDescriptor ℕ → Bool}

/-- **Run lemma.**  A loop that writes the selected columns appends a member for each of them. -/
theorem foldlM_writeDescData {value : SrdbDescriptor ℕ → Json}
    (hnodup : (descs.map SrdbDescriptor.name).Nodup)
    (hvalue : ∀ d ∈ descs, sel d = true → ∃ v, field entry d = some v ∧ toJson v = some (value d))
    (row : List (String × Json)) (hrow : ∀ d ∈ descs, d.name ∉ row.map Prod.fst) :
    descs.foldlM (fun row d => if sel d then writeDescData row d entry else some row) row =
      some (row ++ (descs.filter sel).map fun d => (d.name, value d)) := by
  induction descs generalizing row with
  | nil => simp
  | cons d ds ih =>
    rw [List.map_cons, List.nodup_cons] at hnodup
    have hvalue' := fun d' hd' => hvalue d' (List.mem_cons_of_mem d hd')
    have hrow' := fun d' hd' => hrow d' (List.mem_cons_of_mem d hd')
    rw [List.foldlM_cons]
    by_cases hd : sel d = true
    · obtain ⟨v, hv, hj⟩ := hvalue d List.mem_cons_self hd
      have hwrite : writeDescData row d entry = some (row ++ [(d.name, value d)]) := by
        rw [writeDescData, hv, Option.map_some, hj,
          objectSetNew_of_notMem (hrow d List.mem_cons_self)]
        rfl
      rw [if_pos hd, hwrite, List.filter_cons_of_pos hd, List.map_cons,
        List.append_cons row _ (List.map _ _)]
      refine ih hnodup.2 hvalue' _ fun d' hd' hmem => ?_
      rw [List.map_append, List.mem_append] at hmem
      obtain hmem | hmem := hmem
      · exact hrow' d' hd' hmem
      · have hname : d'.name = d.name := List.mem_singleton.mp hmem
        exact hnodup.1 (hname ▸ List.mem_map_of_mem hd')
    · rw [if_neg hd, List.filter_cons_of_neg hd]
      exact ih hnodup.2 hvalue' row hrow'

/-- The columns of such a row. -/
theorem objectGet_selected (hnodup : (descs.map SrdbDescriptor.name).Nodup)
    (hmem : desc ∈ descs) (value : SrdbDescriptor ℕ → Json) :
    (Json.object ((descs.filter sel).map fun d => (d.name, value d))).objectGet desc.name =
      if sel desc then some (value desc) else none := by
  have hsame : ∀ d ∈ descs.filter sel, (d.name == desc.name) = true → d = desc := fun d hd hname =>
    List.inj_on_of_nodup_map hnodup (List.mem_of_mem_filter hd) hmem (by simpa using hname)
  rw [Json.objectGet, List.find?_map, Option.map_map]
  cases hfind : (descs.filter sel).find? ((fun m : String × Json => m.1 == desc.name) ∘ fun d =>
      (d.name, value d)) with
  | none =>
    have hnot : ¬ sel desc = true := fun hsel => by
      have hnone := List.find?_eq_none.mp hfind desc (List.mem_filter.mpr ⟨hmem, hsel⟩)
      simp at hnone
    rw [if_neg hnot]
    rfl
  | some d =>
    have hd := List.mem_of_find?_eq_some hfind
    obtain rfl := hsame d hd (by simpa using List.find?_some hfind)
    rw [if_pos (List.mem_filter.mp hd).2]
    rfl

/-! ## The entry -/

theorem Ok.not_builtin (hok : Ok size descs) {d : SrdbDescriptor ℕ} (hd : d ∈ descs)
    (hindex : d.index ≠ 0) : d.builtin = false :=
  Bool.eq_false_iff.mpr fun hb => hindex ((hok.index d hd).2.mpr hb)

section

variable {d : SrdbDescriptor ℕ} (hok : Ok size descs) (hd : d ∈ descs) (hb : d.builtin = false)

include hok hd hb

theorem Ok.index_ne_zero : d.index ≠ 0 := fun h =>
  Bool.eq_false_iff.mp hb ((hok.index d hd).2.mp h)

theorem Ok.name_ne_row : d.name ≠ "row" := fun h =>
  Bool.eq_false_iff.mp hb ((hok.builtin d hd).mpr (.inl h))

theorem Ok.name_ne_version : d.name ≠ "_version" := fun h =>
  Bool.eq_false_iff.mp hb ((hok.builtin d hd).mpr (.inr h))

end

theorem Ok.tail {d : SrdbDescriptor ℕ} (hok : Ok size (d :: descs)) : Ok size descs where
  names := (List.nodup_cons.mp hok.names).2
  builtin d' hd' := hok.builtin d' (List.mem_cons_of_mem _ hd')
  row d' hd' := hok.row d' (List.mem_cons_of_mem _ hd')
  index d' hd' := hok.index d' (List.mem_cons_of_mem _ hd')
  apart := (List.pairwise_cons.mp hok.apart).2
  fits d' hd' := hok.fits d' (List.mem_cons_of_mem _ hd')

/-- **Step lemma.** -/
theorem exists_fillColumn (uuid : List UInt8) (line : Json) (mask : UInt32) (hok : Ok size descs)
    (hmem : desc ∈ descs) (hlength : entry.length = size)
    (hzero : slice entry desc.offset (width desc) = zeros (width desc)) :
    ∃ entry', fillColumn uuid line (entry, mask) desc = some (entry', addIndex line mask desc) ∧
      Stores entry entry' desc ∧ slice entry' desc.offset (width desc) =
        cells desc ((column uuid line desc).getD (zeroValue desc)) := by
  have hfits : desc.offset + width desc ≤ entry.length := hlength ▸ hok.fits desc hmem
  rw [fillColumn, addIndex, column]
  by_cases hrow : desc.name = "row"
  · obtain ⟨hoffset, htype⟩ := hok.row desc hmem hrow
    obtain ⟨entry', hwrite, hstores, hslice⟩ := exists_strncpy htype hfits uuid
    rw [hoffset] at hwrite
    rw [if_pos hrow, if_pos hrow, if_neg (fun h => h.1 hrow), hwrite]
    refine ⟨entry', rfl, hstores, (hslice hzero).trans ?_⟩
    rw [Option.getD_some, cells, strncpy_take]
  · rw [if_neg hrow, if_neg hrow]
    cases hget : line.objectGet desc.name with
    | none =>
      refine ⟨entry, by simp, .refl _ _, ?_⟩
      rw [hzero, Option.bind_none, Option.getD_none, cells_zeroValue]
    | some value =>
      obtain ⟨entry', hstore, hstores, hslice⟩ := exists_storeColumn
        (if desc.name = "_version" then arrayGet (line.objectGet "_version") 1 else some value)
        hfits hzero
      refine ⟨entry', ?_, hstores, hslice⟩
      simp only [hstore, Option.map_some, Option.isSome_some, true_and, hrow, ne_eq,
        not_false_eq_true]

/-- **Run lemma.**  The loop of `fill_srdb_entry` stores every column in its own field. -/
theorem foldlM_fillColumn (uuid : List UInt8) (line : Json) (mask : UInt32)
    (hok : Ok size descs) (hlength : entry.length = size)
    (hzero : ∀ d ∈ descs, slice entry d.offset (width d) = zeros (width d)) :
    ∃ entry', descs.foldlM (fillColumn uuid line) (entry, mask) =
        some (entry', descs.foldl (addIndex line) mask) ∧
      (∀ k n, (∀ d ∈ descs, d.offset + width d ≤ k ∨ k + n ≤ d.offset) →
        slice entry' k n = slice entry k n) ∧
      ∀ d ∈ descs, slice entry' d.offset (width d) =
        cells d ((column uuid line d).getD (zeroValue d)) := by
  induction descs generalizing entry mask with
  | nil => exact ⟨entry, rfl, fun _ _ _ => rfl, fun d hd => by cases hd⟩
  | cons d ds ih =>
    have hapart := (List.pairwise_cons.mp hok.apart).1
    obtain ⟨entry₁, hfill, hstores, hslice⟩ := exists_fillColumn uuid line mask hok
      List.mem_cons_self hlength (hzero d List.mem_cons_self)
    obtain ⟨entry', hrest, hframe, hfields⟩ := ih (addIndex line mask d) hok.tail
      (hstores.length.trans hlength) fun d' hd' => by
        rw [hstores.frame _ _ (hapart d' hd'), hzero d' (List.mem_cons_of_mem _ hd')]
    refine ⟨entry', ?_, fun k n hd => ?_, fun d' hd' => ?_⟩
    · rw [List.foldlM_cons, hfill]
      exact hrest
    · rw [hframe k n fun d' hd' => hd d' (List.mem_cons_of_mem _ hd'),
        hstores.frame k n (hd d List.mem_cons_self)]
    · obtain rfl | hd' := List.mem_cons.mp hd'
      · rw [hframe _ _ fun d'' hd'' => (hapart d'' hd'').symm, hslice]
      · exact hfields d' hd'

/-- `fill_srdb_entry` on any line: nothing is written outside the entry, and every field has the
value of its column or is zero. -/
theorem Ok.fill (hok : Ok size descs) (uuid : List UInt8) (line : Json) :
    ∃ entry', fillSrdbEntry size descs uuid line = some (entry', descs.foldl (addIndex line) 0) ∧
      ∀ d ∈ descs, slice entry' d.offset (width d) =
        cells d ((column uuid line d).getD (zeroValue d)) := by
  obtain ⟨entry', hfill, -, hfields⟩ := foldlM_fillColumn uuid line 0 hok
    List.length_replicate fun d hd => slice_zeros (hok.fits d hd)
  exact ⟨entry', hfill, hfields⟩

/-- The fields that are then read. -/
theorem Ok.fill_field (hok : Ok size descs) {uuid : List UInt8} (huuid : 0 ∉ uuid) (line : Json) :
    ∃ entry', fillSrdbEntry size descs uuid line = some (entry', descs.foldl (addIndex line) 0) ∧
      ∀ d ∈ descs, field entry' d = some ((column uuid line d).getD (zeroValue d)) := by
  obtain ⟨entry', hfill, hfields⟩ := hok.fill uuid line
  exact ⟨entry', hfill, fun d hd =>
    field_of_slice (holds_column huuid fun h => (hok.row d hd h).2) (hfields d hd)⟩

/-! ## The mask -/

theorem getLsbD_entryMask {k i : ℕ} (hk : k < 32) (hi : i < 32) :
    (entryMask k).toBitVec.getLsbD i = decide (k = i) := by
  have hall : ∀ k < 32, ∀ i < 32, (entryMask k).toBitVec.getLsbD i = decide (k = i) := by
    decide +kernel
  exact hall k hk i hi

/-- `index_mask & ENTRY_MASK(index)`. -/
theorem and_entryMask_ne_zero (mask : UInt32) {k : ℕ} (hk : k < 32) :
    mask &&& entryMask k ≠ 0 ↔ mask.toBitVec.getLsbD k = true := by
  constructor
  · intro hne
    by_contra hbit
    refine hne (UInt32.toBitVec_inj.mp (BitVec.eq_of_getLsbD_eq fun i hi => ?_))
    rw [UInt32.toBitVec_and, BitVec.getLsbD_and, getLsbD_entryMask hk hi]
    by_cases h : k = i
    · subst h
      simpa using hbit
    · simp [h]
  · intro hbit heq
    have hand := congrArg (fun x : UInt32 => x.toBitVec.getLsbD k) heq
    simp [UInt32.toBitVec_and, hbit, getLsbD_entryMask hk hk] at hand

/-- The mask of the selected columns. -/
def selectedMask (descs : List (SrdbDescriptor ℕ)) (sel : SrdbDescriptor ℕ → Bool) : UInt32 :=
  descs.foldl (fun mask d => if sel d then mask ||| entryMask d.index else mask) 0

theorem getLsbD_selectedMask (hindex : ∀ d ∈ descs, d.index < 32) {i : ℕ} (hi : i < 32) :
    (selectedMask descs sel).toBitVec.getLsbD i = true ↔
      ∃ d ∈ descs, sel d = true ∧ d.index = i := by
  have hloop : ∀ mask : UInt32, (descs.foldl (fun mask d =>
      if sel d then mask ||| entryMask d.index else mask) mask).toBitVec.getLsbD i = true ↔
        mask.toBitVec.getLsbD i = true ∨ ∃ d ∈ descs, sel d = true ∧ d.index = i := by
    induction descs with
    | nil => simp
    | cons d ds ih =>
      intro mask
      have hd := hindex d List.mem_cons_self
      rw [List.foldl_cons, ih fun d' hd' => hindex d' (List.mem_cons_of_mem _ hd')]
      by_cases hs : sel d = true
      · rw [if_pos hs, UInt32.toBitVec_or, BitVec.getLsbD_or, getLsbD_entryMask hd hi]
        simp [hs, or_assoc]
      · simp [hs]
  rw [selectedMask, hloop 0]
  simp

/-! ## There and back -/

/-- The entry has the size of the table, and its fields are as their descriptors say. -/
structure Valid (size : ℕ) (descs : List (SrdbDescriptor ℕ)) (entry : RawEntry) : Prop where
  length : entry.length = size
  fields : ∀ d ∈ descs, d.builtin = false → ∃ v, field entry d = some v ∧ Fits d v

/-- The fields that were selected have come back, and the others are zero. -/
def Restored (descs : List (SrdbDescriptor ℕ)) (sel : SrdbDescriptor ℕ → Bool)
    (entry entry' : RawEntry) : Prop :=
  ∀ d ∈ descs, d.builtin = false →
    if sel d then field entry' d = field entry d
    else slice entry' d.offset (width d) = zeros (width d)

/-- **Round trip.**  The selected fields of a valid entry are written to a row, and read back from
it, with the mask of their indexes. -/
theorem Ok.roundtrip (hok : Ok size descs) (hvalid : Valid size descs entry) (uuid : List UInt8)
    (sel : SrdbDescriptor ℕ → Bool) (hsel : ∀ d ∈ descs, sel d = true → d.builtin = false) :
    ∃ row entry', descs.foldlM (fun row d =>
        if sel d then writeDescData row d entry else some row) [] = some row ∧
      fillSrdbEntry size descs uuid (.object row) = some (entry', selectedMask descs sel) ∧
      Restored descs sel entry entry' := by
  let value : SrdbDescriptor ℕ → Json := fun d => ((field entry d).bind toJson).getD .null
  have hselected : ∀ d ∈ descs, d.builtin = false → ∃ v, field entry d = some v ∧
      toJson v = some (value d) ∧ Fits d v ∧ ofJson d (some (value d)) = some v := by
    intro d hd hb
    obtain ⟨v, hv, hfits⟩ := hvalid.fields d hd hb
    obtain ⟨j, hj, hback⟩ := hfits.exists_toJson
    have hvalue : value d = j := by simp [value, hv, hj]
    exact ⟨v, hv, hvalue ▸ hj, hfits, hvalue ▸ hback⟩
  have hrow := foldlM_writeDescData hok.names (fun d hd hs => by
    obtain ⟨v, hv, hj, -⟩ := hselected d hd (hsel d hd hs)
    exact ⟨v, hv, hj⟩) [] (by simp)
  rw [List.nil_append] at hrow
  obtain ⟨entry', hfill, hfields⟩ := hok.fill uuid
    (.object ((descs.filter sel).map fun d => (d.name, value d)))
  have hmask : descs.foldl (addIndex (.object ((descs.filter sel).map fun d => (d.name, value d))))
      0 = selectedMask descs sel := by
    refine List.foldl_ext _ _ _ fun mask d hd => ?_
    rw [addIndex, objectGet_selected hok.names hd]
    by_cases hs : sel d = true
    · have hb := hsel d hd hs
      rw [if_pos hs, if_pos hs, if_pos ⟨hok.name_ne_row hd hb, rfl, hok.index_ne_zero hd hb⟩]
    · rw [if_neg hs, if_neg hs, if_neg (by simp)]
  rw [hmask] at hfill
  refine ⟨_, entry', hrow, hfill, fun d hd hb => ?_⟩
  have hslice := hfields d hd
  obtain ⟨v, hv, -, hfits, hback⟩ := hselected d hd hb
  rw [column, if_neg (hok.name_ne_row hd hb), objectGet_selected hok.names hd] at hslice
  by_cases hs : sel d = true
  · rw [if_pos hs, Option.bind_some, if_neg (hok.name_ne_version hd hb), hback,
      Option.getD_some] at hslice
    rw [if_pos hs, field_of_slice hfits.holds hslice, hv]
  · rw [if_neg hs, Option.bind_none, Option.getD_none, cells_zeroValue] at hslice
    rw [if_neg hs]
    exact hslice

end Raw

end Srn
