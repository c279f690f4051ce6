import Srn.Json.Text
import Srn.Monitor
import Mathlib.Data.List.Nodup
import Mathlib.Logic.Function.Basic

/-!
# Srn.Srdb.Entry

Rows as C structures, in `lib/srdb.c`.  A table has a list of descriptors, one for each column;
`srdb_insert` writes the fields of an entry into the JSON row of an insert message, and
`fill_srdb_entry` reads the columns of a row into the fields of a fresh entry.

The two do not have the same limits.  The message must fit `JSON_BUFLEN`, or it is not built at
all; a string column is cut to the `maxlen` of its descriptor when it is read.
`varstr_fillSrdbEntry_insert` is what remains of a string that makes the whole way.

The functions work for every table: `ι` is the type of its fields.
-/

namespace Srn

/-! ## Descriptors and entries -/

/-- `SLEN`. -/
def slen : ℕ := 127

/-- `BUFLEN` of `lib/srdb.c`. -/
def buflen : ℕ := 1024

/-- `enum srdb_type`. -/
inductive SrdbType where
  | str
  | int
  | varstr
  deriving DecidableEq, Repr

/-- `struct srdb_descriptor`; the offset is given as the field that is there. -/
structure SrdbDescriptor (ι : Type) where
  name : String
  type : SrdbType
  index : ℕ
  maxlen : ℕ
  builtin : Bool
  offset : ι
  deriving DecidableEq, Repr

/-- `SRDB_BUILTIN_ENTRIES`, with the places of `row` and `version`. -/
def srdbBuiltinEntries {ι : Type} (row version : ι) : List (SrdbDescriptor ι) :=
  [⟨"row", .str, 0, slen, true, row⟩, ⟨"_version", .str, 0, slen, true, version⟩]

namespace SrdbDescriptor

variable {ι : Type}

/-- A column in a character array. -/
def str (name : String) (index : ℕ) (offset : ι) : SrdbDescriptor ι :=
  ⟨name, .str, index, slen, false, offset⟩

/-- A column in an `int`. -/
def int (name : String) (index maxlen : ℕ) (offset : ι) : SrdbDescriptor ι :=
  ⟨name, .int, index, maxlen, false, offset⟩

/-- A column with a string of any length, behind a pointer. -/
def varstr (name : String) (index : ℕ) (offset : ι) : SrdbDescriptor ι :=
  ⟨name, .varstr, index, buflen, false, offset⟩

end SrdbDescriptor

/-- An entry of a table, as its memory reads at a field of each type: the string in a character
array, a number, and the string behind a pointer. -/
structure SrdbEntry (ι : Type) where
  str : ι → List Char
  int : ι → Int32
  varstr : ι → Option (List Char)

variable {ι : Type}

/-- An entry from `calloc`, or after `memset`. -/
def SrdbEntry.zeroed : SrdbEntry ι := ⟨fun _ => [], fun _ => 0, fun _ => none⟩

section

variable [DecidableEq ι]

def SrdbEntry.setStr (entry : SrdbEntry ι) (field : ι) (s : List Char) : SrdbEntry ι :=
  { entry with str := Function.update entry.str field s }

def SrdbEntry.setInt (entry : SrdbEntry ι) (field : ι) (i : Int32) : SrdbEntry ι :=
  { entry with int := Function.update entry.int field i }

def SrdbEntry.setVarstr (entry : SrdbEntry ι) (field : ι) (s : Option (List Char)) :
    SrdbEntry ι :=
  { entry with varstr := Function.update entry.varstr field s }

end

/-! ## Writing a row -/

/-- `json_string`, which is `NULL` for a `NULL` pointer. -/
def jsonString (s : Option (List Char)) : Option Json := s.map fun cs => .string (String.ofList cs)

/-- `json_object_set_new` on the members of an object; a `NULL` value is refused. -/
def objectSetNew (members : List (String × Json)) (key : String) (value : Option Json) :
    List (String × Json) :=
  match value with
  | none => members
  | some j =>
    if members.any fun m => m.1 == key then
      members.map fun m => if m.1 == key then (key, j) else m
    else members ++ [(key, j)]

/-- The value that `write_desc_data` gives a column. -/
def columnValue (desc : SrdbDescriptor ι) (entry : SrdbEntry ι) : Option Json :=
  match desc.type with
  | .str => jsonString (some (entry.str desc.offset))
  | .int => some (.integer (entry.int desc.offset).toInt)
  | .varstr => jsonString (entry.varstr desc.offset)

/-- `write_desc_data`. -/
def writeDescData (row : List (String × Json)) (desc : SrdbDescriptor ι) (entry : SrdbEntry ι) :
    List (String × Json) :=
  objectSetNew row desc.name (columnValue desc entry)

/-- The row of `srdb_insert`. -/
def insertRow (descs : List (SrdbDescriptor ι)) (entry : SrdbEntry ι) : List (String × Json) :=
  descs.foldl (fun row desc => if desc.builtin then row else writeDescData row desc entry) []

/-- The member of the row for a column. -/
def rowMember (entry : SrdbEntry ι) (desc : SrdbDescriptor ι) : Option (String × Json) :=
  if desc.builtin then none else (columnValue desc entry).map fun j => (desc.name, j)

/-! ## The insert message -/

/-- `OVSDB_INSERT_FORMAT`. -/
def insertText (database fields table : List Char) : List Char :=
  "\x7b\"method\":\"transact\",\"params\":[\"".toList ++ database ++
    "\",\x7b\"row\":".toList ++ fields ++ ",\"table\":\"".toList ++ table ++
    "\",\"op\":\"insert\"\x7d]\x7d".toList

theorem length_insertText (database fields table : List Char) :
    (insertText database fields table).length =
      database.length + fields.length + table.length + 69 := by
  have hopen : "\x7b\"method\":\"transact\",\"params\":[\"".toList.length = 32 := by decide
  have hrow : "\",\x7b\"row\":".toList.length = 9 := by decide
  have htable : ",\"table\":\"".toList.length = 10 := by decide
  have hclose : "\",\"op\":\"insert\"\x7d]\x7d".toList.length = 18 := by decide
  unfold insertText
  simp only [List.length_append, hopen, hrow, htable, hclose]
  omega

/-- The message that the text stands for. -/
def insertMessage (database : List Char) (row : List (String × Json)) (table : List Char) : Json :=
  .object [("method", .string "transact"),
    ("params", .array [.string (String.ofList database),
      .object [("row", .object row), ("table", .string (String.ofList table)),
        ("op", .string "insert")]])]

/-- The text that `ovsdb_insert` prints. -/
def ovsdbInsertText (database table : List Char) (row : List (String × Json)) : List Char :=
  insertText database ((Json.object row).dumps false) table

/-- The message of `ovsdb_insert`, which is read back from a buffer of `JSON_BUFLEN` characters;
`none` if that is no JSON. -/
def ovsdbInsert (loads : List Char → Option Json) (database table : List Char)
    (row : List (String × Json)) : Option Json :=
  loads ((ovsdbInsertText database table row).take (jsonBuflen - 1))

/-- The row of an insert message, as the database takes it. -/
def messageRow (msg : Json) : Option Json :=
  match msg.objectGet "params" with
  | some (.array [_, op]) => op.objectGet "row"
  | _ => none

/-- The database has a row with the columns of the message. -/
def Accepted (descs : List (SrdbDescriptor ι)) (msg stored : Json) : Prop :=
  ∃ row, messageRow msg = some row ∧
    ∀ desc ∈ descs, desc.builtin = false → stored.objectGet desc.name = row.objectGet desc.name

/-! ## Reading a row -/

/-- `ENTRY_MASK`. -/
def entryMask (index : ℕ) : UInt32 := 1 <<< UInt32.ofNat index

/-- `json_array_get`. -/
def arrayGet (j : Option Json) (i : ℕ) : Option Json :=
  match j with
  | some (.array elems) => elems[i]?
  | _ => none

section

variable [DecidableEq ι]

/-- The `switch` of `fill_srdb_entry`: a value of another type is left out. -/
def storeColumn (entry : SrdbEntry ι) (desc : SrdbDescriptor ι) (value : Option Json) :
    SrdbEntry ι :=
  match desc.type, value with
  | .str, some (.string s) => entry.setStr desc.offset (s.toList.take desc.maxlen)
  | .int, some (.integer i) => entry.setInt desc.offset (Int32.ofInt i)
  | .varstr, some (.string s) => entry.setVarstr desc.offset (some (s.toList.take desc.maxlen))
  | _, _ => entry

/-- A round of the loop of `fill_srdb_entry`, on the entry and the mask of its columns. -/
def fillColumn (uuid : List Char) (line : Json) (st : SrdbEntry ι × UInt32)
    (desc : SrdbDescriptor ι) : SrdbEntry ι × UInt32 :=
  if desc.name = "row" then (st.1.setStr desc.offset (uuid.take desc.maxlen), st.2)
  else
    match line.objectGet desc.name with
    | none => st
    | some value =>
      (storeColumn st.1 desc (if desc.name = "_version" then
          arrayGet (line.objectGet "_version") 1 else some value),
        if desc.index ≠ 0 then st.2 ||| entryMask desc.index else st.2)

/-- `fill_srdb_entry`, on a fresh entry. -/
def fillSrdbEntry (descs : List (SrdbDescriptor ι)) (uuid : List Char) (line : Json) :
    SrdbEntry ι × UInt32 :=
  descs.foldl (fillColumn uuid line) (.zeroed, 0)

end

/-! ## The row of an insert -/

theorem objectSetNew_of_notMem {members : List (String × Json)} {key : String}
    (h : key ∉ members.map Prod.fst) (value : Option Json) :
    objectSetNew members key value = members ++ (value.map fun j => (key, j)).toList := by
  cases value with
  | none => simp [objectSetNew]
  | some j =>
    have hany : (members.any fun m => m.1 == key) = false := by
      rw [List.any_eq_false]
      intro m hm heq
      exact h (List.mem_map.mpr ⟨m, hm, by simpa using heq⟩)
    simp [objectSetNew, hany]

theorem rowMember_name {entry : SrdbEntry ι} {desc : SrdbDescriptor ι} {m : String × Json}
    (h : rowMember entry desc = some m) : m.1 = desc.name := by
  unfold rowMember at h
  by_cases hb : desc.builtin = true
  · simp [hb] at h
  · rw [if_neg hb, Option.map_eq_some_iff] at h
    obtain ⟨j, -, rfl⟩ := h
    rfl

/-- **Run lemma.**  With distinct names the loop of `srdb_insert` appends a member for each
column that has a value. -/
theorem foldl_writeDescData {descs : List (SrdbDescriptor ι)} (entry : SrdbEntry ι)
    (hnodup : (descs.map SrdbDescriptor.name).Nodup) (row : List (String × Json))
    (hrow : ∀ desc ∈ descs, desc.name ∉ row.map Prod.fst) :
    descs.foldl (fun row desc => if desc.builtin then row else writeDescData row desc entry) row =
      row ++ descs.filterMap (rowMember entry) := by
  induction descs generalizing row with
  | nil => simp
  | cons desc descs ih =>
    rw [List.map_cons, List.nodup_cons] at hnodup
    have hstep : (if desc.builtin then row else writeDescData row desc entry) =
        row ++ (rowMember entry desc).toList := by
      unfold rowMember writeDescData
      by_cases hb : desc.builtin = true
      · simp [hb]
      · rw [if_neg hb, if_neg hb,
          objectSetNew_of_notMem (hrow desc List.mem_cons_self)]
    have hnext : ∀ desc' ∈ descs,
        desc'.name ∉ (row ++ (rowMember entry desc).toList).map Prod.fst := by
      intro desc' hmem hname
      rw [List.map_append, List.mem_append] at hname
      cases hname with
      | inl hold => exact hrow desc' (List.mem_cons_of_mem _ hmem) hold
      | inr hnew =>
        obtain ⟨m, hm, hfst⟩ := List.mem_map.mp hnew
        have hd := rowMember_name (Option.mem_toList.mp hm)
        exact hnodup.1 (List.mem_map.mpr ⟨desc', hmem, hfst.symm.trans hd⟩)
    rw [List.foldl_cons, hstep, ih hnodup.2 _ hnext, List.append_assoc]
    congr 1
    cases hm : rowMember entry desc with
    | none => rw [List.filterMap_cons_none hm]; rfl
    | some m => rw [List.filterMap_cons_some hm]; rfl

theorem insertRow_eq {descs : List (SrdbDescriptor ι)} (entry : SrdbEntry ι)
    (hnodup : (descs.map SrdbDescriptor.name).Nodup) :
    insertRow descs entry = descs.filterMap (rowMember entry) := by
  unfold insertRow
  rw [foldl_writeDescData entry hnodup [] (by simp), List.nil_append]

/-- A column of the row. -/
theorem objectGet_insertRow {descs : List (SrdbDescriptor ι)} (entry : SrdbEntry ι)
    (hnodup : (descs.map SrdbDescriptor.name).Nodup) {desc : SrdbDescriptor ι}
    (hmem : desc ∈ descs) (hb : desc.builtin = false) :
    (Json.object (insertRow descs entry)).objectGet desc.name = columnValue desc entry := by
  rw [insertRow_eq entry hnodup, Json.objectGet]
  have hown : rowMember entry desc = (columnValue desc entry).map fun j => (desc.name, j) := by
    simp [rowMember, hb]
  induction descs with
  | nil => simp at hmem
  | cons d ds ih =>
    rw [List.map_cons, List.nodup_cons] at hnodup
    by_cases hd : d = desc
    · subst hd
      cases hv : columnValue d entry with
      | some j =>
        rw [List.filterMap_cons_some (hown.trans (by rw [hv]; rfl))]
        simp
      | none =>
        -- no later column has the name either
        rw [List.filterMap_cons_none (hown.trans (by rw [hv]; rfl)), Option.map_eq_none_iff,
          List.find?_eq_none]
        intro m hm hname
        obtain ⟨d', hd', hmember⟩ := List.mem_filterMap.mp hm
        have heq : m.1 = d.name := by simpa using hname
        exact hnodup.1 (List.mem_map.mpr ⟨d', hd', (rowMember_name hmember).symm.trans heq⟩)
    · have hrest : desc ∈ ds := (List.mem_cons.mp hmem).resolve_left (Ne.symm hd)
      have hname : d.name ≠ desc.name := fun h => hnodup.1 (h ▸ List.mem_map_of_mem hrest)
      cases hm : rowMember entry d with
      | none =>
        rw [List.filterMap_cons_none hm]
        exact ih hnodup.2 hrest
      | some m =>
        have hne : (m.1 == desc.name) = false := by
          rw [rowMember_name hm]
          simpa using hname
        rw [List.filterMap_cons_some hm, List.find?_cons, hne]
        exact ih hnodup.2 hrest

/-! ## The columns of an entry -/

section

variable [DecidableEq ι] {descs : List (SrdbDescriptor ι)} {desc : SrdbDescriptor ι}
  {uuid : List Char} {line : Json}

/-- A column is stored in no field but its own. -/
theorem varstr_storeColumn_of_ne (entry : SrdbEntry ι) (value : Option Json) {field : ι}
    (hne : field ≠ desc.offset) :
    (storeColumn entry desc value).varstr field = entry.varstr field := by
  unfold storeColumn
  split
  · rfl
  · rfl
  · exact Function.update_of_ne hne _ _
  · rfl

theorem varstr_fillColumn_of_ne (st : SrdbEntry ι × UInt32) {field : ι}
    (hne : field ≠ desc.offset) :
    (fillColumn uuid line st desc).1.varstr field = st.1.varstr field := by
  unfold fillColumn
  by_cases hrow : desc.name = "row"
  · rw [if_pos hrow]
    rfl
  · rw [if_neg hrow]
    cases line.objectGet desc.name with
    | none => rfl
    | some value => exact varstr_storeColumn_of_ne _ _ hne

theorem varstr_foldl_fillColumn (ds : List (SrdbDescriptor ι)) (st : SrdbEntry ι × UInt32)
    {field : ι} (hne : ∀ d ∈ ds, field ≠ d.offset) :
    (ds.foldl (fillColumn uuid line) st).1.varstr field = st.1.varstr field := by
  induction ds generalizing st with
  | nil => rfl
  | cons d ds ih =>
    rw [List.foldl_cons, ih _ fun d' hd' => hne d' (List.mem_cons_of_mem _ hd'),
      varstr_fillColumn_of_ne st (hne d List.mem_cons_self)]

/-- What `fill_srdb_entry` finds in a string column: the string up to `maxlen`. -/
theorem varstr_fillSrdbEntry (hnodup : (descs.map SrdbDescriptor.offset).Nodup)
    (hmem : desc ∈ descs) (htype : desc.type = .varstr) (hrow : desc.name ≠ "row")
    (hversion : desc.name ≠ "_version") {text : Option (List Char)}
    (hline : line.objectGet desc.name = jsonString text) :
    (fillSrdbEntry descs uuid line).1.varstr desc.offset = text.map (List.take desc.maxlen) := by
  obtain ⟨before, after, rfl⟩ := List.append_of_mem hmem
  rw [List.map_append, List.map_cons, List.nodup_middle, List.nodup_cons, List.mem_append,
    not_or] at hnodup
  have hbefore : ∀ d ∈ before, desc.offset ≠ d.offset := fun d hd h =>
    hnodup.1.1 (List.mem_map.mpr ⟨d, hd, h.symm⟩)
  have hafter : ∀ d ∈ after, desc.offset ≠ d.offset := fun d hd h =>
    hnodup.1.2 (List.mem_map.mpr ⟨d, hd, h.symm⟩)
  unfold fillSrdbEntry
  rw [List.foldl_append, List.foldl_cons, varstr_foldl_fillColumn after _ hafter, fillColumn,
    if_neg hrow, hline]
  cases text with
  | none => exact varstr_foldl_fillColumn before _ hbefore
  | some cs => simp [jsonString, storeColumn, htype, hversion, SrdbEntry.setVarstr]

/-- **Main theorem.**  A string that is written to its column, sent, stored and read again is cut
to the `maxlen` of the column. -/
theorem varstr_fillSrdbEntry_insert (uuid : List Char) {loads : List Char → Option Json}
    {database table : List Char} {entry : SrdbEntry ι} {msg stored : Json}
    (hnames : (descs.map SrdbDescriptor.name).Nodup)
    (hoffsets : (descs.map SrdbDescriptor.offset).Nodup)
    (hreads : Json.ReadsBack loads (ovsdbInsertText database table (insertRow descs entry))
      (insertMessage database (insertRow descs entry) table))
    (hbuilt : ovsdbInsert loads database table (insertRow descs entry) = some msg)
    (haccepted : Accepted descs msg stored) (hmem : desc ∈ descs) (htype : desc.type = .varstr)
    (hb : desc.builtin = false) (hrow : desc.name ≠ "row") (hversion : desc.name ≠ "_version") :
    (fillSrdbEntry descs uuid stored).1.varstr desc.offset =
      (entry.varstr desc.offset).map (List.take desc.maxlen) := by
  obtain ⟨-, rfl⟩ := hreads.of_isSome hbuilt
  obtain ⟨row, hmsg, hcolumns⟩ := haccepted
  have hsent : row = .object (insertRow descs entry) := by
    simpa [messageRow, insertMessage, Json.objectGet] using hmsg.symm
  refine varstr_fillSrdbEntry hoffsets hmem htype hrow hversion ?_
  rw [hcolumns desc hmem hb, hsent, objectGet_insertRow entry hnames hmem hb, columnValue, htype]

end

end Srn
