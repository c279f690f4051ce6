import Srn.Srdb.Memory

/-!
# Srn.Srdb.Refine

The two models of `srdb_insert` and `fill_srdb_entry`: on the bytes of an entry
(`Srn.Srdb.Memory`), and on an entry that is given by what its fields are (`Srn.Srdb.Entry`), with
ASCII texts.

For a table whose fields do not overlap the first refines the second.  On every line with ASCII
strings, the fields in the bytes are the fields of the other entry, and the masks are the same
(`Raw.Ok.fill_refines`); and entries with the same fields give the same row
(`Raw.Represents.insertRow`).
-/

namespace Srn

open Block

variable {ι : Type}

/-- The descriptor with the offset of its field. -/
def SrdbDescriptor.located (offset : ι → ℕ) (d : SrdbDescriptor ι) : SrdbDescriptor ℕ :=
  ⟨d.name, d.type, d.index, d.maxlen, d.builtin, offset d.offset⟩

/-- What is in a field, with texts for the strings. -/
inductive FieldText where
  | str (s : List Char)
  | int (i : Int32)
  | varstr (s : Option (List Char))
  deriving DecidableEq, Repr

/-- The field of a descriptor. -/
def SrdbEntry.field (entry : SrdbEntry ι) (d : SrdbDescriptor ι) : FieldText :=
  match d.type with
  | .str => .str (entry.str d.offset)
  | .int => .int (entry.int d.offset)
  | .varstr => .varstr (entry.varstr d.offset)

/-! ## ASCII -/

/-- The characters of ASCII bytes. -/
def chars (s : List UInt8) : List Char := s.map fun b => Char.ofNat b.toNat

/-- A text that a C string can hold in one byte for each character. -/
def IsAscii (s : List Char) : Prop := ∀ c ∈ s, 0 < c.toNat ∧ c.toNat < 128

instance (s : List Char) : Decidable (IsAscii s) := List.decidableBAll _ s

/-- The text of a value. -/
def FieldValue.text : FieldValue → FieldText
  | .str s => .str (chars s)
  | .int i => .int i
  | .varstr s => .varstr (s.map chars)

theorem chars_take (n : ℕ) (s : List UInt8) : chars (s.take n) = (chars s).take n := List.map_take

section

variable {c : Char} (h : 0 < c.toNat ∧ c.toNat < 128)

include h

theorem utf8EncodeChar_ascii : String.utf8EncodeChar c = [c.val.toUInt8] :=
  String.utf8EncodeChar_eq_singleton (Char.utf8Size_eq_one_iff.mpr (Nat.le_of_lt_succ h.2))

theorem toNat_ascii : c.val.toUInt8.toNat = c.toNat := by
  rw [UInt32.toNat_toUInt8]
  exact Nat.mod_eq_of_lt (Nat.lt_trans h.2 (by decide))

theorem ascii_ne_zero : c.val.toUInt8 ≠ 0 := fun hzero =>
  Nat.ne_of_gt h.1 ((toNat_ascii h).symm.trans (congrArg UInt8.toNat hzero))

end

theorem utf8Encode_ascii {cs : List Char} (h : IsAscii cs) :
    cs.utf8Encode = (cs.map fun c => c.val.toUInt8).toByteArray := by
  rw [List.utf8Encode, List.map_eq_flatMap]
  exact congrArg _ (List.flatMap_congr fun c hc => utf8EncodeChar_ascii (h c hc))

/-- The C string of an ASCII text has its characters. -/
theorem chars_jsonStringValue {s : String} (h : IsAscii s.toList) :
    chars (Raw.jsonStringValue s) = s.toList := by
  have hbytes : s.toUTF8.data.toList = s.toList.map fun c => c.val.toUInt8 := by
    rw [String.toUTF8, ← String.utf8Encode_toList, utf8Encode_ascii h, List.data_toByteArray,
      List.toList_toArray]
  have hall : ∀ b ∈ s.toList.map (fun c => c.val.toUInt8), decide (b ≠ 0) = true := by
    intro b hb
    obtain ⟨c, hc, rfl⟩ := List.mem_map.mp hb
    exact decide_eq_true (ascii_ne_zero (h c hc))
  rw [Raw.jsonStringValue, hbytes, ← List.append_nil (s.toList.map _),
    List.takeWhile_append_of_pos hall, List.takeWhile_nil, List.append_nil, chars, List.map_map]
  refine (List.map_congr_left fun c hc => ?_).trans (List.map_id _)
  show Char.ofNat c.val.toUInt8.toNat = c
  rw [toNat_ascii (h c hc), Char.ofNat_toNat]

theorem toUInt8_ofNat (b : UInt8) : (Char.ofNat b.toNat).val.toUInt8 = b := by
  have hall : ∀ n < 256, (Char.ofNat n).val.toUInt8 = UInt8.ofNat n := by decide +kernel
  rw [hall b.toNat b.toNat_lt, UInt8.ofNat_toNat]

/-- The JSON string of ASCII bytes. -/
theorem jsonString_ascii {s : List UInt8} (h : IsAscii (chars s)) :
    Raw.jsonString s = jsonString (some (chars s)) := by
  have hbytes : (String.ofList (chars s)).toByteArray = s.toByteArray := by
    rw [String.toByteArray_ofList, utf8Encode_ascii h, chars, List.map_map]
    exact congrArg _ ((List.map_congr_left fun b _ => toUInt8_ofNat b).trans (List.map_id _))
  rw [Raw.jsonString, ← hbytes, String.fromUTF8?,
    dif_pos (String.ofList (chars s)).isValidUTF8]
  rfl

/-- A value that is an ASCII text if it is a string. -/
def AsciiValue : Option Json → Prop
  | some (.string s) => IsAscii s.toList
  | _ => True

instance (value : Option Json) : Decidable (AsciiValue value) := by
  unfold AsciiValue
  split <;> infer_instance

/-- A line of the database with ASCII texts. -/
structure AsciiLine (line : Json) : Prop where
  columns : ∀ name, AsciiValue (line.objectGet name)
  version : AsciiValue (arrayGet (line.objectGet "_version") 1)

/-- The columns of a line are its members. -/
theorem asciiValue_objectGet {members : List (String × Json)}
    (h : ∀ m ∈ members, AsciiValue (some m.2)) (name : String) :
    AsciiValue ((Json.object members).objectGet name) := by
  rw [Json.objectGet]
  cases hfind : members.find? fun m => m.1 == name with
  | none => trivial
  | some m => exact h m (List.mem_of_find?_eq_some hfind)

/-! ## Fields of an entry -/

/-- The text of the value that a field gets from a column. -/
def SrdbDescriptor.ofJson (d : SrdbDescriptor ι) (value : Option Json) : Option FieldText :=
  match d.type, value with
  | .str, some (.string s) => some (.str (s.toList.take d.maxlen))
  | .int, some (.integer i) => some (.int (Int32.ofInt i))
  | .varstr, some (.string s) => some (.varstr (some (s.toList.take d.maxlen)))
  | _, _ => none

/-- The text of the value that a field gets from a line. -/
def SrdbDescriptor.column (uuid : List Char) (line : Json) (d : SrdbDescriptor ι) :
    Option FieldText :=
  if d.name = "row" then some (.str (uuid.take d.maxlen))
  else (line.objectGet d.name).bind fun value =>
    d.ofJson (if d.name = "_version" then arrayGet (line.objectGet "_version") 1 else some value)

section

variable [DecidableEq ι] {d d' : SrdbDescriptor ι} {uuid : List Char} {line : Json}

theorem SrdbEntry.field_setStr (entry : SrdbEntry ι) (htype : d.type = .str) (s : List Char) :
    (entry.setStr d.offset s).field d = .str s := by
  simp only [SrdbEntry.field, htype, SrdbEntry.setStr, Function.update_self]

theorem SrdbEntry.field_setStr_of_ne (entry : SrdbEntry ι) (hne : d'.offset ≠ d.offset)
    (s : List Char) : (entry.setStr d.offset s).field d' = entry.field d' := by
  simp only [SrdbEntry.field, SrdbEntry.setStr, Function.update_of_ne hne]

theorem field_storeColumn (entry : SrdbEntry ι) (value : Option Json) :
    (storeColumn entry d value).field d = (d.ofJson value).getD (entry.field d) := by
  unfold storeColumn
  split
  · next htype =>
    simp only [SrdbDescriptor.ofJson, htype, Option.getD_some, entry.field_setStr htype]
  · next htype =>
    simp only [SrdbDescriptor.ofJson, SrdbEntry.field, htype, SrdbEntry.setInt,
      Function.update_self, Option.getD_some]
  · next htype =>
    simp only [SrdbDescriptor.ofJson, SrdbEntry.field, htype, SrdbEntry.setVarstr,
      Function.update_self, Option.getD_some]
  · next hstr hint hvarstr =>
    rw [SrdbDescriptor.ofJson.eq_4 d _ hstr hint hvarstr, Option.getD_none]

theorem field_storeColumn_of_ne (entry : SrdbEntry ι) (value : Option Json)
    (hne : d'.offset ≠ d.offset) : (storeColumn entry d value).field d' = entry.field d' := by
  unfold storeColumn
  split
  · exact entry.field_setStr_of_ne hne _
  · simp only [SrdbEntry.field, SrdbEntry.setInt, Function.update_of_ne hne]
  · simp only [SrdbEntry.field, SrdbEntry.setVarstr, Function.update_of_ne hne]
  · rfl

/-- **Step lemma.**  A column is stored in its field and in no other. -/
theorem field_fillColumn (hrow : d.name = "row" → d.type = .str) (st : SrdbEntry ι × UInt32) :
    (fillColumn uuid line st d).1.field d = (d.column uuid line).getD (st.1.field d) := by
  unfold fillColumn SrdbDescriptor.column
  by_cases h : d.name = "row"
  · rw [if_pos h, if_pos h]
    exact st.1.field_setStr (hrow h) _
  · rw [if_neg h, if_neg h]
    cases line.objectGet d.name with
    | none => rfl
    | some value => exact field_storeColumn _ _

theorem field_fillColumn_of_ne (hne : d'.offset ≠ d.offset) (st : SrdbEntry ι × UInt32) :
    (fillColumn uuid line st d).1.field d' = st.1.field d' := by
  unfold fillColumn
  by_cases h : d.name = "row"
  · rw [if_pos h]
    exact st.1.field_setStr_of_ne hne _
  · rw [if_neg h]
    cases line.objectGet d.name with
    | none => rfl
    | some value => exact field_storeColumn_of_ne _ _ hne

theorem mask_fillColumn (offset : ι → ℕ) (st : SrdbEntry ι × UInt32) :
    (fillColumn uuid line st d).2 = Raw.addIndex line st.2 (d.located offset) := by
  unfold fillColumn Raw.addIndex
  by_cases h : d.name = "row"
  · rw [if_pos h, if_neg fun hadd => hadd.1 h]
  · rw [if_neg h]
    cases hget : line.objectGet d.name with
    | none => simp [SrdbDescriptor.located, hget]
    | some value => simp [SrdbDescriptor.located, hget, h]

/-- **Run lemma.**  With distinct fields, each has its column. -/
theorem foldl_fillColumn {descs : List (SrdbDescriptor ι)} (offset : ι → ℕ)
    (uuid : List Char) (line : Json)
    (hrow : ∀ d ∈ descs, d.name = "row" → d.type = .str)
    (hne : descs.Pairwise fun d d' => d.offset ≠ d'.offset) (st : SrdbEntry ι × UInt32) :
    (descs.foldl (fillColumn uuid line) st).2 =
        (descs.map (SrdbDescriptor.located offset)).foldl (Raw.addIndex line) st.2 ∧
      (∀ d', (∀ d ∈ descs, d'.offset ≠ d.offset) →
        (descs.foldl (fillColumn uuid line) st).1.field d' = st.1.field d') ∧
      ∀ d ∈ descs, (descs.foldl (fillColumn uuid line) st).1.field d =
        (d.column uuid line).getD (st.1.field d) := by
  induction descs generalizing st with
  | nil => exact ⟨rfl, fun _ _ => rfl, fun d hd => by cases hd⟩
  | cons d ds ih =>
    obtain ⟨hfirst, hrest⟩ := List.pairwise_cons.mp hne
    obtain ⟨hmask, hframe, hfields⟩ := ih (fun d' hd' => hrow d' (List.mem_cons_of_mem _ hd'))
      hrest (fillColumn uuid line st d)
    rw [List.foldl_cons]
    refine ⟨?_, fun d' hd' => ?_, fun d' hd' => ?_⟩
    · rw [hmask, mask_fillColumn offset, List.map_cons, List.foldl_cons]
    · rw [hframe d' fun d'' hd'' => hd' d'' (List.mem_cons_of_mem _ hd''),
        field_fillColumn_of_ne (hd' d List.mem_cons_self)]
    · obtain rfl | hd' := List.mem_cons.mp hd'
      · rw [hframe d' hfirst, field_fillColumn (hrow d' List.mem_cons_self)]
      · rw [hfields d' hd', field_fillColumn_of_ne (hfirst d' hd').symm]

end

/-! ## Refinement -/

/-- The entry in memory has the fields of the other. -/
def Raw.Represents (offset : ι → ℕ) (descs : List (SrdbDescriptor ι)) (raw : RawEntry)
    (entry : SrdbEntry ι) : Prop :=
  ∀ d ∈ descs, (Raw.field raw (d.located offset)).map FieldValue.text = some (entry.field d)

section

variable {offset : ι → ℕ} {d : SrdbDescriptor ι} {uuid : List UInt8} {line : Json}

theorem text_zeroValue (offset : ι → ℕ) (d : SrdbDescriptor ι) :
    (Raw.zeroValue (d.located offset)).text = SrdbEntry.zeroed.field d := by
  unfold Raw.zeroValue SrdbEntry.field
  show FieldValue.text (match d.type with | .str => _ | .int => _ | .varstr => _) = _
  cases d.type with
  | str => rfl
  | int => rfl
  | varstr => rfl

theorem text_ofJson {value : Option Json} (hascii : AsciiValue value) :
    (Raw.ofJson (d.located offset) value).map FieldValue.text = d.ofJson value := by
  unfold SrdbDescriptor.ofJson
  split
  · next s htype =>
    have hs : IsAscii s.toList := hascii
    simp only [Raw.ofJson, SrdbDescriptor.located, htype, Option.map_some, FieldValue.text,
      chars_take, chars_jsonStringValue hs]
  · next htype => simp only [Raw.ofJson, SrdbDescriptor.located, htype, Option.map_some,
      FieldValue.text]
  · next s htype =>
    have hs : IsAscii s.toList := hascii
    simp only [Raw.ofJson, SrdbDescriptor.located, htype, Option.map_some, FieldValue.text,
      chars_take, chars_jsonStringValue hs]
  · next hstr hint hvarstr =>
    rw [Raw.ofJson.eq_4 (d.located offset) _ hstr hint hvarstr, Option.map_none]

theorem text_column (hline : AsciiLine line) :
    (Raw.column uuid line (d.located offset)).map FieldValue.text =
      d.column (chars uuid) line := by
  unfold Raw.column SrdbDescriptor.column
  by_cases h : d.name = "row"
  · rw [if_pos h, if_pos (show (d.located offset).name = "row" from h), ← chars_take]
    rfl
  · rw [if_neg h, if_neg (show ¬ (d.located offset).name = "row" from h), Option.map_bind]
    rw [show (d.located offset).name = d.name from rfl]
    cases hget : line.objectGet d.name with
    | none => rfl
    | some value =>
      refine text_ofJson ?_
      by_cases hversion : d.name = "_version"
      · rw [if_pos hversion]
        exact hline.version
      · rw [if_neg hversion, ← hget]
        exact hline.columns d.name

theorem offset_ne_of_apart {d' : SrdbDescriptor ι}
    (h : Raw.Apart (d.located offset) (d'.located offset)) : d.offset ≠ d'.offset := by
  intro heq
  have hoffset : (d.located offset).offset = (d'.located offset).offset := congrArg offset heq
  have hwidth := Raw.width_pos (d.located offset)
  have hwidth' := Raw.width_pos (d'.located offset)
  unfold Raw.Apart at h
  omega

/-- **Refinement.**  On a line with ASCII texts, the entry in memory has the fields and the mask of
the entry that is given by its fields. -/
theorem Raw.Ok.fill_refines [DecidableEq ι] {descs : List (SrdbDescriptor ι)} {size : ℕ}
    (hok : Raw.Ok size (descs.map (SrdbDescriptor.located offset))) (huuid : 0 ∉ uuid)
    (hline : AsciiLine line) :
    ∃ entry', Raw.fillSrdbEntry size (descs.map (SrdbDescriptor.located offset)) uuid line =
        some (entry', (Srn.fillSrdbEntry descs (chars uuid) line).2) ∧
      Raw.Represents offset descs entry' (Srn.fillSrdbEntry descs (chars uuid) line).1 := by
  have hmem : ∀ d ∈ descs, d.located offset ∈ descs.map (SrdbDescriptor.located offset) :=
    fun d hd => List.mem_map_of_mem hd
  have hne : descs.Pairwise fun d d' => d.offset ≠ d'.offset :=
    (List.pairwise_map.mp hok.apart).imp offset_ne_of_apart
  obtain ⟨hmask, -, hfields⟩ := foldl_fillColumn offset (chars uuid) line
    (fun d hd h => (hok.row _ (hmem d hd) h).2) hne (.zeroed, 0)
  obtain ⟨entry', hfill, hraw⟩ := hok.fill_field huuid line
  refine ⟨entry', hfill.trans (congrArg (fun mask => some (entry', mask)) hmask.symm), ?_⟩
  intro d hd
  have hcolumn : (Raw.column uuid line (d.located offset)).map FieldValue.text =
      d.column (chars uuid) line := text_column hline
  rw [hraw _ (hmem d hd), Option.map_some, Srn.fillSrdbEntry, hfields d hd, ← hcolumn,
    ← text_zeroValue offset d]
  cases Raw.column uuid line (d.located offset) with
  | none => rfl
  | some v => rfl

/-- The column of a field. -/
def FieldText.toJson : FieldText → Option Json
  | .str s => jsonString (some s)
  | .int i => some (.integer i.toInt)
  | .varstr s => jsonString s

/-- The texts of a field are ASCII. -/
def FieldText.Ascii : FieldText → Prop
  | .str s => IsAscii s
  | .int _ => True
  | .varstr s => ∀ t ∈ s, IsAscii t

theorem columnValue_eq (d : SrdbDescriptor ι) (entry : SrdbEntry ι) :
    columnValue d entry = (entry.field d).toJson := by
  unfold columnValue SrdbEntry.field
  cases d.type with
  | str => rfl
  | int => rfl
  | varstr => rfl

theorem toJson_text {v : FieldValue} (hascii : v.text.Ascii) : Raw.toJson v = v.text.toJson := by
  cases v with
  | str s => exact jsonString_ascii hascii
  | int i => rfl
  | varstr s =>
    cases s with
    | none => rfl
    | some s => exact jsonString_ascii (hascii _ rfl)

/-- **Refinement.**  Entries with the same fields, of ASCII texts, give the same row. -/
theorem Raw.Represents.insertRow {descs : List (SrdbDescriptor ι)} {raw : RawEntry}
    {entry : SrdbEntry ι} (hrep : Raw.Represents offset descs raw entry)
    (hascii : ∀ d ∈ descs, (entry.field d).Ascii) :
    Raw.insertRow (descs.map (SrdbDescriptor.located offset)) raw =
      some (Srn.insertRow descs entry) := by
  have hwrite : ∀ d ∈ descs, ∀ row, Raw.writeDescData row (d.located offset) raw =
      some (Srn.writeDescData row d entry) := by
    intro d hd row
    obtain ⟨v, hv, htext⟩ := Option.map_eq_some_iff.mp (hrep d hd)
    rw [Raw.writeDescData, hv, Option.map_some, Srn.writeDescData, columnValue_eq, ← htext,
      toJson_text (htext ▸ hascii d hd)]
    rfl
  have hloop : ∀ (ds : List (SrdbDescriptor ι)) row, (∀ d ∈ ds, d ∈ descs) →
      (ds.map (SrdbDescriptor.located offset)).foldlM (fun row desc =>
        if !desc.builtin then Raw.writeDescData row desc raw else some row) row =
      some (ds.foldl (fun row d => if d.builtin then row else Srn.writeDescData row d entry)
        row) := by
    intro ds
    induction ds with
    | nil => exact fun _ _ => rfl
    | cons d ds ih =>
      intro row hds
      have hd := hds d List.mem_cons_self
      have hstep : (if !(d.located offset).builtin then
            Raw.writeDescData row (d.located offset) raw else some row) =
          some (if d.builtin then row else Srn.writeDescData row d entry) := by
        rw [hwrite d hd row]
        show (if (!d.builtin) = true then _ else _) = _
        cases d.builtin <;> rfl
      rw [List.map_cons, List.foldlM_cons, hstep]
      exact ih _ fun d' hd' => hds d' (List.mem_cons_of_mem _ hd')
  exact hloop descs [] fun _ hd => hd

end

end Srn
