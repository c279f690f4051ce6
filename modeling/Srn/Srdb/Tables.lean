import Srn.Flowstate
import Srn.Srdb.Refine

/-!
# Srn.Srdb.Tables

The tables of `lib/srdb.c`: the structures of `lib/srdb.h` that hold their entries, and the
descriptors with the offsets of the members.

The descriptors of every table are sound (`ok_of_mem_srdbTables`): columns have different names, and
each has the bytes of the entry to itself that are read and written for it.  So what
`srdb_update_append_mask` or `srdb_insert` writes to a row is what `fill_srdb_entry` reads from it
(`srdb_row_roundtrip`).
-/

namespace Srn

open Block

/-! ## Structures -/

/-- A string of at most `SLEN` bytes. -/
def slenArray : CType := .chars (slen + 1)

/-- `struct srdb_entry`. -/
def srdbEntryStruct : Struct := [("row", slenArray), ("version", slenArray)]

/-- `struct srdb_namemap_entry`. -/
def srdbNamemapEntry : Struct :=
  srdbEntryStruct ++ [("routerName", slenArray), ("routerId", .int), ("addr", slenArray),
    ("prefix", .pointer), ("pbsid", slenArray)]

/-- `struct srdb_router_entry`. -/
def srdbRouterEntry : Struct := srdbEntryStruct ++ [("router", slenArray)]

/-- `struct srdb_flow_entry`. -/
def srdbFlowEntry : Struct :=
  srdbEntryStruct ++ [("destination", slenArray), ("dstaddr", slenArray), ("bsid", .pointer),
    ("segments", .pointer), ("bandwidth", .int), ("delay", .int), ("policing", .int),
    ("source", slenArray), ("sourceIPs", .pointer), ("router", slenArray), ("proxy", slenArray),
    ("interface", slenArray), ("reverse_flow_uuid", slenArray), ("request_id", slenArray),
    ("ttl", .int), ("idle", .int), ("timestamp", .int), ("status", .int)]

/-- `struct srdb_flowreq_entry`. -/
def srdbFlowreqEntry : Struct :=
  srdbEntryStruct ++ [("request_id", slenArray), ("destination", slenArray),
    ("dstaddr", slenArray), ("source", slenArray), ("srcaddr", slenArray), ("bandwidth", .int),
    ("delay", .int), ("proxy", slenArray), ("status", .int)]

/-- `struct srdb_linkstate_entry`. -/
def srdbLinkstateEntry : Struct :=
  srdbEntryStruct ++ [("name1", slenArray), ("addr1", slenArray), ("name2", slenArray),
    ("addr2", slenArray), ("metric", .int), ("bw", .int), ("ava_bw", .int), ("delay", .int)]

/-- `struct srdb_nodestate_entry`. -/
def srdbNodestateEntry : Struct :=
  srdbEntryStruct ++ [("name", slenArray), ("addr", slenArray), ("prefix", .pointer),
    ("pbsid", slenArray)]

/-- `struct srdb_availlink_entry`. -/
def srdbAvaillinkEntry : Struct :=
  srdbEntryStruct ++ [("name1", slenArray), ("addr1", slenArray), ("routerId1", .int),
    ("name2", slenArray), ("addr2", slenArray), ("routerId2", .int), ("metric", .int),
    ("bw", .int), ("ava_bw", .int), ("delay", .int)]

/-! ## Descriptors -/

/-- A template, with the offsets of the members of a structure. -/
def descTmpl (s : Struct) (columns : List (SrdbDescriptor String)) : List (SrdbDescriptor ℕ) :=
  (srdbBuiltinEntries "row" "version" ++ columns).map (SrdbDescriptor.located (Struct.offsetof s))

/-- `namemap_desc_tmpl`. -/
def namemapDescTmpl : List (SrdbDescriptor ℕ) :=
  descTmpl srdbNamemapEntry [.str "routerName" 1 "routerName",
    .int "routerId" 2 CType.int.size "routerId", .str "addr" 3 "addr", .varstr "prefix" 4 "prefix",
    .str "pbsid" 5 "pbsid"]

/-- `routerids_desc_tmpl`. -/
def routeridsDescTmpl : List (SrdbDescriptor ℕ) :=
  descTmpl srdbRouterEntry [.str "router" 1 "router"]

/-- `flowreq_desc_tmpl`. -/
def flowreqDescTmpl : List (SrdbDescriptor ℕ) :=
  descTmpl srdbFlowreqEntry [.str "req_id" 1 "request_id", .str "destination" 2 "destination",
    .str "dstaddr" 3 "dstaddr", .str "source" 4 "source", .str "srcaddr" 5 "srcaddr",
    .int "bandwidth" 6 CType.int.size "bandwidth", .int "delay" 7 CType.int.size "delay",
    .str "proxy" 8 "proxy", .int "status" 9 CType.int.size "status"]

/-- The member of `struct srdb_flow_entry`. -/
def FlowField.member : FlowField → String
  | .row => "row"
  | .version => "version"
  | .destination => "destination"
  | .dstaddr => "dstaddr"
  | .bsid => "bsid"
  | .segments => "segments"
  | .bandwidth => "bandwidth"
  | .delay => "delay"
  | .policing => "policing"
  | .source => "source"
  | .sourceIPs => "sourceIPs"
  | .router => "router"
  | .proxy => "proxy"
  | .interface => "interface"
  | .reverseFlowUuid => "reverse_flow_uuid"
  | .requestId => "request_id"
  | .ttl => "ttl"
  | .idle => "idle"
  | .timestamp => "timestamp"
  | .status => "status"

/-- The offset of a field in `struct srdb_flow_entry`. -/
def FlowField.offset (field : FlowField) : ℕ := Struct.offsetof srdbFlowEntry field.member

/-- `flowstate_desc_tmpl`, with the offsets of the fields. -/
def flowstateDescTmpl : List (SrdbDescriptor ℕ) :=
  flowstateDesc.map (SrdbDescriptor.located FlowField.offset)

/-- `linkstate_desc_tmpl`. -/
def linkstateDescTmpl : List (SrdbDescriptor ℕ) :=
  descTmpl srdbLinkstateEntry [.str "name1" 1 "name1", .str "addr1" 2 "addr1",
    .str "name2" 3 "name2", .str "addr2" 4 "addr2", .int "metric" 5 0 "metric", .int "bw" 6 0 "bw",
    .int "ava_bw" 7 0 "ava_bw", .int "delay" 8 0 "delay"]

/-- `nodestate_desc_tmpl`. -/
def nodestateDescTmpl : List (SrdbDescriptor ℕ) :=
  descTmpl srdbNodestateEntry [.str "name" 1 "name", .str "addr" 2 "addr",
    .varstr "prefix" 3 "prefix", .str "pbsid" 4 "pbsid"]

/-- `availlink_desc_tmpl`. -/
def availlinkDescTmpl : List (SrdbDescriptor ℕ) :=
  descTmpl srdbAvaillinkEntry [.str "name1" 1 "name1", .str "addr1" 2 "addr1",
    .int "routerId1" 3 0 "routerId1", .str "name2" 4 "name2", .str "addr2" 5 "addr2",
    .int "routerId2" 6 0 "routerId2", .int "metric" 7 0 "metric", .int "bw" 8 0 "bw",
    .int "ava_bw" 9 0 "ava_bw", .int "delay" 10 0 "delay"]

/-- What `struct srdb_table` says about entries. -/
structure RawTable where
  name : String
  entrySize : ℕ
  desc : List (SrdbDescriptor ℕ)
  deriving DecidableEq, Repr

/-- `srdb_tables`. -/
def srdbTables : List RawTable :=
  [⟨"NameIdMapping", Struct.sizeof srdbNamemapEntry, namemapDescTmpl⟩,
    ⟨"RouterIds", Struct.sizeof srdbRouterEntry, routeridsDescTmpl⟩,
    ⟨"FlowReq", Struct.sizeof srdbFlowreqEntry, flowreqDescTmpl⟩,
    ⟨"FlowState", Struct.sizeof srdbFlowEntry, flowstateDescTmpl⟩,
    ⟨"LinkState", Struct.sizeof srdbLinkstateEntry, linkstateDescTmpl⟩,
    ⟨"NodeState", Struct.sizeof srdbNodestateEntry, nodestateDescTmpl⟩,
    ⟨"AvailableLink", Struct.sizeof srdbAvaillinkEntry, availlinkDescTmpl⟩]

/-! ## The tables are sound -/

theorem ok_of_mem_srdbTables {tbl : RawTable} (htbl : tbl ∈ srdbTables) :
    Raw.Ok tbl.entrySize tbl.desc := by
  have hnames : ∀ tbl ∈ srdbTables, (tbl.desc.map SrdbDescriptor.name).Nodup := by decide +kernel
  have hbuiltin : ∀ tbl ∈ srdbTables, ∀ d ∈ tbl.desc,
      d.builtin = true ↔ d.name = "row" ∨ d.name = "_version" := by decide +kernel
  have hrow : ∀ tbl ∈ srdbTables, ∀ d ∈ tbl.desc,
      d.name = "row" → d.offset = 0 ∧ d.type = .str := by decide +kernel
  have hindex : ∀ tbl ∈ srdbTables, ∀ d ∈ tbl.desc,
      d.index < 32 ∧ (d.index = 0 ↔ d.builtin = true) := by decide +kernel
  have hapart : ∀ tbl ∈ srdbTables, tbl.desc.Pairwise Raw.Apart := by decide +kernel
  have hfits : ∀ tbl ∈ srdbTables, ∀ d ∈ tbl.desc, d.offset + Raw.width d ≤ tbl.entrySize := by
    decide +kernel
  exact ⟨hnames tbl htbl, hbuiltin tbl htbl, hrow tbl htbl, hindex tbl htbl, hapart tbl htbl,
    hfits tbl htbl⟩

/-- `fill_srdb_entry` for a flow, in memory and by its fields. -/
theorem flowstate_fill_refines {uuid : List UInt8} {line : Json} (huuid : 0 ∉ uuid)
    (hline : AsciiLine line) :
    ∃ entry', Raw.fillSrdbEntry (Struct.sizeof srdbFlowEntry) flowstateDescTmpl uuid line =
        some (entry', (fillSrdbEntry flowstateDesc (chars uuid) line).2) ∧
      Raw.Represents FlowField.offset flowstateDesc entry'
        (fillSrdbEntry flowstateDesc (chars uuid) line).1 := by
  have hmem : ⟨"FlowState", Struct.sizeof srdbFlowEntry, flowstateDescTmpl⟩ ∈ srdbTables := by
    simp [srdbTables]
  exact (ok_of_mem_srdbTables hmem).fill_refines huuid hline

/-- A row as the monitor reports it, with columns of each type. -/
def flowLine : Json :=
  .object [("_version", .array [.string "uuid", .string "c0ffee"]), ("destination", .string "b"),
    ("bsid", .string "[\"9::\"]"), ("bandwidth", .integer 10), ("router", .string "A")]

/-- Its four columns are stored where their members are. -/
theorem flowstate_fill_refines_flowLine :
    (fillSrdbEntry flowstateDesc (chars [97]) flowLine).2 = 0x42a ∧
    ∃ entry', Raw.fillSrdbEntry (Struct.sizeof srdbFlowEntry) flowstateDescTmpl [97] flowLine =
        some (entry', (fillSrdbEntry flowstateDesc (chars [97]) flowLine).2) ∧
      Raw.Represents FlowField.offset flowstateDesc entry'
        (fillSrdbEntry flowstateDesc (chars [97]) flowLine).1 := by
  have hcolumns : ∀ name, AsciiValue (flowLine.objectGet name) :=
    asciiValue_objectGet (by decide +kernel)
  exact ⟨by decide +kernel, flowstate_fill_refines (by decide) ⟨hcolumns, by decide +kernel⟩⟩

/-! ## Rows -/

namespace RawTable

/-- The mask has only indexes of fields of the table. -/
def IsMask (tbl : RawTable) (mask : UInt32) : Prop :=
  ∀ i < 32, mask.toBitVec.getLsbD i = true → ∃ d ∈ tbl.desc, d.builtin = false ∧ d.index = i

/-- The mask of all fields of the table. -/
def allMask (tbl : RawTable) : UInt32 := Raw.selectedMask tbl.desc fun d => !d.builtin

end RawTable

namespace Raw

variable {size : ℕ} {descs : List (SrdbDescriptor ℕ)} {entry : RawEntry}

/-- The columns that `srdb_update_append_mask` writes. -/
def inMask (mask : UInt32) (d : SrdbDescriptor ℕ) : Bool :=
  d.index ≠ 0 && mask &&& entryMask d.index ≠ 0

/-- The mask that `fill_srdb_entry` returns for the columns of a mask. -/
theorem selectedMask_inMask (hok : Ok size descs) {mask : UInt32}
    (hmask : ∀ i < 32, mask.toBitVec.getLsbD i = true →
      ∃ d ∈ descs, d.builtin = false ∧ d.index = i) :
    selectedMask descs (inMask mask) = mask := by
  refine UInt32.toBitVec_inj.mp (BitVec.eq_of_getLsbD_eq fun i hi => ?_)
  rw [Bool.eq_iff_iff, getLsbD_selectedMask (fun d hd => (hok.index d hd).1) hi]
  constructor
  · rintro ⟨d, hd, hin, rfl⟩
    exact (and_entryMask_ne_zero mask hi).mp (by simpa using (Bool.and_eq_true_iff.mp hin).2)
  · intro hbit
    obtain ⟨d, hd, hb, rfl⟩ := hmask i hi hbit
    refine ⟨d, hd, ?_, rfl⟩
    simpa [inMask, hok.index_ne_zero hd hb] using (and_entryMask_ne_zero mask hi).mpr hbit

end Raw

/-- **Main theorem.** For every table and every entry of it whose fields fit: what
`srdb_update_append_mask` writes to a row for a mask of fields, and what `srdb_insert` writes, is
read by `fill_srdb_entry` into a fresh entry.  It restores the fields of the mask, leaves the
others zero, and returns the mask. -/
theorem srdb_row_roundtrip (tbl : RawTable) (htbl : tbl ∈ srdbTables) (entry : RawEntry)
    (hvalid : Raw.Valid tbl.entrySize tbl.desc entry) (uuid : List UInt8) :
    (∀ mask, tbl.IsMask mask → ∃ utr entry',
      Raw.srdbUpdateAppendMask tbl.desc (Raw.srdbUpdatePrepare entry) mask = some utr ∧
      Raw.fillSrdbEntry tbl.entrySize tbl.desc uuid (.object utr.fields) = some (entry', mask) ∧
      Raw.Restored tbl.desc (fun d => mask &&& entryMask d.index ≠ 0) entry entry') ∧
    ∃ row entry', Raw.insertRow tbl.desc entry = some row ∧
      Raw.fillSrdbEntry tbl.entrySize tbl.desc uuid (.object row) = some (entry', tbl.allMask) ∧
      Raw.Restored tbl.desc (fun _ => true) entry entry' := by
  have hok := ok_of_mem_srdbTables htbl
  constructor
  · intro mask hmask
    have hsel : ∀ d ∈ tbl.desc, Raw.inMask mask d = true → d.builtin = false := fun d hd h =>
      hok.not_builtin hd (by simpa using (Bool.and_eq_true_iff.mp h).1)
    obtain ⟨row, entry', hrow, hfill, hrestored⟩ := hok.roundtrip hvalid uuid _ hsel
    rw [Raw.selectedMask_inMask hok hmask] at hfill
    refine ⟨⟨entry, 0 ||| mask, row⟩, entry', ?_, hfill, fun d hd hb => ?_⟩
    · have hloop : (fun row (d : SrdbDescriptor ℕ) => if d.index = 0 then some row
          else if mask &&& entryMask d.index ≠ 0 then Raw.writeDescData row d entry
          else some row) = fun row d =>
            if Raw.inMask mask d then Raw.writeDescData row d entry else some row := by
        funext row d
        by_cases hindex : d.index = 0
        · simp [Raw.inMask, hindex]
        · simp [Raw.inMask, hindex]
      simp only [Raw.srdbUpdateAppendMask, Raw.srdbUpdatePrepare, hloop, hrow]
      rfl
    · have hfield := hrestored d hd hb
      have hin : Raw.inMask mask d = decide (mask &&& entryMask d.index ≠ 0) := by
        simp [Raw.inMask, hok.index_ne_zero hd hb]
      rw [hin] at hfield
      exact hfield
  · obtain ⟨row, entry', hrow, hfill, hrestored⟩ := hok.roundtrip hvalid uuid
      (fun d => !d.builtin) (fun d _ h => by simpa using h)
    refine ⟨row, entry', hrow, hfill, fun d hd hb => ?_⟩
    have hfield := hrestored d hd hb
    rw [if_pos (by simp [hb])] at hfield
    rw [if_pos rfl]
    exact hfield

/-- An entry of the table `NodeState`: the router `A` with the address `::` and no prefix. -/
def nodeA : RawEntry :=
  zeros 256 ++ bytes (CString.strncpy 0 128 127 [0x41]) ++
    bytes (CString.strncpy 0 128 127 [0x3a, 0x3a]) ++ pointerCells [0x5b, 0x5d] ++ zeros 128

/-- Its address and prefixes go through a row. -/
theorem srdb_row_roundtrip_nodeA :
    ∃ utr entry', Raw.srdbUpdateAppendMask nodestateDescTmpl (Raw.srdbUpdatePrepare nodeA) 0xc =
        some utr ∧
      Raw.fillSrdbEntry 648 nodestateDescTmpl [] (.object utr.fields) = some (entry', 0xc) ∧
      Raw.Restored nodestateDescTmpl (fun d => 0xc &&& entryMask d.index ≠ 0) nodeA entry' := by
  have hvalid : Raw.Valid 648 nodestateDescTmpl nodeA := by
    refine ⟨by decide +kernel, fun d hd hb => ?_⟩
    simp only [nodestateDescTmpl, descTmpl, srdbBuiltinEntries, List.cons_append,
      List.nil_append, List.map_cons, List.map_nil, List.mem_cons, List.not_mem_nil, or_false] at hd
    rcases hd with rfl | rfl | rfl | rfl | rfl | rfl
    · cases hb
    · cases hb
    · exact ⟨.str [0x41], by decide +kernel, by decide, by decide, by decide +kernel⟩
    · exact ⟨.str [0x3a, 0x3a], by decide +kernel, by decide, by decide, by decide +kernel⟩
    · exact ⟨.varstr (some [0x5b, 0x5d]), by decide +kernel, by decide, by decide,
        by decide +kernel⟩
    · exact ⟨.str [], by decide +kernel, by decide, by decide, by decide +kernel⟩
  have hmask : RawTable.IsMask ⟨"NodeState", 648, nodestateDescTmpl⟩ 0xc := by
    unfold RawTable.IsMask
    decide +kernel
  exact (srdb_row_roundtrip ⟨"NodeState", 648, nodestateDescTmpl⟩ (by decide +kernel) nodeA hvalid
    []).1 0xc hmask

end Srn
