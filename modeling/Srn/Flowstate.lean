import Srn.Controller
import Srn.Routed
import Srn.Srdb.Entry

/-!
# Srn.Flowstate

The rows of the table `FlowState`, from the controller to the programs that read them:
`flow_to_flowentry` and `commit_flow` of `sr-ctrl/sr-ctrl.c`, the descriptors of the table in
`lib/srdb.c`, and the columns that `read_flowstate` of `sr-routed/sr-routed.c` parses.

The controller writes the BSIDs and the segments of a flow as JSON texts of any length.  The
message has room for `JSON_BUFLEN` characters, but the router keeps `BUFLEN` characters of each
column.  `flowstate_recovered_iff` gives the number and the lengths of the addresses for which the
router still reads what the controller wrote.

Texts are in ASCII.  `inetNtop` is the text that `inet_ntop` prints, and `rtAddr` the address of
the router at a node.
-/

namespace Srn

/-! ## The table -/

/-- The fields of `struct srdb_flow_entry`. -/
inductive FlowField where
  | row
  | version
  | destination
  | dstaddr
  | bsid
  | segments
  | bandwidth
  | delay
  | policing
  | source
  | sourceIPs
  | router
  | proxy
  | interface
  | reverseFlowUuid
  | requestId
  | ttl
  | idle
  | timestamp
  | status
  deriving DecidableEq, Repr

/-- The constants `FE_DESTINATION` to `FE_STATUS`. -/
def FlowField.index : FlowField → ℕ
  | .row | .version => 0
  | .destination => 1
  | .dstaddr => 2
  | .bsid => 3
  | .segments => 4
  | .bandwidth => 5
  | .delay => 6
  | .policing => 7
  | .source => 8
  | .sourceIPs => 9
  | .router => 10
  | .proxy => 11
  | .interface => 12
  | .reverseFlowUuid => 13
  | .requestId => 14
  | .ttl => 15
  | .idle => 16
  | .timestamp => 17
  | .status => 18

/-- `FE_ALL`. -/
def feAll : UInt32 := entryMask (FlowField.status.index + 1) - 1

/-- `flowstate_desc_tmpl`. -/
def flowstateDesc : List (SrdbDescriptor FlowField) :=
  srdbBuiltinEntries .row .version ++
    [.str "destination" 1 .destination, .str "dstaddr" 2 .dstaddr, .varstr "bsid" 3 .bsid,
      .varstr "segments" 4 .segments, .int "bandwidth" 5 0 .bandwidth, .int "delay" 6 0 .delay,
      .int "policing" 7 0 .policing, .str "source" 8 .source, .varstr "sourceIPs" 9 .sourceIPs,
      .str "router" 10 .router, .str "proxy" 11 .proxy, .str "interface" 12 .interface,
      .str "reverseFlow" 13 .reverseFlowUuid, .str "request" 14 .requestId, .int "ttl" 15 0 .ttl,
      .int "idle" 16 0 .idle, .int "timestamp" 17 0 .timestamp, .int "status" 18 0 .status]

/-! ## Flows with their texts -/

/-- The part of `struct src_prefix` that `select_providers` fills in; `addr` is the whole array. -/
structure PrefixSource where
  router : List Char
  addr : List Char
  prefixLen : Int8
  priority : Int32
  addr_length : addr.length = slen + 1

/-- `struct provider`. -/
structure Provider where
  router : List Char
  addr : List Char
  prefixLen : Int8
  deriving DecidableEq, Repr

/-- The entry that `select_providers` writes for a provider. -/
def selectProvider (p : Provider) : PrefixSource where
  addr := CString.strncpy '\x00' (slen + 1) slen p.addr
  router := p.router.take slen
  prefixLen := p.prefixLen
  priority := 0
  addr_length := CString.length_strncpy (Nat.le_succ slen)

/-- `select_providers`. -/
def selectProviders (providers : List Provider) : List PrefixSource :=
  providers.map selectProvider

/-- `struct flow` with its texts; `obj` is the part that the controller computes with. -/
structure FlowRecord where
  obj : FlowObj
  uuid : List Char
  src : List Char
  dst : List Char
  dstaddr : In6Addr
  sources : List PrefixSource
  srcrtName : List Char
  idle : UInt32
  proxy : List Char
  requestId : List Char
  nbPrefixes : sources.length = obj.srcPrefixes.length

/-- The address in the first sixteen characters of an array. -/
def in6OfChars (cs : List Char) : In6Addr :=
  (cs.take 16).foldl (fun a c => a <<< 8 ||| BitVec.ofNat 128 c.toNat) 0#128

/-- `segment_addr`. -/
def segmentAddr (rtAddr : NodeId → In6Addr) : Segment Link → In6Addr
  | .adjacency e => e.data.remoteAddr
  | .node n => rtAddr n

/-- The value of `enum flow_status`. -/
def FlowStatus.toInt32 : FlowStatus → Int32
  | .active => 0
  | .running => 1
  | .expired => 2
  | .orphan => 3

section

variable (inetNtop : In6Addr → AddrText) (rtAddr : NodeId → In6Addr)

/-- The JSON string of an address. -/
def addrToJson (a : In6Addr) : Json := .string (String.ofList (inetNtop a).chars)

/-- `pref_bsid_to_json`. -/
def prefBsidToJson (fl : FlowRecord) : Json :=
  .array (fl.obj.srcPrefixes.map fun sp => addrToJson inetNtop sp.bsid)

/-- A round of `pref_srcips_to_json`: `inet_ntop` is given the array as if it were a binary
address. -/
def srcipToJson (sp : PrefixSource) : Json :=
  .array [.integer sp.priority.toInt, addrToJson inetNtop (in6OfChars sp.addr),
    .integer sp.prefixLen.toInt]

/-- `pref_srcips_to_json`. -/
def prefSrcipsToJson (fl : FlowRecord) : Json := .array (fl.sources.map (srcipToJson inetNtop))

/-- `pref_segs_to_json`. -/
def prefSegsToJson (fl : FlowRecord) : Json :=
  .array (fl.obj.srcPrefixes.map fun sp =>
    .array (sp.segs.map fun s => addrToJson inetNtop (segmentAddr rtAddr s)))

/-- A field that `flow_to_flowentry` sets for the mask. -/
def FlowField.selected (fields : UInt32) (field : FlowField) : Bool :=
  field == .row || fields &&& entryMask field.index != 0

/-- What `flow_to_flowentry` puts in a character array. -/
def FlowRecord.str (fl : FlowRecord) : FlowField → List Char
  | .row => fl.uuid.take slen
  | .destination => fl.dst.take slen
  | .source => fl.src.take slen
  | .dstaddr => (inetNtop fl.dstaddr).chars
  | .router => fl.srcrtName.take slen
  | .proxy => fl.proxy.take slen
  | .requestId => fl.requestId.take slen
  | _ => []

/-- What `flow_to_flowentry` puts in a number. -/
def FlowRecord.int (fl : FlowRecord) : FlowField → Int32
  | .bandwidth => fl.obj.bw.toInt32
  | .delay => fl.obj.delay.toInt32
  | .ttl => fl.obj.ttl.toInt32
  | .idle => fl.idle.toInt32
  | .timestamp => Int32.ofNat fl.obj.timestamp
  | .status => fl.obj.status.toInt32
  | _ => 0

/-- What `flow_to_flowentry` puts behind a pointer. -/
def FlowRecord.varstr (fl : FlowRecord) : FlowField → Option (List Char)
  | .segments => some ((prefSegsToJson inetNtop rtAddr fl).dumps true)
  | .sourceIPs => some ((prefSrcipsToJson inetNtop fl).dumps true)
  | .bsid => some ((prefBsidToJson inetNtop fl).dumps true)
  | _ => none

/-- `flow_to_flowentry`; the rest of the entry is zero. -/
def flowToFlowentry (fl : FlowRecord) (fields : UInt32) : SrdbEntry FlowField where
  str f := if f.selected fields then fl.str inetNtop f else []
  int f := if f.selected fields then fl.int f else 0
  varstr f := if f.selected fields then fl.varstr inetNtop rtAddr f else none

/-- The row that `commit_flow` inserts. -/
def flowRow (fl : FlowRecord) : List (String × Json) :=
  insertRow flowstateDesc (flowToFlowentry inetNtop rtAddr fl feAll)

/-- The insert message of `commit_flow`. -/
def commitFlow (loads : List Char → Option Json) (database : List Char) (fl : FlowRecord) :
    Option Json :=
  ovsdbInsert loads database "FlowState".toList (flowRow inetNtop rtAddr fl)

/-- The text of the insert message. -/
def commitText (database : List Char) (fl : FlowRecord) : List Char :=
  ovsdbInsertText database "FlowState".toList (flowRow inetNtop rtAddr fl)

/-- The insert message as JSON. -/
def commitJson (database : List Char) (fl : FlowRecord) : Json :=
  insertMessage database (flowRow inetNtop rtAddr fl) "FlowState".toList

end

/-- `json_loads` reads back the texts of the BSIDs, of another column, and of the message. -/
structure ReadsFlow (inetNtop : In6Addr → AddrText) (rtAddr : NodeId → In6Addr)
    (loads : List Char → Option Json) (database : List Char) (fl : FlowRecord) (column : Json) :
    Prop where
  bsid : Json.ReadsBack loads ((prefBsidToJson inetNtop fl).dumps true)
    (prefBsidToJson inetNtop fl)
  column : Json.ReadsBack loads (column.dumps true) column
  message : Json.ReadsBack loads (commitText inetNtop rtAddr database fl)
    (commitJson inetNtop rtAddr database fl)

/-- The JSON that `read_flowstate` parses from a column. -/
def loadsColumn (loads : List Char → Option Json) (entry : SrdbEntry FlowField)
    (field : FlowField) : Option Json :=
  (entry.varstr field).bind loads

/-! ## The columns on their way -/

theorem flowstateDesc_names : (flowstateDesc.map SrdbDescriptor.name).Nodup := by decide

theorem flowstateDesc_offsets : (flowstateDesc.map SrdbDescriptor.offset).Nodup := by decide

section

variable {inetNtop : In6Addr → AddrText} {rtAddr : NodeId → In6Addr}
  {loads : List Char → Option Json} {database : List Char} {fl : FlowRecord} {msg stored : Json}

/-- A message that fits the buffer is built as it was meant. -/
theorem commitFlow_eq_some_iff
    (hmsg : Json.ReadsBack loads (commitText inetNtop rtAddr database fl)
      (commitJson inetNtop rtAddr database fl)) :
    commitFlow inetNtop rtAddr loads database fl = some (commitJson inetNtop rtAddr database fl) ↔
      (commitText inetNtop rtAddr database fl).length ≤ jsonBuflen - 1 :=
  hmsg.take_iff

/-- What a reader of the row parses of a column: the text that the controller wrote, up to
`BUFLEN`. -/
theorem loadsColumn_stored (uuid : List Char)
    (hmsg : Json.ReadsBack loads (commitText inetNtop rtAddr database fl)
      (commitJson inetNtop rtAddr database fl))
    (hbuilt : commitFlow inetNtop rtAddr loads database fl = some msg)
    (haccepted : Accepted flowstateDesc msg stored) (name : String) (field : FlowField)
    (hmem : .varstr name field.index field ∈ flowstateDesc)
    (hname : name ≠ "row" ∧ name ≠ "_version") {text : List Char}
    (htext : (flowToFlowentry inetNtop rtAddr fl feAll).varstr field = some text) :
    loadsColumn loads (fillSrdbEntry flowstateDesc uuid stored).1 field =
      loads (text.take buflen) := by
  have hcolumn := varstr_fillSrdbEntry_insert uuid flowstateDesc_names
    flowstateDesc_offsets hmsg hbuilt haccepted hmem rfl rfl hname.1 hname.2
  unfold loadsColumn
  rw [show (SrdbDescriptor.varstr name field.index field).offset = field from rfl] at hcolumn
  rw [hcolumn, htext]
  rfl

/-! ## Lengths -/

theorem AddrText.escapeChar_of_mem (text : AddrText) :
    ∀ c ∈ text.chars, Json.escapeChar c = [c] := by
  have hall : addrChars.all (fun c => Json.escapeChar c = [c]) = true := by decide
  intro c hc
  exact of_decide_eq_true (List.all_eq_true.mp hall c (text.valid c hc))

theorem length_dumps_addrToJson (inetNtop : In6Addr → AddrText) (a : In6Addr) :
    ((addrToJson inetNtop a).dumps true).length = (inetNtop a).chars.length + 2 := by
  unfold addrToJson
  rw [Json.dumps_string_ofList, Json.quote_eq (inetNtop a).escapeChar_of_mem]
  simp

/-- The characters that the addresses make up in an array of strings: two quotes each, a comma
between two of them, and the brackets. -/
def addrsLength (inetNtop : In6Addr → AddrText) (addrs : List In6Addr) : ℕ :=
  Json.arrayLength (addrs.map fun a => (inetNtop a).chars.length + 2)

theorem length_dumps_addrs (inetNtop : In6Addr → AddrText) (addrs : List In6Addr) :
    ((Json.array (addrs.map (addrToJson inetNtop))).dumps true).length =
      addrsLength inetNtop addrs := by
  rw [Json.length_dumps_array, List.map_map, addrsLength]
  congr 1
  exact List.map_congr_left fun a _ => length_dumps_addrToJson inetNtop a

/-- The BSIDs of a flow. -/
def FlowRecord.bsids (fl : FlowRecord) : List In6Addr := fl.obj.srcPrefixes.map SrcPrefix.bsid

/-- The addresses of the segments of a flow, list by list. -/
def FlowRecord.segments (rtAddr : NodeId → In6Addr) (fl : FlowRecord) : List (List In6Addr) :=
  fl.obj.srcPrefixes.map fun sp => sp.segs.map (segmentAddr rtAddr)

theorem prefBsidToJson_eq : prefBsidToJson inetNtop fl =
    .array (fl.bsids.map (addrToJson inetNtop)) := by
  simp [prefBsidToJson, FlowRecord.bsids]

theorem prefSegsToJson_eq : prefSegsToJson inetNtop rtAddr fl =
    .array ((fl.segments rtAddr).map fun segs => .array (segs.map (addrToJson inetNtop))) := by
  simp [prefSegsToJson, FlowRecord.segments]

theorem length_dumps_prefSegsToJson :
    ((prefSegsToJson inetNtop rtAddr fl).dumps true).length =
      Json.arrayLength ((fl.segments rtAddr).map (addrsLength inetNtop)) := by
  rw [prefSegsToJson_eq, Json.length_dumps_array, List.map_map]
  congr 1
  exact List.map_congr_left fun segs _ => length_dumps_addrs inetNtop segs

end

/-! ## The access router -/

/-- The router parses from the row the two lists that the controller wrote. -/
def Recovered (inetNtop : In6Addr → AddrText) (rtAddr : NodeId → In6Addr)
    (loads : List Char → Option Json) (fl : FlowRecord) (entry : SrdbEntry FlowField) : Prop :=
  loadsColumn loads entry .bsid = some (prefBsidToJson inetNtop fl) ∧
    loadsColumn loads entry .segments = some (prefSegsToJson inetNtop rtAddr fl)

/-- The elements that `json_array_foreach` visits. -/
def Json.elems : Json → List Json
  | .array elems => elems
  | _ => []

/-! ## A small network -/

/-- A digit of an address. -/
def addrDigit (n : BitVec 4) : Char := "0123456789abcdef".toList.getD n.toNat '0'

theorem addrDigit_mem (n : BitVec 4) : addrDigit n ∈ addrChars := by
  revert n
  decide

/-- The text of an address without a zero at the head of a group. -/
def groupsText (a : In6Addr) : AddrText where
  chars := (List.range 39).map fun k =>
    if k % 5 = 4 then ':' else addrDigit (a.extractLsb' (4 * (31 - (4 * (k / 5) + k % 5))) 4)
  ne_nil := by simp
  length_le := by simp
  valid := by
    intro c hc
    obtain ⟨k, -, rfl⟩ := List.mem_map.mp hc
    by_cases hk : k % 5 = 4
    · rw [if_pos hk]
      decide
    · rw [if_neg hk]
      exact addrDigit_mem _

theorem length_groupsText (a : In6Addr) : (groupsText a).chars.length = 39 := by
  simp [groupsText]

/-- The address `1111:1111:1111:1111:1111:1111:1111:1111`. -/
def onesAddr : In6Addr := 0x11111111111111111111111111111111#128

/-- A provider with the address `1111:1111:1111:1111:1111:1111:1111:1111`. -/
def onesProvider : Provider := ⟨[], (groupsText onesAddr).chars, 64⟩

/-- A flow with the given segments and one prefix. -/
def flowAlong (segs : List (Segment Link)) : FlowRecord where
  obj := ⟨⟨0, 0⟩, 0, 1, 2, [⟨onesAddr, segs, none⟩], 0, .active, 1⟩
  uuid := []
  src := []
  dst := []
  dstaddr := onesAddr
  sources := selectProviders [onesProvider]
  srcrtName := []
  idle := 0
  proxy := []
  requestId := []
  nbPrefixes := rfl

theorem flowRow_eq (inetNtop : In6Addr → AddrText) (rtAddr : NodeId → In6Addr) (fl : FlowRecord) :
    flowRow inetNtop rtAddr fl =
      [("destination", .string (String.ofList (fl.str inetNtop .destination))),
        ("dstaddr", .string (String.ofList (fl.str inetNtop .dstaddr))),
        ("bsid", .string (String.ofList ((prefBsidToJson inetNtop fl).dumps true))),
        ("segments", .string (String.ofList ((prefSegsToJson inetNtop rtAddr fl).dumps true))),
        ("bandwidth", .integer (fl.int .bandwidth).toInt),
        ("delay", .integer (fl.int .delay).toInt),
        ("policing", .integer (fl.int .policing).toInt),
        ("source", .string (String.ofList (fl.str inetNtop .source))),
        ("sourceIPs", .string (String.ofList ((prefSrcipsToJson inetNtop fl).dumps true))),
        ("router", .string (String.ofList (fl.str inetNtop .router))),
        ("proxy", .string (String.ofList (fl.str inetNtop .proxy))),
        ("interface", .string (String.ofList (fl.str inetNtop .interface))),
        ("reverseFlow", .string (String.ofList (fl.str inetNtop .reverseFlowUuid))),
        ("request", .string (String.ofList (fl.str inetNtop .requestId))),
        ("ttl", .integer (fl.int .ttl).toInt), ("idle", .integer (fl.int .idle).toInt),
        ("timestamp", .integer (fl.int .timestamp).toInt),
        ("status", .integer (fl.int .status).toInt)] := by
  unfold flowRow
  rw [insertRow_eq _ flowstateDesc_names]
  rfl

theorem plain_addrToJson (inetNtop : In6Addr → AddrText) (a : In6Addr) :
    Json.Plain ((addrToJson inetNtop a).dumps true) := by
  have hquote : Json.Plain ['"'] := by decide
  have hchars : Json.Plain (inetNtop a).chars := by
    intro c hc
    rw [(inetNtop a).escapeChar_of_mem c hc]
    simp
  rw [addrToJson, Json.dumps_string_ofList, Json.quote_eq (inetNtop a).escapeChar_of_mem]
  exact hquote.append (hchars.append hquote)

theorem plain_prefBsidToJson (inetNtop : In6Addr → AddrText) (fl : FlowRecord) :
    Json.Plain ((prefBsidToJson inetNtop fl).dumps true) := by
  refine .dumps_array fun j hj => ?_
  obtain ⟨sp, -, rfl⟩ := List.mem_map.mp hj
  exact plain_addrToJson inetNtop sp.bsid

theorem plain_prefSegsToJson (inetNtop : In6Addr → AddrText) (rtAddr : NodeId → In6Addr)
    (fl : FlowRecord) : Json.Plain ((prefSegsToJson inetNtop rtAddr fl).dumps true) := by
  refine .dumps_array fun j hj => ?_
  obtain ⟨sp, -, rfl⟩ := List.mem_map.mp hj
  refine .dumps_array fun j' hj' => ?_
  obtain ⟨s, -, rfl⟩ := List.mem_map.mp hj'
  exact plain_addrToJson inetNtop (segmentAddr rtAddr s)

theorem flowAlong_int (segs : List (Segment Link)) (f : FlowField) :
    (flowAlong segs).int f = 0 := by
  cases f <;> rfl

theorem flowAlong_str (segs : List (Segment Link)) {f : FlowField} (hf : f ≠ .dstaddr) :
    (flowAlong segs).str groupsText f = [] := by
  cases f with
  | dstaddr => exact absurd rfl hf
  | _ => rfl

theorem length_srcips_flowAlong (segs : List (Segment Link)) :
    (Json.quote ((prefSrcipsToJson groupsText (flowAlong segs)).dumps true)).length ≤ 102 := by
  have hpriority : (Json.integer 0).dumps true = ['0'] := by decide
  have hprefixLen : (Json.integer 64).dumps true = ['6', '4'] := by decide
  have hjson : prefSrcipsToJson groupsText (flowAlong segs) = .array [.array [.integer 0,
      addrToJson groupsText (in6OfChars (selectProvider onesProvider).addr), .integer 64]] := rfl
  have hplain : Json.Plain ((prefSrcipsToJson groupsText (flowAlong segs)).dumps true) := by
    rw [hjson]
    refine .dumps_array fun j hj => ?_
    obtain rfl := List.mem_singleton.mp hj
    refine .dumps_array fun j hj => ?_
    simp only [List.mem_cons, List.not_mem_nil, or_false] at hj
    obtain rfl | rfl | rfl := hj
    · rw [hpriority]
      decide
    · exact plain_addrToJson _ _
    · rw [hprefixLen]
      decide
  have hlength : ((prefSrcipsToJson groupsText (flowAlong segs)).dumps true).length = 50 := by
    rw [hjson, Json.length_dumps_array]
    simp [Json.length_dumps_array, Json.arrayLength, hpriority, hprefixLen,
      length_dumps_addrToJson, length_groupsText]
  have hquote := hplain.length_quote_le
  omega

theorem addrsLength_groupsText {addrs : List In6Addr} (h : addrs ≠ []) :
    addrsLength groupsText addrs = 42 * addrs.length + 1 := by
  have hpos := List.length_pos_iff.mpr h
  simp [addrsLength, Json.arrayLength, length_groupsText]
  omega

theorem segments_flowAlong (rtAddr : NodeId → In6Addr) (segs : List (Segment Link)) :
    (flowAlong segs).segments rtAddr = [segs.map (segmentAddr rtAddr)] := rfl

theorem length_segments_flowAlong (rtAddr : NodeId → In6Addr) {segs : List (Segment Link)}
    (h : segs ≠ []) :
    Json.arrayLength (((flowAlong segs).segments rtAddr).map (addrsLength groupsText)) =
      42 * segs.length + 3 := by
  rw [segments_flowAlong, List.map_singleton, addrsLength_groupsText (by simpa using h)]
  simp [Json.arrayLength]
  omega

/-- The message of the flow is built for a path of up to thirty segments. -/
theorem length_commitText_flowAlong (rtAddr : NodeId → In6Addr) {segs : List (Segment Link)}
    (hne : segs ≠ []) (h : segs.length ≤ 30) :
    (commitText groupsText rtAddr [] (flowAlong segs)).length ≤ jsonBuflen - 1 := by
  have hnames : (flowRow groupsText rtAddr (flowAlong segs)).map Prod.fst =
      ["destination", "dstaddr", "bsid", "segments", "bandwidth", "delay", "policing", "source",
        "sourceIPs", "router", "proxy", "interface", "reverseFlow", "request", "ttl", "idle",
        "timestamp", "status"] := by
    rw [flowRow_eq]
    rfl
  have hkeys : (((flowRow groupsText rtAddr (flowAlong segs)).map Prod.fst).map fun key =>
      (Json.quote key.toList).length).sum = 163 := by
    rw [hnames]
    decide
  have hzero : ((Json.integer (Int32.toInt 0)).dumps false).length = 1 := by decide
  have hempty : (Json.quote []).length = 2 := rfl
  have htable : "FlowState".toList.length = 9 := by decide
  have hdst : (Json.quote ((flowAlong segs).str groupsText .dstaddr)).length = 41 := by
    show (Json.quote (groupsText onesAddr).chars).length = 41
    rw [Json.quote_eq (groupsText onesAddr).escapeChar_of_mem]
    simp [length_groupsText]
  have hbsid := (plain_prefBsidToJson groupsText (flowAlong segs)).length_quote_le
  rw [prefBsidToJson_eq, length_dumps_addrs, addrsLength_groupsText (by simp [flowAlong,
    FlowRecord.bsids]), ← prefBsidToJson_eq] at hbsid
  have hone : (flowAlong segs).bsids.length = 1 := rfl
  have hsegs := (plain_prefSegsToJson groupsText rtAddr (flowAlong segs)).length_quote_le
  rw [length_dumps_prefSegsToJson, length_segments_flowAlong rtAddr hne] at hsegs
  have hsrcips := length_srcips_flowAlong segs
  unfold commitText ovsdbInsertText
  rw [length_insertText, Json.dumps, List.length_cons, List.length_append,
    Json.length_dumpsMembers, hkeys, flowRow_eq]
  simp only [List.map, List.sum_cons, List.sum_nil, Json.dumps_string_ofList, flowAlong_int,
    flowAlong_str, ne_eq, reduceCtorEq, not_false_eq_true, hdst, hzero, hempty, htable,
    List.length_cons, List.length_nil, jsonBuflen]
  omega

section

variable (inetNtop : In6Addr → AddrText) (rtAddr : NodeId → In6Addr) (database : List Char)
  (fl : FlowRecord) (column : Json)

/-- The texts of the BSIDs, of another column, and of the message. -/
def flowTexts : List (List Char × Json) :=
  [((prefBsidToJson inetNtop fl).dumps true, prefBsidToJson inetNtop fl),
    (column.dumps true, column),
    (commitText inetNtop rtAddr database fl, commitJson inetNtop rtAddr database fl)]

/-- A reader of JSON that knows the texts. -/
def flowLoads : List Char → Option Json :=
  Json.readTable (flowTexts inetNtop rtAddr database fl column)

/-- The texts of a flow with a prefix are told apart by two characters. -/
theorem readsFlow_flowLoads (hne : fl.obj.srcPrefixes ≠ [])
    (hcolumn : ∃ rest, column.dumps true = '[' :: '[' :: rest) :
    ReadsFlow inetNtop rtAddr (flowLoads inetNtop rtAddr database fl column) database fl
      column := by
  have hbsid : ∃ rest, (prefBsidToJson inetNtop fl).dumps true = '[' :: '"' :: rest := by
    obtain ⟨sp, sps, heq⟩ := List.exists_cons_of_ne_nil hne
    unfold prefBsidToJson addrToJson
    rw [heq, List.map_cons, Json.dumps, Json.dumpsElems, Json.dumps_string_ofList, Json.quote]
    exact ⟨_, rfl⟩
  have hmsg : ∃ rest, commitText inetNtop rtAddr database fl = '\x7b' :: '"' :: rest := by
    unfold commitText ovsdbInsertText insertText
    exact ⟨_, rfl⟩
  obtain ⟨bsids, hbsid⟩ := hbsid
  obtain ⟨columns, hcolumn⟩ := hcolumn
  obtain ⟨msg, hmsg⟩ := hmsg
  have hall : ∀ e ∈ flowTexts inetNtop rtAddr database fl column,
      Json.ReadsBack (flowLoads inetNtop rtAddr database fl column) e.1 e.2 := by
    intro e he
    refine Json.readsBack_readTable_of_take 2 ?_ ?_ he
    · simp [flowTexts, hbsid, hcolumn, hmsg]
    · simp [flowTexts, hbsid, hcolumn, hmsg]
  exact ⟨hall _ List.mem_cons_self, hall _ (List.mem_cons_of_mem _ List.mem_cons_self),
    hall _ (List.mem_cons_of_mem _ (List.mem_cons_of_mem _ List.mem_cons_self))⟩

end

theorem dumps_prefSegsToJson_flowAlong (rtAddr : NodeId → In6Addr) (segs : List (Segment Link)) :
    ∃ rest, (prefSegsToJson groupsText rtAddr (flowAlong segs)).dumps true =
      '[' :: '[' :: rest := by
  rw [prefSegsToJson_eq, segments_flowAlong, List.map_singleton, Json.dumps, Json.dumpsElems,
    Json.dumps]
  exact ⟨_, rfl⟩

/-- The address of every router. -/
def onesRouter : NodeId → In6Addr := fun _ => onesAddr

/-- A reader of JSON that knows the texts of the flow. -/
def alongLoads (segs : List (Segment Link)) : List Char → Option Json :=
  flowLoads groupsText onesRouter [] (flowAlong segs)
    (prefSegsToJson groupsText onesRouter (flowAlong segs))

/-- The insert message of the flow. -/
def alongMessage (segs : List (Segment Link)) : Json :=
  commitJson groupsText onesRouter [] (flowAlong segs)

/-- The row of the flow in the database. -/
def alongStored (segs : List (Segment Link)) : Json :=
  .object (flowRow groupsText onesRouter (flowAlong segs))

theorem readsFlow_alongLoads (segs : List (Segment Link)) :
    ReadsFlow groupsText onesRouter (alongLoads segs) [] (flowAlong segs)
      (prefSegsToJson groupsText onesRouter (flowAlong segs)) :=
  readsFlow_flowLoads groupsText onesRouter [] (flowAlong segs) _ (List.cons_ne_nil _ _)
    (dumps_prefSegsToJson_flowAlong onesRouter segs)

theorem commitFlow_flowAlong (segs : List (Segment Link)) (hne : segs ≠ [])
    (h : segs.length ≤ 30) :
    commitFlow groupsText onesRouter (alongLoads segs) [] (flowAlong segs) =
      some (alongMessage segs) := by
  unfold alongMessage
  rw [commitFlow_eq_some_iff (readsFlow_alongLoads segs).message]
  exact length_commitText_flowAlong onesRouter hne h

theorem accepted_flowAlong (segs : List (Segment Link)) :
    Accepted flowstateDesc (alongMessage segs) (alongStored segs) :=
  ⟨alongStored segs, rfl, fun _ _ _ => rfl⟩

/-! ## What the router recovers -/

/-- **Main theorem.**  For a message that was built and accepted, the router recovers the BSIDs and
the segments of the flow exactly if the texts of both lists have at most `BUFLEN` characters. -/
theorem flowstate_recovered_iff (inetNtop : In6Addr → AddrText) (rtAddr : NodeId → In6Addr)
    (loads : List Char → Option Json) (database uuid : List Char) (fl : FlowRecord)
    (msg stored : Json)
    (hreads : ReadsFlow inetNtop rtAddr loads database fl (prefSegsToJson inetNtop rtAddr fl))
    (hbuilt : commitFlow inetNtop rtAddr loads database fl = some msg)
    (haccepted : Accepted flowstateDesc msg stored) :
    Recovered inetNtop rtAddr loads fl (fillSrdbEntry flowstateDesc uuid stored).1 ↔
      addrsLength inetNtop fl.bsids ≤ buflen ∧
        Json.arrayLength ((fl.segments rtAddr).map (addrsLength inetNtop)) ≤ buflen := by
  have hbsidColumn : loadsColumn loads (fillSrdbEntry flowstateDesc uuid stored).1 .bsid =
      loads (((prefBsidToJson inetNtop fl).dumps true).take buflen) :=
    loadsColumn_stored uuid hreads.message hbuilt haccepted "bsid" .bsid (by decide) (by decide) rfl
  have hsegsColumn : loadsColumn loads (fillSrdbEntry flowstateDesc uuid stored).1 .segments =
      loads (((prefSegsToJson inetNtop rtAddr fl).dumps true).take buflen) :=
    loadsColumn_stored uuid hreads.message hbuilt haccepted "segments" .segments (by decide)
      (by decide) rfl
  unfold Recovered
  rw [hbsidColumn, hsegsColumn, hreads.bsid.take_iff, hreads.column.take_iff,
    length_dumps_prefSegsToJson, prefBsidToJson_eq, length_dumps_addrs]

/-- A path of one segment. -/
theorem flowstate_recovered_one :
    Recovered groupsText onesRouter (alongLoads [.node 1]) (flowAlong [.node 1])
      (fillSrdbEntry flowstateDesc [] (alongStored [.node 1])).1 := by
  have hiff := flowstate_recovered_iff groupsText onesRouter (alongLoads [.node 1]) [] []
    (flowAlong [.node 1]) (alongMessage [.node 1]) (alongStored [.node 1])
    (readsFlow_alongLoads [.node 1]) (commitFlow_flowAlong [.node 1] (by simp) (by simp))
    (accepted_flowAlong [.node 1])
  refine hiff.mpr ⟨?_, ?_⟩
  · rw [addrsLength_groupsText (by simp [flowAlong, FlowRecord.bsids])]
    decide
  · rw [length_segments_flowAlong onesRouter (by simp)]
    decide

/-- The message of a path of 25 segments is built and accepted, but its segments are not
recovered. -/
theorem flowstate_segments_cut :
    commitFlow groupsText onesRouter (alongLoads (List.replicate 25 (.node 1))) []
        (flowAlong (List.replicate 25 (.node 1))) =
      some (alongMessage (List.replicate 25 (.node 1))) ∧
    Accepted flowstateDesc (alongMessage (List.replicate 25 (.node 1)))
      (alongStored (List.replicate 25 (.node 1))) ∧
    ¬ Recovered groupsText onesRouter (alongLoads (List.replicate 25 (.node 1)))
      (flowAlong (List.replicate 25 (.node 1)))
      (fillSrdbEntry flowstateDesc [] (alongStored (List.replicate 25 (.node 1)))).1 := by
  have hreads := readsFlow_alongLoads (List.replicate 25 (.node 1))
  have hbuilt := commitFlow_flowAlong (List.replicate 25 (.node 1)) (by simp) (by simp)
  have haccepted := accepted_flowAlong (List.replicate 25 (.node 1))
  refine ⟨hbuilt, haccepted, fun hrecovered => ?_⟩
  have hcut := hrecovered.2
  rw [loadsColumn_stored [] hreads.message hbuilt haccepted "segments" .segments (by decide)
    (by decide) rfl, hreads.column.take_iff, length_dumps_prefSegsToJson,
    length_segments_flowAlong onesRouter (by simp), List.length_replicate] at hcut
  exact absurd hcut (by decide)

end Srn
