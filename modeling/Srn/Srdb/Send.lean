import Srn.Srdb.Entry

/-!
# Srn.Srdb.Send

Transactions on their way to the database server, in `lib/srdb.c`.  `ovsdb_insert`, `ovsdb_update`
and `ovsdb_delete` print a message into a buffer of `JSON_BUFLEN` characters and read it back;
`send_transaction` adds the id and dumps it into another such buffer, without blanks.

The blanks that are saved pay for the id only if there are enough of them
(`sendTransaction_exact_iff`).  The buffers hold bytes, and so the characters of the names and
strings of a request stand for bytes here, as in `Srn.Json.Text`.
-/

namespace Srn

/-! ## Building a transaction -/

/-- `OVSDB_UPDATE_FORMAT`. -/
def updateText (database fields table uuid : List Char) : List Char :=
  "\x7b\"method\":\"transact\",\"params\":[\"".toList ++ database ++
    "\",\x7b\"row\":".toList ++ fields ++ ",\"table\":\"".toList ++ table ++
    "\",\"op\":\"update\",\"where\":[[\"_uuid\",\"==\",[\"uuid\",\"".toList ++ uuid ++
    "\"]]]\x7d]\x7d".toList

/-- `OVSDB_DELETE_FORMAT`. -/
def deleteText (database table uuid : List Char) : List Char :=
  "\x7b\"method\":\"transact\",\"params\":[\"".toList ++ database ++
    "\",\x7b\"table\":\"".toList ++ table ++
    "\",\"op\":\"delete\",\"where\":[[\"_uuid\",\"==\",[\"uuid\",\"".toList ++ uuid ++
    "\"]]]\x7d]\x7d".toList

/-- The condition on the row in an update or a delete message. -/
def whereUuid (uuid : List Char) : Json :=
  .array [.array [.string "_uuid", .string "==",
    .array [.string "uuid", .string (String.ofList uuid)]]]

/-- The message that the text of an update stands for. -/
def updateMessage (database : List Char) (row : List (String × Json)) (table uuid : List Char) :
    Json :=
  .object [("method", .string "transact"),
    ("params", .array [.string (String.ofList database),
      .object [("row", .object row), ("table", .string (String.ofList table)),
        ("op", .string "update"), ("where", whereUuid uuid)]])]

/-- The message that the text of a delete stands for. -/
def deleteMessage (database table uuid : List Char) : Json :=
  .object [("method", .string "transact"),
    ("params", .array [.string (String.ofList database),
      .object [("table", .string (String.ofList table)), ("op", .string "delete"),
        ("where", whereUuid uuid)]])]

/-- `ovsdb_update`. -/
def ovsdbUpdate (loads : List Char → Option Json) (database table uuid : List Char)
    (fields : List (String × Json)) : Option Json :=
  loads ((updateText database ((Json.object fields).dumps false) table uuid).take (jsonBuflen - 1))

/-- `ovsdb_delete`. -/
def ovsdbDelete (loads : List Char → Option Json) (database table uuid : List Char) :
    Option Json :=
  loads ((deleteText database table uuid).take (jsonBuflen - 1))

/-- A name that is printed between the quotes of a format, and the string that it stands for
there. -/
structure JsonName where
  raw : List Char
  value : List Char

/-- A transaction. -/
inductive OvsdbRequest where
  | insert (table : JsonName) (fields : List (String × Json))
  | update (table uuid : JsonName) (fields : List (String × Json))
  | delete (table uuid : JsonName)

namespace OvsdbRequest

/-- The text that is printed. -/
def text (database : JsonName) : OvsdbRequest → List Char
  | .insert table fields => ovsdbInsertText database.raw table.raw fields
  | .update table uuid fields =>
    updateText database.raw ((Json.object fields).dumps false) table.raw uuid.raw
  | .delete table uuid => deleteText database.raw table.raw uuid.raw

/-- The message that it stands for. -/
def message (database : JsonName) : OvsdbRequest → Json
  | .insert table fields => insertMessage database.value fields table.value
  | .update table uuid fields => updateMessage database.value fields table.value uuid.value
  | .delete table uuid => deleteMessage database.value table.value uuid.value

/-- The transaction that is built, if the text can be read back. -/
def build (loads : List Char → Option Json) (database : JsonName) : OvsdbRequest → Option Json
  | .insert table fields => ovsdbInsert loads database.raw table.raw fields
  | .update table uuid fields => ovsdbUpdate loads database.raw table.raw uuid.raw fields
  | .delete table uuid => ovsdbDelete loads database.raw table.raw uuid.raw

/-- The names in a message. -/
def names (database : JsonName) : OvsdbRequest → List JsonName
  | .insert table _ => [database, table]
  | .update table uuid _ => [database, table, uuid]
  | .delete table uuid => [database, table, uuid]

/-- The fields of an insert or an update. -/
def fields : OvsdbRequest → List (String × Json)
  | .insert _ fields | .update _ _ fields => fields
  | .delete _ _ => []

/-- The blanks in the text of the fields. -/
def blanks : OvsdbRequest → ℕ
  | .insert _ fields | .update _ _ fields => (Json.object fields).blanks
  | .delete _ _ => 0

end OvsdbRequest

/-! ## Sending it -/

/-- The ways in which `send_transaction` can go wrong. -/
inductive SendFault where
  | outOfBounds
  | nullDereference
  deriving DecidableEq, Repr

/-- `json_dumpb` with `JSON_COMPACT`: the buffer of the given size afterwards, and the number that
is returned. -/
abbrev DumpB := Json → ℕ → List Char × ℕ

/-- What the JSON library documents of it: the number is the length of the whole text, also where
that does not fit; what does fit is in the buffer. -/
structure DumpB.Documented (dumpb : DumpB) : Prop where
  length : ∀ j size, (dumpb j size).2 = (j.dumps true).length
  size : ∀ j size, (dumpb j size).1.length = size
  text : ∀ j size, (j.dumps true).length ≤ size →
    (dumpb j size).1.take (j.dumps true).length = j.dumps true

/-- `json_object_set_new(json, "id", json_integer(id))`. -/
def withId (json : Json) (id : UInt32) : Json :=
  match json with
  | .object members => .object (objectSetNew members "id" (some (.integer id.toNat)))
  | j => j

/-- `send_transaction`: the bytes that are given to `send`, or `none` if nothing is sent.  `send`
reads as many bytes of the buffer as `json_dumpb` returned. -/
def sendTransaction (dumpb : DumpB) (json : Json) (id : UInt32) :
    Except SendFault (Option (List Char)) :=
  match json.objectGet "method" with
  | none => .ok none
  | some (.string method) =>
    if method ≠ "transact" then .ok none
    else
      let (jsonBuf, len) := dumpb (withId json id) jsonBuflen
      if len = 0 then .ok none
      else if jsonBuf.length < len then .error .outOfBounds
      else .ok (some (jsonBuf.take len))
  | some _ => .error .nullDereference

/-- The transaction is built, its message with the id fits the buffer, and it is what is sent. -/
def SentExactly (loads : List Char → Option Json) (dumpb : DumpB) (database : JsonName)
    (req : OvsdbRequest) (id : UInt32) : Prop :=
  ∃ json, req.build loads database = some json ∧
    ((withId json id).dumps true).length ≤ jsonBuflen ∧
    sendTransaction dumpb json id = .ok (some ((withId json id).dumps true))

/-- The length of `,"id":` and the id. -/
def idLength (id : UInt32) : ℕ := 6 + ((Json.integer id.toNat).dumps true).length

/-! ## Lengths -/

/-- The message of an operation on a database. -/
def transact (database : List Char) (op : List (String × Json)) : Json :=
  .object [("method", .string "transact"),
    ("params", .array [.string (String.ofList database), .object op])]

theorem length_transact_withId (database : List Char) (op : List (String × Json)) (id : UInt32) :
    ((withId (transact database op) id).dumps true).length =
      34 + (Json.quote database).length + ((Json.object op).dumps true).length + idLength id := by
  have hmembers : withId (transact database op) id =
      .object [("method", .string "transact"),
        ("params", .array [.string (String.ofList database), .object op]),
        ("id", .integer id.toNat)] := rfl
  have hmethod : (Json.quote "method".toList).length = 8 := by decide
  have htransact : (Json.quote "transact".toList).length = 10 := by decide
  have hparams : (Json.quote "params".toList).length = 8 := by decide
  have hid : (Json.quote "id".toList).length = 4 := by decide
  rw [hmembers]
  simp only [idLength, Json.dumps, Json.dumpsMembers, Json.dumpsElems, List.length_cons,
    List.length_append, hmethod, htransact, hparams, hid, String.toList_ofList]
  simp [Json.itemSep, Json.keySep]
  omega

theorem length_updateText (database fields table uuid : List Char) :
    (updateText database fields table uuid).length =
      database.length + fields.length + table.length + uuid.length + 106 := by
  have hopen : "\x7b\"method\":\"transact\",\"params\":[\"".toList.length = 32 := by decide
  have hrow : "\",\x7b\"row\":".toList.length = 9 := by decide
  have htable : ",\"table\":\"".toList.length = 10 := by decide
  have hwhere : "\",\"op\":\"update\",\"where\":[[\"_uuid\",\"==\",[\"uuid\",\"".toList.length =
      48 := by decide
  have hclose : "\"]]]\x7d]\x7d".toList.length = 7 := by decide
  unfold updateText
  simp only [List.length_append, hopen, hrow, htable, hwhere, hclose]
  omega

theorem length_deleteText (database table uuid : List Char) :
    (deleteText database table uuid).length =
      database.length + table.length + uuid.length + 99 := by
  have hopen : "\x7b\"method\":\"transact\",\"params\":[\"".toList.length = 32 := by decide
  have htable : "\",\x7b\"table\":\"".toList.length = 12 := by decide
  have hwhere : "\",\"op\":\"delete\",\"where\":[[\"_uuid\",\"==\",[\"uuid\",\"".toList.length =
      48 := by decide
  have hclose : "\"]]]\x7d]\x7d".toList.length = 7 := by decide
  unfold deleteText
  simp only [List.length_append, hopen, htable, hwhere, hclose]
  omega

theorem length_whereUuid (uuid : List Char) :
    ((whereUuid uuid).dumps true).length = 26 + (Json.quote uuid).length := by
  have hrow : (Json.quote "_uuid".toList).length = 7 := by decide
  have heq : (Json.quote "==".toList).length = 4 := by decide
  have hkind : (Json.quote "uuid".toList).length = 6 := by decide
  simp only [whereUuid, Json.dumps, Json.dumpsElems, List.length_cons, List.length_append, hrow,
    heq, hkind, String.toList_ofList]
  simp [Json.itemSep]
  omega

theorem length_insertOp (row : Json) (table : List Char) :
    ((Json.object [("row", row), ("table", .string (String.ofList table)),
      ("op", .string "insert")]).dumps true).length =
        (row.dumps true).length + (Json.quote table).length + 31 := by
  have hrow : (Json.quote "row".toList).length = 5 := by decide
  have htable : (Json.quote "table".toList).length = 7 := by decide
  have hop : (Json.quote "op".toList).length = 4 := by decide
  have hinsert : (Json.quote "insert".toList).length = 8 := by decide
  simp only [Json.dumps, Json.dumpsMembers, List.length_cons, List.length_append, hrow, htable,
    hop, hinsert, String.toList_ofList]
  simp [Json.itemSep, Json.keySep]
  omega

theorem length_updateOp (row : Json) (table uuid : List Char) :
    ((Json.object [("row", row), ("table", .string (String.ofList table)),
      ("op", .string "update"), ("where", whereUuid uuid)]).dumps true).length =
        (row.dumps true).length + (Json.quote table).length + (Json.quote uuid).length + 66 := by
  have hrow : (Json.quote "row".toList).length = 5 := by decide
  have htable : (Json.quote "table".toList).length = 7 := by decide
  have hop : (Json.quote "op".toList).length = 4 := by decide
  have hupdate : (Json.quote "update".toList).length = 8 := by decide
  have hwhere : (Json.quote "where".toList).length = 7 := by decide
  simp only [Json.dumps, Json.dumpsMembers, List.length_cons, List.length_append, hrow, htable,
    hop, hupdate, hwhere, length_whereUuid, String.toList_ofList]
  simp [Json.itemSep, Json.keySep]
  omega

theorem length_deleteOp (table uuid : List Char) :
    ((Json.object [("table", .string (String.ofList table)), ("op", .string "delete"),
      ("where", whereUuid uuid)]).dumps true).length =
        (Json.quote table).length + (Json.quote uuid).length + 59 := by
  have htable : (Json.quote "table".toList).length = 7 := by decide
  have hop : (Json.quote "op".toList).length = 4 := by decide
  have hdelete : (Json.quote "delete".toList).length = 8 := by decide
  have hwhere : (Json.quote "where".toList).length = 7 := by decide
  simp only [Json.dumps, Json.dumpsMembers, List.length_cons, List.length_append, htable, hop,
    hdelete, hwhere, length_whereUuid, String.toList_ofList]
  simp [Json.itemSep, Json.keySep]
  omega

/-- The message of a request, with the id, and its text: the blanks are gone, the id has come, and
the names are escaped anew. -/
theorem length_message_withId (database : JsonName) (req : OvsdbRequest) (id : UInt32) :
    ((withId (req.message database) id).dumps true).length + req.blanks +
        ((req.names database).map fun name => name.raw.length + 2).sum =
      (req.text database).length + idLength id +
        ((req.names database).map fun name => (Json.quote name.value).length).sum := by
  cases req with
  | insert table fields =>
    have hmsg := length_transact_withId database.value [("row", .object fields),
      ("table", .string (String.ofList table.value)), ("op", .string "insert")] id
    have htext := length_insertText database.raw ((Json.object fields).dumps false) table.raw
    rw [length_insertOp] at hmsg
    rw [Json.length_dumps_false] at htext
    simp only [OvsdbRequest.message, insertMessage, OvsdbRequest.text, ovsdbInsertText,
      OvsdbRequest.blanks, OvsdbRequest.names, List.map, List.sum_cons, List.sum_nil]
    rw [htext, ← transact, hmsg]
    omega
  | update table uuid fields =>
    have hmsg := length_transact_withId database.value [("row", .object fields),
      ("table", .string (String.ofList table.value)), ("op", .string "update"),
      ("where", whereUuid uuid.value)] id
    have htext := length_updateText database.raw ((Json.object fields).dumps false) table.raw
      uuid.raw
    rw [length_updateOp] at hmsg
    rw [Json.length_dumps_false] at htext
    simp only [OvsdbRequest.message, updateMessage, OvsdbRequest.text, OvsdbRequest.blanks,
      OvsdbRequest.names, List.map, List.sum_cons, List.sum_nil]
    rw [htext, ← transact, hmsg]
    omega
  | delete table uuid =>
    have hmsg := length_transact_withId database.value [("table", .string (String.ofList
      table.value)), ("op", .string "delete"), ("where", whereUuid uuid.value)] id
    have htext := length_deleteText database.raw table.raw uuid.raw
    rw [length_deleteOp] at hmsg
    simp only [OvsdbRequest.message, deleteMessage, OvsdbRequest.text, OvsdbRequest.blanks,
      OvsdbRequest.names, List.map, List.sum_cons, List.sum_nil]
    rw [htext, ← transact, hmsg]
    omega

/-! ## What is sent -/

section

variable {loads : List Char → Option Json} {dumpb : DumpB} {database : JsonName}
  {req : OvsdbRequest}

theorem build_eq (hreads : loads (req.text database) = some (req.message database))
    (hshort : (req.text database).length < jsonBuflen) :
    req.build loads database = some (req.message database) := by
  have hloads : req.build loads database = loads ((req.text database).take (jsonBuflen - 1)) := by
    cases req <;> rfl
  rw [hloads, List.take_of_length_le (Nat.le_sub_one_of_lt hshort), hreads]

theorem exists_members (database : JsonName) (req : OvsdbRequest) :
    ∃ members, req.message database = .object members ∧
      (Json.object members).objectGet "method" = some (.string "transact") := by
  cases req <;> exact ⟨_, rfl, rfl⟩

/-- `send` reads past the buffer exactly if the message does not fit. -/
theorem sendTransaction_eq (hdumpb : dumpb.Documented) {members : List (String × Json)}
    (hmethod : (Json.object members).objectGet "method" = some (.string "transact"))
    (id : UInt32) :
    sendTransaction dumpb (.object members) id =
      if jsonBuflen < ((withId (.object members) id).dumps true).length then .error .outOfBounds
      else .ok (some ((withId (.object members) id).dumps true)) := by
  have hpos : ((withId (.object members) id).dumps true).length ≠ 0 := by
    rw [withId, Json.dumps]
    simp
  unfold sendTransaction
  rw [hmethod]
  simp only [ne_eq, not_true_eq_false, if_false, hdumpb.length, hdumpb.size, hpos]
  split_ifs with hlong
  · rfl
  · rw [hdumpb.text _ _ (Nat.le_of_not_lt hlong)]

theorem sentExactly_iff (hdumpb : dumpb.Documented)
    (hreads : loads (req.text database) = some (req.message database))
    (hshort : (req.text database).length < jsonBuflen) (id : UInt32) :
    SentExactly loads dumpb database req id ↔
      ((withId (req.message database) id).dumps true).length ≤ jsonBuflen := by
  obtain ⟨members, hmembers, hmethod⟩ := exists_members database req
  have hsend := sendTransaction_eq hdumpb hmethod id
  have hbuild := build_eq hreads hshort
  rw [hmembers] at hbuild ⊢
  constructor
  · rintro ⟨json, hjson, hfits, -⟩
    rw [hbuild, Option.some_inj] at hjson
    rwa [← hjson] at hfits
  · intro hfits
    refine ⟨.object members, hbuild, hfits, ?_⟩
    rw [hsend, if_neg (Nat.not_lt.mpr hfits)]

/-- An id has at most ten digits. -/
theorem idLength_le (id : UInt32) : idLength id ≤ 16 := by
  have hdigits : (Nat.repr id.toNat).length ≤ 10 :=
    (Nat.length_repr_le_iff (by decide)).mpr (id.toNat_lt.trans (by decide))
  have htext : ((Json.integer id.toNat).dumps true).length = (Nat.repr id.toNat).length := rfl
  rw [idLength, htext]
  omega

/-- With nine columns or more, the blanks pay for every id. -/
theorem sentExactly_of_nine_columns (hdumpb : dumpb.Documented)
    (hreads : loads (req.text database) = some (req.message database))
    (hshort : (req.text database).length < jsonBuflen)
    (hnames : ∀ name ∈ req.names database, (Json.quote name.value).length ≤ name.raw.length + 2)
    (hcolumns : 9 ≤ req.fields.length) (id : UInt32) :
    SentExactly loads dumpb database req id := by
  have hblanks : 2 * req.fields.length ≤ req.blanks + 1 := by
    cases req with
    | insert table fields => exact Json.two_mul_length_le_blanks fields
    | update table uuid fields => exact Json.two_mul_length_le_blanks fields
    | delete table uuid => exact Nat.zero_le _
  have hlength := length_message_withId database req id
  have hid := idLength_le id
  have hsum := List.sum_le_sum hnames
  rw [sentExactly_iff hdumpb hreads hshort]
  omega

end

/-! ## One column -/

/-- A `json_dumpb` that leaves zeros behind the text. -/
def zeroDumpb : DumpB := fun j size =>
  ((j.dumps true).take size ++ List.replicate (size - (j.dumps true).length) '\x00',
    (j.dumps true).length)

theorem zeroDumpb_documented : zeroDumpb.Documented where
  length _ _ := rfl
  size j size := by
    simp [zeroDumpb]
    omega
  text j size h := by
    rw [zeroDumpb, List.take_of_length_le h, List.take_left]

/-- A name without escapes. -/
def plainName (s : String) : JsonName := ⟨s.toList, s.toList⟩

/-- A reader of JSON that knows the text of one request. -/
def requestLoads (req : OvsdbRequest) (text : List Char) : Option Json :=
  if text = req.text (plainName "srdb") then some (req.message (plainName "srdb")) else none

theorem requestLoads_text (req : OvsdbRequest) :
    requestLoads req (req.text (plainName "srdb")) = some (req.message (plainName "srdb")) :=
  if_pos rfl

/-- The insertion of a request for a flow, as `client_consumer_main` makes it. -/
def flowreqInsert : OvsdbRequest :=
  .insert (plainName "FlowReq") [("req_id", .string "proxy-1"), ("destination", .string "b"),
    ("dstaddr", .string "2::"), ("source", .string "a"), ("srcaddr", .string "1::"),
    ("bandwidth", .integer 10), ("delay", .integer 5), ("proxy", .string "proxy"),
    ("status", .integer 0)]

/-- It has nine columns. -/
theorem sentExactly_flowreqInsert :
    SentExactly (requestLoads flowreqInsert) zeroDumpb (plainName "srdb") flowreqInsert 7 :=
  sentExactly_of_nine_columns zeroDumpb_documented (requestLoads_text _) (by decide +kernel)
    (by decide +kernel) (by decide) 7

/-- The update of one column of a flow, as when its segments were computed again. -/
def segmentsUpdate (n : ℕ) : OvsdbRequest :=
  .update (plainName "FlowState") (plainName "00000000-0000-0000-0000-000000000000")
    [("segments", .string (String.ofList (List.replicate n 'a')))]

theorem length_text_segmentsUpdate (n : ℕ) :
    ((segmentsUpdate n).text (plainName "srdb")).length = n + 171 := by
  have hplain : ∀ c ∈ List.replicate n 'a', Json.escapeChar c = [c] := fun c hc => by
    rw [List.eq_of_mem_replicate hc]
    decide
  have hkey : (Json.quote "segments".toList).length = 10 := by decide
  have hdatabase : "srdb".toList.length = 4 := by decide
  have htable : "FlowState".toList.length = 9 := by decide
  have huuid : "00000000-0000-0000-0000-000000000000".toList.length = 36 := by decide
  simp only [segmentsUpdate, OvsdbRequest.text, plainName, length_updateText, Json.dumps,
    Json.dumpsMembers, String.toList_ofList, Json.quote_eq hplain, List.length_cons,
    List.length_append, List.length_replicate, hkey, hdatabase, htable, huuid]
  simp [Json.keySep]
  omega

theorem names_segmentsUpdate (n : ℕ) :
    (((segmentsUpdate n).names (plainName "srdb")).map fun name =>
        (Json.quote name.value).length).sum =
      (((segmentsUpdate n).names (plainName "srdb")).map fun name => name.raw.length + 2).sum := by
  have hnames : (segmentsUpdate n).names (plainName "srdb") =
      [plainName "srdb", plainName "FlowState",
        plainName "00000000-0000-0000-0000-000000000000"] := rfl
  rw [hnames]
  decide

theorem length_segmentsUpdate_withId (n : ℕ) :
    ((withId ((segmentsUpdate n).message (plainName "srdb")) 0).dumps true).length = n + 177 := by
  have hlength := length_message_withId (plainName "srdb") (segmentsUpdate n) 0
  have hnames := names_segmentsUpdate n
  have hid : idLength 0 = 7 := by decide
  have hblanks : (segmentsUpdate n).blanks = 1 := rfl
  rw [length_text_segmentsUpdate, hid, hblanks] at hlength
  omega

/-! ## What fits -/

/-- **What `send_transaction` sends** is the message with its id, from inside of the buffer,
exactly if the text that was printed and the id are no longer than the buffer and the blanks in the
fields; where escapes in a name stand for something shorter, that much longer. -/
theorem sendTransaction_exact_iff (loads : List Char → Option Json) (dumpb : DumpB)
    (hdumpb : dumpb.Documented) (database : JsonName) (req : OvsdbRequest)
    (hreads : loads (req.text database) = some (req.message database))
    (hshort : (req.text database).length < jsonBuflen) (id : UInt32) :
    SentExactly loads dumpb database req id ↔
      (req.text database).length + idLength id +
          ((req.names database).map fun name => (Json.quote name.value).length).sum ≤
        jsonBuflen + req.blanks +
          ((req.names database).map fun name => name.raw.length + 2).sum := by
  have hlength := length_message_withId database req id
  rw [sentExactly_iff hdumpb hreads hshort]
  omega

/-- A column of 100 characters. -/
theorem sendTransaction_exact_hundred :
    zeroDumpb.Documented ∧
    requestLoads (segmentsUpdate 100) ((segmentsUpdate 100).text (plainName "srdb")) =
      some ((segmentsUpdate 100).message (plainName "srdb")) ∧
    ((segmentsUpdate 100).text (plainName "srdb")).length < jsonBuflen ∧
    SentExactly (requestLoads (segmentsUpdate 100)) zeroDumpb (plainName "srdb")
      (segmentsUpdate 100) 0 := by
  have hshort : ((segmentsUpdate 100).text (plainName "srdb")).length < jsonBuflen := by
    rw [length_text_segmentsUpdate]
    decide
  refine ⟨zeroDumpb_documented, requestLoads_text _, hshort,
    (sendTransaction_exact_iff _ _ zeroDumpb_documented _ _ (requestLoads_text _) hshort 0).mpr ?_⟩
  rw [length_text_segmentsUpdate, names_segmentsUpdate]
  refine Nat.add_le_add_right ?_ _
  decide

/-- A column of 3924 characters: the text of 4095 characters is read back, and of the message of
4101 bytes only 4096 are in the buffer. -/
theorem sendTransaction_overruns :
    requestLoads (segmentsUpdate 3924) ((segmentsUpdate 3924).text (plainName "srdb")) =
      some ((segmentsUpdate 3924).message (plainName "srdb")) ∧
    ((segmentsUpdate 3924).text (plainName "srdb")).length < jsonBuflen ∧
    sendTransaction zeroDumpb ((segmentsUpdate 3924).message (plainName "srdb")) 0 =
      .error .outOfBounds ∧
    ¬ SentExactly (requestLoads (segmentsUpdate 3924)) zeroDumpb (plainName "srdb")
      (segmentsUpdate 3924) 0 := by
  have hshort : ((segmentsUpdate 3924).text (plainName "srdb")).length < jsonBuflen := by
    rw [length_text_segmentsUpdate]
    decide
  have hlong : jsonBuflen <
      ((withId ((segmentsUpdate 3924).message (plainName "srdb")) 0).dumps true).length := by
    rw [length_segmentsUpdate_withId]
    decide
  refine ⟨requestLoads_text _, hshort, ?_, ?_⟩
  · obtain ⟨members, hmembers, hmethod⟩ := exists_members (plainName "srdb") (segmentsUpdate 3924)
    rw [hmembers] at hlong ⊢
    rw [sendTransaction_eq zeroDumpb_documented hmethod, if_pos hlong]
  · rw [sentExactly_iff zeroDumpb_documented (requestLoads_text _) hshort]
    exact Nat.not_le.mpr hlong

end Srn
