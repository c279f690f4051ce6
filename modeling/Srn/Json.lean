import Mathlib.Data.Int.Notation

/-!
# Srn.Json

JSON values as the programs see them through the JSON library, and the two tests that
route a message of the database server.
-/

namespace Srn

/-- A parsed JSON value. -/
inductive Json where
  | null
  | bool (b : Bool)
  | integer (i : ℤ)
  | real (lexeme : String)
  | string (s : String)
  | array (elems : List Json)
  | object (members : List (String × Json))

namespace Json

/-- `json_object_get`: `none` when the value is no object or has no such member. -/
def objectGet : Json → String → Option Json
  | .object members, key => (members.find? fun m => m.1 == key).map Prod.snd
  | _, _ => none

/-- `json_is_integer`, also on a `NULL` argument. -/
def isInteger : Option Json → Bool
  | some (.integer _) => true
  | _ => false

/-- `is_echo` of `lib/srdb.c`: the message has the method `echo`. -/
def isEcho (msg : Json) : Bool :=
  match msg.objectGet "method" with
  | some (.string method) => method == "echo"
  | _ => false

end Json

end Srn
