import KindDb.Records

/-! # Code from outside the repository

The functions of `serde_json` and `crc32fast` that the server calls.  What
they compute is a parameter of the model; a JSON text that was written and is
read back is taken to parse to what it was written from, which the model of
the files builds in by keeping the parsed lines. -/
set_option autoImplicit false

namespace KindDb

/-- `serde_json::Number`; a float is kept as its bits. -/
inductive JsonNumber
  | posInt (n : UInt64)
  | negInt (n : Int64)
  | float (bits : UInt64)
deriving Repr, DecidableEq

/-- `serde_json::Value`. -/
inductive Json
  | null
  | bool (b : Bool)
  | number (n : JsonNumber)
  | string (s : String)
  | array (items : List Json)
  | object (fields : List (String × Json))
deriving Repr

class Serde where
  /-- `serde_json::from_slice::<serde_json::Value>` -/
  valueFromSlice : Bytes → Option Json
  /-- the text of a `Number` that holds a float -/
  floatToString : UInt64 → String
  /-- `serde_json::to_string` on a command -/
  commandToString : WalCommand → String
  /-- `serde_json::to_string` on a snapshot record -/
  snapshotRecordToString : SnapshotRecord → String
  /-- the `crc32fast` hash of a text -/
  crc32 : String → UInt32

variable [Serde]

def JsonNumber.toString : JsonNumber → String
  | .posInt n => ToString.toString n.toNat
  | .negInt n => ToString.toString n.toInt
  | .float bits => Serde.floatToString bits

/-- The text of an indexed field: strings as they are, numbers and booleans
printed, everything else not indexed. -/
def Json.indexText : Json → Option String
  | .string s => some s
  | .number n => some n.toString
  | .bool b => some (ToString.toString b)
  | _ => none

end KindDb
