import KindDb.Serde

/-! # The texts themselves

An instance of `Serde` that computes: the compact form in which commands and
snapshot records are written when their keys need no escapes, objects of
strings read back, and the CRC-32 of the `crc32fast` crate. -/
set_option autoImplicit false

namespace KindDb.SerdeJson

def quoted (s : String) : String := "\"" ++ s ++ "\""

def commaSeparated (texts : List String) : String := "[" ++ ",".intercalate texts ++ "]"

def bytesToString (val : Bytes) : String :=
  commaSeparated (val.map fun byte => ToString.toString byte.toNat)

def deadlineToString : Option UInt64 → String
  | none => "null"
  | some ms => ToString.toString ms.toNat

mutual

def commandToString : WalCommand → String
  | .put key value expiresAt =>
      "\x7b\"Put\":\x7b\"key\":" ++ quoted key ++ ",\"value\":" ++ bytesToString value ++
        ",\"expires_at\":" ++ deadlineToString expiresAt ++ "\x7d\x7d"
  | .delete key => "\x7b\"Delete\":\x7b\"key\":" ++ quoted key ++ "\x7d\x7d"
  | .txCommit cmds => "\x7b\"TxCommit\":" ++ commaSeparated (commandsToStrings cmds) ++ "\x7d"

def commandsToStrings : List WalCommand → List String
  | [] => []
  | cmd :: rest => commandToString cmd :: commandsToStrings rest

end

def snapshotRecordToString (r : SnapshotRecord) : String :=
  "\x7b\"key\":" ++ quoted r.key ++ ",\"record\":\x7b\"value\":" ++ bytesToString r.record.value ++
    ",\"expires_at\":" ++ deadlineToString r.record.expiresAt ++
    ",\"version\":" ++ ToString.toString r.record.version ++ "\x7d\x7d"

def crcBit (crc : UInt32) : UInt32 :=
  if crc &&& 1 = 1 then (crc >>> 1) ^^^ 0xEDB88320 else crc >>> 1

def crcByte (crc : UInt32) (byte : UInt8) : UInt32 :=
  Nat.repeat crcBit 8 (crc ^^^ byte.toUInt32)

def crc32 (text : String) : UInt32 :=
  text.toUTF8.data.toList.foldl crcByte 0xFFFFFFFF ^^^ 0xFFFFFFFF

def unquote : List Char → Option String
  | '\x22' :: rest => if rest.getLast? = some '\x22' then some (String.ofList rest.dropLast) else none
  | _ => none

def member (text : List Char) : Option (String × Json) :=
  match text.splitOn ':' with
  | [name, value] => (unquote name).bind fun name => (unquote value).map fun s => (name, .string s)
  | _ => none

def valueFromSlice (val : Bytes) : Option Json :=
  match val.map fun byte => Char.ofNat byte.toNat with
  | '\x7b' :: rest =>
      if rest.getLast? = some '\x7d' then ((rest.dropLast.splitOn ',').mapM member).map .object
      else none
  | _ => none

/-- Only a `Number` that holds the float zero is printed right. -/
scoped instance instSerde : Serde where
  valueFromSlice := valueFromSlice
  floatToString := fun _ => "0.0"
  commandToString := commandToString
  snapshotRecordToString := snapshotRecordToString
  crc32 := crc32

example : crc32 "123456789" = 0xCBF43926 := by decide +kernel

end KindDb.SerdeJson
