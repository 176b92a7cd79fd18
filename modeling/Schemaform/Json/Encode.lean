import Schemaform.Json.Value

/-!
# Json.Encode

The compact encoding `Value::to_string` writes.

* `Value.encode`, `Value.text`.
-/

namespace Schemaform

def hexDigit (n : Nat) : Char := "0123456789abcdef".toList.getD n '0'

/-- One character of a JSON string as `serde_json` escapes it. -/
def encodeChar (c : Char) : List Char :=
  if c = '"' then ['\\', '"']
  else if c = '\\' then ['\\', '\\']
  else if c = '\x08' then ['\\', 'b']
  else if c = '\x0c' then ['\\', 'f']
  else if c = '\n' then ['\\', 'n']
  else if c = '\r' then ['\\', 'r']
  else if c = '\t' then ['\\', 't']
  else if c.toNat < 32 then ['\\', 'u', '0', '0', hexDigit (c.toNat / 16), hexDigit (c.toNat % 16)]
  else [c]

def encodeString (s : String) : List Char := '"' :: (s.toList.flatMap encodeChar ++ ['"'])

namespace Value

mutual

def encode : Value → List Char
  | .null => "null".toList
  | .bool true => "true".toList
  | .bool false => "false".toList
  | .number literal => literal.toList
  | .string s => encodeString s
  | .array items => '[' :: (encodeItems items ++ [']'])
  | .object members => '{' :: (encodeMembers members ++ ['}'])

def encodeItems : List Value → List Char
  | [] => []
  | [v] => encode v
  | v :: vs => encode v ++ ',' :: encodeItems vs

def encodeMembers : List (String × Value) → List Char
  | [] => []
  | [(k, v)] => encodeString k ++ ':' :: encode v
  | (k, v) :: vs => encodeString k ++ ':' :: (encode v ++ ',' :: encodeMembers vs)

end

def text (v : Value) : String := String.ofList v.encode

end Value

end Schemaform
