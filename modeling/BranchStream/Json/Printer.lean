import BranchStream.Json.Value

namespace BranchStream.Json

def escape (c : Char) : List Char :=
  if c = '"' then ['\\', '"']
  else if c = '\\' then ['\\', '\\']
  else if c.toNat < 32 then
    ['\\', 'u', '0', '0', Nat.digitChar (c.toNat / 16), Nat.digitChar (c.toNat % 16)]
  else [c]

def quote (s : String) : String := .ofList ('"' :: s.toList.flatMap escape ++ ['"'])

/-- A decimal keeps a point, so that it reads back as one. -/
def decimalText (d : Decimal) : String := if 0 ≤ d.exponent then d.plain ++ ".0" else d.plain

mutual

def write (out : String) : Json → String
  | .null => out ++ "null"
  | .bool b => out ++ if b then "true" else "false"
  | .integer n => out ++ toString n
  | .decimal d => out ++ decimalText d
  | .string s => out ++ quote s
  | .array items => writeItems (out ++ "[") items ++ "]"
  | .object fields => writeFields (out ++ "\x7b") fields ++ "\x7d"

def writeItems (out : String) : List Json → String
  | [] => out
  | [j] => write out j
  | j :: rest => writeItems (write out j ++ ",") rest

def writeFields (out : String) : List (String × Json) → String
  | [] => out
  | [f] => writeField out f
  | f :: rest => writeFields (writeField out f ++ ",") rest

def writeField (out : String) : String × Json → String
  | (key, j) => write (out ++ quote key ++ ":") j

end

def text (j : Json) : String := write "" j

end BranchStream.Json
