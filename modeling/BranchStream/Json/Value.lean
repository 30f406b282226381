import BranchStream.Decimal

namespace BranchStream

inductive Json where
  | null
  | bool (b : Bool)
  | integer (n : Int)
  | decimal (d : Decimal)
  | string (s : String)
  | array (items : List Json)
  | object (fields : List (String × Json))

namespace Json

/-- Whether a value can be a record of at most `size` fields: an object, or an array of the fields
in their order. -/
def isRecord (size : Nat) : Json → Bool
  | .object _ => true
  | .array items => items.length ≤ size
  | _ => false

def field? (place : Nat) (name : String) : Json → Option Json
  | .object fields => fields.lookup name
  | .array items => items[place]?
  | _ => none

end Json

end BranchStream
