import Std.Data.ExtTreeMap
import BranchStream.Binary32.Decimal
import BranchStream.Json.Value

namespace BranchStream

class Coded (α : Type) where
  encode : α → Json
  decode? : Json → Option α

export Coded (encode decode?)

namespace Json

def natBelow? (bound : Nat) : Json → Option Nat
  | .integer n => if 0 ≤ n ∧ n < bound then some n.toNat else none
  | _ => none

def required {α : Type} [Coded α] (j : Json) (place : Nat) (name : String) : Option α :=
  (j.field? place name).bind decode?

def optional {α : Type} [Coded α] (j : Json) (place : Nat) (name : String) (missing : α) :
    Option α :=
  match j.field? place name with
  | some field => decode? field
  | none => some missing

end Json

/-- A number that is not finite has no JSON form but `null`. Integers are rounded at once, decimals
by way of binary64. -/
instance : Coded Float32 where
  encode x :=
    match Binary32.toDecimal? x with
    | some d => .decimal d
    | none => .null
  decode?
    | .integer n => some (.ofInt n)
    | .decimal d => some (Binary32.ofDecimal d)
    | _ => none

instance : Coded String where
  encode := .string
  decode?
    | .string s => some s
    | _ => none

/-- Numbers of nodes and particles have 64 bits. -/
instance : Coded Nat where
  encode n := .integer n
  decode? := Json.natBelow? 0x10000000000000000

instance {α : Type} [Coded α] : Coded (Option α) where
  encode
    | some a => encode a
    | none => .null
  decode?
    | .null => some none
    | j => (decode? j).map some

instance {α : Type} [Coded α] : Coded (List α) where
  encode items := .array (items.map encode)
  decode?
    | .array items => items.mapM decode?
    | _ => none

/-- The fields of an object into a map, where the last of equal keys counts. -/
def Json.insertFields {α : Type} [Coded α] :
    List (String × Json) → Std.ExtTreeMap String α → Option (Std.ExtTreeMap String α)
  | [], map => some map
  | (key, j) :: rest, map => (decode? j).bind fun a ↦ insertFields rest (map.insert key a)

instance {α : Type} [Coded α] : Coded (Std.ExtTreeMap String α) where
  encode map := .object (map.toList.map fun (key, a) ↦ (key, encode a))
  decode?
    | .object fields => Json.insertFields fields ∅
    | _ => none

end BranchStream
