namespace BranchStream

/-- The number `± digits · 10 ^ exponent`; zero has a sign too. -/
structure Decimal where
  negative : Bool
  digits : Nat
  exponent : Int
deriving DecidableEq

def Decimal.plain (d : Decimal) : String :=
  let ds := Nat.toDigits 10 d.digits
  let places := (-d.exponent).toNat
  let padded := List.replicate (places + 1 - ds.length) '0' ++ ds
  let whole := padded.take (padded.length - places) ++ List.replicate d.exponent.toNat '0'
  let fraction := padded.drop (padded.length - places)
  let sign := if d.negative then ['-'] else []
  String.ofList (sign ++ whole ++ if fraction.isEmpty then [] else '.' :: fraction)

end BranchStream
