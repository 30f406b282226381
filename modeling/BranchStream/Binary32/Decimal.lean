import BranchStream.Binary32.Basic
import BranchStream.Decimal

namespace BranchStream.Binary32

open Float.Model (UnpackedFloat)
open Float.Model.UnpackedFloat (Sign)

def signOf (negative : Bool) : Sign := if negative then .negative else .positive

/-- A decimal is first rounded to a binary64 number and that one to a binary32 number. -/
def ofDecimal (d : Decimal) : Float32 :=
  let s := signOf d.negative
  match UnpackedFloat.ofScientific .binary64 d.digits d.exponent with
  | .finite _ m e _ => ofParts s m e
  | .zero _ => ofParts s 0 0
  | _ => infinity s

def toDecimal? (x : Float32) : Option Decimal :=
  match x.toModel.unpack with
  | .finite s m e _ =>
    let k := (-e).toNat
    some ⟨s == .negative, (m <<< e.toNat) * Nat.pow 5 k, -k⟩
  | .zero s => some ⟨s == .negative, 0, 0⟩
  | _ => none

/-- The numbers that round to a value: `value` itself, the ends, and whether the ends belong to it,
all multiplied by `2 ^ 151 · 10 ^ 60`. -/
structure RoundingInterval where
  value : Nat
  lower : Nat
  upper : Nat
  closed : Bool

/-- Half a unit in the last place on either side, but a quarter below a power of two; the ends
belong to an even significand. -/
def RoundingInterval.ofParts (m : Nat) (e : Int) : RoundingInterval :=
  let quarter := Nat.pow 10 60 <<< (e + 149).toNat
  let below := if m = 0x800000 then quarter else 2 * quarter
  let value := m * quarter * 4
  { value, lower := value - below, upper := value + 2 * quarter, closed := m % 2 = 0 }

namespace RoundingInterval

variable (i : RoundingInterval)

def holds (x : Nat) : Bool :=
  if i.closed then i.lower ≤ x ∧ x ≤ i.upper else i.lower < x ∧ x < i.upper

/-- The point of the grid of multiples of `10 ^ k` that is nearest to the value among those that
round to it, the upper one if two are equally near. -/
def nearestOnGrid (k : Int) : Option Nat :=
  let step := Nat.pow 10 (k + 60).toNat <<< 151
  let low := i.value / step
  let high := low + 1
  match i.holds (low * step), i.holds (high * step) with
  | true, true => some (if i.value - low * step < high * step - i.value then low else high)
  | true, false => some low
  | false, true => some high
  | false, false => none

/-- The point with the fewest digits that rounds to the value: the first that is found when the
grids are tried from multiples of `10 ^ (n - 1 - 56)` down. -/
def fewestDigits : Nat → Option (Nat × Int)
  | 0 => none
  | n + 1 =>
    let k : Int := n - 56
    match i.nearestOnGrid k with
    | some digits => some (digits, k)
    | none => fewestDigits n

end RoundingInterval

def plainText (x : Float32) : String :=
  match x.toModel.unpack with
  | .notANumber => "NaN"
  | .infinity .positive => "inf"
  | .infinity .negative => "-inf"
  | .zero s => Decimal.plain ⟨s == .negative, 0, 0⟩
  | .finite s m e _ =>
    let (digits, k) := ((RoundingInterval.ofParts m e).fewestDigits 96).getD (0, 0)
    Decimal.plain ⟨s == .negative, digits, k⟩

end BranchStream.Binary32
