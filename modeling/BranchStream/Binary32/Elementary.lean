import BranchStream.Binary32.Basic
import BranchStream.Binary32.FixedPoint

namespace BranchStream.Binary32

open Float.Model (UnpackedFloat)
open Float.Model.UnpackedFloat (Sign)

/-- Bits after the point of a computed value, far more than its rounding needs to be decided. -/
abbrev precision : Nat := 192

/-- Bits after the point of a reduced angle before the reduction: a whole number of quarter turns
below `2 ^ 128` leaves `precision` good ones. -/
abbrev reductionPrecision : Nat := 352

def quarterTurn : Int := FixedPoint.pi reductionPrecision 80 / 2

def halfTurn : Int := FixedPoint.pi precision 48

def lnTwo : Int := FixedPoint.lnTwo precision 64

/-- The nearest number to a value slightly above `v · 2 ^ e`, which has more than 25 bits. -/
def ofAbove (s : Sign) (v : Nat) (e : Int) : Float32 :=
  let k := v.log2 - 63
  .ofModel (.pack (UnpackedFloat.roundWithAccuracy .binary32 s (v >>> k) (e + k) (.inexact .lt)))

def ofFixed (v : Int) (e : Int) : Float32 :=
  ofAbove (if v < 0 then .negative else .positive) v.natAbs (e - precision)

def toFixed (p : Nat) (s : Sign) (m : Nat) (e : Int) : Int :=
  s.apply (m <<< (e + p).toNat : Nat)

def reduceAngle (s : Sign) (m : Nat) (e : Int) : Int × Int :=
  let x := toFixed reductionPrecision s m e
  let turns := (x + quarterTurn / 2) / quarterTurn
  (turns, (x - turns * quarterTurn) / FixedPoint.one (reductionPrecision - precision))

def sinTurned (turns r : Int) : Int :=
  let v := if turns % 2 = 0 then FixedPoint.sin precision 26 r else FixedPoint.cos precision 26 r
  if turns % 4 < 2 then v else -v

def sin (x : Float32) : Float32 :=
  match x.toModel.unpack with
  | .notANumber | .infinity _ => nan
  | .zero _ => x
  | .finite s m e _ =>
    -- below `2 ^ -13` the sine rounds to its argument
    if m.log2 + e < -13 then x
    else
      let (turns, r) := reduceAngle s m e
      ofFixed (sinTurned turns r) 0

def cos (x : Float32) : Float32 :=
  match x.toModel.unpack with
  | .notANumber | .infinity _ => nan
  | .zero _ => 1
  | .finite s m e _ =>
    let (turns, r) := reduceAngle s m e
    ofFixed (sinTurned (turns + 1) r) 0

/-- The angle between zero and a quarter turn whose cosine is `x`: twice the angle with tangent
`√((1 - x) / (1 + x))`, which is halved three times so that the series is short. -/
def arccosFixed (x : Int) : Int :=
  let one := FixedPoint.one precision
  let half := FixedPoint.halfAngle precision
  let t := FixedPoint.sqrt precision (FixedPoint.div precision (one - x) (one + x))
  16 * FixedPoint.arctan precision 36 (half (half (half t)))

def acos (x : Float32) : Float32 :=
  match x.toModel.unpack with
  | .notANumber | .infinity _ => nan
  | .zero _ => ofFixed (arccosFixed 0) 0
  | .finite s m e _ =>
    let a := toFixed precision .positive m e
    if FixedPoint.one precision < a then nan
    else
      match s with
      | .positive => if a = FixedPoint.one precision then 0 else ofFixed (arccosFixed a) 0
      | .negative => ofFixed (halfTurn - arccosFixed a) 0

/-- With `m` brought to between `3/4` and `3/2`, `ln m = 2 artanh ((m - 1) / (m + 1))`. -/
def ln (x : Float32) : Float32 :=
  match x.toModel.unpack with
  | .notANumber | .infinity .negative | .finite .negative .. => nan
  | .infinity .positive => x
  | .zero _ => infinity .negative
  | .finite .positive m e _ =>
    if x = 1 then 0
    else
      let one := FixedPoint.one precision
      let bits : Int := if 3 <<< m.log2 < 2 * m then m.log2 + 1 else m.log2
      let f := toFixed precision .positive m (-bits)
      let z := FixedPoint.div precision (f - one) (f + one)
      ofFixed (2 * FixedPoint.artanh precision 48 z + (e + bits) * lnTwo) 0

def exp (x : Float32) : Float32 :=
  match x.toModel.unpack with
  | .notANumber => nan
  | .infinity .positive => x
  | .infinity .negative => 0
  | .zero _ => 1
  | .finite s m e _ =>
    -- beyond `± 128` the exponential overflows or vanishes
    if 7 ≤ m.log2 + e then
      match s with
      | .positive => infinity .positive
      | .negative => 0
    else
      let a := toFixed precision s m e
      let k := (a + lnTwo / 2) / lnTwo
      ofFixed (FixedPoint.exp precision 44 (a - k * lnTwo)) k

end BranchStream.Binary32
