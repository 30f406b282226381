import Mathlib
import BranchStream.Scalar

namespace BranchStream.Exact

variable {K : Type} [Field K] [LinearOrder K] [FloorRing K]

def truncate (x : K) : ℤ := if 0 ≤ x then ⌊x⌋ else ⌈x⌉

scoped instance : Scalar K where
  decidableLT := inferInstance
  decidableLE := inferInstance
  isFinite _ := true
  rem x y := x - truncate (x / y) * y
  floor x := ⌊x⌋
  toNat x := ⌊x⌋₊

/-- Any functions in the place of those of analysis. -/
class Functions (K : Type) where
  sqrt : K → K
  sin : K → K
  cos : K → K
  acos : K → K
  ln : K → K
  exp : K → K
  pi : K
  radiansPerDegree : K

scoped instance [Functions K] : Elementary K where
  sqrt := Functions.sqrt
  sin := Functions.sin
  cos := Functions.cos
  acos := Functions.acos
  ln := Functions.ln
  exp := Functions.exp
  pi := Functions.pi
  radiansPerDegree := Functions.radiansPerDegree

end BranchStream.Exact
