namespace BranchStream

/-- Arithmetic with an order, a truncating remainder and rounding to whole numbers. -/
class Scalar (α : Type) extends
    Zero α, One α, Add α, Sub α, Mul α, Div α, Neg α, NatCast α, LT α, LE α, BEq α where
  decidableLT : DecidableLT α
  decidableLE : DecidableLE α
  isFinite : α → Bool
  /-- The remainder of truncated division, with the sign of the dividend. -/
  rem : α → α → α
  floor : α → α
  /-- The whole part; a value below zero, or not a number, counts as zero. -/
  toNat : α → Nat

attribute [reducible, instance] Scalar.decidableLT Scalar.decidableLE

class Elementary (α : Type) extends Scalar α where
  sqrt : α → α
  sin : α → α
  cos : α → α
  acos : α → α
  ln : α → α
  exp : α → α
  pi : α
  radiansPerDegree : α

namespace Scalar

variable {α : Type} [Scalar α]

/-- Confines `x` to the range from `lo` to `hi`; a value that compares with neither stays. -/
def clamp (x lo hi : α) : α := if x < lo then lo else if hi < x then hi else x

/-- The remainder shifted into the range from zero to `m`, for a positive `m`. -/
def wrap (x m : α) : α :=
  let r := rem x m
  if r < 0 then r + m else r

/-- The smaller of two; `b` also when `a` compares with nothing. -/
def lesser (a b : α) : α := if a < b then a else b

end Scalar

end BranchStream
