import BranchStream.Scalar
import BranchStream.Binary32.Elementary

namespace BranchStream.Binary32

instance : Scalar Float32 where
  zero := 0
  one := 1
  natCast := Float32.ofNat
  decidableLT := inferInstance
  decidableLE := inferInstance
  isFinite := Float32.isFinite
  rem := rem
  floor := floor
  toNat x := x.toUInt64.toNat

instance : Elementary Float32 where
  sqrt := Float32.sqrt
  sin := sin
  cos := cos
  acos := acos
  ln := ln
  exp := exp
  pi := Float32.ofBits 0x40490fdb
  radiansPerDegree := Float32.ofBits 0x3c8efa35

end BranchStream.Binary32
