namespace BranchStream.Binary32

open Float.Model (UnpackedFloat)
open Float.Model.UnpackedFloat (Sign)

/-- The nearest number to `± m · 2 ^ e`, ties to the even significand. -/
def ofParts (s : Sign) (m : Nat) (e : Int) : Float32 :=
  .ofModel (.pack (UnpackedFloat.round .binary32 s m e))

def infinity (s : Sign) : Float32 := .ofModel (.pack (.infinity s))

def nan : Float32 := .ofModel (.pack .notANumber)

def floor (x : Float32) : Float32 :=
  match x.toModel.unpack with
  | .finite s m e _ =>
    if 0 ≤ e then x
    else
      let unit := 1 <<< (-e).toNat
      match s with
      | .positive => ofParts .positive (m / unit) 0
      | .negative => ofParts .negative ((m + (unit - 1)) / unit) 0
  | _ => x

/-- The remainder of `x` by `y` with the sign of `x`: exact, since it is a multiple of the finer of
the two units in the last place. -/
def rem (x y : Float32) : Float32 :=
  match x.toModel.unpack, y.toModel.unpack with
  | .finite s m e _, .finite _ n f _ =>
    let g := min e f
    ofParts s ((m <<< (e - g).toNat) % (n <<< (f - g).toNat)) g
  | .finite .., .infinity _ | .zero _, .finite .. | .zero _, .infinity _ => x
  | _, _ => nan

end BranchStream.Binary32
