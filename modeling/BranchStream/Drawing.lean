import BranchStream.Geometry.Vector

namespace BranchStream

/-- Hue in degrees, saturation and brightness from zero to one. -/
structure Hsb (α : Type) where
  hue : α
  saturation : α
  brightness : α
deriving DecidableEq

/-- Wraps the hue into a full turn and confines the other channels. The last test is for a tiny
negative hue, which rounds up to the full turn itself. -/
def Hsb.normalized {α : Type} [Scalar α] (hue saturation brightness : α) : Hsb α :=
  let turn : α := (360 : Nat)
  let wrapped := Scalar.wrap hue turn
  { hue := if turn ≤ wrapped then 0 else wrapped
    saturation := Scalar.clamp saturation 0 1
    brightness := Scalar.clamp brightness 0 1 }

inductive Shape (α : Type) where
  | point (position : Vec3 α) (color : Hsb α)
  | line (start stop : Vec3 α) (color : Hsb α)
deriving DecidableEq

inductive View where
  | particles
  | tree
  | both
deriving DecidableEq

def View.showsTree : View → Bool
  | .particles => false
  | .tree | .both => true

def View.showsParticles : View → Bool
  | .tree => false
  | .particles | .both => true

end BranchStream
