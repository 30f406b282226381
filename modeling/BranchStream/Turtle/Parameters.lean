import BranchStream.Fault

namespace BranchStream

structure Parameters (α : Type) where
  /-- Fraction by which growing changes the turn angle and the brightness. -/
  angleGrowth : α
  /-- Fraction by which growing changes the step and the saturation. -/
  sizeGrowth : α
  stepAngle : α
  stepSize : α
deriving DecidableEq

namespace Parameters

variable {α : Type} [Scalar α]

instance : Inhabited (Parameters α) := ⟨⟨0, 0, 0, 0⟩⟩

def validate (p : Parameters α) : Except (Fault α) Unit :=
  requireFinite [("angleGrowth", p.angleGrowth), ("sizeGrowth", p.sizeGrowth),
    ("stepAngle", p.stepAngle), ("stepSize", p.stepSize)]

end Parameters

end BranchStream
