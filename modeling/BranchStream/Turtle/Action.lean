import BranchStream.Turtle.State

namespace BranchStream

inductive Action (α : Type) where
  | forward
  | yaw (factor : α)
  | pitch (factor : α)
  | roll (factor : α)
  | growSize (factor : α)
  | growAngle (factor : α)
  | push
  | pop
  | flipAngle
  | reverse
  | ignore
deriving DecidableEq

structure Modifiers (α : Type) where
  angle : α
  growth : α
deriving DecidableEq

instance {α : Type} [Scalar α] : Inhabited (Modifiers α) := ⟨⟨1, 1⟩⟩

/-- Factors are compared as numbers: a zero equals a zero of the other sign. -/
instance {α : Type} [Scalar α] : BEq (Modifiers α) :=
  ⟨fun a b ↦ a.angle == b.angle && a.growth == b.growth⟩

def Turtle.act {α : Type} [Elementary α] (p : Parameters α) (m : Modifiers α) (t : Turtle α) :
    Action α → Turtle α
  | .forward => t.advance (t.stepSize * m.angle)
  | .yaw s => t.yaw (s * t.stepAngle * m.angle)
  | .pitch s => t.pitch (s * t.stepAngle * m.angle)
  | .roll s => t.roll (s * t.stepAngle * m.angle)
  | .growSize s => t.growSize (1 + s * p.sizeGrowth)
  | .growAngle s => t.growAngle (s * p.angleGrowth * m.growth)
  | .flipAngle => t.flipAngle
  | .reverse => t.reverse
  | .push | .pop | .ignore => t

end BranchStream
