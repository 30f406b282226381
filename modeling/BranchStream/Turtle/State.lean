import BranchStream.Geometry.Quaternion
import BranchStream.Drawing
import BranchStream.Turtle.Parameters

namespace BranchStream

structure Turtle (α : Type) where
  segmentStart : Vec3 α
  position : Vec3 α
  /-- The turtle walks along its own first axis. -/
  orientation : Quaternion α
  stepSize : α
  stepAngle : α
  /-- In degrees, without bound. -/
  hue : α
  saturation : α
  brightness : α
deriving DecidableEq

namespace Turtle

variable {α : Type}

section

variable [Scalar α]

instance : Inhabited (Turtle α) :=
  ⟨{ segmentStart := 0, position := 0, orientation := 1, stepSize := (10 : Nat), stepAngle := 0,
     hue := 0, saturation := 1 / (2 : Nat), brightness := 1 / (2 : Nat) }⟩

def ofParameters (p : Parameters α) : Turtle α :=
  { (default : Turtle α) with stepSize := p.stepSize, stepAngle := p.stepAngle }

variable (t : Turtle α)

def heading : Vec3 α := t.orientation.transform .unitX

def advance (distance : α) : Turtle α :=
  { t with
    segmentStart := t.position
    position := t.position + t.orientation.transform ⟨distance, 0, 0⟩ }

def growSize (factor : α) : Turtle α :=
  { t with saturation := t.saturation * factor, stepSize := t.stepSize * factor }

/-- Brightness grows as the turn angle shrinks. -/
def growAngle (delta : α) : Turtle α :=
  { t with brightness := t.brightness * (1 + delta), stepAngle := t.stepAngle * (1 - delta) }

def flipAngle : Turtle α := { t with stepAngle := -t.stepAngle }

def color : Hsb α := .normalized t.hue t.saturation t.brightness

end

variable [Elementary α] (t : Turtle α)

/-- Turns about an axis of space and shifts the hue by the same angle. -/
def turn (axis : Vec3 α) (degrees : α) : Turtle α :=
  { t with
    hue := t.hue + degrees
    orientation := .ofAxisAngle axis (degrees * Elementary.radiansPerDegree) * t.orientation }

def yaw (degrees : α) : Turtle α := t.turn .unitZ degrees

def pitch (degrees : α) : Turtle α := t.turn .unitX degrees

def roll (degrees : α) : Turtle α := t.turn .unitY degrees

/-- Half a turn that leaves the hue alone. -/
def reverse : Turtle α :=
  { t with orientation := .ofAxisAngle .unitZ Elementary.pi * t.orientation }

end Turtle

end BranchStream
