import BranchStream.Scalar

namespace BranchStream

@[ext]
structure Vec3 (α : Type) where
  x : α
  y : α
  z : α
deriving DecidableEq

namespace Vec3

variable {α : Type}

section

variable [Scalar α]

instance : Zero (Vec3 α) := ⟨⟨0, 0, 0⟩⟩

def unitX : Vec3 α := ⟨1, 0, 0⟩

def unitY : Vec3 α := ⟨0, 1, 0⟩

def unitZ : Vec3 α := ⟨0, 0, 1⟩

instance : Add (Vec3 α) := ⟨fun a b ↦ ⟨a.x + b.x, a.y + b.y, a.z + b.z⟩⟩

instance : Sub (Vec3 α) := ⟨fun a b ↦ ⟨a.x - b.x, a.y - b.y, a.z - b.z⟩⟩

instance : HMul (Vec3 α) α (Vec3 α) := ⟨fun a s ↦ ⟨a.x * s, a.y * s, a.z * s⟩⟩

instance : HDiv (Vec3 α) α (Vec3 α) := ⟨fun a s ↦ ⟨a.x / s, a.y / s, a.z / s⟩⟩

def dot (a b : Vec3 α) : α := a.x * b.x + a.y * b.y + a.z * b.z

def cross (a b : Vec3 α) : Vec3 α :=
  ⟨a.y * b.z - b.y * a.z, a.z * b.x - b.z * a.x, a.x * b.y - b.x * a.y⟩

end

variable [Elementary α]

def length (a : Vec3 α) : α := Elementary.sqrt (a.dot a)

def normalize (a : Vec3 α) : Vec3 α := a * (1 / a.length)

/-- The unit vector along `a`, or zero if its scale is not a finite positive number. -/
def normalizeOrZero (a : Vec3 α) : Vec3 α :=
  let r := 1 / a.length
  if Scalar.isFinite r ∧ 0 < r then a * r else 0

end Vec3

end BranchStream
