import BranchStream.Geometry.Vector

namespace BranchStream

@[ext]
structure Quaternion (α : Type) where
  w : α
  x : α
  y : α
  z : α
deriving DecidableEq

namespace Quaternion

variable {α : Type}

def ofScalarVector (w : α) (v : Vec3 α) : Quaternion α := ⟨w, v.x, v.y, v.z⟩

def vector (q : Quaternion α) : Vec3 α := ⟨q.x, q.y, q.z⟩

section

variable [Scalar α]

instance : Zero (Quaternion α) := ⟨⟨0, 0, 0, 0⟩⟩

instance : One (Quaternion α) := ⟨⟨1, 0, 0, 0⟩⟩

def ofVector (v : Vec3 α) : Quaternion α := ofScalarVector 0 v

/-- Componentwise, so that a value that is not a number equals nothing. -/
instance : BEq (Quaternion α) := ⟨fun p q ↦ p.w == q.w && p.x == q.x && p.y == q.y && p.z == q.z⟩

instance : Add (Quaternion α) := ⟨fun p q ↦ ⟨p.w + q.w, p.x + q.x, p.y + q.y, p.z + q.z⟩⟩

instance : Neg (Quaternion α) := ⟨fun p ↦ ⟨-p.w, -p.x, -p.y, -p.z⟩⟩

instance : Sub (Quaternion α) := ⟨fun p q ↦ p + -q⟩

/-- The Hamilton product: as a rotation, `q` first and then `p`. -/
instance : Mul (Quaternion α) where
  mul p q :=
    let a := p.vector
    let b := q.vector
    ofScalarVector (p.w * q.w - a.dot b) (b * p.w + a * q.w + a.cross b)

instance : HMul (Quaternion α) α (Quaternion α) := ⟨fun p s ↦ ⟨p.w * s, p.x * s, p.y * s, p.z * s⟩⟩

instance : HDiv (Quaternion α) α (Quaternion α) := ⟨fun p s ↦ p * (1 / s)⟩

def addScalar (p : Quaternion α) (s : α) : Quaternion α := { p with w := p.w + s }

def dot (p q : Quaternion α) : α := p.w * q.w + p.x * q.x + p.y * q.y + p.z * q.z

def normSq (p : Quaternion α) : α := p.dot p

def conjugate (p : Quaternion α) : Quaternion α := ⟨p.w, -p.x, -p.y, -p.z⟩

def inverse (p : Quaternion α) : Quaternion α := p.conjugate * (1 / p.normSq)

instance : Div (Quaternion α) := ⟨fun p q ↦ p * q.inverse⟩

def transform (q : Quaternion α) (v : Vec3 α) : Vec3 α := (q * ofVector v * q.inverse).vector

end

variable [Elementary α]

def norm (p : Quaternion α) : α := Elementary.sqrt p.normSq

def normalized (p : Quaternion α) : Quaternion α := p * (1 / p.norm)

def ofAxisAngle (axis : Vec3 α) (angle : α) : Quaternion α :=
  let half := angle / (2 : Nat)
  ofScalarVector (Elementary.cos half) (axis.normalize * Elementary.sin half)

/-- The logarithm of the length beside the axis scaled to the angle; the axis of a quaternion
without vector part is zero. -/
def ln (q : Quaternion α) : Quaternion α :=
  let angle := Elementary.acos (Scalar.clamp (q.w / q.norm) (-1) 1)
  ofScalarVector (Elementary.ln q.norm) (q.vector.normalizeOrZero * angle)

def exp (q : Quaternion α) : Quaternion α :=
  let angle := q.vector.length
  ofScalarVector (Elementary.cos angle) (q.vector.normalizeOrZero * Elementary.sin angle) *
    Elementary.exp q.w

/-- The angle beside the axis, read from the logarithm; `(0, 1, 0, 0)` if that vanishes. -/
def toAxisAngle (q : Quaternion α) : Quaternion α :=
  let l := q.ln
  if l.norm == 0 then ⟨0, 1, 0, 0⟩ else (l * (1 / l.norm)).addScalar ((2 : Nat) * l.norm)

end Quaternion

end BranchStream
