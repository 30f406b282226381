import BranchStream.Turtle.Interpreter

namespace BranchStream

/-- The constants of the motion. Heights grow downwards. -/
structure Physics (α : Type) where
  /-- Seconds spent on one edge. -/
  lifetime : α
  gravity : α
  floor : α
  /-- Fraction of the vertical speed kept after a bounce. -/
  restitution : α
deriving DecidableEq

namespace Physics

variable {α : Type} [Scalar α]

instance : Inhabited (Physics α) := ⟨⟨1, (10 : Nat), (300 : Nat), (9 : Nat) / (10 : Nat)⟩⟩

def validate (c : Physics α) : Except (Fault α) Unit := do
  requireFinite [("maxLife", c.lifetime), ("gravity", c.gravity), ("floor", c.floor),
    ("restitution", c.restitution)]
  if c.lifetime ≤ 0 then throw (.lifetimeNotPositive c.lifetime)

def orDefault (c : Physics α) : Physics α :=
  match c.validate with
  | .ok _ => c
  | .error _ => default

end Physics

structure Particle (α : Type) where
  id : Nat
  /-- The node at the end of its edge. -/
  node : Nat
  position : Vec3 α
  velocity : Vec3 α
  life : α
deriving DecidableEq

namespace Particle

variable {α : Type} [Scalar α]

def entering (c : Physics α) (id node : Nat) (target : Turtle α) : Particle α :=
  { id, node
    position := target.segmentStart
    velocity := (target.position - target.segmentStart) / c.lifetime
    life := 0 }

/-- Moves for `dt` seconds. A particle beyond the floor is put back on it with its vertical speed
reversed. -/
def move (c : Physics α) (dt : α) (p : Particle α) : Particle α :=
  let position := p.position + p.velocity * dt
  let velocity := { p.velocity with y := p.velocity.y + c.gravity * dt }
  let life := p.life + dt
  if c.floor < position.y then
    { p with
      position := { position with y := c.floor }
      velocity := { velocity with y := velocity.y * -c.restitution }
      life }
  else { p with position, velocity, life }

/-- What becomes of a particle in one step: the particle if it lives on, and the nodes that it
forks onto. -/
abbrev Fate (α : Type) := Option (Particle α) × List Nat

/-- A particle at the end of its edge goes on to the first child and forks onto the others; at a
leaf it dies. -/
def cross (t : Tree (Turtle α)) (c : Physics α) (p : Particle α) : Fate α :=
  match t.children p.node with
  | [] => (none, [])
  | first :: others =>
    match t.get? first with
    | some n => (some (entering c p.id first n.state), others)
    | none => (none, [])

def step (t : Tree (Turtle α)) (c : Physics α) (dt : α) (p : Particle α) : Fate α :=
  let moved := p.move c dt
  if moved.life ≤ c.lifetime then (some moved, []) else moved.cross t c

end Particle

end BranchStream
