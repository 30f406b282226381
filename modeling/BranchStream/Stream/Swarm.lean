import BranchStream.Stream.Particle

namespace BranchStream

structure Swarm (α : Type) where
  particles : List (Particle α)
  physics : Physics α
  nextId : Nat

namespace Swarm

variable {α : Type} [Scalar α]

/-- No particles yet; constants that are not valid are replaced by the default ones. -/
def empty (c : Physics α) : Swarm α := ⟨[], c.orDefault, 0⟩

variable (s : Swarm α) (t : Tree (Turtle α))

def ids : List Nat := s.particles.map Particle.id

def get? (id : Nat) : Option (Particle α) := s.particles.find? fun p ↦ p.id == id

def enter (nodes : List (Nat × Tree.Node (Turtle α))) : List Nat × Swarm α :=
  let entered := nodes.zipIdx.map fun ((node, n), k) ↦
    Particle.entering s.physics (s.nextId + k) node n.state
  (entered.map Particle.id,
    { s with particles := s.particles ++ entered, nextId := s.nextId + nodes.length })

theorem fst_enter {nodes : List (Nat × Tree.Node (Turtle α))} :
    (s.enter nodes).1 = (List.range nodes.length).map (s.nextId + ·) := by
  apply List.ext_getElem <;> simp [enter, Particle.entering]

theorem ids_enter {nodes : List (Nat × Tree.Node (Turtle α))} :
    (s.enter nodes).2.ids = s.ids ++ (s.enter nodes).1 := by
  simp only [ids, enter, List.map_append]

def spawn? (node : Nat) : Option (Nat × Swarm α) :=
  (t.get? node).map fun n ↦ (s.nextId, (s.enter [(node, n)]).2)

def spawnAtRoot (count : Nat) : List Nat × Swarm α :=
  match t.root? with
  | some n => s.enter (List.replicate count (Tree.rootId, n))
  | none => ([], s)

def clear : List Nat × Swarm α := (s.ids, { s with particles := [] })

structure Report where
  spawned : List Nat
  died : List Nat
deriving DecidableEq

/-- Steps each particle on its own; then the forks enter, in the order of the particles they come
from. -/
def advance (dt : α) : Report × Swarm α :=
  let fates := s.particles.map fun p ↦ (p.id, p.step t s.physics dt)
  let died := fates.filterMap fun (id, survivor, _) ↦ if survivor.isNone then some id else none
  let survivors := fates.filterMap fun (_, survivor, _) ↦ survivor
  let forks := fates.flatMap fun (_, _, forks) ↦ forks
  let entering := forks.filterMap fun id ↦ (t.get? id).map (id, ·)
  let (spawned, s) := { s with particles := survivors }.enter entering
  (⟨spawned, died⟩, s)

def points : List (Shape α) :=
  s.particles.filterMap fun p ↦ (t.get? p.node).map fun n ↦ .point p.position n.state.color

end Swarm

end BranchStream
