import BranchStream.Rewriting.Definition
import BranchStream.Rewriting.Expander
import BranchStream.Scene.Settings
import BranchStream.Scene.Timing

namespace BranchStream

structure Scene (α : Type) where
  expander : Expander
  interpreter : Interpreter α
  swarm : Swarm α
  settings : Settings α
  iterations : Nat
  modifiers : Modifiers α
  /-- Particles that were asked for since the last frame. -/
  pending : UInt64
  timer : α
  clock : Clock

structure Frame (α : Type) where
  spawned : List Nat
  died : List Nat
  rebuilt : Bool
  shapes : List (Shape α)
deriving DecidableEq

namespace Scene

variable {α : Type}

section

variable [Scalar α]

/-- The scene of a definition. A number of passes beyond the greatest one is brought down to it. -/
def ofDefinition (definition : Option (Definition α)) (settings : Settings α) : Scene α :=
  let loaded := Definition.loadOrDefault definition
  { expander := .ofGrammar loaded.grammar
    interpreter := .standard loaded.parameters settings.maxDepth
    swarm := .empty settings.physics
    settings
    iterations := min loaded.iterations settings.maxIterations
    modifiers := default
    pending := 0
    timer := 0
    clock := ⟨none⟩ }

variable (s : Scene α)

def tree? : Option (Tree (Turtle α)) := s.interpreter.lastTree

def setView (view : View) : Scene α := { s with settings := { s.settings with view } }

def setAction (c : Symbol) (a : Action α) : Scene α :=
  { s with interpreter := s.interpreter.setAction c a }

def spawn : Scene α := { s with pending := s.pending + 1 }

def setIterations (n : Int) : Except (Fault α) (Scene α) :=
  if 0 ≤ n ∧ n ≤ s.settings.maxIterations then .ok { s with iterations := n.toNat }
  else .error (.iterationsOutside n s.settings.maxIterations)

def setModifiers (m : Modifiers α) : Except (Fault α) (Scene α) := do
  requireFinite [("angleModifier", m.angle), ("growthModifier", m.growth)]
  return { s with modifiers := m }

/-- A time step that is negative or not finite counts as none. -/
def validStep (dt : α) : α := if Scalar.isFinite dt ∧ 0 ≤ dt then dt else 0

/-- How many particles the timer lets enter, and its new state; without a positive interval it
stands still. -/
def emit (dt : α) : Nat × α :=
  match s.settings.emitInterval with
  | some interval =>
    if 0 < interval then emission interval s.settings.maxSpawnsPerFrame s.timer dt else (0, s.timer)
  | none => (0, s.timer)

def draw (view : View) (tree : Tree (Turtle α)) (swarm : Swarm α) : List (Shape α) :=
  (if view.showsTree then tree.lines?.getD [] else []) ++
    if view.showsParticles then swarm.points tree else []

end

variable [Elementary α] (s : Scene α)

/-- One frame. When the tree has to be rebuilt all particles are retired first, since their nodes
are those of the old tree; then the particles advance, and last those enter that were asked for or
that the timer lets in, all in one count of 64 bits that may wrap around. -/
def frame (dt : α) : Frame α × Scene α :=
  let dt := validStep dt
  let (word, expander) := s.expander.expand s.iterations
  let rebuilt := !s.interpreter.remembers word s.modifiers
  let (retired, swarm) := if rebuilt then s.swarm.clear else ([], s.swarm)
  let (tree, interpreter) := s.interpreter.interpret word s.modifiers
  let (report, swarm) := swarm.advance tree dt
  let (due, timer) := s.emit dt
  let (emitted, swarm) := swarm.spawnAtRoot tree (s.pending + .ofNat due).toNat
  ({ spawned := report.spawned ++ emitted
     died := retired ++ report.died
     rebuilt
     shapes := draw s.settings.view tree swarm },
    { s with expander, interpreter, swarm, pending := 0, timer })

def tick (now : Nat) : Frame α × Scene α :=
  let (dt, clock) := s.clock.read now
  { s with clock }.frame dt

end Scene

end BranchStream
