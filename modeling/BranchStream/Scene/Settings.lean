import BranchStream.Stream.Swarm

namespace BranchStream

structure Settings (α : Type) where
  maxDepth : Nat
  physics : Physics α
  view : View
  maxIterations : Nat
  /-- Seconds between the particles that enter at the root by themselves. -/
  emitInterval : Option α
  /-- The most such particles in one frame. -/
  maxSpawnsPerFrame : Nat
deriving DecidableEq

instance {α : Type} [Scalar α] : Inhabited (Settings α) :=
  ⟨{ maxDepth := 1024, physics := default, view := .particles, maxIterations := 12,
     emitInterval := some 1, maxSpawnsPerFrame := 64 }⟩

end BranchStream
