import BranchStream.Scene.Basic

namespace BranchStream

inductive Request (α : Type) where
  | spawn
  | setIterations (n : Int)
  | setModifiers (m : Modifiers α)
  | setView (v : View)
  | setAction (c : Symbol) (a : Action α)
  | frame (dt : α)
  | tick (now : Nat)
deriving DecidableEq

inductive Reply (α : Type) where
  | done
  | refused (fault : Fault α)
  | drawn (frame : Frame α)
deriving DecidableEq

namespace Scene

variable {α : Type} [Elementary α] (s : Scene α)

def ofAttempt : Except (Fault α) (Scene α) → Reply α × Scene α
  | .ok s => (.done, s)
  | .error fault => (.refused fault, s)

def ofDrawn : Frame α × Scene α → Reply α × Scene α
  | (frame, s) => (.drawn frame, s)

def answer : Request α → Reply α × Scene α
  | .spawn => (.done, s.spawn)
  | .setIterations n => s.ofAttempt (s.setIterations n)
  | .setModifiers m => s.ofAttempt (s.setModifiers m)
  | .setView v => (.done, s.setView v)
  | .setAction c a => (.done, s.setAction c a)
  | .frame dt => ofDrawn (s.frame dt)
  | .tick now => ofDrawn (s.tick now)

def run : Scene α → List (Request α) → List (Reply α) × Scene α
  | s, [] => ([], s)
  | s, r :: rest =>
    let (reply, s) := s.answer r
    let (replies, s) := run s rest
    (reply :: replies, s)

end Scene

end BranchStream
