import BranchStream.Scalar

namespace BranchStream

/-- The time of the last reading, in nanoseconds. -/
structure Clock where
  last : Option Nat
deriving DecidableEq

/-- A span of nanoseconds in seconds: whole seconds and the rest are converted on their own. -/
def secondsOf {α : Type} [Scalar α] (nanos : Nat) : α :=
  let second := 1000000000
  ((nanos / second : Nat) : α) + ((nanos % second : Nat) : α) / (second : Nat)

def Clock.read {α : Type} [Scalar α] (c : Clock) (now : Nat) : α × Clock :=
  let elapsed :=
    match c.last with
    | some last => secondsOf (now - last)
    | none => 0
  (elapsed, ⟨some now⟩)

/-- Adds `dt` to a timer that is due every `interval` seconds: how often it was due, at most `cap`
times, and the time left on it. -/
def emission {α : Type} [Scalar α] (interval : α) (cap : Nat) (timer dt : α) : Nat × α :=
  let total := timer + dt
  let due := Scalar.floor (total / interval)
  (Scalar.toNat (Scalar.lesser due cap), Scalar.rem total interval)

end BranchStream
