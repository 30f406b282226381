import Std.Data.ExtTreeMap

namespace BranchStream

abbrev Symbol := Char

abbrev Word := List Symbol

abbrev Rules := Std.ExtTreeMap Symbol Word

structure Grammar where
  start : Word
  rules : Rules
  start_ne_nil : start ≠ []

namespace Grammar

instance : Inhabited Grammar := ⟨⟨['L'], ∅, by decide⟩⟩

variable (g : Grammar)

def rule? (c : Symbol) : Option Word := g.rules[c]?

def rewriteSymbol (c : Symbol) : Word := (g.rule? c).getD [c]

def rewrite (w : Word) : Word := w.flatMap g.rewriteSymbol

def terminals (w : Word) : Word := w.filter fun c ↦ (g.rule? c).isNone

def passes : Nat → Word → Word
  | 0, w => w
  | n + 1, w => passes n (g.rewrite w)

/-- The terminals left of the start after `n` passes. -/
def expand (n : Nat) : Word := g.terminals (g.passes n g.start)

variable {g} {n : Nat} {u v : Word}

@[simp]
theorem terminals_append : g.terminals (u ++ v) = g.terminals u ++ g.terminals v :=
  List.filter_append u v

theorem passes_succ : g.passes (n + 1) u = g.rewrite (g.passes n u) := by
  induction n generalizing u with
  | zero => rfl
  | succ n ih => rw [passes, ih, passes]

end Grammar

end BranchStream
