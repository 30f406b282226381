import BranchStream.Branches.Edges
import BranchStream.Rewriting.Grammar
import BranchStream.Turtle.Walk

namespace BranchStream

abbrev Actions (α : Type) := Std.ExtTreeMap Symbol (Action α)

structure BuiltTree (α : Type) where
  word : Word
  modifiers : Modifiers α
  tree : Tree (Turtle α)

structure Interpreter (α : Type) where
  actions : Actions α
  parameters : Parameters α
  maxDepth : Nat
  last : Option (BuiltTree α)

def Tree.lines? {α : Type} [Scalar α] (t : Tree (Turtle α)) :
    Option (List (Shape α)) := do
  let edges ← t.edges?
  return edges.filterMap fun (parent, child) ↦ do
    let a ← t.get? parent
    let b ← t.get? child
    return .line a.state.position b.state.position b.state.color

namespace Interpreter

variable {α : Type}

def bare (parameters : Parameters α) (maxDepth : Nat) : Interpreter α :=
  ⟨∅, parameters, maxDepth, none⟩

variable (i : Interpreter α)

/-- Symbols without an entry are ignored. -/
def withActions (actions : Actions α) : Interpreter α := { i with actions, last := none }

def setAction (c : Symbol) (a : Action α) : Interpreter α := i.withActions (i.actions.insert c a)

def action (c : Symbol) : Action α := i.actions[c]?.getD .ignore

def lastTree : Option (Tree (Turtle α)) := i.last.map BuiltTree.tree

section

variable [Scalar α]

def standardActions : List (Symbol × Action α) :=
  [('F', .forward), ('+', .yaw 1), ('-', .yaw (-1)), ('/', .pitch 1), ('\\', .pitch (-1)),
    ('\x7d', .roll 1), ('\x7b', .roll (-1)), ('|', .reverse), ('!', .flipAngle),
    ('<', .growSize 1), ('>', .growSize (-1)), ('(', .growAngle 1), (')', .growAngle (-1)),
    ('[', .push), (']', .pop)]

def addStandard : Interpreter α :=
  standardActions.foldl (fun i (c, a) ↦ i.setAction c a) i

def standard (parameters : Parameters α) (maxDepth : Nat) : Interpreter α :=
  (bare parameters maxDepth).addStandard

def remembers (w : Word) (m : Modifiers α) : Bool :=
  match i.last with
  | some b => b.modifiers == m && b.word == w
  | none => false

end

variable [Elementary α]

def walk (w : Word) (m : Modifiers α) : Walk α :=
  Walk.run i.parameters m i.maxDepth (w.map i.action)

def build (w : Word) (m : Modifiers α) : Tree (Turtle α) := (i.walk w m).tree

/-- The tree of a word, taken from memory if it was the last one asked for. -/
def interpret (w : Word) (m : Modifiers α) : Tree (Turtle α) × Interpreter α :=
  match i.last with
  | some b => if b.modifiers == m && b.word == w then (b.tree, i) else rebuild
  | none => rebuild
where
  rebuild : Tree (Turtle α) × Interpreter α :=
    let tree := i.build w m
    (tree, { i with last := some ⟨w, m, tree⟩ })

end Interpreter

end BranchStream
