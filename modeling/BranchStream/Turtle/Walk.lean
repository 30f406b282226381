import BranchStream.Branches.Tree
import BranchStream.Turtle.Action

namespace BranchStream

structure Walk (α : Type) where
  turtle : Turtle α
  tree : Tree (Turtle α)
  node : Nat
  /-- The open branches, the innermost first. -/
  stack : List (Turtle α × Nat)
  /-- Open branches beyond the greatest depth. -/
  dropped : Nat

namespace Walk

variable {α : Type}

def start (turtle : Turtle α) : Walk α := ⟨turtle, .ofRoot turtle, Tree.rootId, [], 0⟩

def grow (w : Walk α) (turtle : Turtle α) : Walk α :=
  { w with turtle, tree := w.tree.addChild w.node turtle, node := w.tree.size }

def openBranch (maxDepth : Nat) (w : Walk α) : Walk α :=
  if w.stack.length < maxDepth then
    { w.grow w.turtle with stack := (w.turtle, w.node) :: w.stack }
  else { w with dropped := w.dropped + 1 }

/-- Closes the innermost branch, a counted one first; without an open branch nothing happens. -/
def closeBranch (w : Walk α) : Walk α :=
  if 0 < w.dropped then { w with dropped := w.dropped - 1 }
  else
    match w.stack with
    | [] => w
    | (turtle, node) :: rest => { w with turtle, node, stack := rest }

variable [Elementary α]

def step (p : Parameters α) (m : Modifiers α) (maxDepth : Nat) (w : Walk α) (a : Action α) :
    Walk α :=
  match a with
  | .forward => w.grow (w.turtle.act p m .forward)
  | .push => w.openBranch maxDepth
  | .pop => w.closeBranch
  | a => { w with turtle := w.turtle.act p m a }

def run (p : Parameters α) (m : Modifiers α) (maxDepth : Nat) (actions : List (Action α)) :
    Walk α :=
  actions.foldl (step p m maxDepth) (start (.ofParameters p))

theorem run_append {p : Parameters α} {m : Modifiers α} {maxDepth : Nat} {as bs : List (Action α)} :
    run p m maxDepth (as ++ bs) = bs.foldl (step p m maxDepth) (run p m maxDepth as) :=
  List.foldl_append

end Walk

end BranchStream
