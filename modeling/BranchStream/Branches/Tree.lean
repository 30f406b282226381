namespace BranchStream

structure Tree.Node (σ : Type) where
  state : σ
  parent : Option Nat
  children : List Nat
deriving DecidableEq

structure Tree (σ : Type) where
  nodes : Array (Tree.Node σ)
deriving DecidableEq

namespace Tree

variable {σ : Type}

abbrev rootId : Nat := 0

def ofRoot (state : σ) : Tree σ := ⟨#[⟨state, none, []⟩]⟩

variable (t : Tree σ)

def size : Nat := t.nodes.size

def get? (id : Nat) : Option (Node σ) := t.nodes[id]?

def root? : Option (Node σ) := t.get? rootId

def children (id : Nat) : List Nat :=
  match t.get? id with
  | some n => n.children
  | none => []

def isLeaf (id : Nat) : Bool := (t.children id).isEmpty

def leafCount : Nat := t.nodes.countP fun n ↦ n.children.isEmpty

def Node.addChild (n : Node σ) (id : Nat) : Node σ := { n with children := n.children ++ [id] }

/-- Adds a node, whose place is `t.size`, as the last child of `parent`. -/
def addChild (parent : Nat) (state : σ) : Tree σ :=
  ⟨(t.nodes.modify parent (·.addChild t.size)).push ⟨state, some parent, []⟩⟩

def addChild? (parent : Nat) (state : σ) : Option (Tree σ) :=
  if parent < t.size then some (t.addChild parent state) else none

variable {t} {parent id : Nat} {state : σ}

@[simp]
theorem size_ofRoot : (ofRoot state).size = 1 := rfl

@[simp]
theorem size_addChild : (t.addChild parent state).size = t.size + 1 := by
  simp [addChild, size]

theorem get?_eq_none (h : t.size ≤ id) : t.get? id = none := Array.getElem?_eq_none h

theorem get?_addChild_size :
    (t.addChild parent state).get? t.size = some ⟨state, some parent, []⟩ := by
  simp only [addChild, get?, size, Array.getElem?_push, Array.size_modify, if_true]

theorem get?_addChild_of_ne (h : id ≠ t.size) :
    (t.addChild parent state).get? id =
      if parent = id then (t.get? id).map (·.addChild t.size) else t.get? id := by
  have hs : id ≠ (t.nodes.modify parent (·.addChild t.size)).size := by simpa [size] using h
  simp only [addChild, get?, Array.getElem?_push, hs, if_false, Array.getElem?_modify]

end Tree

end BranchStream
