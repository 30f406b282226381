import BranchStream.Branches.Tree

namespace BranchStream.Tree

variable {σ : Type} (t : Tree σ)

def edgesBelow (id : Nat) : List (Nat × Nat) := (t.children id).map (id, ·)

def walkEdges : (fuel : Nat) → (pending : List (Nat × Nat)) → Option (List (Nat × Nat))
  | _, [] => some []
  | 0, _ :: _ => none
  | fuel + 1, (parent, id) :: rest =>
    if id < t.size then
      (walkEdges fuel (t.edgesBelow id ++ rest)).map ((parent, id) :: ·)
    else none

def maxDegree : Nat := t.nodes.foldl (fun d n ↦ max d n.children.length) 0

/-- The edges as pairs of parent and child, or nothing if a child is missing. A path without
repetition has fewer than `t.size` edges, so the fuel runs out only where the walk would never
end. -/
def edges? : Option (List (Nat × Nat)) :=
  t.walkEdges (Nat.pow (t.maxDegree + 1) (t.size + 1)) (t.edgesBelow rootId)

end BranchStream.Tree
