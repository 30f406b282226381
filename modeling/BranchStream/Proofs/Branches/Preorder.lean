import BranchStream.Proofs.Branches.Worklist
import BranchStream.Proofs.Turtle.Numbering

namespace BranchStream.Tree

section

variable {σ : Type} {t : Tree σ} {parent id c : Nat}

theorem Grown.increasing_children (ht : t.Grown) (id : Nat) :
    (t.children id).Pairwise (· < ·) := by
  induction ht with
  | ofRoot state =>
    rw [children_ofRoot]
    exact .nil
  | @addChild t parent ht hp state ih =>
    have hlast : (t.children id ++ [t.size]).Pairwise (· < ·) := by
      refine List.pairwise_append.mpr ⟨ih, List.pairwise_singleton _ _, ?_⟩
      intro c hc c' hc'
      rw [List.mem_singleton.mp hc']
      exact (ht.mem_children hc).2
    rw [children_addChild hp]
    split
    · exact hlast
    · exact ih

theorem Grown.exists_only_parent (ht : t.Grown) (hc : c < t.size) (hne : c ≠ rootId) :
    ∃ parent < c, t.parent? c = some (some parent) ∧
      ∀ id, (t.children id).count c = if id = parent then 1 else 0 := by
  obtain ⟨parent, -, hmem⟩ := ht.rooted.exists_parent hc hne
  have hparent : t.parent? c = some (some parent) := ht.rooted.mem_children_iff.mp hmem
  refine ⟨parent, (ht.mem_children hmem).1, hparent, ?_⟩
  intro id
  rw [ht.rooted.count_children, hparent]
  simp only [Option.some.injEq, eq_comm]

theorem get?_addChild (t : Tree σ) (parent : Nat) (state : σ) (id : Nat) :
    (t.addChild parent state).get? id =
      if id = t.size then some ⟨state, some parent, []⟩
      else if id = parent then (t.get? id).map (·.addChild t.size)
      else t.get? id := by
  by_cases hid : id = t.size
  · rw [if_pos hid, hid, get?_addChild_size]
  · rw [if_neg hid, get?_addChild_of_ne hid, if_congr eq_comm rfl rfl]

def node (t : Tree σ) (h : id < t.size) : Node σ := t.nodes[id]

theorem get?_eq_node (h : id < t.size) : t.get? id = some (t.node h) :=
  Array.getElem?_eq_getElem h

end

variable {α : Type} [Scalar α] {t : Tree (Turtle α)}

def Node.lineTo (a b : Node (Turtle α)) : Shape α :=
  .line a.state.position b.state.position b.state.color

/-- The lines below a node: the one to its first child, all those below this child, then the one to
the next child. -/
def Grown.linesBelow (ht : t.Grown) (id : Nat) : List (Shape α) :=
  (t.children id).attach.flatMap fun ⟨c, hc⟩ ↦
    have hlt := ht.mem_children hc
    (t.node (hlt.1.trans hlt.2)).lineTo (t.node hlt.2) :: ht.linesBelow c
termination_by t.size - id
decreasing_by omega

def line? (t : Tree (Turtle α)) (e : Nat × Nat) : Option (Shape α) := do
  let a ← t.get? e.1
  let b ← t.get? e.2
  return a.lineTo b

theorem Grown.line?_edgeInto (ht : t.Grown) {id c : Nat} (hc : c ∈ t.children id)
    (hid : id < t.size) (hlt : c < t.size) :
    t.line? (t.edgeInto c) = some ((t.node hid).lineTo (t.node hlt)) := by
  have hedge : t.edgeInto c = (id, c) := by
    obtain ⟨n, hn, hparent⟩ := ht.mem_children_iff.mp hc
    simp [edgeInto, hn, hparent]
  simp only [hedge, line?, get?_eq_node hid, get?_eq_node hlt]
  rfl

theorem Grown.filterMap_line? (ht : t.Grown) (id : Nat) :
    ((t.subtree id).tail.map t.edgeInto).filterMap t.line? = ht.linesBelow id := by
  induction id using ht.child_induction with
  | step id ih =>
    have hchild (c : Nat) (hc : c ∈ t.children id) (hid : id < t.size) (hlt : c < t.size) :
        ((t.subtree c).map t.edgeInto).filterMap t.line? =
          (t.node hid).lineTo (t.node hlt) :: ht.linesBelow c := by
      have hbelow := ih c hc
      rw [ht.subtree_eq, List.tail_cons] at hbelow
      rw [ht.subtree_eq, List.map_cons,
        List.filterMap_cons_some (ht.line?_edgeInto hc hid hlt), hbelow]
    calc ((t.subtree id).tail.map t.edgeInto).filterMap t.line?
        = (t.children id).flatMap fun c ↦ ((t.subtree c).map t.edgeInto).filterMap t.line? := by
          rw [ht.subtree_eq, List.tail_cons, List.map_flatMap, List.filterMap_flatMap]
      _ = (t.children id).attach.flatMap fun c ↦
            ((t.subtree c.1).map t.edgeInto).filterMap t.line? := by
          conv_lhs => rw [← List.attach_map_subtype_val (t.children id), List.flatMap_map]
      _ = ht.linesBelow id := by
          rw [linesBelow]
          exact List.flatMap_congr fun c _ ↦ hchild c.1 c.2 _ _

theorem Grown.lines?_eq_linesBelow (ht : t.Grown) : t.lines? = some (ht.linesBelow rootId) := by
  rw [lines?, ht.edges?_eq, ← ht.filterMap_line?]
  rfl

/-- What adding children one by one makes, in whatever order. Each node but the root has an earlier
node as its parent, and is listed once, among the children of this parent, which increase. Adding a
child changes this list and appends the new node. The walk over pending edges ends after one step
for each node but the root, and draws what the recursion from the root draws: the edge into each of
these nodes, once. -/
theorem lines_in_preorder (ht : t.Grown) :
    (∀ c < t.size, c ≠ rootId → ∃ parent < c, t.parent? c = some (some parent) ∧
      ∀ id, (t.children id).count c = if id = parent then 1 else 0) ∧
    (∀ id, (t.children id).Pairwise (· < ·)) ∧
    (∀ parent < t.size, ∀ state, ∃ t', t.addChild? parent state = some t' ∧ t'.Grown ∧
      t'.size = t.size + 1 ∧ ∀ id, t'.get? id =
        if id = t.size then some ⟨state, some parent, []⟩
        else if id = parent then (t.get? id).map (·.addChild t.size)
        else t.get? id) ∧
    (∃ es, t.walkEdges (t.size - 1) (t.edgesBelow rootId) = some es ∧ t.edges? = some es) ∧
    t.lines? = some (ht.linesBelow rootId) ∧
    ∃ ids, (rootId :: ids).Perm (List.range t.size) ∧
      List.Forall₂ (fun id shape ↦ ∃ n parent a, t.get? id = some n ∧ n.parent = some parent ∧
        t.get? parent = some a ∧ shape = a.lineTo n) ids (ht.linesBelow rootId) := by
  refine ⟨fun c hc hne ↦ ht.exists_only_parent hc hne, ht.increasing_children, ?_, ?_,
    ht.lines?_eq_linesBelow, (t.subtree rootId).tail, ?_, ?_⟩
  · intro parent hp state
    exact ⟨t.addChild parent state, if_pos hp, ht.addChild hp state, size_addChild,
      t.get?_addChild parent state⟩
  · obtain ⟨es, hes, hwalk, -⟩ := ht.rooted.edges?_eq
    exact ⟨es, hwalk, hes⟩
  · have hperm := ht.subtree_root
    rw [ht.subtree_eq] at hperm ⊢
    exact hperm
  · obtain ⟨lines, hlines, hall⟩ := ht.lines?_eq
    obtain rfl : ht.linesBelow rootId = lines :=
      Option.some.inj (ht.lines?_eq_linesBelow.symm.trans hlines)
    exact hall

theorem lines_in_preorder_of_late_grandchild :
    let placed (x : Float32) : Turtle Float32 :=
      { (default : Turtle Float32) with position := ⟨x, 0, 0⟩ }
    let fork := ((ofRoot (placed 0)).addChild 0 (placed 1)).addChild 0 (placed 2)
    let t := fork.addChild 1 (placed 3)
    let color := (default : Turtle Float32).color
    ∃ ht : t.Grown, t.children 0 = [1, 2] ∧ t.children 1 = [3] ∧
      t.lines? = some (ht.linesBelow rootId) ∧
      ht.linesBelow rootId = [.line ⟨0, 0, 0⟩ ⟨1, 0, 0⟩ color, .line ⟨1, 0, 0⟩ ⟨3, 0, 0⟩ color,
        .line ⟨0, 0, 0⟩ ⟨2, 0, 0⟩ color] := by
  intro placed fork t color
  have ht : t.Grown :=
    (((Grown.ofRoot _).addChild (by decide) _).addChild (by decide) _).addChild (by decide) _
  obtain ⟨-, -, -, -, hlines, -⟩ := lines_in_preorder ht
  refine ⟨ht, by decide, by decide, hlines, Option.some.inj (hlines.symm.trans ?_)⟩
  decide +kernel

end BranchStream.Tree
