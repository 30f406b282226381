import BranchStream.Binary32.Instances
import BranchStream.Proofs.Branches.Preorder
import BranchStream.Proofs.Turtle.Segments

namespace BranchStream

namespace Tree

variable {σ : Type} {t t' : Tree σ} {id : Nat} {n : Node σ}

theorem Extends.exists_more (h : t.Extends t') (ht : t.Grown) (ht' : t'.Grown)
    (hn : t.get? id = some n) : ∃ more,
      t'.get? id = some { n with children := n.children ++ more } ∧ more.Pairwise (· < ·) ∧
      ∀ c, c ∈ more ↔ t.size ≤ c ∧ ∃ n', t'.get? c = some n' ∧ n'.parent = some id := by
  obtain ⟨more, hmore, hle⟩ := h.get?_eq id n hn
  have hchildren : t'.children id = n.children ++ more := by rw [children, hmore]
  have hincreasing := ht'.increasing_children id
  rw [hchildren, List.pairwise_append] at hincreasing
  refine ⟨more, hmore, hincreasing.2.1, fun c ↦ ?_⟩
  rw [← ht'.mem_children_iff, hchildren, List.mem_append]
  constructor
  · intro hc
    exact ⟨hle c hc, .inr hc⟩
  · rintro ⟨hnew, hold | hc⟩
    · have hlt := ht.child_lt hn hold
      omega
    · exact hc

end Tree

variable {α : Type} [Elementary α]

theorem Interpreter.walk_append_ignored {i : Interpreter α} {t : Word}
    (h : ∀ c ∈ t, i.action c = .ignore) (s : Word) (m : Modifiers α) :
    i.walk (s ++ t) m = i.walk s m := by
  rw [walk_append]
  generalize i.walk s m = w
  induction t with
  | nil => rfl
  | cons c t ih =>
    obtain ⟨hc, ht⟩ := List.forall_mem_cons.mp h
    rw [List.map_cons, List.foldl_cons, hc, Walk.step_ignore]
    exact ih ht

/-- Extending a word only extends its tree. A node of the tree has the same state and parent in the
larger one, and its children there are those it had, followed by the new nodes with this parent in
the order in which they were made; and if the further symbols are all ignored, the trees are
equal. -/
theorem Interpreter.build_append (i : Interpreter α) (s t : Word) (m : Modifiers α) :
    let before := i.build s m
    let after := i.build (s ++ t) m
    (∀ id < before.size, ∃ n more, before.get? id = some n ∧
      after.get? id = some { n with children := n.children ++ more } ∧ more.Pairwise (· < ·) ∧
      ∀ c, c ∈ more ↔
        before.size ≤ c ∧ ∃ n', after.get? c = some n' ∧ n'.parent = some id) ∧
    ((∀ c ∈ t, i.action c = .ignore) → after = before) := by
  intro before after
  have hextends : before.Extends after := Walk.extends_run ((List.prefix_append s t).map i.action)
  constructor
  · intro id hid
    obtain ⟨n, hn⟩ := Tree.exists_get? hid
    obtain ⟨more, hmore⟩ := hextends.exists_more (i.grown_build s m) (i.grown_build _ m) hn
    exact ⟨n, more, hn, hmore⟩
  · intro h
    exact congrArg Walk.tree (i.walk_append_ignored h s m)

theorem Interpreter.build_append_of_reopened :
    let i : Interpreter Float32 := .standard default 1
    let s : Word := ['F', '[', '[', 'F', ']']
    let t : Word := [']', 'F', ']', 'F']
    1 < (i.build s default).size ∧
      (∃ n, (i.build s default).get? 1 = some n ∧ n.children = [2] ∧
        (i.build (s ++ t) default).get? 1 = some { n with children := [2, 4] }) ∧
      (∀ c ∈ ['x', 'y'], i.action c = .ignore) ∧
      i.build (s ++ ['x', 'y']) default = i.build s default := by
  intro i s t
  have hsize : 1 < (i.build s default).size := by decide +kernel
  have hx : i.action 'x' = .ignore := by decide +kernel
  have hy : i.action 'y' = .ignore := by decide +kernel
  have hignored : ∀ c ∈ ['x', 'y'], i.action c = .ignore :=
    List.forall_mem_cons.mpr ⟨hx, List.forall_mem_singleton.mpr hy⟩
  obtain ⟨n, more, hn, hmore, -⟩ := (build_append i s t default).1 1 hsize
  have hbefore : (i.build s default).children 1 = [2] := by decide +kernel
  have hafter : (i.build (s ++ t) default).children 1 = [2, 4] := by decide +kernel
  simp only [Tree.children, hn] at hbefore
  simp only [Tree.children, hmore] at hafter
  rw [hafter] at hmore
  exact ⟨hsize, ⟨n, hn, hbefore, hmore⟩, hignored,
    (build_append i s ['x', 'y'] default).2 hignored⟩

end BranchStream
