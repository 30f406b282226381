import BranchStream.Proofs.Branches.Growth
import BranchStream.Turtle.Interpreter

namespace BranchStream

variable {α : Type}

namespace Walk

/-- The tree is grown and holds the nodes that the walk may come back to. -/
structure Sound (w : Walk α) : Prop where
  grown : w.tree.Grown
  node_lt : w.node < w.tree.size
  stack_lt : ∀ e ∈ w.stack, e.2 < w.tree.size

variable {w : Walk α}

theorem sound_start (turtle : Turtle α) : (start turtle).Sound where
  grown := .ofRoot turtle
  node_lt := by simp [start]
  stack_lt := by simp [start]

theorem Sound.grow (h : w.Sound) (turtle : Turtle α) : (w.grow turtle).Sound where
  grown := h.grown.addChild h.node_lt turtle
  node_lt := by simp [Walk.grow]
  stack_lt e he := by
    have hlt := h.stack_lt e he
    simp only [Walk.grow, Tree.size_addChild]
    omega

theorem Sound.openBranch (h : w.Sound) (maxDepth : Nat) : (w.openBranch maxDepth).Sound := by
  unfold Walk.openBranch
  split
  · have hg := h.grow w.turtle
    refine ⟨hg.grown, hg.node_lt, ?_⟩
    intro e he
    rcases List.mem_cons.mp he with rfl | he
    · have hlt := h.node_lt
      simp only [Walk.grow, Tree.size_addChild]
      omega
    · exact hg.stack_lt e he
  · exact ⟨h.grown, h.node_lt, h.stack_lt⟩

theorem Sound.closeBranch (h : w.Sound) : w.closeBranch.Sound := by
  unfold Walk.closeBranch
  split
  · exact ⟨h.grown, h.node_lt, h.stack_lt⟩
  · cases hs : w.stack with
    | nil => exact h
    | cons e rest =>
      have hlt : ∀ e' ∈ e :: rest, e'.2 < w.tree.size := hs ▸ h.stack_lt
      exact ⟨h.grown, hlt e List.mem_cons_self, fun e' he' ↦ hlt e' (List.mem_cons_of_mem e he')⟩

variable [Elementary α] {p : Parameters α} {m : Modifiers α} {maxDepth : Nat}

theorem Sound.step (h : w.Sound) (a : Action α) : (w.step p m maxDepth a).Sound := by
  cases a with
  | forward => exact h.grow _
  | push => exact h.openBranch maxDepth
  | pop => exact h.closeBranch
  | _ => exact ⟨h.grown, h.node_lt, h.stack_lt⟩

theorem sound_run (actions : List (Action α)) : (run p m maxDepth actions).Sound := by
  have hfold (w : Walk α) (h : w.Sound) : (actions.foldl (step p m maxDepth) w).Sound := by
    induction actions generalizing w with
    | nil => exact h
    | cons a actions ih => exact ih _ (h.step a)
  exact hfold _ (sound_start _)

end Walk

theorem Interpreter.grown_build [Elementary α] (i : Interpreter α) (w : Word) (m : Modifiers α) :
    (i.build w m).Grown :=
  (Walk.sound_run (w.map i.action)).grown

end BranchStream
