import BranchStream.Binary32.Instances
import BranchStream.Proofs.Branches.Deletion
import BranchStream.Proofs.Turtle.DepthLimit
import BranchStream.Proofs.Turtle.Growth

namespace BranchStream

variable {α : Type}

namespace Walk

variable {w₀ w w' : Walk α} {start len : Nat}

/-- The walk `w` is inside the branch that was opened at `w₀`: it only grows the subtree of the
first node made since then, and will find what was saved. -/
structure Inside (w₀ w : Walk α) : Prop where
  sound : w.Sound
  extends_tree : w₀.tree.Extends w.tree
  subtree : ∀ k, k ∈ w.tree.subtree w₀.tree.size ↔ w₀.tree.size ≤ k ∧ k < w.tree.size
  size_le_node : w₀.tree.size ≤ w.node
  stack : ∃ inner, w.stack = inner ++ (w₀.turtle, w₀.node) :: w₀.stack ∧
    ∀ e ∈ inner, w₀.tree.size ≤ e.2

theorem Sound.inside (h : w₀.Sound) :
    w₀.Inside { w₀.grow w₀.turtle with stack := (w₀.turtle, w₀.node) :: w₀.stack } where
  sound := by
    have hgrow := h.grow w₀.turtle
    refine ⟨hgrow.grown, hgrow.node_lt, fun e he ↦ ?_⟩
    rcases List.mem_cons.mp he with rfl | he
    · have hlt := h.node_lt
      simp only [size_grow]
      omega
    · exact hgrow.stack_lt e he
  extends_tree := (Tree.Extends.refl _).addChild _ _
  subtree k := by
    simp only [Walk.grow, h.grown.subtree_addChild_size h.node_lt, List.mem_singleton,
      Tree.size_addChild]
    omega
  size_le_node := Nat.le_refl _
  stack := ⟨[], rfl, nofun⟩

theorem Inside.grow (h : w₀.Inside w) (turtle : Turtle α) : w₀.Inside (w.grow turtle) where
  sound := h.sound.grow turtle
  extends_tree := h.extends_tree.addChild _ _
  subtree k := by
    have hle := h.size_le_node
    have hlt := h.sound.node_lt
    simp only [Walk.grow, Tree.size_addChild,
      h.sound.grown.mem_subtree_addChild hlt (hle.trans_lt hlt), h.subtree]
    omega
  size_le_node := h.extends_tree.size_le
  stack := h.stack

/-- The walk `w'` goes as `w` does, in a tree with one more subtree. -/
structure Parallel (start len : Nat) (w w' : Walk α) : Prop where
  sound : w.Sound
  sound' : w'.Sound
  tree : Tree.Inserted start len w.tree w'.tree
  turtle : w'.turtle = w.turtle
  node : w'.node = Tree.skip start len w.node
  stack : w'.stack = w.stack.map (Prod.map id (Tree.skip start len))
  dropped : w'.dropped = w.dropped

theorem Parallel.grow (h : Parallel start len w w') (turtle : Turtle α) :
    Parallel start len (w.grow turtle) (w'.grow turtle) where
  sound := h.sound.grow turtle
  sound' := h.sound'.grow turtle
  tree := by
    have htree := h.tree.addChild h.sound'.grown h.sound.node_lt turtle
    rwa [← h.node] at htree
  turtle := rfl
  node := by
    simp only [Walk.grow]
    rw [Tree.skip_of_le h.tree.le_size, h.tree.size_eq]
  stack := h.stack
  dropped := h.dropped

theorem Sound.parallel {tree : Tree (Turtle α)} (h : w.Sound) (h' : { w with tree }.Sound)
    (htree : Tree.Inserted w.tree.size len w.tree tree) :
    Parallel w.tree.size len w { w with tree } where
  sound := h
  sound' := h'
  tree := htree
  turtle := rfl
  node := (Tree.skip_of_lt h.node_lt).symm
  stack := by
    have hstay : ∀ e ∈ w.stack, Prod.map id (Tree.skip w.tree.size len) e = e :=
      fun e he ↦ Prod.ext rfl (Tree.skip_of_lt (h.stack_lt e he))
    rw [List.map_congr_left hstay, List.map_id']
  dropped := rfl

variable [Elementary α] {p : Parameters α} {m : Modifiers α} {maxDepth : Nat}
  {x u : List (Action α)} {a : Action α}

theorem Inside.effect (h : w₀.Inside w) (he : w.Effect p m maxDepth a w')
    (hinner : a = .pop → w.dropped = 0 → w₀.stack.length + 1 < w.stack.length) :
    w₀.Inside w' := by
  have hsound : w'.Sound := he.step_eq ▸ h.sound.step a
  obtain ⟨inner, hstack, hle⟩ := h.stack
  cases he with
  | forward => exact h.grow _
  | opened =>
    have hgrow := h.grow w.turtle
    refine ⟨hsound, hgrow.extends_tree, hgrow.subtree, hgrow.size_le_node,
      (w.turtle, w.node) :: inner, by rw [hstack]; rfl, fun e he ↦ ?_⟩
    rcases List.mem_cons.mp he with rfl | he
    · exact h.size_le_node
    · exact hle e he
  | closed hzero hs =>
    have hlength := hinner rfl hzero
    rw [hstack] at hs hlength
    cases inner with
    | nil => simp at hlength
    | cons e inner =>
      obtain ⟨rfl, rfl⟩ := List.cons.inj hs
      exact ⟨hsound, h.extends_tree, h.subtree, hle _ List.mem_cons_self, inner, rfl,
        fun e he ↦ hle e (List.mem_cons_of_mem _ he)⟩
  | counted | uncounted | unmatched | turned =>
    exact ⟨hsound, h.extends_tree, h.subtree, h.size_le_node, h.stack⟩

theorem height_run_push (p : Parameters α) (m : Modifiers α) (maxDepth : Nat)
    (x : List (Action α)) (hu : Action.Covered u) :
    (run p m maxDepth (x ++ .push :: u)).stack.length +
        (run p m maxDepth (x ++ .push :: u)).dropped + u.countP Action.isPop =
      (run p m maxDepth x).stack.length + (run p m maxDepth x).dropped +
        u.countP Action.isPush + 1 := by
  have hheight := height_run_append p m maxDepth x hu.cons_push
  simpa [List.countP_cons, Nat.add_assoc] using hheight

theorem inside_run (hroom : (run p m maxDepth x).stack.length < maxDepth)
    (hu : Action.Covered u) :
    (run p m maxDepth x).Inside (run p m maxDepth (x ++ .push :: u)) := by
  induction u using List.reverseRecOn with
  | nil =>
    rw [run_concat, (Effect.opened hroom).step_eq]
    exact (sound_run x).inside
  | append_singleton u a ih =>
    obtain ⟨hcovered, hle⟩ := Action.covered_concat.mp hu
    rw [← List.cons_append, ← List.append_assoc, run_concat]
    refine (ih hcovered).effect (effect_step p m maxDepth _ a) ?_
    rintro rfl hzero
    have hheight := height_run_push p m maxDepth x hcovered
    simp [List.countP_append] at hle
    omega

theorem run_bracket (hroom : (run p m maxDepth x).stack.length < maxDepth)
    (hu : Action.Balanced u) : run p m maxDepth (x ++ .push :: u ++ [.pop]) =
      { run p m maxDepth x with tree := (run p m maxDepth (x ++ .push :: u)).tree } := by
  have hnone : (run p m maxDepth x).dropped = 0 := by
    by_contra hpos
    exact absurd ((nested_run p m maxDepth x).full (Nat.pos_of_ne_zero hpos)) hroom.ne
  have hheight := height_run_push p m maxDepth x hu.1
  obtain ⟨inner, hstack, -⟩ := (inside_run hroom hu.1).stack
  rw [run_concat]
  generalize run p m maxDepth (x ++ .push :: u) = w at hheight hstack ⊢
  have hcount := hu.2
  rw [hstack, List.length_append, List.length_cons] at hheight
  have hinner : inner = [] := List.length_eq_zero_iff.mp (by omega)
  have hzero : w.dropped = 0 := by omega
  rw [hinner, List.nil_append] at hstack
  rw [(Effect.closed hzero hstack).step_eq]
  simp only [hzero, hnone]

theorem Parallel.step (h : Parallel start len w w') (a : Action α) :
    Parallel start len (w.step p m maxDepth a) (w'.step p m maxDepth a) := by
  have hsound : (w.step p m maxDepth a).Sound := h.sound.step a
  have hsound' : (w'.step p m maxDepth a).Sound := h.sound'.step a
  have hlength : w'.stack.length = w.stack.length := by rw [h.stack, List.length_map]
  have he := effect_step p m maxDepth w a
  generalize w.step p m maxDepth a = w₁ at he hsound ⊢
  cases he with
  | forward =>
    rw [(Effect.forward (w := w')).step_eq, h.turtle]
    exact h.grow _
  | opened hroom =>
    have hgrow := h.grow w.turtle
    rw [(Effect.opened (hlength.trans_lt hroom)).step_eq, h.turtle] at hsound' ⊢
    refine ⟨hsound, hsound', hgrow.tree, rfl, hgrow.node, ?_, hgrow.dropped⟩
    rw [h.stack, h.node]
    rfl
  | counted hroom =>
    rw [(Effect.counted (hroom.trans_eq hlength.symm)).step_eq] at hsound' ⊢
    exact ⟨hsound, hsound', h.tree, h.turtle, h.node, h.stack, congrArg (· + 1) h.dropped⟩
  | uncounted hpos =>
    rw [(Effect.uncounted (hpos.trans_eq h.dropped.symm)).step_eq] at hsound' ⊢
    exact ⟨hsound, hsound', h.tree, h.turtle, h.node, h.stack, congrArg (· - 1) h.dropped⟩
  | unmatched hzero hs =>
    have hs' : w'.stack = [] := by rw [h.stack, hs, List.map_nil]
    rw [(Effect.unmatched (h.dropped.trans hzero) hs').step_eq]
    exact h
  | closed hzero hs =>
    have hs' := h.stack
    rw [hs, List.map_cons] at hs'
    rw [(Effect.closed (h.dropped.trans hzero) hs').step_eq] at hsound' ⊢
    exact ⟨hsound, hsound', h.tree, rfl, rfl, rfl, h.dropped⟩
  | turned hforward hpush hpop =>
    rw [(Effect.turned hforward hpush hpop).step_eq] at hsound' ⊢
    exact ⟨hsound, hsound', h.tree, by rw [h.turtle], h.node, h.stack, h.dropped⟩

theorem Parallel.foldl (h : Parallel start len w w') (p : Parameters α) (m : Modifiers α)
    (maxDepth : Nat) (as : List (Action α)) : Parallel start len
      (as.foldl (Walk.step p m maxDepth) w) (as.foldl (Walk.step p m maxDepth) w') := by
  induction as generalizing w w' with
  | nil => exact h
  | cons a as ih => exact ih (h.step a)

theorem parallel_bracket (hroom : (run p m maxDepth x).stack.length < maxDepth)
    (hu : Action.Balanced u) : ∃ len, Parallel (run p m maxDepth x).tree.size len
      (run p m maxDepth x) (run p m maxDepth (x ++ .push :: u ++ [.pop])) := by
  have hsound : (run p m maxDepth x).Sound := sound_run x
  have hsound' : (run p m maxDepth (x ++ .push :: u ++ [.pop])).Sound := sound_run _
  have hinside := inside_run hroom hu.1
  rw [run_bracket hroom hu] at hsound' ⊢
  exact ⟨_, hsound.parallel hsound'
    (hinside.extends_tree.inserted hsound.grown hinside.sound.grown hinside.subtree)⟩

end Walk

/-- Brackets scope exactly. A branch that finds room is opened by making one node; when it has been
closed, the turtle, the current node, the open branches and the counter are what they were before;
and the tree without the branch is the full one without the subtree of that node. -/
theorem Interpreter.build_without_bracket [Elementary α] (i : Interpreter α) (m : Modifiers α)
    (x u y : Word) {c d : Symbol} (hc : i.action c = .push) (hd : i.action d = .pop)
    (hroom : (i.walk x m).stack.length < i.maxDepth) (hu : Action.Balanced (u.map i.action)) :
    let before := i.walk x m
    let after := i.walk (x ++ c :: u ++ [d]) m
    (i.walk (x ++ [c]) m).tree = before.tree.addChild before.node before.turtle ∧
      after.turtle = before.turtle ∧ after.node = before.node ∧ after.stack = before.stack ∧
      after.dropped = before.dropped ∧
      i.build (x ++ y) m = (i.build (x ++ c :: u ++ d :: y) m).without before.tree.size := by
  intro before after
  have hopen : i.walk (x ++ [c]) m = before.step i.parameters m i.maxDepth .push := by
    rw [walk, List.map_append, List.map_singleton, hc, Walk.run_concat]
    rfl
  have hclose : after = Walk.run i.parameters m i.maxDepth
      (x.map i.action ++ .push :: u.map i.action ++ [.pop]) := by
    simp only [after, walk, List.map_append, List.map_cons, List.map_nil, hc, hd]
  have hrestored := hclose.trans (Walk.run_bracket hroom hu)
  refine ⟨?_, ?_, ?_, ?_, ?_, ?_⟩
  · rw [hopen, (Walk.Effect.opened hroom).step_eq]
    rfl
  iterate 4
    · rw [hrestored]
      rfl
  · obtain ⟨len, hbracket⟩ := Walk.parallel_bracket hroom hu
    rw [← hclose] at hbracket
    have hy := hbracket.foldl i.parameters m i.maxDepth (y.map i.action)
    have hsplit : x ++ c :: u ++ d :: y = x ++ c :: u ++ [d] ++ y := by simp
    rw [hsplit, build, build, walk_append, walk_append]
    exact (hy.tree.without_eq hy.sound.grown hy.sound'.grown).symm

theorem Interpreter.build_without_bracket_of_nested :
    let i : Interpreter Float32 := .standard default 1
    let x : Word := ['F']
    let u : Word := ['F', '[', 'F', ']', '+']
    Action.Balanced (u.map i.action) ∧ (i.walk x default).stack.length < i.maxDepth ∧
      i.build (x ++ ['F']) default =
        (i.build (x ++ '[' :: u ++ ']' :: ['F']) default).without (i.walk x default).tree.size := by
  intro i x u
  have hroom : (i.walk x default).stack.length < i.maxDepth := by decide +kernel
  have hu : Action.Balanced (u.map i.action) := by decide +kernel
  exact ⟨hu, hroom, (build_without_bracket i default x u ['F'] rfl rfl hroom hu).2.2.2.2.2⟩

end BranchStream
