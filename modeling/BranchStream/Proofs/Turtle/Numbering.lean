import BranchStream.Binary32.Instances
import BranchStream.Proofs.Branches.DepthFirst
import BranchStream.Proofs.Turtle.Growth
import BranchStream.Proofs.Turtle.Step

namespace BranchStream

variable {α : Type}

theorem Tree.Grown.lines?_eq [Scalar α] {t : Tree (Turtle α)} (ht : t.Grown) :
    ∃ lines, t.lines? = some lines ∧ List.Forall₂
      (fun id shape ↦ ∃ n q a, t.get? id = some n ∧ n.parent = some q ∧ t.get? q = some a ∧
        shape = .line a.state.position n.state.position n.state.color)
      (t.subtree Tree.rootId).tail lines := by
  have hparent : ∀ id ∈ (t.subtree Tree.rootId).tail,
      ∃ n q a, t.get? id = some n ∧ n.parent = some q ∧ t.get? q = some a := by
    intro id hid
    have hmem := ht.subtree_root.mem_iff.mp (List.mem_of_mem_tail hid)
    have hnodup := ht.nodup_subtree Tree.rootId
    rw [ht.subtree_eq] at hid hnodup
    have hne : id ≠ Tree.rootId := fun h ↦ (List.nodup_cons.mp hnodup).1 (h ▸ hid)
    obtain ⟨q, hq⟩ := ht.exists_parent (Nat.pos_of_ne_zero hne) (List.mem_range.mp hmem)
    obtain ⟨n, hn, hparent⟩ := ht.mem_children_iff.mp hq
    have hlt := ht.mem_children hq
    obtain ⟨a, ha⟩ := Tree.exists_get? (hlt.1.trans hlt.2)
    exact ⟨n, q, a, hn, hparent, ha⟩
  rw [lines?, ht.edges?_eq]
  refine ⟨_, rfl, ?_⟩
  generalize (t.subtree Tree.rootId).tail = ids at hparent ⊢
  induction ids with
  | nil => exact .nil
  | cons id ids ih =>
    obtain ⟨n, q, a, hn, hq, ha⟩ := hparent id List.mem_cons_self
    have hline : t.edgeInto id = (q, id) := by simp [edgeInto, hn, hq]
    rw [List.map_cons, List.filterMap_cons, hline]
    simp only [hn, ha]
    exact .cons ⟨n, q, a, hn, hq, ha, rfl⟩ (ih fun id hid ↦ hparent id (List.mem_cons_of_mem _ hid))

namespace Walk

/-- The tree is numbered depth first, and the walk goes on below the last node's ancestors only. -/
structure DepthFirst (w : Walk α) : Prop where
  sound : w.Sound
  ordered : w.tree.Ordered
  spine : w.tree.Spine ((w.tree.size - 1) :: w.node :: w.stack.map Prod.snd)

variable {w w' : Walk α}

theorem depthFirst_start (turtle : Turtle α) : (start turtle).DepthFirst where
  sound := sound_start turtle
  ordered := Tree.ordered_ofRoot turtle
  spine := List.pairwise_pair.mpr ((Tree.Grown.ofRoot turtle).mem_subtree_self _)

theorem DepthFirst.grow (h : w.DepthFirst) (turtle : Turtle α) :
    (w.grow turtle).tree.Ordered ∧ (w.grow turtle).tree.Spine
      (w.tree.size :: w.tree.size :: w.node :: w.stack.map Prod.snd) := by
  have hids : ∀ id ∈ w.node :: w.stack.map Prod.snd, id < w.tree.size := by
    intro id hid
    rcases List.mem_cons.mp hid with rfl | hid
    · exact h.sound.node_lt
    · obtain ⟨e, he, rfl⟩ := List.mem_map.mp hid
      exact h.sound.stack_lt e he
  obtain ⟨hlast, hspine⟩ := List.pairwise_cons.mp h.spine
  have hgrown := h.sound.grown.addChild h.sound.node_lt turtle
  have hnew := Tree.Spine.addChild hspine h.sound.grown hids turtle
  refine ⟨h.ordered.addChild h.sound.grown h.sound.node_lt (hlast _ List.mem_cons_self) turtle,
    List.pairwise_cons.mpr ⟨?_, hnew⟩⟩
  intro id hid
  rcases List.mem_cons.mp hid with rfl | hid
  · exact hgrown.mem_subtree_self _
  · exact (List.pairwise_cons.mp hnew).1 id hid

variable [Elementary α] {p : Parameters α} {m : Modifiers α} {maxDepth : Nat}
  {as : List (Action α)} {a : Action α}

theorem DepthFirst.effect (h : w.DepthFirst) (he : w.Effect p m maxDepth a w') :
    w'.DepthFirst := by
  have hsound : w'.Sound := he.step_eq ▸ h.sound.step a
  cases he with
  | forward =>
    obtain ⟨hordered, hspine⟩ := h.grow (w.turtle.act p m .forward)
    refine ⟨hsound, hordered, ?_⟩
    rw [size_grow, Nat.add_sub_cancel]
    exact List.Pairwise.sublist (((List.sublist_cons_self _ _).cons_cons _).cons_cons _) hspine
  | opened =>
    obtain ⟨hordered, hspine⟩ := h.grow w.turtle
    refine ⟨hsound, hordered, ?_⟩
    rw [size_grow, Nat.add_sub_cancel]
    exact hspine
  | closed _ hs =>
    have hspine := h.spine
    rw [hs, List.map_cons] at hspine
    exact ⟨hsound, h.ordered,
      List.Pairwise.sublist ((List.sublist_cons_self _ _).cons_cons _) hspine⟩
  | counted | uncounted | unmatched | turned => exact ⟨hsound, h.ordered, h.spine⟩

theorem depthFirst_run (as : List (Action α)) : (run p m maxDepth as).DepthFirst :=
  foldl_induction (P := fun _ w ↦ w.DepthFirst) (depthFirst_start _) DepthFirst.effect as

/-- How many of the actions open a branch and find room for it. -/
def accepted (p : Parameters α) (m : Modifiers α) (maxDepth : Nat) (as : List (Action α)) : Nat :=
  (List.range as.length).countP fun k ↦
    as[k]?.any Action.isPush && decide ((run p m maxDepth (as.take k)).stack.length < maxDepth)

theorem accepted_concat : accepted p m maxDepth (as ++ [a]) = accepted p m maxDepth as +
    if a.isPush ∧ (run p m maxDepth as).stack.length < maxDepth then 1 else 0 := by
  have hbefore : ∀ k ∈ List.range as.length,
      ((as ++ [a])[k]?.any Action.isPush &&
        decide ((run p m maxDepth ((as ++ [a]).take k)).stack.length < maxDepth)) = true ↔
      (as[k]?.any Action.isPush &&
        decide ((run p m maxDepth (as.take k)).stack.length < maxDepth)) = true := by
    intro k hk
    have hlt := List.mem_range.mp hk
    rw [List.getElem?_append_left hlt, List.take_append_of_le_length hlt.le]
  rw [accepted, List.length_append, List.length_singleton, List.range_succ, List.countP_append,
    List.countP_congr hbefore, List.countP_singleton, List.getElem?_concat_length, List.take_left,
    ← accepted]
  simp

theorem size_run (as : List (Action α)) : (run p m maxDepth as).tree.size =
    1 + as.countP Action.isForward + accepted p m maxDepth as := by
  induction as using List.reverseRecOn with
  | nil => rfl
  | append_singleton as a ih =>
    have he := effect_step p m maxDepth (run p m maxDepth as) a
    rw [run_concat, accepted_concat, List.countP_append, List.countP_singleton]
    generalize run p m maxDepth as = w at *
    generalize w.step p m maxDepth a = w' at *
    cases he with
    | forward =>
      simp [Action.isForward, Action.isPush, ih]
      omega
    | opened hroom =>
      simp [Action.isForward, hroom, ih]
      omega
    | counted hroom => simp [Action.isForward, hroom, ih]
    | uncounted | unmatched | closed => simp [Action.isForward, ih]
    | turned hforward hpush => simp [hforward, hpush, ih]

end Walk

theorem Walk.DepthFirst.exists_lines [Scalar α] {w : Walk α} (h : w.DepthFirst) :
    ∃ lines, w.tree.lines? = some lines ∧ lines.length = w.tree.size - 1 ∧
      ∀ k, k + 1 < w.tree.size → ∃ n q a, w.tree.get? (k + 1) = some n ∧ n.parent = some q ∧
        w.tree.get? q = some a ∧
        lines[k]? = some (.line a.state.position n.state.position n.state.color) := by
  have hsubtree := h.ordered.subtree_root h.sound.grown
  obtain ⟨lines, hlines, hall⟩ := h.sound.grown.lines?_eq
  have hlength := hall.length_eq
  rw [hsubtree, List.length_tail, List.length_range] at hlength
  refine ⟨lines, hlines, hlength.symm, fun k hk ↦ ?_⟩
  have hid : k < (w.tree.subtree Tree.rootId).tail.length := by
    rw [hall.length_eq]
    omega
  have hk' : k < lines.length := by omega
  have hget : (w.tree.subtree Tree.rootId).tail[k] = k + 1 := by simp [hsubtree, Nat.add_comm]
  obtain ⟨n, q, a, hn, hq, ha, hline⟩ := hall.get hid hk'
  rw [List.get_eq_getElem, hget] at hn
  refine ⟨n, q, a, hn, hq, ha, ?_⟩
  rw [List.getElem?_eq_getElem hk', ← hline, List.get_eq_getElem]

/-- A walk numbers its nodes as they are met depth first from the root, each before its children's
subtrees and these in the order of the children. -/
theorem Interpreter.subtree_build [Elementary α] (i : Interpreter α) (w : Word)
    (m : Modifiers α) :
    let t := i.build w m
    t.subtree Tree.rootId = List.range t.size ∧
      (∀ id, t.subtree id = id :: (t.children id).flatMap t.subtree) ∧
      (∃ lines, t.lines? = some lines ∧ lines.length = t.size - 1 ∧
        ∀ k, k + 1 < t.size → ∃ n q a, t.get? (k + 1) = some n ∧ n.parent = some q ∧
          t.get? q = some a ∧
          lines[k]? = some (.line a.state.position n.state.position n.state.color)) ∧
      t.size = 1 + w.countP (fun c ↦ (i.action c).isForward) +
        Walk.accepted i.parameters m i.maxDepth (w.map i.action) := by
  intro t
  have hdepth : (i.walk w m).DepthFirst := Walk.depthFirst_run _
  have ht : t.Grown := hdepth.sound.grown
  refine ⟨hdepth.ordered.subtree_root ht, ht.subtree_eq, hdepth.exists_lines, ?_⟩
  have hsize : t.size = _ := Walk.size_run (w.map i.action)
  rw [List.countP_map] at hsize
  exact hsize

theorem Interpreter.subtree_build_of_fork :
    let i : Interpreter Float32 := .standard default 1
    let t := i.build ['F', '[', '+', '[', 'F', ']', ']', 'F'] default
    3 + 1 < t.size ∧ t.subtree Tree.rootId = [0, 1, 2, 3, 4] ∧
      ∃ lines n a, t.lines? = some lines ∧ t.get? 4 = some n ∧ n.parent = some 1 ∧
        t.get? 1 = some a ∧
        lines[3]? = some (.line a.state.position n.state.position n.state.color) := by
  intro i t
  have hsize : t.size = 5 := by decide +kernel
  obtain ⟨hsubtree, -, ⟨lines, hlines, -, hall⟩, -⟩ :=
    subtree_build i ['F', '[', '+', '[', 'F', ']', ']', 'F'] default
  obtain ⟨n, q, a, hn, hq, ha, hline⟩ := hall 3 (by rw [hsize]; decide)
  have hparent : (t.get? 4).bind Tree.Node.parent = some 1 := by decide +kernel
  rw [hn, Option.bind_some, hq] at hparent
  obtain rfl := Option.some.inj hparent
  refine ⟨by rw [hsize]; decide, ?_, lines, n, _, hlines, hn, hq, ha, hline⟩
  rw [hsubtree, hsize]
  rfl

end BranchStream
