import BranchStream.Proofs.Turtle.Step

namespace BranchStream

theorem Tree.node_addChild {σ : Type} {t : Tree σ} {parent id : Nat} {state : σ}
    {n : Tree.Node σ} (h : (t.addChild parent state).get? id = some n) :
    (id = t.size ∧ n = ⟨state, some parent, []⟩) ∨
      ∃ n', t.get? id = some n' ∧ n.state = n'.state ∧ n.parent = n'.parent := by
  by_cases hid : id = t.size
  · rw [hid, get?_addChild_size] at h
    exact .inl ⟨hid, (Option.some.inj h).symm⟩
  · rw [get?_addChild_of_ne hid] at h
    split at h
    · obtain ⟨n', hn', rfl⟩ := Option.map_eq_some_iff.mp h
      exact .inr ⟨n', hn', rfl, rfl⟩
    · exact .inr ⟨n, h, rfl, rfl⟩

theorem Tree.state_addChild {σ : Type} {t : Tree σ} {parent id : Nat} {state : σ}
    {n : Tree.Node σ} (h : (t.addChild parent state).get? id = some n) :
    n.state = state ∨ ∃ n', t.get? id = some n' ∧ n.state = n'.state := by
  rcases node_addChild h with ⟨-, rfl⟩ | ⟨n', hn', hstate, -⟩
  · exact .inl rfl
  · exact .inr ⟨n', hn', hstate⟩

namespace Walk

variable {α : Type} [Elementary α] {p : Parameters α} {m : Modifiers α} {maxDepth : Nat}
  {as : List (Action α)} {id : Nat} {n : Tree.Node (Turtle α)}

theorem Effect.state_eq {w w' : Walk α} {a : Action α} (he : w.Effect p m maxDepth a w')
    (hn : w'.tree.get? id = some n) :
    n.state = w'.turtle ∨ ∃ n', w.tree.get? id = some n' ∧ n.state = n'.state := by
  cases he with
  | forward => exact Tree.state_addChild hn
  | opened => exact Tree.state_addChild hn
  | counted | uncounted | unmatched | closed | turned => exact .inr ⟨n, hn, rfl⟩

/-- What holds of the first turtle and is kept by every action holds after every walk: a turtle
that comes back was saved when the same actions had been read. -/
theorem turtle_induction {P : Turtle α → Prop} (hstart : P (.ofParameters p))
    (hact : ∀ turtle a, P turtle → P (turtle.act p m a)) (as : List (Action α)) :
    P (run p m maxDepth as).turtle := by
  have hsaved : P (run p m maxDepth as).turtle ∧ ∀ e ∈ (run p m maxDepth as).stack, P e.1 := by
    refine foldl_induction (P := fun _ w ↦ P w.turtle ∧ ∀ e ∈ w.stack, P e.1)
      ⟨hstart, List.forall_mem_nil _⟩ (fun {_ w _ _} h he ↦ ?_) as
    obtain ⟨hturtle, hstack⟩ := h
    cases he with
    | forward => exact ⟨hact w.turtle .forward hturtle, hstack⟩
    | turned => exact ⟨hact w.turtle _ hturtle, hstack⟩
    | opened => exact ⟨hturtle, List.forall_mem_cons.mpr ⟨hturtle, hstack⟩⟩
    | counted | uncounted | unmatched => exact ⟨hturtle, hstack⟩
    | closed _ hs =>
      rw [hs] at hstack
      exact List.forall_mem_cons.mp hstack
  exact hsaved.1

theorem exists_prefix_state (h : (run p m maxDepth as).tree.get? id = some n) :
    ∃ before, before <+: as ∧ n.state = (run p m maxDepth before).turtle := by
  induction as using List.reverseRecOn generalizing n with
  | nil =>
    obtain rfl : id = Tree.rootId := by
      by_contra hid
      have hnone := (run p m maxDepth []).tree.get?_eq_none (Nat.pos_of_ne_zero hid)
      rw [hnone] at h
      cases h
    obtain rfl := Option.some.inj h
    exact ⟨[], List.prefix_rfl, rfl⟩
  | append_singleton as a ih =>
    have he := effect_step p m maxDepth (run p m maxDepth as) a
    rw [run_concat] at h
    rcases he.state_eq h with hnew | ⟨n', hn', hstate⟩
    · exact ⟨as ++ [a], List.prefix_rfl, by rw [run_concat, hnew]⟩
    · obtain ⟨before, hbefore, hturtle⟩ := ih hn'
      exact ⟨before, hbefore.trans (List.prefix_append as [a]), hstate.trans hturtle⟩

end Walk

theorem Interpreter.exists_prefix_state {α : Type} [Elementary α] {i : Interpreter α} {w : Word}
    {m : Modifiers α} {id : Nat} {n : Tree.Node (Turtle α)}
    (h : (i.build w m).get? id = some n) :
    ∃ before, before <+: w ∧ n.state = (i.walk before m).turtle := by
  obtain ⟨as, has, hstate⟩ := Walk.exists_prefix_state h
  obtain ⟨before, hbefore, rfl⟩ := List.prefix_map_iff.mp has
  exact ⟨before, hbefore, hstate⟩

end BranchStream
