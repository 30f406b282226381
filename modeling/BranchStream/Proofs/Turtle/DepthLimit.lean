import BranchStream.Binary32.Instances
import BranchStream.Proofs.Turtle.Brackets

namespace BranchStream

variable {α : Type} [Elementary α] {p : Parameters α} {m : Modifiers α} {maxDepth limit : Nat}
  {as : List (Action α)} {a : Action α} {w w' : Walk α}

namespace Walk

/-- The stack and the counter of a walk over `as` make up the depth, the stack first. -/
structure Nested (maxDepth : Nat) (as : List (Action α)) (w : Walk α) : Prop where
  depth_eq : w.stack.length + w.dropped = Action.depth as
  length_le : w.stack.length ≤ maxDepth
  full : 0 < w.dropped → w.stack.length = maxDepth

theorem Nested.effect (h : w.Nested maxDepth as) (he : w.Effect p m maxDepth a w') :
    w'.Nested maxDepth (as ++ [a]) := by
  obtain ⟨hdepth, hle, hfull⟩ := h
  cases he with
  | forward =>
    refine ⟨?_, hle, hfull⟩
    rw [Action.depth_concat]
    exact hdepth
  | opened hroom =>
    refine ⟨?_, hroom, fun hpos ↦ absurd (hfull hpos) hroom.ne⟩
    simp [Action.depth_concat, ← hdepth, grow]
    omega
  | counted hroom =>
    refine ⟨?_, hle, fun _ ↦ hle.antisymm hroom⟩
    simp [Action.depth_concat, ← hdepth]
    omega
  | uncounted hpos =>
    refine ⟨?_, hle, fun _ ↦ hfull hpos⟩
    simp [Action.depth_concat, ← hdepth]
    omega
  | unmatched hzero hs =>
    refine ⟨?_, hle, hfull⟩
    simp [Action.depth_concat, ← hdepth, hzero, hs]
  | closed hzero hs =>
    simp only [hs, List.length_cons] at hdepth hle
    refine ⟨?_, Nat.le_of_succ_le hle, fun hpos ↦ absurd hzero (Nat.ne_of_gt hpos)⟩
    simp [Action.depth_concat, ← hdepth, hzero]
  | turned _ hpush hpop =>
    refine ⟨?_, hle, hfull⟩
    rw [Action.depth_concat, hpush, hpop]
    exact hdepth

theorem nested_run (p : Parameters α) (m : Modifiers α) (maxDepth : Nat) (as : List (Action α)) :
    (run p m maxDepth as).Nested maxDepth as :=
  foldl_induction (P := fun as w ↦ w.Nested maxDepth as)
    ⟨rfl, Nat.zero_le _, fun h ↦ absurd h (Nat.lt_irrefl 0)⟩ Nested.effect as

theorem height_run_append (p : Parameters α) (m : Modifiers α) (maxDepth : Nat)
    (x : List (Action α)) {u : List (Action α)} (hu : Action.Covered u) :
    (run p m maxDepth (x ++ u)).stack.length + (run p m maxDepth (x ++ u)).dropped +
        u.countP Action.isPop =
      (run p m maxDepth x).stack.length + (run p m maxDepth x).dropped +
        u.countP Action.isPush := by
  rw [(nested_run p m maxDepth _).depth_eq, (nested_run p m maxDepth x).depth_eq]
  exact Action.depth_append_of_covered x hu

theorem Nested.step_of_deep (h : w.Nested maxDepth as)
    (ha : a.isPush ∧ maxDepth ≤ Action.depth as ∨ a.isPop ∧ maxDepth < Action.depth as) :
    { w.step p m maxDepth a with dropped := 0 } = { w with dropped := 0 } := by
  obtain ⟨hdepth, hle, hfull⟩ := h
  rcases ha with ⟨hpush, hdeep⟩ | ⟨hpop, hdeep⟩
  · have hroom : maxDepth ≤ w.stack.length := by
      rcases Nat.eq_zero_or_pos w.dropped with hzero | hpos
      · omega
      · exact (hfull hpos).ge
    rw [Action.isPush_iff.mp hpush, (Effect.counted hroom).step_eq]
  · have hpos : 0 < w.dropped := by omega
    rw [Action.isPop_iff.mp hpop, (Effect.uncounted hpos).step_eq]

theorem Nested.step_of_not_deep (h : w.Nested maxDepth as)
    (ha : ¬ (a.isPush ∧ maxDepth ≤ Action.depth as ∨ a.isPop ∧ maxDepth < Action.depth as))
    (hlimit : a.isPush → w.stack.length < limit) :
    { w.step p m maxDepth a with dropped := 0 } =
      { w with dropped := 0 }.step p m limit a := by
  obtain ⟨hdepth, hle, hfull⟩ := h
  have he := effect_step p m maxDepth w a
  generalize w.step p m maxDepth a = w' at he ⊢
  cases he with
  | forward => rfl
  | opened hroom => exact (Effect.opened (w := { w with dropped := 0 }) (hlimit rfl)).step_eq.symm
  | counted hroom => exact absurd (.inl ⟨rfl, by omega⟩) ha
  | uncounted hpos =>
    have hlength := hfull hpos
    exact absurd (.inr ⟨rfl, by omega⟩) ha
  | unmatched _ hs => exact (Effect.unmatched (w := { w with dropped := 0 }) rfl hs).step_eq.symm
  | closed _ hs => exact (Effect.closed (w := { w with dropped := 0 }) rfl hs).step_eq.symm
  | turned hforward hpush hpop =>
    exact (Effect.turned (w := { w with dropped := 0 }) hforward hpush hpop).step_eq.symm

/-- A walk with a greatest depth and one whose limit is never met agree but for the counter: what
the one only counts, the other is not given. -/
theorem run_shallow (as : List (Action α)) (h : Action.Fits limit (Action.shallow maxDepth as)) :
    { run p m maxDepth as with dropped := 0 } = run p m limit (Action.shallow maxDepth as) := by
  induction as using List.reverseRecOn with
  | nil => rfl
  | append_singleton as a ih =>
    have hnested := nested_run p m maxDepth as
    rw [Action.shallow_concat] at h ⊢
    rw [run_concat]
    split_ifs at h ⊢ with hdeep
    · rw [List.append_nil] at h ⊢
      rw [hnested.step_of_deep hdeep, ih h]
    · rw [Action.fits_concat, Action.depth_shallow] at h
      obtain ⟨hfits, hlimit⟩ := h
      rw [run_concat, ← ih hfits, hnested.step_of_not_deep hdeep]
      intro hpush
      have hle := hnested.length_le
      have hdepth := hnested.depth_eq
      have hlt := hlimit hpush
      omega

end Walk

/-- A greatest depth is the same as no limit over the actions without the brackets of too deep
branches: whatever other limit is never met by these, the tree is the same. All the while the stack
holds at most as many branches as the greatest depth, and only a full stack leaves branches
counted. -/
theorem Interpreter.build_eq_run_shallow (i : Interpreter α) (w : Word) (m : Modifiers α) :
    let kept := Action.shallow i.maxDepth (w.map i.action)
    (∀ limit, Action.Fits limit kept → i.build w m = (Walk.run i.parameters m limit kept).tree) ∧
      (∀ limit, i.maxDepth ≤ limit ∨ kept.length ≤ limit → Action.Fits limit kept) ∧
      ∀ v, v <+: w → (i.walk v m).stack.length ≤ i.maxDepth ∧
        (0 < (i.walk v m).dropped → (i.walk v m).stack.length = i.maxDepth) := by
  intro kept
  refine ⟨fun limit h ↦ ?_, ?_, fun v _ ↦ ?_⟩
  · have hrun := Walk.run_shallow (p := i.parameters) (m := m) (w.map i.action) h
    rw [← hrun]
    rfl
  · rintro limit (h | h)
    · exact (Action.fits_shallow _ _).mono h
    · exact Action.fits_of_length_le h
  · have hnested := Walk.nested_run i.parameters m i.maxDepth (v.map i.action)
    exact ⟨hnested.length_le, hnested.full⟩

theorem Interpreter.build_of_inner_bracket :
    let i : Interpreter Float32 := .standard default 1
    let w := ['F', '[', '+', '[', 'F', ']', 'F', ']', ']', '[', '[', 'F']
    let kept := ['F', '[', '+', 'F', 'F', ']', ']', '[', 'F'].map i.action
    Action.shallow i.maxDepth (w.map i.action) = kept ∧ Action.Fits 5 kept ∧
      i.build w default = (Walk.run i.parameters default 5 kept).tree ∧
      w <+: w ∧ (i.walk w default).dropped = 1 ∧ (i.walk w default).stack.length = 1 := by
  intro i w kept
  have hkept : Action.shallow i.maxDepth (w.map i.action) = kept := by decide +kernel
  have hfits : Action.Fits 5 kept := by decide +kernel
  have hdropped : (i.walk w default).dropped = 1 := by decide +kernel
  obtain ⟨hbuild, -, hstack⟩ := build_eq_run_shallow i w default
  rw [hkept] at hbuild
  have hfull := (hstack w (List.prefix_refl w)).2 (by rw [hdropped]; decide)
  exact ⟨hkept, hfits, hbuild 5 hfits, List.prefix_refl w, hdropped, hfull⟩

end BranchStream
