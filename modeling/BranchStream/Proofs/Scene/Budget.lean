import BranchStream.Binary32.Instances
import BranchStream.Proofs.Rewriting.Size
import BranchStream.Proofs.Scene.Limits
import BranchStream.Proofs.Turtle.Step

namespace BranchStream

variable {α : Type} [Elementary α]

theorem Walk.size_step_le (p : Parameters α) (m : Modifiers α) (maxDepth : Nat) (w : Walk α)
    (a : Action α) : (w.step p m maxDepth a).tree.size ≤ w.tree.size + 1 := by
  have he := effect_step p m maxDepth w a
  generalize w.step p m maxDepth a = w' at he
  cases he with
  | forward | opened => exact (size_grow w _).le
  | counted | uncounted | unmatched | closed | turned => exact Nat.le_succ _

theorem Interpreter.size_build_le (i : Interpreter α) (w : Word) (m : Modifiers α) :
    (i.build w m).size ≤ 1 + w.length := by
  induction w using List.reverseRecOn with
  | nil => exact Nat.le_refl 1
  | append_singleton w c ih =>
    have hstep := Walk.size_step_le i.parameters m i.maxDepth (i.walk w m) (i.action c)
    rw [List.length_append, List.length_singleton, build, walk, List.map_append, List.map_singleton,
      Walk.run_concat]
    exact hstep.trans (Nat.succ_le_succ ih)

namespace Scene

/-- What the scene remembers is right: the expansion is that of `g`, the tree that of its word. -/
structure Reliable (g : Grammar) (s : Scene α) : Prop where
  expander : s.expander.Faithful g
  interpreter : s.interpreter.Faithful

theorem reliable_ofDefinition (d : Option (Definition α)) (settings : Settings α) :
    (ofDefinition d settings).Reliable (Definition.loadOrDefault d).grammar where
  expander := Expander.faithful_ofGrammar _
  interpreter := Interpreter.faithful_of_last_eq_none (Interpreter.last_standard _ _)

variable {s : Scene α} {g : Grammar}

theorem Reliable.answer (h : s.Reliable g) (r : Request α) : (s.answer r).2.Reliable g := by
  cases hr : s.timeStep? r with
  | some dt =>
    obtain ⟨clock, hanswer⟩ := answer_of_timeStep hr
    rw [hanswer, frame_eq]
    exact ⟨(h.expander.expand s.iterations).2, h.interpreter.perform (.interpret s.word s.modifiers)⟩
  | none =>
    rcases (answer_of_quiet hr).2 with ⟨c, a, -, hs⟩ | ⟨-, _, _, _, _, hs, -⟩
    · rw [hs]
      exact ⟨h.expander, h.interpreter.perform (.setAction c a)⟩
    · rw [hs]
      exact ⟨h.expander, h.interpreter⟩

theorem reliable_handleAll (d : Option (Definition α)) (settings : Settings α)
    (es : List (Event α)) :
    ((ofDefinition d settings).handleAll es).Reliable (Definition.loadOrDefault d).grammar := by
  refine handleAll_induction (reliable_ofDefinition d settings) (fun s e h ↦ ?_) es
  cases e with
  | request r => exact h.answer r
  | call c => exact ⟨h.expander, h.interpreter.perform c⟩

theorem Reliable.size_shown_le (h : s.Reliable g) :
    s.shown.size ≤ 1 + g.start.length * max 1 g.longest ^ s.iterations := by
  obtain ⟨b, hb, htree, hword, -⟩ := h.interpreter.interpret s.word s.modifiers
  have hexpand : s.word = g.expand s.iterations := (h.expander.expand s.iterations).1
  rw [shown, hb, htree, hword, hexpand]
  exact (s.interpreter.size_build_le _ _).trans (Nat.add_le_add_left (g.length_expand_le _) 1)

/-- Sizes are bounded from the grammar to the tree. An expansion is no longer than the start times
the length of the longest production to the number of passes, and a word is read as a tree with at
most one node for each symbol besides the root. So no tree that a frame shows, whatever the scene
has been asked for and whatever its interpreter was called for, is larger than the limit on the
passes allows. -/
theorem tree_within_budget :
    (∀ (g : Grammar) (n : Nat), (g.expand n).length ≤ g.start.length * max 1 g.longest ^ n ∧
      ∀ (i : Interpreter α) (m : Modifiers α),
        (i.build (g.expand n) m).size ≤ 1 + g.start.length * max 1 g.longest ^ n) ∧
    ∀ (d : Option (Definition α)) (settings : Settings α) (es : List (Event α)) (r : Request α),
      let g := (Definition.loadOrDefault d).grammar
      let s := (ofDefinition d settings).handleAll es
      ∀ dt ∈ s.timeStep? r, ∃ f s' t, s.answer r = (.drawn f, s') ∧ s'.tree? = some t ∧
        t.size ≤ 1 + g.start.length * max 1 g.longest ^ settings.maxIterations := by
  refine ⟨fun g n ↦ ⟨g.length_expand_le n, fun i m ↦ ?_⟩, ?_⟩
  · exact (i.size_build_le _ m).trans (Nat.add_le_add_left (g.length_expand_le n) 1)
  · intro d settings es r g s dt hdt
    obtain ⟨clock, hanswer⟩ := answer_of_timeStep hdt
    have hreliable : s.Reliable g := reliable_handleAll d settings es
    have hlimited : s.Limited settings.maxIterations := limited_handleAll d settings es
    refine ⟨_, _, s.shown, hanswer, tree?_frame s dt, hreliable.size_shown_le.trans ?_⟩
    have hpow := Nat.pow_le_pow_right (Nat.le_max_left 1 g.longest) hlimited.iterations_le
    exact Nat.add_le_add_left (Nat.mul_le_mul_left _ hpow) 1

/-- Every symbol has the longest production and every terminal adds a node: the bound is reached. -/
theorem tree_within_budget_of_doubling :
    let d : Definition Float32 := ⟨"AA", .ofList [("A", "FF")], 7, default⟩
    let settings : Settings Float32 := { (default : Settings Float32) with maxIterations := 1 }
    let s := (ofDefinition (some d) settings).handleAll [.request (.setIterations 2)]
    0 ∈ s.timeStep? (.frame 0) ∧
      (s.frame 0).2.tree?.map Tree.size = some 5 ∧ 5 ≤ 1 + 2 * max 1 2 ^ 1 := by
  intro d settings s
  have hstep : 0 ∈ s.timeStep? (.frame 0) := by decide +kernel
  have hsize : (s.frame 0).2.tree?.map Tree.size = some 5 := by decide +kernel
  have hstart : (Definition.loadOrDefault (some d)).grammar.start.length = 2 := by decide +kernel
  have hlongest : (Definition.loadOrDefault (some d)).grammar.longest = 2 := by decide +kernel
  obtain ⟨f, s', t, hanswer, htree, hle⟩ :=
    tree_within_budget.2 (some d) settings [.request (.setIterations 2)] (.frame 0) 0 hstep
  obtain ⟨rfl, rfl⟩ := s.frame_eq_of_answer hanswer
  refine ⟨hstep, hsize, ?_⟩
  rw [htree, Option.map_some, Option.some.injEq] at hsize
  rwa [hsize, hstart, hlongest] at hle

end Scene

end BranchStream
