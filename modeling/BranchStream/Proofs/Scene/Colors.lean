import BranchStream.Proofs.Drawing
import BranchStream.Proofs.Scene.Rebuild
import BranchStream.Proofs.Scene.References
import BranchStream.Proofs.Turtle.Numbering
import BranchStream.Proofs.Turtle.Snapshot

namespace BranchStream.Scene

section

variable {α : Type} [Scalar α]

/-- The nodes that a frame draws in the colour of, in the order of its shapes: those that lines lead
to, depth first, and those that particles travel to. -/
def drawnNodes (view : View) (t : Tree (Turtle α)) (swarm : Swarm α) : List Nat :=
  (if view.showsTree then (t.subtree Tree.rootId).tail else []) ++
    if view.showsParticles then swarm.particles.map Particle.node else []

theorem color_draw {t : Tree (Turtle α)} {swarm : Swarm α} (ht : t.Grown) (hs : swarm.Within t)
    (view : View) : List.Forall₂
      (fun id shape ↦ ∃ n, t.get? id = some n ∧ Shape.color shape = n.state.color)
      (drawnNodes view t swarm) (draw view t swarm) := by
  refine List.rel_append ?_ ?_
  · obtain ⟨lines, hlines, hall⟩ := ht.lines?_eq
    rw [hlines, Option.getD_some]
    split
    · refine hall.imp fun id shape h ↦ ?_
      obtain ⟨n, -, -, hn, -, -, rfl⟩ := h
      exact ⟨n, hn, rfl⟩
    · exact .nil
  · split
    · rw [List.forall₂_map_left_iff]
      refine hs.points.imp fun p shape h ↦ ?_
      obtain ⟨n, hn, rfl⟩ := h
      exact ⟨n, hn, rfl⟩
    · exact .nil

end

/-- When the colours of a frame are displayable. In every frame of every run each shape has the
colour of its node, and this keeps the turtle as it was after some of the word that the tree was
built from. The colour is displayable if the hue of that turtle is finite and its saturation and
brightness are numbers, and only then. -/
theorem colors_displayable_iff (d : Option (Definition Float32)) (settings : Settings Float32)
    (rs : List (Request Float32)) (r : Request Float32) :
    let g := (Definition.loadOrDefault d).grammar
    let s := (ofDefinition d settings).after rs
    ∀ dt ∈ s.timeStep? r, ∃ f s' t m, s.answer r = (.drawn f, s') ∧ s'.tree? = some t ∧
      (m == s'.modifiers) = true ∧ t = s'.interpreter.build (g.expand s'.iterations) m ∧
      List.Forall₂
        (fun id shape ↦ ∃ before, before <+: g.expand s'.iterations ∧
          let turtle := (s'.interpreter.walk before m).turtle
          (t.get? id).map Tree.Node.state = some turtle ∧ shape.color = turtle.color ∧
            (shape.color.Displayable ↔ turtle.hue.isFinite = true ∧
              turtle.saturation.isNaN = false ∧ turtle.brightness.isNaN = false))
        (drawnNodes s'.settings.view t s'.swarm) f.shapes := by
  intro g s dt hdt
  have hs : s.Current := current_after d settings rs
  obtain ⟨clock, hanswer⟩ := answer_of_timeStep hdt
  obtain ⟨m, hm, htree⟩ := (synced_after d settings rs).tree?_frame dt
  have hshown := (tree?_frame s dt).symm.trans htree
  refine ⟨_, _, s.shown, m, hanswer, tree?_frame s dt, hm, Option.some.inj hshown, ?_⟩
  have hcolors := color_draw hs.shown.1 (hs.emitted (validStep dt)) s.settings.view
  rw [frame_eq]
  refine hcolors.imp fun id shape h ↦ ?_
  obtain ⟨n, hn, hcolor⟩ := h
  have hbuilt := hn
  rw [Option.some.inj hshown] at hbuilt
  obtain ⟨before, hbefore, hstate⟩ := Interpreter.exists_prefix_state hbuilt
  rw [hstate] at hcolor
  refine ⟨before, hbefore, ?_, hcolor, ?_⟩
  · rw [hn, Option.map_some, hstate]
    rfl
  · rw [hcolor]
    exact Hsb.displayable_normalized_iff

theorem colors_displayable_iff_of_turn :
    let d : Definition Float32 := ⟨"+F[-F]", ∅, 0, ⟨0, 0, 90, 0⟩⟩
    let settings : Settings Float32 := { (default : Settings Float32) with view := .both }
    let s := (ofDefinition (some d) settings).after [.spawn]
    0 ∈ s.timeStep? (.frame 0) ∧ ∃ t, (s.frame 0).2.tree? = some t ∧
      List.Forall₂
        (fun id shape ↦ ∃ turtle : Turtle Float32, (t.get? id).map Tree.Node.state = some turtle ∧
          shape.color = turtle.color ∧ (shape.color.Displayable ↔ turtle.hue.isFinite = true ∧
            turtle.saturation.isNaN = false ∧ turtle.brightness.isNaN = false))
        [1, 2, 3, 0] (s.frame 0).1.shapes := by
  intro d settings s
  have hstep : 0 ∈ s.timeStep? (.frame 0) := by decide +kernel
  obtain ⟨f, s', t, m, hanswer, htree, -, -, hall⟩ :=
    colors_displayable_iff (some d) settings [.spawn] (.frame 0) 0 hstep
  obtain ⟨rfl, rfl⟩ := s.frame_eq_of_answer hanswer
  have hnodes : (s.frame 0).2.tree?.map (fun t ↦
      drawnNodes (s.frame 0).2.settings.view t (s.frame 0).2.swarm) = some [1, 2, 3, 0] := by
    decide +kernel
  rw [htree, Option.map_some] at hnodes
  rw [Option.some.inj hnodes] at hall
  refine ⟨hstep, t, htree, hall.imp fun id shape h ↦ ?_⟩
  obtain ⟨before, -, hturtle⟩ := h
  exact ⟨_, hturtle⟩

/-- Two turns by the greatest finite angle make the hue infinite, and the line that is drawn then has
no number for a hue. -/
theorem not_displayable_of_hue_overflow :
    let d : Definition Float32 := ⟨"++[", ∅, 0, ⟨0, 0, Float32.ofBits 0x7f7fffff, 0⟩⟩
    let s := ofDefinition (some d) { (default : Settings Float32) with view := .tree }
    d.load.isOk = true ∧ s.answer (.frame 0) = (.drawn (s.frame 0).1, (s.frame 0).2) ∧
      (s.frame 0).1.shapes.map (fun shape ↦ shape.color.hue.isNaN) = [true] ∧
      ∀ shape ∈ (s.frame 0).1.shapes, ¬ shape.color.Displayable := by
  intro d s
  exact ⟨by decide +kernel, s.answer_frame 0, by decide +kernel, by decide +kernel⟩

end BranchStream.Scene
