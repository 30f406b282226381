import BranchStream.Binary32.Instances
import BranchStream.Proofs.Scene.References
import BranchStream.Proofs.Turtle.Numbering

namespace BranchStream

variable {α : Type}

def Request.isSetView : Request α → Bool
  | .setView _ => true
  | _ => false

def Frame.lifecycle (f : Frame α) : List Nat × List Nat × Bool := (f.spawned, f.died, f.rebuilt)

theorem Tree.Grown.length_lines [Scalar α] {t : Tree (Turtle α)} (ht : t.Grown) :
    (t.lines?.getD []).length = t.size - 1 := by
  obtain ⟨lines, hlines, hall⟩ := ht.lines?_eq
  rw [hlines, Option.getD_some, ← hall.length_eq, List.length_tail, ht.subtree_root.length_eq,
    List.length_range]

namespace Scene

/-- The requests that ask for something else than another view. -/
def blind (rs : List (Request α)) : List (Request α) := rs.filter fun r ↦ !r.isSetView

theorem blind_concat (rs : List (Request α)) (r : Request α) :
    blind (rs ++ [r]) = if r.isSetView then blind rs else blind rs ++ [r] := by
  rw [blind, List.filter_append]
  cases h : r.isSetView with
  | true => simp [h, blind]
  | false => simp [h, blind]

theorem setView_view (s : Scene α) : s.setView s.settings.view = s := rfl

section

variable [Scalar α] (t : Tree (Turtle α)) (swarm : Swarm α)

theorem draw_tree : draw .tree t swarm = t.lines?.getD [] := List.append_nil _

theorem draw_particles : draw .particles t swarm = swarm.points t := rfl

theorem draw_both : draw .both t swarm = draw .tree t swarm ++ draw .particles t swarm := by
  rw [draw_tree, draw_particles]
  rfl

end

theorem setIterations_setView (s : Scene α) (v : View) (n : Int) :
    (s.setView v).setIterations n = (s.setIterations n).map (·.setView v) := by
  rw [setIterations, setIterations]
  by_cases h : 0 ≤ n ∧ n ≤ s.settings.maxIterations
  · rw [if_pos h]
    exact if_pos h
  · rw [if_neg h]
    exact if_neg h

theorem setModifiers_setView [Scalar α] (s : Scene α) (v : View) (m : Modifiers α) :
    (s.setView v).setModifiers m = (s.setModifiers m).map (·.setView v) := by
  rw [setModifiers, setModifiers]
  cases requireFinite [("angleModifier", m.angle), ("growthModifier", m.growth)] <;> rfl

theorem ofAttempt_setView (s : Scene α) (v : View) (attempt : Except (Fault α) (Scene α)) :
    (s.setView v).ofAttempt (attempt.map (·.setView v)) =
      ((s.ofAttempt attempt).1, (s.ofAttempt attempt).2.setView v) := by
  cases attempt <;> rfl

variable [Elementary α] {s : Scene α} {r : Request α} {dt : α}

theorem frame_setView (s : Scene α) (v : View) (dt : α) : (s.setView v).frame dt =
    ({ (s.frame dt).1 with shapes := draw v s.shown (s.emitted (validStep dt)).2 },
      (s.frame dt).2.setView v) := by
  rw [frame_eq, frame_eq]
  rfl

theorem answer_setView_of_timeStep (h : s.timeStep? r = some dt) :
    ∃ clock, ∀ v, (s.setView v).answer r =
      (.drawn { (s.frame dt).1 with shapes := draw v s.shown (s.emitted dt).2 },
        { (s.frame dt).2 with clock }.setView v) := by
  have hvalid : validStep dt = dt := validStep_of_timeStep h
  cases r with
  | frame dt' =>
    cases h
    refine ⟨(s.frame dt').2.clock, fun v ↦ ?_⟩
    rw [answer_frame, frame_setView, frame_validStep]
  | tick now =>
    cases h
    refine ⟨⟨some now⟩, fun v ↦ ?_⟩
    rw [answer, ofDrawn_eq, tick_eq, frame_setView, frame_validStep]
    rfl
  | _ => cases h

theorem answer_setView_of_quiet (h : s.timeStep? r = none) (hr : r.isSetView = false) (v : View) :
    (s.setView v).answer r = ((s.answer r).1, (s.answer r).2.setView v) := by
  cases r with
  | frame dt => cases h
  | tick now => cases h
  | setView u => cases hr
  | setIterations n => rw [answer, setIterations_setView, ofAttempt_setView, answer]
  | setModifiers m => rw [answer, setModifiers_setView, ofAttempt_setView, answer]
  | _ => rfl

theorem answer_setView (s : Scene α) (v : View) (hr : r.isSetView = false) :
    ((s.setView v).answer r).2 = (s.answer r).2.setView v ∧
      ((s.setView v).answer r).1.frame?.map Frame.lifecycle =
        (s.answer r).1.frame?.map Frame.lifecycle := by
  cases h : s.timeStep? r with
  | none =>
    rw [answer_setView_of_quiet h hr]
    exact ⟨rfl, rfl⟩
  | some dt =>
    obtain ⟨clock, hanswer⟩ := answer_setView_of_timeStep h
    have hsame := hanswer s.settings.view
    rw [setView_view] at hsame
    rw [hanswer, hsame]
    exact ⟨rfl, rfl⟩

/-- A run that changes the view is the run without these changes, but for the view and the shapes. -/
theorem after_setView (s : Scene α) (v : View) (rs : List (Request α)) :
    (∃ v', (s.setView v).after rs = (s.after (blind rs)).setView v') ∧
      ((s.setView v).frames rs).map Frame.lifecycle =
        (s.frames (blind rs)).map Frame.lifecycle := by
  induction rs using List.reverseRecOn with
  | nil => exact ⟨⟨v, rfl⟩, rfl⟩
  | append_singleton rs r ih =>
    obtain ⟨⟨v', hafter⟩, hframes⟩ := ih
    rw [after_concat, frames_concat, hafter, blind_concat, List.map_append, hframes]
    cases hr : r.isSetView with
    | true =>
      obtain ⟨u, rfl⟩ : ∃ u, r = .setView u := by
        cases r with
        | setView u => exact ⟨u, rfl⟩
        | _ => cases hr
      exact ⟨⟨u, rfl⟩, List.append_nil _⟩
    | false =>
      obtain ⟨hstate, hframe⟩ := answer_setView (s.after (blind rs)) v' hr
      rw [if_neg Bool.false_ne_true, after_concat, frames_concat, List.map_append, hstate,
        ← Option.toList_map, ← Option.toList_map, hframe]
      exact ⟨⟨v', rfl⟩, rfl⟩

/-- The view of a scene only observes it. Two runs that differ in the view they begin with and in
requests for another view report the same spawned and dead particles and rebuilt the same frames, and
are at the same state, but for the view. Of one frame, what is drawn under both views is what is
drawn of the tree, one line for each node but the root, and then what is drawn of the particles, one
point for each that is live. -/
theorem view_only_observes (d : Option (Definition α)) (settings : Settings α) (v₁ v₂ : View)
    (rs₁ rs₂ : List (Request α)) (h : blind rs₁ = blind rs₂) :
    let start₁ := ofDefinition d { settings with view := v₁ }
    let start₂ := ofDefinition d { settings with view := v₂ }
    (start₁.frames rs₁).map Frame.lifecycle = (start₂.frames rs₂).map Frame.lifecycle ∧
      (∀ v, (start₁.after rs₁).setView v = (start₂.after rs₂).setView v) ∧
      ∀ r, r.isFrame = true → ∃ (f : View → Frame α) (s' : Scene α) (t : Tree (Turtle α)),
        (∀ v, ((start₁.after rs₁).setView v).answer r = (.drawn (f v), s'.setView v) ∧
          (f v).lifecycle = (f .both).lifecycle) ∧
        s'.tree? = some t ∧
        (f .both).shapes = (f .tree).shapes ++ (f .particles).shapes ∧
        (f .tree).shapes.length = t.size - 1 ∧
        (∀ shape ∈ (f .tree).shapes, shape.isPoint = false) ∧
        (f .particles).shapes.length = s'.swarm.particles.length ∧
        ∀ shape ∈ (f .particles).shapes, shape.isPoint = true := by
  intro start₁ start₂
  obtain ⟨⟨u₁, hafter₁⟩, hframes₁⟩ := after_setView (ofDefinition d settings) v₁ rs₁
  obtain ⟨⟨u₂, hafter₂⟩, hframes₂⟩ := after_setView (ofDefinition d settings) v₂ rs₂
  refine ⟨?_, ?_, ?_⟩
  · exact hframes₁.trans (h ▸ hframes₂.symm)
  · intro v
    have hsame : (start₁.after rs₁).setView u₂ = start₂.after rs₂ := by
      rw [show start₁.after rs₁ = _ from hafter₁, show start₂.after rs₂ = _ from hafter₂, h]
      rfl
    rw [← hsame]
    rfl
  · intro r hr
    obtain ⟨dt, hdt⟩ := (start₁.after rs₁).exists_timeStep hr
    obtain ⟨clock, hanswer⟩ := answer_setView_of_timeStep hdt
    have hs : (start₁.after rs₁).Current := current_after d _ rs₁
    have hpoints := (hs.emitted dt).points.length_eq
    refine ⟨_, _, (start₁.after rs₁).shown, fun v ↦ ⟨hanswer v, rfl⟩, tree?_frame _ dt,
      draw_both _ _, ?_, ?_, ?_, ?_⟩
    · rw [draw_tree, hs.shown.1.length_lines]
    · intro shape hshape
      rw [draw_tree] at hshape
      exact Tree.isPoint_of_mem_lines hshape
    · rw [draw_particles, frame_eq, validStep_of_timeStep hdt, hpoints]
    · intro shape hshape
      exact Swarm.isPoint_of_mem_points hshape

theorem view_only_observes_of_switch :
    let settings (v : View) : Settings Float32 := { (default : Settings Float32) with view := v }
    let d : Option (Definition Float32) := some ⟨"F[F]F", ∅, 0, default⟩
    let rs₁ : List (Request Float32) := [.spawn, .setView .both, .frame 0, .frame 2]
    let rs₂ : List (Request Float32) := [.setView .tree, .spawn, .frame 0, .setView .both, .frame 2]
    let s := (ofDefinition d (settings .tree)).after rs₁
    blind rs₁ = blind rs₂ ∧
      ((ofDefinition d (settings .tree)).frames rs₁).map Frame.lifecycle =
        ((ofDefinition d (settings .particles)).frames rs₂).map Frame.lifecycle ∧
      (s.setView .particles =
        ((ofDefinition d (settings .particles)).after rs₂).setView .particles) ∧
      (((s.setView .both).frame 2).1.shapes =
        ((s.setView .tree).frame 2).1.shapes ++ ((s.setView .particles).frame 2).1.shapes) := by
  intro settings d rs₁ rs₂ s
  have hblind : blind rs₁ = blind rs₂ := rfl
  obtain ⟨hframes, hstates, hdrawn⟩ :=
    view_only_observes d default .tree .particles rs₁ rs₂ hblind
  obtain ⟨f, s', t, hanswer, -, hshapes, -⟩ := hdrawn (.frame 2) rfl
  have hframe (v : View) : ((s.setView v).frame 2).1 = f v :=
    ((s.setView v).frame_eq_of_answer (hanswer v).1).1
  refine ⟨hblind, hframes, hstates .particles, ?_⟩
  rw [hframe, hframe, hframe]
  exact hshapes

end Scene

end BranchStream
