import BranchStream.Binary32.Instances
import BranchStream.Proofs.Scene.Run
import BranchStream.Proofs.Stream.Advance
import BranchStream.Proofs.Turtle.Growth
import BranchStream.Proofs.Turtle.Memory

namespace BranchStream

variable {α : Type}

def Shape.isPoint : Shape α → Bool
  | .point .. => true
  | .line .. => false

theorem exists_flatten_of_map_eq_flatMap {β γ δ : Type} {f : β → γ} {g : δ → List γ}
    {bs : List β} {ds : List δ} (h : bs.map f = ds.flatMap g) :
    ∃ parts : List (List β), bs = parts.flatten ∧
      List.Forall₂ (fun d part ↦ part.map f = g d) ds parts := by
  induction ds generalizing bs with
  | nil => exact ⟨[], by simpa using h, .nil⟩
  | cons d ds ih =>
    rw [List.flatMap_cons] at h
    obtain ⟨part, rest, rfl, hpart, hrest⟩ := List.map_eq_append_iff.mp h
    obtain ⟨parts, rfl, hparts⟩ := ih hrest
    exact ⟨part :: parts, rfl, .cons hpart hparts⟩

theorem Tree.isPoint_of_mem_lines [Scalar α] {t : Tree (Turtle α)} {shape : Shape α}
    (h : shape ∈ t.lines?.getD []) : shape.isPoint = false := by
  cases he : t.edges? with
  | none => simp [lines?, he] at h
  | some edges =>
    simp only [lines?, he, Option.bind_eq_bind, Option.bind_some, Option.pure_def,
      Option.getD_some, List.mem_filterMap] at h
    obtain ⟨e, -, he⟩ := h
    simp only [Option.bind_eq_some_iff, Option.some.injEq] at he
    obtain ⟨a, -, b, -, rfl⟩ := he
    rfl

namespace Swarm

variable [Scalar α] {s : Swarm α} {t : Tree (Turtle α)}

theorem isPoint_of_mem_points {shape : Shape α} (h : shape ∈ s.points t) :
    shape.isPoint = true := by
  obtain ⟨p, -, hp⟩ := List.mem_filterMap.mp h
  obtain ⟨n, -, rfl⟩ := Option.map_eq_some_iff.mp hp
  rfl

theorem Within.points (h : s.Within t) : List.Forall₂
    (fun p shape ↦ ∃ n, t.get? p.node = some n ∧ shape = .point p.position n.state.color)
    s.particles (s.points t) := by
  rw [Within] at h
  rw [Swarm.points]
  generalize s.particles = particles at h ⊢
  induction particles with
  | nil => exact .nil
  | cons p ps ih =>
    obtain ⟨n, hn⟩ := Tree.exists_get? (h p List.mem_cons_self)
    rw [List.filterMap_cons, hn, Option.map_some]
    exact .cons ⟨n, hn, rfl⟩ (ih fun q hq ↦ h q (List.mem_cons_of_mem p hq))

end Swarm

namespace Scene

/-- The remembered tree, if there is one, holds the nodes that the particles travel to. -/
def Current (s : Scene α) : Prop :=
  ∀ b, s.interpreter.last = some b → b.tree.Grown ∧ s.swarm.Within b.tree

variable {s : Scene α}

theorem current_of_last_eq_none (h : s.interpreter.last = none) : s.Current := by
  intro b hb
  rw [h] at hb
  cases hb

variable [Elementary α]

theorem current_ofDefinition (d : Option (Definition α)) (settings : Settings α) :
    (ofDefinition d settings).Current :=
  current_of_last_eq_none (Interpreter.last_standard _ _)

theorem Current.shown (hs : s.Current) : s.shown.Grown ∧ s.kept.Within s.shown := by
  rw [Scene.shown, kept, rebuilds]
  cases h : s.interpreter.remembers s.word s.modifiers with
  | false =>
    rw [Interpreter.interpret_of_forgotten h]
    exact ⟨s.interpreter.grown_build _ _, fun p hp ↦ absurd hp List.not_mem_nil⟩
  | true =>
    obtain ⟨b, hb, -, -, hi⟩ := Interpreter.interpret_of_remembers h
    rw [hi]
    exact hs b hb

theorem Current.emitted (hs : s.Current) (dt : α) : (s.emitted dt).2.Within s.shown := by
  obtain ⟨ht, hkept⟩ := hs.shown
  exact (hkept.advance ht).spawnAtRoot ht _

theorem Current.frame (hs : s.Current) (dt : α) : (s.frame dt).2.Current := by
  intro b hb
  have htree := s.tree?_frame dt
  rw [tree?, Interpreter.lastTree, hb, Option.map_some, Option.some.injEq] at htree
  rw [htree, frame_eq]
  exact ⟨hs.shown.1, hs.emitted _⟩

theorem Current.answer (hs : s.Current) (r : Request α) : (s.answer r).2.Current := by
  cases h : s.timeStep? r with
  | none =>
    rcases (answer_of_quiet h).2 with ⟨c, a, -, hanswer⟩ | ⟨-, _, _, _, _, hanswer, -⟩
    · rw [hanswer]
      exact current_of_last_eq_none (s.interpreter.last_setAction c a)
    · rw [hanswer]
      exact hs
  | some dt =>
    obtain ⟨clock, hanswer⟩ := answer_of_timeStep h
    rw [hanswer]
    exact hs.frame dt

theorem current_after (d : Option (Definition α)) (settings : Settings α)
    (rs : List (Request α)) : ((ofDefinition d settings).after rs).Current :=
  after_induction (current_ofDefinition d settings) (fun _ r hs ↦ hs.answer r) rs

theorem filter_isPoint_draw {view : View} (h : view.showsParticles = true)
    (t : Tree (Turtle α)) (swarm : Swarm α) :
    (draw view t swarm).filter Shape.isPoint = swarm.points t := by
  have hlines :
      (if view.showsTree = true then t.lines?.getD [] else []).filter Shape.isPoint = [] := by
    rw [List.filter_eq_nil_iff]
    intro shape hshape
    split at hshape
    · simp [Tree.isPoint_of_mem_lines hshape]
    · cases hshape
  rw [draw, List.filter_append, hlines, List.nil_append, if_pos h, List.filter_eq_self]
  intro shape hshape
  exact Swarm.isPoint_of_mem_points hshape

theorem exists_forks (hs : s.Current) (dt : α) :
    ∃ (forks : List (List (Particle α))) (rooted : List (Particle α)),
      (s.emitted dt).2.particles =
        s.kept.survivors s.shown dt ++ forks.flatten ++ rooted ∧
      (s.advanced dt).1.spawned ++ (s.emitted dt).1 =
        (forks.flatten ++ rooted).map Particle.id ∧
      List.Forall₂ (fun p forked ↦
          forked.map Particle.node = (s.shown.children p.node).tail)
        (s.kept.completing dt) forks := by
  have ht := hs.shown.1
  obtain ⟨rooted, hparticles, hids, -⟩ := (s.advanced dt).2.exists_rooted s.shown
    (s.arrivals dt)
  have hnodes : (s.kept.forked s.shown dt).map Particle.node =
      (s.kept.completing dt).flatMap fun p ↦ (s.shown.children p.node).tail :=
    (Swarm.map_node_forked ht).trans (Swarm.forks_eq ht)
  obtain ⟨forks, hforked, hforks⟩ := exists_flatten_of_map_eq_flatMap hnodes
  refine ⟨forks, rooted, ?_, ?_, hforks⟩
  · rw [emitted, hparticles, advanced, Swarm.advance_eq, ← hforked]
  · rw [emitted, hids, advanced, Swarm.advance_eq, hforked, List.map_append]

/-- Particles never hold a stale place. After every frame of every run there is a tree, each live
particle travels to a node of it, each particle that completed an edge at a node with children has
been forked onto all of them but the first, and if particles are shown, each is drawn by one point,
in their order and in the colour of its own node. -/
theorem references_stay_valid (d : Option (Definition α)) (settings : Settings α)
    (rs : List (Request α)) (r : Request α) :
    let s := (ofDefinition d settings).after rs
    ∀ dt ∈ s.timeStep? r, ∃ f s' t, s.answer r = (.drawn f, s') ∧ s'.tree? = some t ∧
      (∀ p ∈ s'.swarm.particles, p.node < t.size) ∧
      (∃ (forks : List (List (Particle α))) (rooted : List (Particle α)),
        s'.swarm.particles = s.kept.survivors t dt ++ forks.flatten ++ rooted ∧
        f.spawned = (forks.flatten ++ rooted).map Particle.id ∧
        List.Forall₂ (fun p forked ↦ forked.length = (t.children p.node).length - 1 ∧
            forked.map Particle.node = (t.children p.node).tail)
          (s.kept.completing dt) forks) ∧
      (s'.settings.view.showsParticles = true → List.Forall₂
        (fun p shape ↦ ∃ n, t.get? p.node = some n ∧ shape = .point p.position n.state.color)
        s'.swarm.particles (f.shapes.filter Shape.isPoint)) := by
  intro s dt hdt
  have hs : s.Current := current_after d settings rs
  obtain ⟨clock, hanswer⟩ := answer_of_timeStep hdt
  have hvalid : validStep dt = dt := validStep_of_timeStep hdt
  refine ⟨_, _, s.shown, hanswer, tree?_frame _ dt, ?_⟩
  rw [frame_eq, hvalid]
  refine ⟨hs.emitted dt, ?_, ?_⟩
  · obtain ⟨forks, rooted, hparticles, hspawned, hforks⟩ := exists_forks hs dt
    refine ⟨forks, rooted, hparticles, hspawned, hforks.imp fun p forked h ↦ ⟨?_, h⟩⟩
    rw [← List.length_map (f := Particle.node), h, List.length_tail]
  · intro hview
    rw [filter_isPoint_draw hview]
    exact (hs.emitted dt).points

theorem references_stay_valid_of_fork :
    let settings : Settings Float32 :=
      { (default : Settings Float32) with view := .both, emitInterval := none }
    let s := (ofDefinition (some ⟨"F[F]F", ∅, 0, default⟩) settings).after
      [.spawn, .frame 0, .setIterations 3, .frame 2]
    2 ∈ s.timeStep? (.frame 2) ∧ (s.frame 2).1.spawned = [1] ∧
      (s.frame 2).2.settings.view.showsParticles = true ∧
      ∃ t, (s.frame 2).2.tree? = some t ∧ (∀ p ∈ (s.frame 2).2.swarm.particles, p.node < t.size) ∧
        List.Forall₂
          (fun p shape ↦ ∃ n, t.get? p.node = some n ∧ shape = .point p.position n.state.color)
          (s.frame 2).2.swarm.particles ((s.frame 2).1.shapes.filter Shape.isPoint) := by
  intro settings s
  have hstep : 2 ∈ s.timeStep? (.frame 2) := by decide +kernel
  have hview : (s.frame 2).2.settings.view.showsParticles = true := by decide +kernel
  obtain ⟨f, s', t, hanswer, htree, hnodes, -, hpoints⟩ :=
    references_stay_valid _ settings _ (.frame 2) 2 hstep
  have hframe : s.answer (.frame 2) = (.drawn (s.frame 2).1, (s.frame 2).2) := by
    rw [answer, ofDrawn_eq]
  rw [hframe, Prod.mk.injEq, Reply.drawn.injEq] at hanswer
  obtain ⟨rfl, rfl⟩ := hanswer
  exact ⟨hstep, by decide +kernel, hview, t, htree, hnodes, hpoints hview⟩

end Scene

end BranchStream
