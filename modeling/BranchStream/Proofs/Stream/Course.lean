import BranchStream.Binary32.Instances
import BranchStream.Proofs.Stream.Advance
import Mathlib.Data.List.Forall2

namespace BranchStream

variable {σ τ α : Type}

namespace Tree

def links (t : Tree σ) : Array (Option Nat × List Nat) := t.nodes.map fun n ↦ (n.parent, n.children)

variable {t : Tree σ} {t' : Tree τ}

theorem map_children_eq (h : t.links = t'.links) (id : Nat) :
    (t.get? id).map Node.children = (t'.get? id).map Node.children := by
  have hid : t.links[id]? = t'.links[id]? := by rw [h]
  simp only [links, Array.getElem?_map] at hid
  have hchildren := congrArg (Option.map Prod.snd) hid
  rw [Option.map_map, Option.map_map] at hchildren
  exact hchildren

theorem children_eq (h : t.links = t'.links) (id : Nat) : t.children id = t'.children id := by
  have hid := map_children_eq h id
  cases hn : t.get? id <;> cases hn' : t'.get? id <;> simp_all [children]

theorem isSome_get?_eq (h : t.links = t'.links) (id : Nat) :
    (t.get? id).isSome = (t'.get? id).isSome := by
  have hid := congrArg Option.isSome (map_children_eq h id)
  rwa [Option.isSome_map, Option.isSome_map] at hid

theorem map_fst_existing_eq (t : Tree σ) (ids : List Nat) :
    (t.existing ids).map Prod.fst = ids.filter fun id ↦ (t.get? id).isSome := by
  induction ids with
  | nil => rfl
  | cons id ids ih =>
    rw [existing] at ih ⊢
    cases h : t.get? id <;> simp [h, ih]

end Tree

theorem flatMap_eq_of_forall₂ {β γ δ : Type} {R : β → γ → Prop} {f : β → List δ} {g : γ → List δ}
    {bs : List β} {cs : List γ} (h : List.Forall₂ R bs cs) (hfg : ∀ b c, R b c → f b = g c) :
    bs.flatMap f = cs.flatMap g := by
  induction h with
  | nil => rfl
  | cons hbc _ ih => rw [List.flatMap_cons, List.flatMap_cons, hfg _ _ hbc, ih]

namespace Particle

def course (p : Particle α) : Nat × Nat × α := (p.id, p.node, p.life)

variable [Scalar α] {t t' : Tree (Turtle α)} {c c' : Physics α} {p q : Particle α}

theorem course_move (c : Physics α) (dt : α) (p : Particle α) :
    (p.move c dt).course = (p.id, p.node, p.life + dt) := by
  dsimp only [move]
  split <;> rfl

theorem course_cross (ht : t.links = t'.links) (h : p.course = q.course) :
    (p.cross t c).2 = (q.cross t' c').2 ∧
      (p.cross t c).1.map course = (q.cross t' c').1.map course := by
  have hid : p.id = q.id := congrArg Prod.fst h
  have hnode : p.node = q.node := congrArg (·.2.1) h
  rw [cross, cross, hnode, Tree.children_eq ht]
  split
  · exact ⟨rfl, rfl⟩
  · rename_i first others _
    have hsome := Tree.isSome_get?_eq ht first
    cases hn : t.get? first <;> cases hn' : t'.get? first <;> rw [hn, hn'] at hsome
    · exact ⟨rfl, rfl⟩
    · cases hsome
    · cases hsome
    · exact ⟨rfl, by simp [course, entering, hid]⟩

theorem course_step (ht : t.links = t'.links) (hc : c.lifetime = c'.lifetime) (dt : α)
    (h : p.course = q.course) :
    (p.step t c dt).2 = (q.step t' c' dt).2 ∧
      (p.step t c dt).1.map course = (q.step t' c' dt).1.map course := by
  have hmove : (p.move c dt).course = (q.move c' dt).course := by
    simp only [course, Prod.mk.injEq] at h
    rw [course_move, course_move, h.1, h.2.1, h.2.2]
  have hlife : (p.move c dt).life = (q.move c' dt).life := congrArg (·.2.2) hmove
  simp only [step, hlife, hc]
  split
  · exact ⟨rfl, congrArg some hmove⟩
  · exact course_cross ht hmove

end Particle

namespace Swarm

open Particle (course)

/-- The particles of two swarms are on the same courses, and so will be those that enter. -/
structure Alike (s s' : Swarm α) : Prop where
  courses : s.particles.map course = s'.particles.map course
  lifetime : s.physics.lifetime = s'.physics.lifetime
  nextId : s.nextId = s'.nextId

variable {s s' : Swarm α}

theorem Alike.forall₂ (h : s.Alike s') :
    List.Forall₂ (fun p q ↦ course p = course q) s.particles s'.particles := by
  have hcourses := h.courses
  rwa [← List.forall₂_eq_eq_eq, List.forall₂_map_left_iff, List.forall₂_map_right_iff] at hcourses

theorem Alike.clear (h : s.Alike s') : s.clear.1 = s'.clear.1 ∧ s.clear.2.Alike s'.clear.2 := by
  have hids := congrArg (List.map Prod.fst) h.courses
  rw [List.map_map, List.map_map] at hids
  exact ⟨hids, rfl, h.lifetime, h.nextId⟩

variable [Scalar α] {t t' : Tree (Turtle α)}

theorem map_course_entrants (s : Swarm α) (nodes : List (Nat × Tree.Node (Turtle α))) :
    (s.entrants nodes).map course =
      (nodes.map Prod.fst).zipIdx.map fun (node, k) ↦ (s.nextId + k, node, 0) := by
  simp [entrants, course, Particle.entering, List.zipIdx_map]

theorem Alike.enter (h : s.Alike s') {nodes nodes' : List (Nat × Tree.Node (Turtle α))}
    (hnodes : nodes.map Prod.fst = nodes'.map Prod.fst) :
    (s.enter nodes).1 = (s'.enter nodes').1 ∧ (s.enter nodes).2.Alike (s'.enter nodes').2 := by
  have hlength : nodes.length = nodes'.length := by
    rw [← List.length_map (f := Prod.fst), hnodes, List.length_map]
  refine ⟨?_, ?_, h.lifetime, ?_⟩
  · rw [fst_enter, fst_enter, h.nextId, hlength]
  · rw [enter_eq, enter_eq, List.map_append, List.map_append, map_course_entrants,
      map_course_entrants, h.courses, h.nextId, hnodes]
  · rw [enter_eq, enter_eq, h.nextId, hlength]

theorem Alike.spawnAtRoot (h : s.Alike s') (ht : t.links = t'.links) (count : Nat) :
    (s.spawnAtRoot t count).1 = (s'.spawnAtRoot t' count).1 ∧
      (s.spawnAtRoot t count).2.Alike (s'.spawnAtRoot t' count).2 := by
  have hsome : t.root?.isSome = t'.root?.isSome := Tree.isSome_get?_eq ht Tree.rootId
  rw [Swarm.spawnAtRoot, Swarm.spawnAtRoot]
  cases hn : t.root? <;> cases hn' : t'.root? <;> rw [hn, hn'] at hsome
  · exact ⟨rfl, h⟩
  · cases hsome
  · cases hsome
  · exact h.enter (by rw [List.map_replicate, List.map_replicate])

theorem dying_eq (s : Swarm α) (t : Tree (Turtle α)) (dt : α) : s.dying t dt =
    s.particles.flatMap fun p ↦ if (p.step t s.physics dt).1.isNone then [p.id] else [] := by
  rw [dying]
  induction s.particles with
  | nil => rfl
  | cons p ps ih => by_cases h : (p.step t s.physics dt).1.isNone <;> simp_all

theorem map_course_survivors (s : Swarm α) (t : Tree (Turtle α)) (dt : α) :
    (s.survivors t dt).map course =
      s.particles.flatMap fun p ↦ ((p.step t s.physics dt).1.map course).toList := by
  rw [survivors, List.map_filterMap, List.filterMap_eq_flatMap_toList]

theorem advance_eq_enter (s : Swarm α) (t : Tree (Turtle α)) (dt : α) : s.advance t dt =
    let entered := { s with particles := s.survivors t dt }.enter (t.existing (s.forks t dt))
    (⟨entered.1, s.dying t dt⟩, entered.2) := by
  rw [advance_eq, enter_eq, forked, length_entrants]
  rfl

theorem Alike.advance (h : s.Alike s') (ht : t.links = t'.links) (dt : α) :
    (s.advance t dt).1 = (s'.advance t' dt).1 ∧ (s.advance t dt).2.Alike (s'.advance t' dt).2 := by
  have hstep (p q : Particle α) (hpq : course p = course q) :=
    Particle.course_step ht h.lifetime dt hpq
  have hforks : s.forks t dt = s'.forks t' dt :=
    flatMap_eq_of_forall₂ h.forall₂ fun p q hpq ↦ (hstep p q hpq).1
  have hsurvivors : (s.survivors t dt).map course = (s'.survivors t' dt).map course := by
    rw [map_course_survivors, map_course_survivors]
    exact flatMap_eq_of_forall₂ h.forall₂ fun p q hpq ↦ by rw [(hstep p q hpq).2]
  have hdying : s.dying t dt = s'.dying t' dt := by
    rw [dying_eq, dying_eq]
    refine flatMap_eq_of_forall₂ h.forall₂ fun p q hpq ↦ ?_
    have hnone := congrArg Option.isNone (hstep p q hpq).2
    rw [Option.isNone_map, Option.isNone_map] at hnone
    have hid : p.id = q.id := congrArg Prod.fst hpq
    rw [hnone, hid]
  have hentering : (t.existing (s.forks t dt)).map Prod.fst =
      (t'.existing (s'.forks t' dt)).map Prod.fst := by
    rw [Tree.map_fst_existing_eq, Tree.map_fst_existing_eq, hforks]
    simp only [Tree.isSome_get?_eq ht]
  have hmoved : Alike { s with particles := s.survivors t dt }
      { s' with particles := s'.survivors t' dt } := ⟨hsurvivors, h.lifetime, h.nextId⟩
  obtain ⟨hspawned, hnext⟩ := hmoved.enter hentering
  rw [advance_eq_enter, advance_eq_enter]
  exact ⟨Report.mk.injEq .. ▸ ⟨hspawned, hdying⟩, hnext⟩

inductive Command (α : Type) where
  | spawn (node : Nat)
  | spawnAtRoot
  | advance (dt : α)
  | clear

def perform (t : Tree (Turtle α)) (s : Swarm α) : Command α → Report × Swarm α
  | .spawn node =>
    match s.spawn? t node with
    | some (id, s) => (⟨[id], []⟩, s)
    | none => (⟨[], []⟩, s)
  | .spawnAtRoot =>
    let (ids, s) := s.spawnAtRoot t 1
    (⟨ids, []⟩, s)
  | .advance dt => s.advance t dt
  | .clear =>
    let (ids, s) := s.clear
    (⟨[], ids⟩, s)

def performAll (t : Tree (Turtle α)) : Swarm α → List (Command α) → List Report × Swarm α
  | s, [] => ([], s)
  | s, command :: rest =>
    let (report, s) := s.perform t command
    let (reports, s) := performAll t s rest
    (report :: reports, s)

theorem Alike.perform (h : s.Alike s') (ht : t.links = t'.links) (command : Command α) :
    (s.perform t command).1 = (s'.perform t' command).1 ∧
      (s.perform t command).2.Alike (s'.perform t' command).2 := by
  cases command with
  | spawn node =>
    have hsome := Tree.isSome_get?_eq ht node
    cases hn : t.get? node <;> cases hn' : t'.get? node <;> rw [hn, hn'] at hsome
    · simp only [Swarm.perform, spawn?, hn, hn', Option.map_none]
      exact ⟨trivial, h⟩
    · cases hsome
    · cases hsome
    · rename_i n n'
      have hnodes : [(node, n)].map Prod.fst = [(node, n')].map Prod.fst := rfl
      simp only [Swarm.perform, spawn?, hn, hn', Option.map_some, h.nextId, true_and]
      exact (h.enter hnodes).2
  | spawnAtRoot =>
    obtain ⟨hids, hnext⟩ := h.spawnAtRoot ht 1
    exact ⟨congrArg (Report.mk · []) hids, hnext⟩
  | advance dt => exact h.advance ht dt
  | clear =>
    obtain ⟨hids, hnext⟩ := h.clear
    exact ⟨congrArg (Report.mk []) hids, hnext⟩

theorem Alike.performAll (h : s.Alike s') (ht : t.links = t'.links)
    (commands : List (Command α)) :
    (s.performAll t commands).1 = (s'.performAll t' commands).1 ∧
      (s.performAll t commands).2.Alike (s'.performAll t' commands).2 := by
  induction commands generalizing s s' with
  | nil => exact ⟨rfl, h⟩
  | cons command rest ih =>
    obtain ⟨hreport, hnext⟩ := h.perform ht command
    obtain ⟨hreports, hlast⟩ := ih hnext
    exact ⟨congrArg₂ List.cons hreport hreports, hlast⟩

/-- Geometry has no influence on lives. On trees of the same shape, and with the same time per edge,
the same commands report the same particles and leave particles of the same numbers, on the same
edges and after the same times, whatever the states of the nodes, gravity, floor and restitution
are. -/
theorem lifecycle_ignores_geometry {t t' : Tree (Turtle α)} {c c' : Physics α}
    (ht : t.links = t'.links)
    (hc : (empty c).physics.lifetime = (empty c').physics.lifetime)
    (commands : List (Command α)) :
    let run := (empty c).performAll t commands
    let run' := (empty c').performAll t' commands
    run.1 = run'.1 ∧
      run.2.particles.map (fun p ↦ (p.id, p.node, p.life)) =
        run'.2.particles.map fun p ↦ (p.id, p.node, p.life) := by
  have hempty : (empty c).Alike (empty c') := ⟨rfl, hc, rfl⟩
  obtain ⟨hreports, halike⟩ := hempty.performAll ht commands
  exact ⟨hreports, halike.courses⟩

theorem lifecycle_ignores_geometry_of_overflow :
    let word : Word := ['F', 'F', '[', 'F', ']', 'F']
    let largest := Float32.ofBits 0x7f7fffff
    let t : Tree (Turtle Float32) := (Interpreter.standard ⟨0, 0, 90, 1⟩ 8).build word default
    let t' : Tree (Turtle Float32) :=
      (Interpreter.standard ⟨0, 0, 90, largest⟩ 8).build word default
    let c : Physics Float32 := default
    let c' := { c with gravity := largest }
    let commands := [.spawnAtRoot, .advance 2, .advance 2, .advance 2, .advance 1]
    t.links = t'.links ∧ (empty c).physics.lifetime = (empty c').physics.lifetime ∧
      ((empty c).performAll t commands).1 = [⟨[0], []⟩, ⟨[], []⟩, ⟨[], []⟩, ⟨[1], []⟩, ⟨[], []⟩] ∧
      ((empty c').performAll t' commands).1 = ((empty c).performAll t commands).1 ∧
      ((empty c').performAll t' commands).2.particles.map (fun p ↦ (p.id, p.node, p.life)) =
        ((empty c).performAll t commands).2.particles.map (fun p ↦ (p.id, p.node, p.life)) ∧
      ((empty c').performAll t' commands).2.particles.map (·.position.x.isNaN) = [false, true] := by
  intro word largest t t' c c' commands
  have hlinks : t.links = t'.links := by decide +kernel
  have hlifetime : (empty c).physics.lifetime = (empty c').physics.lifetime := by decide +kernel
  obtain ⟨hreports, hcourses⟩ := lifecycle_ignores_geometry hlinks hlifetime commands
  exact ⟨hlinks, hlifetime, by decide +kernel, hreports.symm, hcourses.symm, by decide +kernel⟩

end Swarm

end BranchStream
