import BranchStream.Proofs.Binary32.Special
import BranchStream.Proofs.Branches.Depth
import BranchStream.Proofs.Stream.Conservation

namespace BranchStream

variable {α : Type} [Scalar α]

namespace Swarm

/-- Each node at a depth has one particle that has just entered the edge into it, and there are no
other particles. -/
structure AtLevel (s : Swarm α) (t : Tree (Turtle α)) (k : Nat) : Prop where
  nodes_perm : (s.particles.map Particle.node).Perm (t.level k)
  life_eq : ∀ p ∈ s.particles, p.life = 0

variable {s : Swarm α} {t : Tree (Turtle α)} {dt : α} {k : Nat}

theorem nodes_advance_of_completes (ht : t.Grown)
    (h : ∀ p ∈ s.particles, p.Completes s.physics dt) :
    ((s.advance t dt).2.particles.map Particle.node).Perm
      ((s.particles.map Particle.node).flatMap t.children) := by
  have hheirs : s.particles.flatMap (Particle.heirs t s.physics dt) =
      s.particles.flatMap fun p ↦ t.children p.node :=
    List.flatMap_congr fun p hp ↦ if_pos (h p hp)
  rw [List.flatMap_map, ← hheirs]
  exact nodes_advance ht

theorem life_advance_of_completes (h : ∀ p ∈ s.particles, p.Completes s.physics dt) :
    ∀ q ∈ (s.advance t dt).2.particles, q.life = 0 := by
  apply forall_mem_advance
  · intro id node n _
    rfl
  · intro p hp hs
    exact absurd (h p hp) hs

theorem died_advance_of_completes (ht : t.Grown)
    (h : ∀ p ∈ s.particles, p.Completes s.physics dt) :
    (s.advance t dt).1.died =
      (s.particles.filter fun p ↦ t.isLeaf p.node).map Particle.id := by
  rw [advance_eq]
  refine congrArg (List.map Particle.id) (List.filter_congr fun p hp ↦ ?_)
  rw [Particle.isNone_step ht, decide_eq_true (h p hp), Bool.true_and]

theorem AtLevel.completes (h : s.AtLevel t k) (hdt : ¬ 0 + dt ≤ s.physics.lifetime) :
    ∀ p ∈ s.particles, p.Completes s.physics dt := by
  intro p hp
  rw [Particle.Completes, Particle.life_move, h.life_eq p hp]
  exact hdt

theorem AtLevel.advance (h : s.AtLevel t k) (ht : t.Grown) (hdt : ¬ 0 + dt ≤ s.physics.lifetime) :
    (s.advance t dt).2.AtLevel t (k + 1) where
  nodes_perm :=
    calc List.Perm ((s.advance t dt).2.particles.map Particle.node)
          ((s.particles.map Particle.node).flatMap t.children) :=
        nodes_advance_of_completes ht (h.completes hdt)
      List.Perm _ ((t.level k).flatMap t.children) := h.nodes_perm.flatMap_right _
      List.Perm _ (t.level (k + 1)) := (ht.level_succ k).symm
  life_eq := life_advance_of_completes (h.completes hdt)

theorem AtLevel.advances (h : s.AtLevel t k) (ht : t.Grown) {dts : List α}
    (hdts : ∀ dt ∈ dts, ¬ 0 + dt ≤ s.physics.lifetime) :
    (s.advances t dts).AtLevel t (k + dts.length) ∧ (s.advances t dts).physics = s.physics := by
  induction dts generalizing s k with
  | nil => exact ⟨h, rfl⟩
  | cons dt dts ih =>
    obtain ⟨hdt, hdts⟩ := List.forall_mem_cons.mp hdts
    have hlast := ih (h.advance ht hdt) (physics_advance s t dt ▸ hdts)
    rw [Nat.add_right_comm] at hlast
    exact hlast

theorem AtLevel.eq_nil_iff (h : s.AtLevel t k) (ht : t.Grown) :
    s.particles = [] ↔ t.height < k := by
  have hperm := h.nodes_perm
  rw [← ht.level_eq_nil_iff]
  constructor
  · intro hnil
    rw [hnil] at hperm
    exact hperm.nil_eq.symm
  · intro hnil
    rw [hnil] at hperm
    exact List.map_eq_nil_iff.mp hperm.eq_nil

theorem exists_entered_root (ht : t.Grown) (hs : s.particles = []) :
    ∃ s₀, s.spawn? t Tree.rootId = some (s.nextId, s₀) ∧
      s.spawnAtRoot t 1 = ([s.nextId], s₀) ∧ s₀.AtLevel t 0 ∧ s₀.physics = s.physics := by
  obtain ⟨root, hroot, hspawn⟩ := spawn?_of_lt s ht.size_pos
  refine ⟨_, hspawn, spawnAtRoot_eq hroot 1, ⟨?_, ?_⟩, rfl⟩
  · rw [enter_eq, hs]
    exact ht.level_zero.symm
  · apply forall_mem_enter
    · intro id e _
      rfl
    · rw [hs]
      exact nofun

/-- A particle that enters at the root of a grown tree, and any number of steps that are all longer
than the time on an edge. After `k` steps there is one particle for each node at depth `k`, all at
the start of their edges; those at leaves die in the next step; and there is no particle left as
soon as there are more steps than the tree is high. -/
theorem streams_level_by_level {t : Tree (Turtle Float32)} {s : Swarm Float32} {dts : List Float32}
    (ht : t.Grown) (hs : s.particles = []) (hdts : ∀ dt ∈ dts, s.physics.lifetime < dt) :
    ∃ s₀, s.spawn? t Tree.rootId = some (s.nextId, s₀) ∧ s.spawnAtRoot t 1 = ([s.nextId], s₀) ∧
      let s' := s₀.advances t dts
      (s'.particles.map Particle.node).Perm (t.level dts.length) ∧
        (∀ p ∈ s'.particles, p.life = 0) ∧
        (∀ dt, s.physics.lifetime < dt → (s'.advance t dt).1.died =
          (s'.particles.filter fun p ↦ t.isLeaf p.node).map Particle.id) ∧
        (s'.particles = [] ↔ t.height < dts.length) := by
  obtain ⟨s₀, hspawn, hroot, hstart, hphysics⟩ := exists_entered_root ht hs
  have hcomplete : ∀ dt ∈ dts, ¬ 0 + dt ≤ s₀.physics.lifetime := by
    intro dt hdt
    rw [hphysics]
    exact Binary32.not_zero_add_le_of_lt (hdts dt hdt)
  obtain ⟨hlevel, hkept⟩ := hstart.advances ht hcomplete
  rw [Nat.zero_add] at hlevel
  refine ⟨s₀, hspawn, hroot, hlevel.nodes_perm, hlevel.life_eq, ?_, hlevel.eq_nil_iff ht⟩
  intro dt hdt
  refine died_advance_of_completes ht (hlevel.completes ?_)
  rw [hkept, hphysics]
  exact Binary32.not_zero_add_le_of_lt hdt

theorem streams_level_by_level_of_uneven_leaves :
    let fork : Tree (Turtle Float32) :=
      ((Tree.ofRoot default).addChild 0 default).addChild 0 default
    let t := fork.addChild 1 default
    let s : Swarm Float32 := .empty default
    let endless := Float32.ofBits 0x7f800000
    t.Grown ∧ s.particles = [] ∧ (∀ dt ∈ [2, endless], s.physics.lifetime < dt) ∧
      t.level 1 = [1, 2] ∧ t.level 2 = [3] ∧ t.height = 2 ∧ ∃ s₀,
        s.spawn? t Tree.rootId = some (s.nextId, s₀) ∧
          ((s₀.advances t [2, endless]).particles.map Particle.node).Perm [3] ∧
          (s₀.advances t [2, endless]).particles ≠ [] := by
  intro fork t s endless
  have ht : t.Grown :=
    (((Tree.Grown.ofRoot _).addChild (by decide) _).addChild (by decide) _).addChild (by decide) _
  have hlong : ∀ dt ∈ [2, endless], s.physics.lifetime < dt := by decide +kernel
  have hlevel : t.level 2 = [3] := by decide
  have hheight : t.height = 2 := by decide
  obtain ⟨s₀, hspawn, -, hnodes, -, -, hempty⟩ := streams_level_by_level ht rfl hlong
  refine ⟨ht, rfl, hlong, by decide, hlevel, hheight, s₀, hspawn, hlevel ▸ hnodes, ?_⟩
  rw [Ne, hempty, hheight]
  decide

end Swarm

end BranchStream
