import BranchStream.Proofs.Binary32.Wrapping
import BranchStream.Proofs.Stream.Course
import BranchStream.Proofs.Stream.Ledger

namespace BranchStream

namespace Physics

structure Valid (c : Physics Float32) : Prop where
  lifetime_finite : c.lifetime.isFinite = true
  gravity_finite : c.gravity.isFinite = true
  floor_finite : c.floor.isFinite = true
  restitution_finite : c.restitution.isFinite = true
  lifetime_pos : 0 < c.lifetime

variable {c : Physics Float32}

theorem validate_eq_ok_iff : c.validate = .ok () ↔ c.Valid := by
  have hfields : requireFinite [("maxLife", c.lifetime), ("gravity", c.gravity),
      ("floor", c.floor), ("restitution", c.restitution)] = .ok () ↔
      c.lifetime.isFinite = true ∧ c.gravity.isFinite = true ∧ c.floor.isFinite = true ∧
        c.restitution.isFinite = true := by
    simp [requireFinite_eq_ok_iff, Scalar.isFinite]
  unfold validate
  cases hfinite : requireFinite [("maxLife", c.lifetime), ("gravity", c.gravity),
      ("floor", c.floor), ("restitution", c.restitution)] with
  | error fault =>
    rw [hfinite] at hfields
    refine ⟨nofun, fun h ↦ ?_⟩
    cases hfields.mpr
      ⟨h.lifetime_finite, h.gravity_finite, h.floor_finite, h.restitution_finite⟩
  | ok _ =>
    obtain ⟨hlifetime, hgravity, hfloor, hrestitution⟩ := hfields.mp hfinite
    have hpos := Binary32.not_le_iff_lt hlifetime (y := 0) rfl
    by_cases hle : c.lifetime ≤ 0
    · have hfault : ¬ c.Valid := fun h ↦ hpos.mpr h.lifetime_pos hle
      simp [hle, hfault, bind, Except.bind]
    · have hvalid : c.Valid := ⟨hlifetime, hgravity, hfloor, hrestitution, hpos.mp hle⟩
      simp [hle, hvalid, bind, Except.bind, pure, Except.pure]

theorem valid_default : (default : Physics Float32).Valid := by
  constructor <;> decide +kernel

theorem orDefault_cases (c : Physics Float32) :
    c.Valid ∧ c.orDefault = c ∨ ¬ c.Valid ∧ c.orDefault = default := by
  rw [← validate_eq_ok_iff, orDefault]
  cases c.validate with
  | ok _ => exact .inl ⟨rfl, rfl⟩
  | error fault => exact .inr ⟨nofun, rfl⟩

theorem valid_orDefault (c : Physics Float32) : c.orDefault.Valid := by
  rcases orDefault_cases c with ⟨h, heq⟩ | ⟨-, heq⟩
  · rwa [heq]
  · rw [heq]
    exact valid_default

end Physics

namespace Swarm

section

variable {α : Type} [Scalar α] {s : Swarm α} {t : Tree (Turtle α)} {P : Particle α → Prop}

theorem physics_perform (s : Swarm α) (t : Tree (Turtle α)) (command : Command α) :
    (s.perform t command).2.physics = s.physics := by
  cases command with
  | spawn node =>
    rw [perform, spawn?]
    cases t.get? node <;> rfl
  | spawnAtRoot =>
    rw [perform, spawnAtRoot]
    cases t.root? <;> rfl
  | advance dt => exact physics_advance s t dt
  | clear => rfl

/-- What holds of every particle that enters an edge, and is kept along an edge, holds of the
particles of a swarm whatever it is told. -/
theorem forall_mem_perform
    (henter : ∀ id node n, t.get? node = some n → P (.entering s.physics id node n.state))
    (hmove : ∀ dt p, ¬ p.Completes s.physics dt → P p → P (p.move s.physics dt))
    (command : Command α) (h : ∀ p ∈ s.particles, P p) :
    ∀ p ∈ (s.perform t command).2.particles, P p := by
  cases command with
  | spawn node =>
    rw [perform, spawn?]
    cases hn : t.get? node with
    | none => exact h
    | some n =>
      refine forall_mem_enter (fun id e he ↦ ?_) h
      rw [List.mem_singleton.mp he]
      exact henter id node n hn
  | spawnAtRoot =>
    rw [perform, spawnAtRoot]
    cases hn : t.root? with
    | none => exact h
    | some n =>
      refine forall_mem_enter (fun id e he ↦ ?_) h
      rw [List.eq_of_mem_replicate he]
      exact henter id _ n hn
  | advance dt => exact forall_mem_advance henter fun p hp hs ↦ hmove dt p hs (h p hp)
  | clear => exact fun p hp ↦ absurd hp List.not_mem_nil

theorem accounts_perform (h : s.Numbered) (t : Tree (Turtle α)) (command : Command α) :
    Accounts s (s.perform t command).2 (s.perform t command).1.spawned
      (s.perform t command).1.died := by
  cases command with
  | spawn node =>
    rw [perform, spawn?]
    cases t.get? node with
    | none => exact accounts_refl s
    | some n => exact accounts_enter s [(node, n)]
  | spawnAtRoot => exact accounts_spawnAtRoot s t 1
  | advance dt => exact accounts_advance h t dt
  | clear => exact accounts_clear s

end

end Swarm

namespace Particle

variable {t : Tree (Turtle Float32)} {c : Physics Float32} {p : Particle Float32} {dt : Float32}

/-- On the edge into a node for no longer than an edge takes, and not beyond the floor unless the
edge starts there. -/
structure OnEdge (t : Tree (Turtle Float32)) (c : Physics Float32) (p : Particle Float32) :
    Prop where
  life_le : p.life ≤ c.lifetime
  exists_node : ∃ n, t.get? p.node = some n ∧
    (p.life = 0 ∧ p.position = n.state.segmentStart ∨ ¬ c.floor < p.position.y)

theorem not_floor_lt_move (c : Physics Float32) (dt : Float32) (p : Particle Float32) :
    ¬ c.floor < (p.move c dt).position.y := by
  dsimp only [move]
  split
  · exact Binary32.not_lt_self c.floor
  · assumption

theorem onEdge_entering (hc : c.Valid) {id node : Nat} {n : Tree.Node (Turtle Float32)}
    (hn : t.get? node = some n) : (entering c id node n.state).OnEdge t c :=
  ⟨Binary32.le_of_lt hc.lifetime_pos, n, hn, .inl ⟨rfl, rfl⟩⟩

theorem OnEdge.move (h : p.OnEdge t c) (hs : ¬ p.Completes c dt) : (p.move c dt).OnEdge t c := by
  obtain ⟨n, hn, -⟩ := h.exists_node
  refine ⟨Decidable.not_not.mp hs, n, ?_, .inr (not_floor_lt_move c dt p)⟩
  rwa [node_move]

end Particle

namespace Swarm

structure Bounded (t : Tree (Turtle Float32)) (s : Swarm Float32) : Prop where
  valid : s.physics.Valid
  onEdge : ∀ p ∈ s.particles, p.OnEdge t s.physics
  numbered : s.Numbered

variable {s : Swarm Float32} {t : Tree (Turtle Float32)}

theorem bounded_empty (t : Tree (Turtle Float32)) (c : Physics Float32) : (empty c).Bounded t :=
  ⟨Physics.valid_orDefault c, nofun, .nil, nofun⟩

theorem Bounded.perform (h : s.Bounded t) (command : Command Float32) :
    (s.perform t command).2.Bounded t where
  valid := by
    rw [physics_perform]
    exact h.valid
  onEdge := by
    rw [physics_perform]
    apply forall_mem_perform
    · intro id node n hn
      exact Particle.onEdge_entering h.valid hn
    · intro dt p hs hp
      exact hp.move hs
    · exact h.onEdge
  numbered := (accounts_perform h.numbered t command).numbered h.numbered

theorem Bounded.performAll (h : s.Bounded t) (commands : List (Command Float32)) :
    (s.performAll t commands).2.Bounded t ∧
      (s.performAll t commands).2.physics = s.physics ∧
      (s.performAll t commands).2.nextId =
        s.nextId + ((s.performAll t commands).1.flatMap Report.spawned).length := by
  induction commands generalizing s with
  | nil => exact ⟨h, rfl, rfl⟩
  | cons command rest ih =>
    obtain ⟨hlast, hphysics, hnext⟩ := ih (h.perform command)
    have hspawned := (accounts_perform h.numbered t command).next_eq
    refine ⟨hlast, hphysics.trans (physics_perform s t command), ?_⟩
    rw [Swarm.performAll, List.flatMap_cons, List.length_append, hnext, hspawned, Nat.add_assoc]

theorem spawn?_eq_none_iff (s : Swarm Float32) (t : Tree (Turtle Float32)) (node : Nat) :
    s.spawn? t node = none ↔ t.size ≤ node := by
  rw [spawn?, Option.map_eq_none_iff, Tree.get?, Array.getElem?_eq_none_iff]
  rfl

/-- Whatever a swarm is told, with steps of any lengths, its constants are those that it was given
or the default ones and valid. Every particle is on the edge into a node, for a number of seconds
that is not more than an edge takes, and either where the edge starts or not beyond the floor. The
ids increase, none of them is still to be given out, and each finds its particle. A node that does
not exist is no place to spawn at, and the attempt leaves no trace. -/
theorem particles_stay_bounded (t : Tree (Turtle Float32)) (c : Physics Float32)
    (commands : List (Command Float32)) :
    let run := (empty c).performAll t commands
    let s := run.2
    s.physics = c.orDefault ∧ s.physics.Valid ∧
      (∀ p ∈ s.particles, p.life.isNaN = false ∧ p.life ≤ s.physics.lifetime ∧
        ∃ n, t.get? p.node = some n ∧
          (p.life = 0 ∧ p.position = n.state.segmentStart ∨
            ¬ s.physics.floor < p.position.y)) ∧
      s.ids.Pairwise (· < ·) ∧ (∀ id ∈ s.ids, id < s.nextId) ∧
      s.nextId = (run.1.flatMap Report.spawned).length ∧
      (∀ id p, s.get? id = some p ↔ p ∈ s.particles ∧ p.id = id) ∧
      ∀ node, (s.spawn? t node = none ↔ t.size ≤ node) ∧
        (t.size ≤ node → s.perform t (.spawn node) = (⟨[], []⟩, s)) := by
  intro run s
  obtain ⟨hbounded, hphysics, hnext⟩ := (bounded_empty t c).performAll commands
  refine ⟨hphysics, hbounded.valid, ?_, hbounded.numbered.increasing, hbounded.numbered.lt_next,
    hnext.trans (Nat.zero_add _), fun id p ↦ hbounded.numbered.get?_eq_some_iff, fun node ↦
    ⟨spawn?_eq_none_iff s t node, ?_⟩⟩
  · intro p hp
    obtain ⟨hlife, hnode⟩ := hbounded.onEdge p hp
    exact ⟨Binary32.isNaN_eq_false_of_le hlife, hlife, hnode⟩
  · intro hnode
    rw [perform, (spawn?_eq_none_iff s t node).mpr hnode]

/-- A step that is not a number completes edges, and one backwards brings what is beyond the floor
back to it; the last particle has just entered beyond the floor. -/
theorem particles_stay_bounded_of_backward_step :
    let t : Tree (Turtle Float32) := ((Tree.ofRoot default).addChild 0 default).addChild 0 default
    let c : Physics Float32 := { (default : Physics Float32) with floor := -5 }
    let notANumber := Float32.ofBits 0x7fc00000
    let commands := [.spawn 3, .spawnAtRoot, .advance notANumber, .advance (-2), .spawn 1]
    let s := ((empty c).performAll t commands).2
    s.particles.map (fun p ↦ (p.id, p.node, p.life, p.position.y)) =
        [(0, 1, -2, -5), (1, 2, -2, -5), (2, 1, 0, 0)] ∧
      s.physics = c ∧ s.physics.Valid ∧ s.nextId = 3 ∧
      (∃ p ∈ s.particles, s.get? 2 = some p ∧ s.physics.floor < p.position.y ∧
        ∃ n, t.get? p.node = some n ∧ p.position = n.state.segmentStart) ∧
      t.size ≤ 3 ∧ s.spawn? t 3 = none ∧ s.perform t (.spawn 3) = (⟨[], []⟩, s) := by
  intro t c notANumber commands s
  obtain ⟨hphysics, hvalid, hparticles, -, -, hnext, hget, hspawn⟩ :=
    particles_stay_bounded t c commands
  have hcourse : s.particles.map (fun p ↦ (p.id, p.node, p.life, p.position.y)) =
      [(0, 1, -2, -5), (1, 2, -2, -5), (2, 1, 0, 0)] := by decide +kernel
  have hkept : c.orDefault = c := by decide +kernel
  have hcount : (((empty c).performAll t commands).1.flatMap Report.spawned).length = 3 := by
    decide +kernel
  have hlast : ∃ p ∈ s.particles, p.id = 2 ∧ s.physics.floor < p.position.y := by decide +kernel
  obtain ⟨p, hp, hid, hbeyond⟩ := hlast
  obtain ⟨-, -, n, hn, hstart⟩ := hparticles p hp
  have hposition := (hstart.resolve_right (not_not_intro hbeyond)).2
  have hsize : t.size ≤ 3 := by decide
  exact ⟨hcourse, hphysics.trans hkept, hvalid, hnext.trans hcount,
    ⟨p, hp, (hget 2 p).mpr ⟨hp, hid⟩, hbeyond, n, hn, hposition⟩, hsize,
    (hspawn 3).1.mpr hsize, (hspawn 3).2 hsize⟩

end Swarm

end BranchStream
