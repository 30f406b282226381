import Mathlib
import BranchStream.Proofs.Exact.Numbers
import BranchStream.Proofs.Stream.Bounds
import BranchStream.Proofs.Stream.Conservation

namespace BranchStream

open Exact

variable {K : Type} [Field K] [LinearOrder K] [FloorRing K]

section

/-- Where a steady motion from `a` to `b` that takes `whole` has got to after `time`. -/
def between (a b time whole : K) : K := a + (b - a) * time / whole

theorem between_zero (a b whole : K) : between a b 0 whole = a := by
  rw [between, mul_zero, zero_div, add_zero]

theorem between_whole (a b : K) {whole : K} (h : whole ≠ 0) : between a b whole whole = b := by
  rw [between, mul_div_cancel_right₀ _ h, add_sub_cancel]

theorem between_add (a b time dt whole : K) :
    between a b (time + dt) whole = between a b time whole + (b - a) / whole * dt := by
  rw [between, between]
  ring

theorem between_le [IsStrictOrderedRing K] {a b time whole bound : K} (ha : a ≤ bound)
    (hb : b ≤ bound) (hwhole : 0 < whole) (htime : 0 ≤ time) (hle : time ≤ whole) :
    between a b time whole ≤ bound := by
  have hmean : between a b time whole = (a * (whole - time) + b * time) / whole := by
    rw [between]
    field_simp
    ring
  rw [hmean, div_le_iff₀ hwhole]
  calc a * (whole - time) + b * time ≤ bound * (whole - time) + bound * time := by
        have hrest := sub_nonneg.mpr hle
        gcongr
    _ = bound * whole := by ring

end

namespace Physics

theorem orDefault_of_pos {c : Physics K} (h : 0 < c.lifetime) : c.orDefault = c := by
  have hvalid : c.validate = .ok () := if_neg (not_le.mpr h)
  rw [orDefault, hvalid]

theorem lifetime_pos_orDefault [IsStrictOrderedRing K] (c : Physics K) :
    0 < c.orDefault.lifetime := by
  by_cases h : 0 < c.lifetime
  · rwa [orDefault_of_pos h]
  · have hfault : c.validate = .error (.lifetimeNotPositive c.lifetime) :=
      if_pos (not_lt.mp h)
    rw [orDefault, hfault]
    exact one_pos

structure Free (c : Physics K) (n : Turtle K) : Prop where
  gravity_eq : c.gravity = 0
  start_le : n.segmentStart.y ≤ c.floor
  stop_le : n.position.y ≤ c.floor

end Physics

namespace Particle

variable {c : Physics K} {n : Turtle K} {p : Particle K} {node : Nat} {time dt : K}

/-- On the edge into a node for some time, and as far along it as a steady motion would be. The
height is that of a steady motion only where neither gravity nor the floor gets in its way. -/
structure Underway (c : Physics K) (node : Nat) (n : Turtle K) (time : K) (p : Particle K) :
    Prop where
  node_eq : p.node = node
  life_eq : p.life = time
  x_eq : p.position.x = between n.segmentStart.x n.position.x time c.lifetime
  z_eq : p.position.z = between n.segmentStart.z n.position.z time c.lifetime
  speed_x : p.velocity.x = (n.position.x - n.segmentStart.x) / c.lifetime
  speed_z : p.velocity.z = (n.position.z - n.segmentStart.z) / c.lifetime
  height : c.Free n → p.position.y = between n.segmentStart.y n.position.y time c.lifetime ∧
    p.velocity.y = (n.position.y - n.segmentStart.y) / c.lifetime

theorem underway_entering (c : Physics K) (id node : Nat) (n : Turtle K) :
    (entering c id node n).Underway c node n 0 where
  node_eq := rfl
  life_eq := rfl
  x_eq := (between_zero _ _ _).symm
  z_eq := (between_zero _ _ _).symm
  speed_x := rfl
  speed_z := rfl
  height _ := ⟨(between_zero _ _ _).symm, rfl⟩

theorem sideways_move (c : Physics K) (dt : K) (p : Particle K) :
    (p.move c dt).position.x = p.position.x + p.velocity.x * dt ∧
      (p.move c dt).position.z = p.position.z + p.velocity.z * dt ∧
      (p.move c dt).velocity.x = p.velocity.x ∧ (p.move c dt).velocity.z = p.velocity.z := by
  dsimp only [move]
  split <;> exact ⟨rfl, rfl, rfl, rfl⟩

theorem height_move_of_le (h : p.position.y + p.velocity.y * dt ≤ c.floor) :
    (p.move c dt).position.y = p.position.y + p.velocity.y * dt ∧
      (p.move c dt).velocity.y = p.velocity.y + c.gravity * dt := by
  have hmove : p.move c dt =
      { p with
        position := p.position + p.velocity * dt
        velocity := { p.velocity with y := p.velocity.y + c.gravity * dt }
        life := p.life + dt } := if_neg (not_lt.mpr h)
  rw [hmove]
  exact ⟨rfl, rfl⟩

theorem Underway.move [IsStrictOrderedRing K] (h : p.Underway c node n time)
    (hlifetime : 0 < c.lifetime) (htime : 0 ≤ time + dt) (hle : time + dt ≤ c.lifetime) :
    (p.move c dt).Underway c node n (time + dt) := by
  obtain ⟨hx, hz, hspeedX, hspeedZ⟩ := sideways_move c dt p
  refine ⟨node_move.trans h.node_eq, ?_, ?_, ?_, hspeedX.trans h.speed_x, hspeedZ.trans h.speed_z,
    fun hfree ↦ ?_⟩
  · rw [life_move, h.life_eq]
  · rw [hx, h.x_eq, h.speed_x, between_add]
  · rw [hz, h.z_eq, h.speed_z, between_add]
  · obtain ⟨hy, hspeed⟩ := h.height hfree
    have hnext : p.position.y + p.velocity.y * dt =
        between n.segmentStart.y n.position.y (time + dt) c.lifetime := by
      rw [hy, hspeed, between_add]
    have hfloor := between_le hfree.start_le hfree.stop_le hlifetime htime hle
    obtain ⟨hy', hspeed'⟩ := height_move_of_le (hnext.trans_le hfloor)
    rw [hy', hspeed', hfree.gravity_eq, zero_mul, add_zero]
    exact ⟨hnext, hspeed⟩

end Particle

namespace Swarm

section

variable {α : Type} [Scalar α] {s : Swarm α} {t : Tree (Turtle α)}

theorem performAll_keeps (hs : s.Numbered) (t : Tree (Turtle α)) (commands : List (Command α)) :
    (s.performAll t commands).2.physics = s.physics ∧ (s.performAll t commands).2.Numbered := by
  induction commands generalizing s with
  | nil => exact ⟨rfl, hs⟩
  | cons command rest ih =>
    obtain ⟨hphysics, hlast⟩ := ih ((accounts_perform hs t command).numbered hs)
    exact ⟨hphysics.trans (physics_perform s t command), hlast⟩

theorem exists_entering_of_mem_enter {nodes : List (Nat × Tree.Node (Turtle α))} {id : Nat}
    (h : id ∈ (s.enter nodes).1) :
    ∃ e ∈ nodes, Particle.entering s.physics id e.1 e.2.state ∈ (s.enter nodes).2.particles := by
  rw [enter_eq] at h ⊢
  obtain ⟨p, hp, rfl⟩ := List.mem_map.mp h
  obtain ⟨⟨e, k⟩, he, rfl⟩ := List.mem_map.mp hp
  exact ⟨e, List.fst_mem_of_mem_zipIdx he, List.mem_append_right _ hp⟩

theorem exists_entering_of_mem_spawned (s : Swarm α) (t : Tree (Turtle α)) (command : Command α)
    {id : Nat} (h : id ∈ (s.perform t command).1.spawned) : ∃ node n, t.get? node = some n ∧
      (∀ m, command = .spawn m → node = m) ∧ (command = .spawnAtRoot → node = Tree.rootId) ∧
      Particle.entering s.physics id node n.state ∈ (s.perform t command).2.particles := by
  cases command with
  | spawn m =>
    rw [perform, spawn?] at h ⊢
    cases hn : t.get? m with
    | none =>
      rw [hn] at h
      cases h
    | some n =>
      rw [hn] at h
      have henter : id ∈ (s.enter [(m, n)]).1 := h
      obtain ⟨e, he, hp⟩ := exists_entering_of_mem_enter henter
      rw [List.mem_singleton.mp he] at hp
      exact ⟨m, n, hn, by simp, by simp, hp⟩
  | spawnAtRoot =>
    rw [perform, spawnAtRoot] at h ⊢
    cases hn : t.root? with
    | none =>
      rw [hn] at h
      cases h
    | some n =>
      rw [hn] at h
      obtain ⟨e, he, hp⟩ := exists_entering_of_mem_enter h
      rw [List.eq_of_mem_replicate he] at hp
      exact ⟨Tree.rootId, n, hn, by simp, fun _ ↦ rfl, hp⟩
  | advance dt =>
    rw [perform, advance_eq_enter] at h ⊢
    obtain ⟨e, he, hp⟩ := exists_entering_of_mem_enter h
    exact ⟨e.1, e.2, Tree.get?_of_mem_existing he, by simp, by simp, hp⟩
  | clear => cases h

end

variable [IsStrictOrderedRing K] {s : Swarm K} {t : Tree (Turtle K)} {p : Particle K} {node : Nat}
  {n : Turtle K} {time : K}

theorem exists_underway (hlifetime : 0 < s.physics.lifetime) (dts : List K) (hp : p ∈ s.particles)
    (h : p.Underway s.physics node n time) (htime : 0 ≤ time) (hdts : ∀ dt ∈ dts, 0 ≤ dt)
    (hle : time + dts.sum ≤ s.physics.lifetime) :
    ∃ q ∈ (s.performAll t (dts.map .advance)).2.particles, q.id = p.id ∧
      q.Underway s.physics node n (time + dts.sum) := by
  induction dts generalizing s p time with
  | nil =>
    refine ⟨p, hp, rfl, ?_⟩
    rwa [List.sum_nil, add_zero]
  | cons dt dts ih =>
    obtain ⟨hdt, hrest⟩ := List.forall_mem_cons.mp hdts
    rw [List.sum_cons, ← add_assoc] at hle ⊢
    have hnext : 0 ≤ time + dt := add_nonneg htime hdt
    have hbefore : time + dt ≤ s.physics.lifetime :=
      (le_add_of_nonneg_right (List.sum_nonneg hrest)).trans hle
    have hstays : ¬ p.Completes s.physics dt := by
      rw [Particle.Completes, Particle.life_move, h.life_eq]
      exact not_not_intro hbefore
    obtain ⟨q, hq, hid, hunder⟩ := ih (s := (s.advance t dt).2) hlifetime
      (move_mem_advance hp hstays) (h.move hlifetime hnext hbefore) hnext hrest hle
    exact ⟨q, hq, hid.trans Particle.id_move, hunder⟩

/-- A particle covers its edge in a lifetime, however the time is cut. After whatever a swarm was
told, let a command bring particles in, by spawning or by forking, and step by any times that are
not negative and do not add up to more than a lifetime. Each of these particles is still on its edge,
for as long as the steps say, and its sideways coordinates are those of a steady motion from end to
end, so that the whole lifetime takes it across. If nothing pulls it and the floor is out of reach,
that holds of its height too, and after a lifetime it is just where the edge ends. -/
theorem covers_edge_in_lifetime (t : Tree (Turtle K)) (c : Physics K)
    (before : List (Command K)) (last : Command K) :
    let s := ((empty c).performAll t before).2
    let report := (s.perform t last).1
    let s' := (s.perform t last).2
    let lifetime := s.physics.lifetime
    s.physics = c.orDefault ∧ (0 < c.lifetime → s.physics = c) ∧ 0 < lifetime ∧
      (∀ m < t.size, last = .spawn m → report.spawned = [s.nextId]) ∧
      ∀ id ∈ report.spawned, ∃ node n, t.get? node = some n ∧
        (∀ m, last = .spawn m → node = m) ∧ (last = .spawnAtRoot → node = Tree.rootId) ∧
        ∀ dts : List K, (∀ dt ∈ dts, 0 ≤ dt) → dts.sum ≤ lifetime →
          let start := n.state.segmentStart
          let stop := n.state.position
          ∃ p, (s'.performAll t (dts.map .advance)).2.get? id = some p ∧
            p.node = node ∧ p.life = dts.sum ∧
            p.position.x = between start.x stop.x dts.sum lifetime ∧
            p.position.z = between start.z stop.z dts.sum lifetime ∧
            (dts.sum = lifetime → p.position.x = stop.x ∧ p.position.z = stop.z) ∧
            (s.physics.gravity = 0 → start.y ≤ s.physics.floor → stop.y ≤ s.physics.floor →
              p.position.y = between start.y stop.y dts.sum lifetime ∧
              (dts.sum = lifetime → p.position = stop)) := by
  intro s report s' lifetime
  have hstart : (empty c).Numbered := ⟨.nil, nofun⟩
  obtain ⟨hphysics, hs⟩ := performAll_keeps hstart t before
  have hlifetime : 0 < s.physics.lifetime := by
    rw [hphysics]
    exact c.lifetime_pos_orDefault
  have hphysics' : s'.physics = s.physics := physics_perform s t last
  have hs' : s'.Numbered := (accounts_perform hs t last).numbered hs
  refine ⟨hphysics, fun h ↦ hphysics.trans (Physics.orDefault_of_pos h), hlifetime, ?_, ?_⟩
  · rintro m hm rfl
    obtain ⟨n, -, hspawn⟩ := spawn?_of_lt s hm
    show (s.perform t (.spawn m)).1.spawned = _
    rw [perform, hspawn]
  · intro id hid
    obtain ⟨node, n, hn, hspawn, hroot, hp⟩ := exists_entering_of_mem_spawned s t last hid
    refine ⟨node, n, hn, hspawn, hroot, fun dts hdts hle ↦ ?_⟩
    intro start stop
    have hunder := Particle.underway_entering s'.physics id node n.state
    rw [← hphysics'] at hp
    obtain ⟨q, hq, hqid, hcourse⟩ := exists_underway (t := t) (hphysics' ▸ hlifetime) dts hp hunder
      le_rfl hdts (by rwa [zero_add, hphysics'])
    rw [zero_add, hphysics'] at hcourse
    have hget := (performAll_keeps hs' t (dts.map .advance)).2.get?_eq_some_iff.mpr ⟨hq, hqid⟩
    have hx (hwhole : dts.sum = lifetime) : q.position.x = stop.x := by
      rw [hcourse.x_eq, hwhole]
      exact between_whole _ _ hlifetime.ne'
    have hz (hwhole : dts.sum = lifetime) : q.position.z = stop.z := by
      rw [hcourse.z_eq, hwhole]
      exact between_whole _ _ hlifetime.ne'
    refine ⟨q, hget, hcourse.node_eq, hcourse.life_eq, hcourse.x_eq, hcourse.z_eq,
      fun hwhole ↦ ⟨hx hwhole, hz hwhole⟩, fun hgravity hlow hlow' ↦ ?_⟩
    obtain ⟨hy, -⟩ := hcourse.height ⟨hgravity, hlow, hlow'⟩
    refine ⟨hy, fun hwhole ↦ Vec3.ext (hx hwhole) ?_ (hz hwhole)⟩
    rw [hy, hwhole]
    exact between_whole _ _ hlifetime.ne'

/-- A fork enters an edge that starts beyond the floor. It is put back on it and misses the height
at which the edge ends, but nothing else; where nothing pulls and the floor is lower it gets
there. -/
theorem covers_edge_in_lifetime_of_fork :
    let corner : Turtle ℚ := { (default : Turtle ℚ) with position := ⟨4, 8, 2⟩ }
    let side : Turtle ℚ := { corner with segmentStart := ⟨4, 8, 2⟩, position := ⟨6, 0, 0⟩ }
    let t := ((Tree.ofRoot corner).addChild 0 corner).addChild 0 side
    let c : Physics ℚ := ⟨2, 10, 3, 1 / 2⟩
    let c' : Physics ℚ := ⟨2, 0, 8, 1 / 2⟩
    let s := ((empty c).performAll t [.spawnAtRoot]).2
    let s' := ((empty c').performAll t [.spawnAtRoot]).2
    let dts : List ℚ := [1 / 2, 0, 3 / 2]
    1 ∈ (s.perform t (.advance 3)).1.spawned ∧ 1 ∈ (s'.perform t (.advance 3)).1.spawned ∧
      (∀ dt ∈ dts, 0 ≤ dt) ∧ dts.sum = s.physics.lifetime ∧ dts.sum = s'.physics.lifetime ∧
      s'.physics.gravity = 0 ∧ side.segmentStart.y ≤ s'.physics.floor ∧
      side.position.y ≤ s'.physics.floor ∧
      (∃ p, ((s.perform t (.advance 3)).2.performAll t (dts.map .advance)).2.get? 1 = some p ∧
        p.node = 2 ∧ p.life = 2 ∧ p.position = ⟨6, 9 / 4, 0⟩) ∧
      ∃ p, ((s'.perform t (.advance 3)).2.performAll t (dts.map .advance)).2.get? 1 = some p ∧
        p.node = 2 ∧ p.life = 2 ∧ p.position = side.position := by
  intro corner side t c c' s s' dts
  have hspawned : 1 ∈ (s.perform t (.advance 3)).1.spawned := by decide +kernel
  have hspawned' : 1 ∈ (s'.perform t (.advance 3)).1.spawned := by decide +kernel
  have hdts : ∀ dt ∈ dts, 0 ≤ dt := by decide +kernel
  have hsum : dts.sum = s.physics.lifetime := by decide +kernel
  have hsum' : dts.sum = s'.physics.lifetime := by decide +kernel
  have hlow : side.segmentStart.y ≤ s'.physics.floor := by decide +kernel
  have hlow' : side.position.y ≤ s'.physics.floor := by decide +kernel
  obtain ⟨-, -, -, -, hrun⟩ := covers_edge_in_lifetime t c [.spawnAtRoot] (.advance 3)
  obtain ⟨-, -, -, -, hrun'⟩ := covers_edge_in_lifetime t c' [.spawnAtRoot] (.advance 3)
  obtain ⟨node, n, hn, -, -, hcourse⟩ := hrun 1 hspawned
  obtain ⟨node', n', hn', -, -, hcourse'⟩ := hrun' 1 hspawned'
  obtain ⟨p, hp, hnode, hlife, -, -, hwhole, -⟩ := hcourse dts hdts hsum.le
  obtain ⟨p', hp', hnode', hlife', -, -, -, hfree⟩ := hcourse' dts hdts hsum'.le
  have hplace : (((s.perform t (.advance 3)).2.performAll t (dts.map .advance)).2.get? 1).map
      (fun p ↦ (p.node, p.position.y)) = some (2, 9 / 4) := by decide +kernel
  have hplace' : (((s'.perform t (.advance 3)).2.performAll t (dts.map .advance)).2.get? 1).map
      Particle.node = some 2 := by decide +kernel
  rw [hp, Option.map_some, Option.some.injEq, Prod.mk.injEq] at hplace
  rw [hp', Option.map_some, Option.some.injEq] at hplace'
  obtain rfl := hnode.symm.trans hplace.1
  obtain rfl := hnode'.symm.trans hplace'
  have hside : t.get? 2 = some ⟨side, some 0, []⟩ := Tree.get?_addChild_size
  obtain rfl := Option.some.inj (hside.symm.trans hn)
  obtain rfl := Option.some.inj (hside.symm.trans hn')
  obtain ⟨hx, hz⟩ := hwhole hsum
  refine ⟨hspawned, hspawned', hdts, hsum, hsum', rfl, hlow, hlow',
    ⟨p, hp, hnode, hlife.trans hsum, Vec3.ext hx hplace.2 hz⟩,
    p', hp', hnode', hlife'.trans hsum', (hfree rfl hlow hlow').2 hsum'⟩

end Swarm

end BranchStream
