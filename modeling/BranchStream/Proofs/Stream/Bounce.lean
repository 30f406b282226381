import BranchStream.Proofs.Binary32.Sign
import BranchStream.Proofs.Stream.Bounds

namespace BranchStream

open Binary32
open Float.Model (UnpackedFloat)

namespace Particle

section

variable {α : Type} [Scalar α] {c : Physics α} {dt : α} {p : Particle α}

def Bounces (c : Physics α) (dt : α) (p : Particle α) : Prop :=
  c.floor < p.position.y + p.velocity.y * dt

/-- The vertical speed at the moment of the bounce. -/
def fall (c : Physics α) (dt : α) (p : Particle α) : α := p.velocity.y + c.gravity * dt

theorem move_of_bounces (h : p.Bounces c dt) :
    (p.move c dt).position.y = c.floor ∧
      (p.move c dt).velocity.y = p.fall c dt * -c.restitution := by
  have hmove : p.move c dt =
      { p with
        position := { p.position + p.velocity * dt with y := c.floor }
        velocity := { p.velocity with y := p.fall c dt * -c.restitution }
        life := p.life + dt } := if_pos h
  rw [hmove]
  exact ⟨rfl, rfl⟩

end

variable {c : Physics Float32} {dt : Float32} {p : Particle Float32}

theorem fall_cases (hc : c.Valid) (hgravity : 0 ≤ c.gravity) (hv : p.velocity.y.isFinite = true)
    (hdt : dt.isFinite = true) (hpos : 0 < dt) :
    ((p.fall c dt).isFinite = true ∧ value p.velocity.y ≤ value (p.fall c dt)) ∨
      parts (p.fall c dt) = .infinity .positive := by
  rw [zero_le_iff hc.gravity_finite] at hgravity
  rw [zero_lt_iff hdt] at hpos
  rcases (rounded_mul hc.gravity_finite hdt).nonneg (by positivity) with ⟨hpull, hpull'⟩ | hinf
  · exact (rounded_add hv hpull).ge_of_le (le_add_of_nonneg_right hpull')
  · exact .inr (parts_add_infinity hv hinf)

theorem velocity_pos_of_bounces (hposition : p.position.y.isFinite = true)
    (hv : p.velocity.y.isFinite = true) (hdt : dt.isFinite = true) (hpos : 0 < dt)
    (hfloor : c.floor.isFinite = true) (hbounce : p.Bounces c dt)
    (hstart : ¬ c.floor < p.position.y) : 0 < value p.velocity.y := by
  rw [zero_lt_iff hdt] at hpos
  rw [lt_iff_value hfloor hposition, not_lt] at hstart
  by_contra hrise
  have hway : value p.velocity.y * value dt ≤ 0 :=
    mul_nonpos_of_nonpos_of_nonneg (not_lt.mp hrise) hpos.le
  cases rounded_mul hv hdt with
  | finite hfinite hround =>
    have hsum : value p.position.y + value (p.velocity.y * dt) ≤ value c.floor := by
      linarith [(hround 0 representable_zero).1 hway]
    exact (rounded_add hposition hfinite).not_lt_of_le hfloor hsum hbounce
  | overflow s hinf hlarge =>
    cases s with
    | positive => exact absurd (hlarge.trans_le hway) (not_lt.mpr maxValue_nonneg)
    | negative => exact not_lt_neg_infinity (parts_add_infinity hposition hinf) _ hbounce

variable {t : Tree (Turtle Float32)}

theorem bounce_cases (hc : c.Valid) (hrestitution : 0 ≤ c.restitution)
    (hfall : (p.fall c dt).isFinite = true ∨ parts (p.fall c dt) = .infinity .positive) :
    let speed := p.fall c dt * -c.restitution
    (0 ≤ p.fall c dt → (speed ≤ 0 ↔ (p.fall c dt).isFinite = true ∨ 0 < c.restitution)) ∧
      (p.fall c dt < 0 → ¬ speed < 0 ∧
        (2 ^ (-149 : ℤ) ≤ -value (p.fall c dt) * value c.restitution → 0 < speed)) := by
  intro speed
  have hfinite := (isFinite_neg c.restitution).trans hc.restitution_finite
  rw [zero_le_iff hc.restitution_finite] at hrestitution
  rcases hfall with hfall | hinf
  · have hround := rounded_mul hfall hfinite
    rw [value_neg] at hround
    refine ⟨fun hdown ↦ ?_, fun hup ↦ ⟨?_, fun hleast ↦ ?_⟩⟩
    · rw [zero_le_iff hfall] at hdown
      exact iff_of_true
        (hround.nonpos (mul_nonpos_of_nonneg_of_nonpos hdown (neg_nonpos.mpr hrestitution)))
        (.inl hfall)
    · rw [lt_zero_iff hfall] at hup
      have hnonneg : 0 ≤ value (p.fall c dt) * -value c.restitution :=
        mul_nonneg_of_nonpos_of_nonpos hup.le (neg_nonpos.mpr hrestitution)
      rcases hround.nonneg hnonneg with ⟨hspeed, hspeed'⟩ | hspeed
      · rw [lt_zero_iff hspeed, not_lt]
        exact hspeed'
      · exact not_lt_of_infinity hspeed 0
    · rw [neg_mul, ← mul_neg] at hleast
      exact hround.pos hleast
  · refine ⟨fun _ ↦ ?_, fun hup ↦ absurd hup (not_lt_of_infinity hinf 0)⟩
    rcases nonneg_cases hc.restitution_finite hrestitution with ⟨s, hp⟩ | ⟨m, e, h, hp, -⟩
    · have hzero : parts (-c.restitution) = .zero (-s) := by
        rw [parts_neg, hp]
        rfl
      have hnan : parts speed = .notANumber := parts_mul_infinity_zero hinf hzero
      rw [isFinite_of_parts hinf, zero_lt_iff hc.restitution_finite, value_of_zero hp]
      exact iff_of_false (not_le_right_of_nan hnan 0) (by simp [UnpackedFloat.isFinite])
    · have hup : parts speed = .infinity .negative :=
        parts_mul_infinity hinf (by rw [parts_neg, hp]; rfl)
      have hpos : 0 < value c.restitution := by
        rw [value_of_finite hp, signed]
        positivity
      exact iff_of_true (le_of_lt (neg_of_infinity hup))
        (.inr ((zero_lt_iff hc.restitution_finite).mpr hpos))

end Particle

namespace Swarm

variable {s : Swarm Float32} {t : Tree (Turtle Float32)} {dt : Float32} {p : Particle Float32}

/-- Which way a bounce sends a particle. One that falls leaves the floor upwards or along it, unless
it falls with infinite speed and none of it is kept, which leaves no number. One that rises is sent
down into the floor, unless the speed that is kept vanishes. Every particle that was not beyond the
floor before the step falls; on a bounded swarm a rising one has just entered an edge that starts
beyond the floor. -/
theorem bounce_direction (t : Tree (Turtle Float32)) (hp : p ∈ s.particles)
    (hc : s.physics.Valid) (hgravity : 0 ≤ s.physics.gravity)
    (hrestitution : 0 ≤ s.physics.restitution) (hposition : p.position.y.isFinite = true)
    (hv : p.velocity.y.isFinite = true) (hdt : dt.isFinite = true) (hpos : 0 < dt)
    (hbounce : p.Bounces s.physics dt) :
    let c := s.physics
    let q := p.move c dt
    (¬ p.Completes c dt → q ∈ (s.advance t dt).2.particles) ∧ q.position.y = c.floor ∧
      (0 ≤ p.fall c dt ∨ p.fall c dt < 0) ∧
      (0 ≤ p.fall c dt →
        (q.velocity.y ≤ 0 ↔ (p.fall c dt).isFinite = true ∨ 0 < c.restitution)) ∧
      (p.fall c dt < 0 → ¬ q.velocity.y < 0 ∧
        (2 ^ (-149 : ℤ) ≤ -value (p.fall c dt) * value c.restitution → 0 < q.velocity.y)) ∧
      (¬ c.floor < p.position.y → 0 < p.fall c dt) ∧
      (s.Bounded t → p.fall c dt < 0 → c.floor < p.position.y ∧ p.life = 0 ∧
        ∃ n, t.get? p.node = some n ∧ p.position = n.state.segmentStart) := by
  intro c q
  obtain ⟨hfloor, hspeed⟩ := Particle.move_of_bounces hbounce
  have hfall := Particle.fall_cases hc hgravity hv hdt hpos
  obtain ⟨hdown, hup⟩ := Particle.bounce_cases hc hrestitution (hfall.imp_left And.left)
  have hfalls (hstart : ¬ c.floor < p.position.y) : 0 < p.fall c dt := by
    have hspeed := Particle.velocity_pos_of_bounces hposition hv hdt hpos hc.floor_finite hbounce
      hstart
    rcases hfall with ⟨hfinite, hle⟩ | hinf
    · exact (zero_lt_iff hfinite).mpr (hspeed.trans_le hle)
    · exact pos_of_infinity hinf
  rw [hspeed]
  refine ⟨move_mem_advance hp, hfloor, ?_, hdown, hup, hfalls, ?_⟩
  · rcases hfall with ⟨hfinite, -⟩ | hinf
    · rw [zero_le_iff hfinite, lt_zero_iff hfinite]
      exact le_or_gt _ _
    · exact .inl (le_of_lt (pos_of_infinity hinf))
  · intro hs hrises
    have hbeyond : c.floor < p.position.y := by
      by_contra hstart
      exact not_le_of_lt hrises (le_of_lt (hfalls hstart))
    obtain ⟨n, hn, hwhere⟩ := (hs.onEdge p hp).exists_node
    obtain ⟨hlife, hstart⟩ := hwhere.resolve_right (not_not_intro hbeyond)
    exact ⟨hbeyond, hlife, n, hn, hstart⟩

theorem bounce_direction_of_falling :
    let t : Tree (Turtle Float32) :=
      .ofRoot { (default : Turtle Float32) with segmentStart := 0, position := ⟨0, 10, 0⟩ }
    let s := ((empty { (default : Physics Float32) with floor := 2 }).perform t .spawnAtRoot).2
    let dt := Float32.ofBits 0x3f000000
    ∃ p ∈ s.particles, s.physics.Valid ∧ 0 ≤ s.physics.gravity ∧ 0 ≤ s.physics.restitution ∧
      p.position.y.isFinite = true ∧ p.velocity.y.isFinite = true ∧ dt.isFinite = true ∧ 0 < dt ∧
      p.Bounces s.physics dt ∧ p.fall s.physics dt = 15 ∧
      p.move s.physics dt ∈ (s.advance t dt).2.particles ∧
      (p.move s.physics dt).velocity.y ≤ 0 := by
  intro t s dt
  have hs : s.Bounded t := (bounded_empty t _).perform .spawnAtRoot
  have hparticle : ∃ p ∈ s.particles, p.position.y.isFinite = true ∧
      p.velocity.y.isFinite = true ∧ s.physics.floor < p.position.y + p.velocity.y * dt ∧
      p.fall s.physics dt = 15 ∧ ¬ p.Completes s.physics dt := by decide +kernel
  obtain ⟨p, hp, hposition, hv, hbounce, hfall, hlives⟩ := hparticle
  have hgravity : 0 ≤ s.physics.gravity := by decide +kernel
  have hrestitution : 0 ≤ s.physics.restitution := by decide +kernel
  have hdt : dt.isFinite = true := by decide +kernel
  have hpos : 0 < dt := by decide +kernel
  obtain ⟨hmem, -, -, hdown, -⟩ := bounce_direction t hp hs.valid hgravity hrestitution hposition hv
    hdt hpos hbounce
  refine ⟨p, hp, hs.valid, hgravity, hrestitution, hposition, hv, hdt, hpos, hbounce, hfall,
    hmem hlives, (hdown ?_).mpr (.inl ?_)⟩
  · rw [hfall]
    decide +kernel
  · rw [hfall]
    decide +kernel

/-- A particle that enters beyond the floor and rises is turned down into it; and one that gravity
pulls down with infinite speed is left with no speed that is a number, if none is kept. -/
theorem bounces_into_floor :
    let t : Tree (Turtle Float32) :=
      .ofRoot { (default : Turtle Float32) with segmentStart := ⟨0, 100, 0⟩, position := ⟨0, 50, 0⟩ }
    let c : Physics Float32 := ⟨1, 0, 0, 1⟩
    let c' : Physics Float32 := ⟨2, Float32.ofBits 0x7f7fffff, 0, 0⟩
    let s := ((empty c).perform t .spawnAtRoot).2
    let s' := ((empty c').perform t .spawnAtRoot).2
    let half := Float32.ofBits 0x3f000000
    c.Valid ∧ 0 ≤ c.gravity ∧ 0 ≤ c.restitution ∧ c.restitution ≤ 1 ∧ s.physics = c ∧
      (∃ p ∈ s.particles, p.position.y = 100 ∧ p.velocity.y = -50 ∧ p.Bounces c half ∧
        (s.advance t half).2.particles = [p.move c half] ∧ (p.move c half).position.y = 0 ∧
        (p.move c half).velocity.y = 50 ∧ ¬ (p.move c half).velocity.y ≤ 0) ∧
      c'.Valid ∧ 0 ≤ c'.gravity ∧ 0 ≤ c'.restitution ∧ c'.restitution ≤ 1 ∧ s'.physics = c' ∧
      ∃ p ∈ s'.particles, p.velocity.y = -25 ∧ p.Bounces c' 2 ∧
        ¬ (p.move c' 2).velocity.y ≤ 0 := by
  intro t c c' s s' half
  have hc : c.Valid := by constructor <;> decide +kernel
  have hc' : c'.Valid := by constructor <;> decide +kernel
  refine ⟨hc, by decide +kernel, by decide +kernel, by decide +kernel, by decide +kernel, ?_, hc',
    by decide +kernel, by decide +kernel, by decide +kernel, by decide +kernel, ?_⟩
  · unfold Particle.Bounces
    decide +kernel
  · unfold Particle.Bounces
    decide +kernel

end Swarm

end BranchStream
