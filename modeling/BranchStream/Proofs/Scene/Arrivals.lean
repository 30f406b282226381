import BranchStream.Proofs.Scene.Emission
import BranchStream.Proofs.Scene.Rebuild
import Mathlib.Data.List.DropRight

namespace BranchStream

variable {α : Type}

def Request.isSpawn : Request α → Bool
  | .spawn => true
  | _ => false

/-- The particle has just entered at the root. -/
structure Particle.AtRoot [Scalar α] (root : Tree.Node (Turtle α)) (p : Particle α) : Prop where
  node : p.node = Tree.rootId
  life : p.life = 0
  position : p.position = root.state.segmentStart

namespace Scene

/-- How many particles were asked for since the last frame. -/
def queued (rs : List (Request α)) : Nat :=
  (rs.rtakeWhile fun r ↦ !r.isFrame).countP Request.isSpawn

theorem queued_concat (rs : List (Request α)) (r : Request α) : queued (rs ++ [r]) =
    if r.isFrame then 0 else if r.isSpawn then queued rs + 1 else queued rs := by
  rw [queued, List.rtakeWhile_concat]
  cases r.isFrame with
  | true => rfl
  | false => cases h : r.isSpawn <;> simp [queued, h]

variable [Elementary α] {s : Scene α}

theorem pending_answer (s : Scene α) (r : Request α) : (s.answer r).2.pending =
    if r.isFrame then 0 else if r.isSpawn then s.pending + 1 else s.pending := by
  cases r with
  | frame dt => rw [answer_frame, frame_eq]; rfl
  | tick now => rw [answer, ofDrawn_eq, tick_eq, frame_eq]; rfl
  | setIterations n =>
    rcases s.setIterations_cases n with ⟨k, hk⟩ | ⟨fault, hf⟩
    · rw [answer, hk]
      rfl
    · rw [answer, hf]
      rfl
  | setModifiers m =>
    rcases s.setModifiers_cases m with ⟨hm, -⟩ | ⟨fault, hf⟩
    · rw [answer, hm]
      rfl
    · rw [answer, hf]
      rfl
  | _ => rfl

theorem pending_after (h : s.pending = 0) (rs : List (Request α)) :
    (s.after rs).pending = .ofNat (queued rs) := by
  induction rs using List.reverseRecOn with
  | nil => exact h
  | append_singleton rs r ih =>
    rw [after_concat, pending_answer, ih, queued_concat, apply_ite UInt64.ofNat,
      apply_ite UInt64.ofNat, UInt64.ofNat_add]
    rfl

theorem fst_emit_of_not_pos (h : ∀ i, s.settings.emitInterval = some i → ¬ 0 < i) (dt : α) :
    (s.emit dt).1 = 0 := by
  rcases s.emit_cases dt with ⟨i, hinterval, hi, -⟩ | hemit
  · exact absurd hi (h i hinterval)
  · rw [hemit]

theorem Current.exists_arrivals (hs : s.Current) (dt : α) :
    ∃ (root : Tree.Node (Turtle α)) (rooted : List (Particle α)), s.shown.root? = some root ∧
      (s.emitted dt).2.particles =
        s.kept.survivors s.shown dt ++ s.kept.forked s.shown dt ++ rooted ∧
      (s.emitted dt).1 = rooted.map Particle.id ∧
      rooted.length = s.arrivals dt ∧
      ∀ p ∈ rooted, p.AtRoot root := by
  obtain ⟨root, hroot⟩ := Tree.exists_get? hs.shown.1.size_pos
  refine ⟨root, (s.advanced dt).2.entrants
    (List.replicate (s.arrivals dt) (Tree.rootId, root)), hroot, ?_, ?_, ?_, ?_⟩
  · rw [Scene.emitted, Swarm.spawnAtRoot_eq hroot, Swarm.enter_eq, advanced, Swarm.advance_eq]
  · rw [Scene.emitted, Swarm.spawnAtRoot_eq hroot, Swarm.enter_eq]
  · rw [Swarm.length_entrants, List.length_replicate]
  · intro p hp
    obtain ⟨e, he, hnode, hlife, hposition⟩ := Swarm.entering_of_mem_entrants hp
    obtain rfl := List.eq_of_mem_replicate he
    exact ⟨hnode, hlife, hposition⟩

theorem particles_advanced_of_rebuilds (h : s.rebuilds = true) (dt : α) :
    s.kept.survivors s.shown dt ++ s.kept.forked s.shown dt = [] := by
  have hnone : (s.advanced dt).2.particles = [] := by
    rw [advanced_of_rebuilds h, particles_kept_of_rebuilds h]
  rwa [advanced, Swarm.advance_eq] at hnone

/-- Each particle that was asked for enters exactly once, as long as the count does not wrap around.
After any run a frame adds its forks and then, at the start of the root's edge, as many particles as
were asked for since the frame before, and as many more as the timer lets in, which are none without
a positive interval; this exactly if they are fewer than 2 ^ 64 together, and otherwise what the sum
leaves over. This holds also of a frame that rebuilds the tree: it retires all particles, and those
that enter at the root are the ones that are left. Nothing is carried over to a later frame. -/
theorem requested_enter_once (d : Option (Definition α)) (settings : Settings α)
    (rs : List (Request α)) (r : Request α) :
    let s := (ofDefinition d settings).after rs
    ∀ dt ∈ s.timeStep? r, ∃ f s' t root forked rooted timed,
      s.answer r = (.drawn f, s') ∧ s'.tree? = some t ∧ t.root? = some root ∧
      s'.swarm.particles = s.kept.survivors t dt ++ forked ++ rooted ∧
      f.spawned = forked.map Particle.id ++ rooted.map Particle.id ∧
      forked.map Particle.node =
        (s.kept.completing dt).flatMap (fun p ↦ (t.children p.node).tail) ∧
      rooted.length = (queued rs + timed) % 2 ^ 64 ∧
      (rooted.length = queued rs + timed ↔ queued rs + timed < 2 ^ 64) ∧
      (∀ p ∈ rooted, p.AtRoot root) ∧
      ((∀ i, settings.emitInterval = some i → ¬ 0 < i) → timed = 0) ∧
      (∀ i, settings.emitInterval = some i → 0 < i →
        timed = (emission i settings.maxSpawnsPerFrame s.timer dt).1) ∧
      (f.rebuilt = true → f.died = s.swarm.ids ∧ s'.swarm.particles = rooted) ∧
      s'.pending = 0 := by
  intro s dt hdt
  have hs : s.Current := current_after d settings rs
  obtain ⟨hinterval, hcap⟩ := (ofDefinition d settings).emitSettings_after rs
  obtain ⟨clock, hanswer⟩ := answer_of_timeStep hdt
  obtain ⟨root, rooted, hroot, hparticles, hids, hlength, hrooted⟩ := hs.exists_arrivals dt
  have hvalid : validStep dt = dt := validStep_of_timeStep hdt
  have hcount : rooted.length = (queued rs + (s.emit dt).1) % 2 ^ 64 := by
    rw [hlength, arrivals_eq, pending_after rfl, UInt64.toNat_ofNat', Nat.mod_add_mod]
  refine ⟨_, _, s.shown, root, s.kept.forked s.shown dt, rooted, (s.emit dt).1, hanswer,
    tree?_frame _ dt, hroot, ?_, ?_, ?_, hcount, ?_, hrooted, ?_, ?_, ?_, ?_⟩
  · rw [frame_eq, hvalid]
    exact hparticles
  · rw [frame_eq, hvalid, ← hids, advanced, Swarm.advance_eq]
  · rw [Swarm.map_node_forked hs.shown.1, Swarm.forks_eq hs.shown.1]
  · rw [hcount]
    exact Nat.mod_eq_iff_lt (by decide)
  · intro hnone
    exact fst_emit_of_not_pos (fun i hi ↦ hnone i (hinterval.symm.trans hi)) dt
  · intro i hi hpos
    rw [emit_of_pos (hinterval.trans hi) hpos, hcap]
    rfl
  · intro hrebuilt
    have hrebuilds : s.rebuilds = true := by rwa [frame_eq] at hrebuilt
    refine ⟨(frame_of_rebuilds hrebuilds dt).1, ?_⟩
    rw [frame_eq, hvalid, hparticles, particles_advanced_of_rebuilds hrebuilds, List.nil_append]
  · rw [frame_eq]

theorem requested_enter_once_of_rebuild :
    let settings : Settings Float32 := { (default : Settings Float32) with emitInterval := none }
    let rs : List (Request Float32) :=
      [.spawn, .frame 0, .spawn, .setIterations 13, .setAction 'L' .forward, .spawn]
    let s := (ofDefinition none settings).after rs
    2 ∈ s.timeStep? (.frame 2) ∧ queued rs = 2 ∧ s.swarm.ids = [0] ∧
      (s.frame 2).1.spawned = [1, 2] ∧ (s.frame 2).1.died = [0] ∧ (s.frame 2).2.pending = 0 ∧
      ∃ t root, (s.frame 2).2.tree? = some t ∧ t.root? = some root ∧
        (s.frame 2).2.swarm.particles.length = 2 ∧
        ∀ p ∈ (s.frame 2).2.swarm.particles, p.AtRoot root := by
  intro settings rs s
  have hstep : 2 ∈ s.timeStep? (.frame 2) := by decide +kernel
  have hlive : s.swarm.ids = [0] := by decide +kernel
  have hrebuilt : (s.frame 2).1.rebuilt = true := by decide +kernel
  obtain ⟨f, s', t, root, forked, rooted, timed, hanswer, htree, hroot, -, -, -, hlength, -, hrooted,
    hnone, -, hrebuild, hpending⟩ := requested_enter_once none settings rs (.frame 2) 2 hstep
  obtain ⟨rfl, rfl⟩ := s.frame_eq_of_answer hanswer
  obtain ⟨hdied, hparticles⟩ := hrebuild hrebuilt
  rw [hnone nofun] at hlength
  refine ⟨hstep, rfl, hlive, by decide +kernel, hdied.trans hlive, hpending, t, root, htree, hroot,
    ?_, ?_⟩
  · rw [hparticles, hlength]
    rfl
  · rwa [hparticles]

/-- One particle was asked for and the timer lets in as many as a count can tell, so that the count
wraps around to zero: none enters, and the request is not carried over either. -/
theorem request_lost :
    let settings : Settings Float32 :=
      { (default : Settings Float32) with
        emitInterval := some (Float32.ofBits 0x2edbe6ff), maxSpawnsPerFrame := 2 ^ 64 - 1 }
    let s := (ofDefinition none settings).after [.spawn]
    let dt := Float32.ofBits 0x501502f9
    dt ∈ s.timeStep? (.frame dt) ∧ queued [(.spawn : Request Float32)] = 1 ∧
      (s.emit dt).1 = 2 ^ 64 - 1 ∧ s.answer (.frame dt) = (.drawn (s.frame dt).1, (s.frame dt).2) ∧
      (s.frame dt).1.spawned = [] ∧ (s.frame dt).2.swarm.ids = [] ∧ (s.frame dt).2.pending = 0 := by
  intro settings s dt
  exact ⟨by decide +kernel, by decide, by decide +kernel, s.answer_frame _, by decide +kernel,
    by decide +kernel, by decide +kernel⟩

end Scene

end BranchStream
