import BranchStream.Binary32.Instances
import BranchStream.Proofs.Stream.Conservation

namespace BranchStream

variable {α ι : Type}

section

variable {β γ : Type} [DecidableEq ι]

def labelled (f : ι) (l : List (β × ι)) : List β :=
  l.filterMap fun (b, g) ↦ if g = f then some b else none

theorem labelled_append (f : ι) (l l' : List (β × ι)) :
    labelled f (l ++ l') = labelled f l ++ labelled f l' := List.filterMap_append

theorem labelled_map (f : ι) (l : List (β × ι)) (h : β → γ) :
    labelled f (l.map (Prod.map h id)) = (labelled f l).map h := by
  induction l with
  | nil => rfl
  | cons e l ih => by_cases he : e.2 = f <;> simp_all [labelled]

theorem labelled_filterMap (f : ι) (l : List (β × ι)) (h : β → Option γ) :
    labelled f (l.filterMap fun e ↦ (h e.1).map (·, e.2)) = (labelled f l).filterMap h := by
  induction l with
  | nil => rfl
  | cons e l ih => cases hb : h e.1 <;> by_cases he : e.2 = f <;> simp_all [labelled]

theorem labelled_flatMap (f : ι) (l : List (β × ι)) (h : β → List γ) :
    labelled f (l.flatMap fun e ↦ (h e.1).map (·, e.2)) = (labelled f l).flatMap h := by
  induction l with
  | nil => rfl
  | cons e l ih =>
    have hsame : labelled f ((h e.1).map (·, e.2)) = if e.2 = f then h e.1 else [] := by
      by_cases he : e.2 = f <;> simp [labelled, he]
    rw [List.flatMap_cons, labelled_append, ih, hsame]
    by_cases he : e.2 = f <;> simp [labelled, he]

end

namespace Particle

def body (p : Particle α) : Nat × Vec3 α × Vec3 α × α := (p.node, p.position, p.velocity, p.life)

def renumbered (ρ : Nat → Nat) (p : Particle α) : Particle α := { p with id := ρ p.id }

theorem renumbered_congr {ρ ρ' : Nat → Nat} {p : Particle α} (h : ρ p.id = ρ' p.id) :
    p.renumbered ρ = p.renumbered ρ' := by
  rw [renumbered, renumbered, h]

variable [Scalar α]

theorem move_renumbered (c : Physics α) (dt : α) (ρ : Nat → Nat) (p : Particle α) :
    (p.renumbered ρ).move c dt = (p.move c dt).renumbered ρ := by
  dsimp only [move, renumbered]
  split <;> rfl

theorem cross_renumbered (t : Tree (Turtle α)) (c : Physics α) (ρ : Nat → Nat) (p : Particle α) :
    (p.renumbered ρ).cross t c = ((p.cross t c).1.map (renumbered ρ), (p.cross t c).2) := by
  dsimp only [cross, renumbered]
  split
  · rfl
  · split <;> rfl

theorem step_renumbered (t : Tree (Turtle α)) (c : Physics α) (dt : α) (ρ : Nat → Nat)
    (p : Particle α) : (p.renumbered ρ).step t c dt =
      ((p.step t c dt).1.map (renumbered ρ), (p.step t c dt).2) := by
  rw [step, step, move_renumbered]
  by_cases h : (p.move c dt).life ≤ c.lifetime
  · rw [if_pos h]
    exact if_pos h
  · rw [if_neg h, ← cross_renumbered]
    exact if_neg h

end Particle

open Particle (body renumbered)

/-- Particles with the bodies of others, which are numbered on from `m`, are these others numbered
anew; numbers below `m` keep what is given for them. -/
theorem exists_renumbering {ps qs : List (Particle α)} {m : Nat} (hbody : ps.map body = qs.map body)
    (hids : qs.map Particle.id = List.range' m qs.length) (ρ : Nat → Nat) :
    ∃ ρ' : Nat → Nat, (∀ id < m, ρ' id = ρ id) ∧ ps = qs.map (renumbered ρ') := by
  have hlength : ps.length = qs.length := by simpa using congrArg List.length hbody
  let ρ' : Nat → Nat := fun id ↦ if id < m then ρ id else ((ps.map Particle.id)[id - m]?).getD 0
  refine ⟨ρ', fun id hid ↦ if_pos hid, ?_⟩
  apply List.ext_getElem
  · rw [List.length_map, hlength]
  · intro i hi hi'
    have hq : i < qs.length := hlength ▸ hi
    have hbodies : ps[i].body = qs[i].body := by
      have hget := congrArg (·[i]?) hbody
      simpa [hi, hq] using hget
    have hid : qs[i].id = m + i := by
      have hget := congrArg (·[i]?) hids
      simpa [hq] using hget
    have hnew : ρ' qs[i].id = ps[i].id := by
      simp [ρ', hid, hi]
    rw [List.getElem_map]
    simp only [body, Prod.mk.injEq] at hbodies
    obtain ⟨hnode, hposition, hvelocity, hlife⟩ := hbodies
    simp only [renumbered, hnew, ← hnode, ← hposition, ← hvelocity, ← hlife]

namespace Swarm

variable [Scalar α]

section

variable (s : Swarm α) (t : Tree (Turtle α)) (dt : α) (fs : List ι)

def continuing : List (Particle α × ι) :=
  (s.particles.zip fs).filterMap fun e ↦ (e.1.step t s.physics dt).1.map (·, e.2)

def branching : List ((Nat × Tree.Node (Turtle α)) × ι) :=
  (s.particles.zip fs).flatMap fun e ↦ (t.existing (e.1.step t s.physics dt).2).map (·, e.2)

/-- The founders after a step, if `fs` are those of the particles before it: who lives on keeps his,
and a fork has that of the particle it comes from. -/
def founders : List ι :=
  (s.continuing t dt fs).map Prod.snd ++ (s.branching t dt fs).map Prod.snd

/-- The particles that go back to `f`. -/
def family [DecidableEq ι] (f : ι) : List (Particle α) := labelled f (s.particles.zip fs)

end

def foundersAfter (t : Tree (Turtle α)) : Swarm α → List ι → List α → List ι
  | _, fs, [] => fs
  | s, fs, dt :: dts => foundersAfter t (s.advance t dt).2 (s.founders t dt fs) dts

variable {s : Swarm α} {t : Tree (Turtle α)} {dt : α} {fs : List ι} {f : ι}

theorem map_body_entrants (s : Swarm α) (nodes : List (Nat × Tree.Node (Turtle α))) :
    (s.entrants nodes).map body =
      nodes.map fun (node, n) ↦ (Particle.entering s.physics 0 node n.state).body := by
  have hnodes : nodes = nodes.zipIdx.map Prod.fst := (List.zipIdx_map_fst 0 nodes).symm
  conv_rhs => rw [hnodes]
  rw [entrants, List.map_map, List.map_map]
  rfl

theorem map_body_forked (s : Swarm α) (t : Tree (Turtle α)) (dt : α) :
    (s.forked t dt).map body = (t.existing (s.forks t dt)).map fun (node, n) ↦
      (Particle.entering s.physics 0 node n.state).body := map_body_entrants s _

theorem map_id_forked (s : Swarm α) (t : Tree (Turtle α)) (dt : α) :
    (s.forked t dt).map Particle.id = List.range' s.nextId (s.forked t dt).length := by
  rw [forked, length_entrants, map_id_entrants]

theorem nextId_advance (s : Swarm α) (t : Tree (Turtle α)) (dt : α) :
    (s.advance t dt).2.nextId = s.nextId + (s.advance t dt).1.spawned.length := by
  rw [advance_eq, List.length_map]

theorem spawned_advance (s : Swarm α) (t : Tree (Turtle α)) (dt : α) :
    (s.advance t dt).1.spawned = List.range' s.nextId (s.advance t dt).1.spawned.length := by
  rw [advance_eq, List.length_map, map_id_forked]

theorem lt_next_advance (h : ∀ p ∈ s.particles, p.id < s.nextId) :
    ∀ p ∈ (s.advance t dt).2.particles, p.id < (s.advance t dt).2.nextId := by
  intro p hp
  have hid : p.id ∈ s.ids ++ (s.advance t dt).1.spawned :=
    (ids_advance_sublist s t dt).subset (List.mem_map_of_mem hp)
  rw [nextId_advance]
  rcases List.mem_append.mp hid with hid | hid
  · obtain ⟨q, hq, hqid⟩ := List.mem_map.mp hid
    have hlt := h q hq
    omega
  · rw [spawned_advance, List.mem_range'_1] at hid
    exact hid.2

theorem ids_advances_sublist (s : Swarm α) (t : Tree (Turtle α)) (dts : List α) :
    (s.advances t dts).ids.Sublist (s.ids ++ (s.reports t dts).flatMap Report.spawned) ∧
      (s.reports t dts).flatMap Report.spawned =
        List.range' s.nextId ((s.reports t dts).flatMap Report.spawned).length := by
  induction dts generalizing s with
  | nil =>
    refine ⟨?_, rfl⟩
    rw [reports, List.flatMap_nil, List.append_nil]
    exact .refl _
  | cons dt dts ih =>
    obtain ⟨hids, hspawned⟩ := ih (s.advance t dt).2
    rw [reports, List.flatMap_cons, ← List.append_assoc]
    refine ⟨hids.trans ((ids_advance_sublist s t dt).append_right _), ?_⟩
    rw [List.length_append, ← List.range'_append_1, ← spawned_advance, ← nextId_advance,
      ← hspawned]

theorem map_fst_continuing (h : fs.length = s.particles.length) :
    (s.continuing t dt fs).map Prod.fst = s.survivors t dt := by
  have hzip : (s.particles.zip fs).map Prod.fst = s.particles := List.map_fst_zip h.ge
  rw [survivors, ← hzip, List.filterMap_map, continuing, List.map_filterMap]
  refine List.filterMap_congr fun e _ ↦ ?_
  rw [Option.map_map]
  exact Option.map_id'

theorem map_fst_branching (h : fs.length = s.particles.length) :
    (s.branching t dt fs).map Prod.fst = t.existing (s.forks t dt) := by
  have hzip : (s.particles.zip fs).map Prod.fst = s.particles := List.map_fst_zip h.ge
  rw [forks, ← hzip, List.flatMap_map, Tree.existing, List.filterMap_flatMap, branching,
    List.map_flatMap]
  refine List.flatMap_congr fun e _ ↦ ?_
  rw [List.map_map]
  exact List.map_id' _

theorem length_branching (h : fs.length = s.particles.length) :
    (s.branching t dt fs).length = (s.forked t dt).length := by
  rw [forked, length_entrants, ← map_fst_branching h, List.length_map]

theorem length_founders (h : fs.length = s.particles.length) :
    (s.founders t dt fs).length = (s.advance t dt).2.particles.length := by
  rw [advance_eq, founders, List.length_append, List.length_append, List.length_map,
    List.length_map, length_branching h, ← map_fst_continuing h, List.length_map]

theorem zip_founders (h : fs.length = s.particles.length) :
    (s.advance t dt).2.particles.zip (s.founders t dt fs) = s.continuing t dt fs ++
      (s.forked t dt).zip ((s.branching t dt fs).map Prod.snd) := by
  have hlength : (s.survivors t dt).length = ((s.continuing t dt fs).map Prod.snd).length := by
    rw [← map_fst_continuing h, List.length_map, List.length_map]
  rw [advance_eq, founders, List.zip_append hlength]
  exact congrArg (· ++ _) (List.zip_of_prod (map_fst_continuing h) rfl).symm

variable [DecidableEq ι]

def familyForks (s : Swarm α) (t : Tree (Turtle α)) (dt : α) (fs : List ι) (f : ι) :
    List (Particle α) :=
  labelled f ((s.forked t dt).zip ((s.branching t dt fs).map Prod.snd))

theorem family_advance (h : fs.length = s.particles.length) (f : ι) :
    (s.advance t dt).2.family (s.founders t dt fs) f =
      ((s.family fs f).filterMap fun p ↦ (p.step t s.physics dt).1) ++ s.familyForks t dt fs f := by
  rw [family, zip_founders h, labelled_append, continuing,
    labelled_filterMap f _ fun p : Particle α ↦ (p.step t s.physics dt).1]
  rfl

theorem map_body_familyForks (h : fs.length = s.particles.length) (f : ι) :
    (s.familyForks t dt fs f).map body =
      (t.existing ((s.family fs f).flatMap fun p ↦ (p.step t s.physics dt).2)).map
        fun (node, n) ↦ (Particle.entering s.physics 0 node n.state).body := by
  have hbodies : ((s.forked t dt).zip ((s.branching t dt fs).map Prod.snd)).map
      (Prod.map body id) = (s.branching t dt fs).map (Prod.map
        (fun (node, n) ↦ (Particle.entering s.physics 0 node n.state).body) id) := by
    rw [← List.zip_map_left, map_body_forked, ← map_fst_branching h, List.map_map, List.zip_map']
    rfl
  rw [familyForks, ← labelled_map, hbodies, labelled_map, branching,
    labelled_flatMap f _ fun p : Particle α ↦ t.existing (p.step t s.physics dt).2,
    Tree.existing, List.filterMap_flatMap]
  rfl

/-- The family of `f` in the swarm `s` and the swarm `alone` are the same particles, but for their
numbers, which `ρ` maps to those in `s`. -/
structure Follows (ρ : Nat → Nat) (s : Swarm α) (fs : List ι) (f : ι) (alone : Swarm α) : Prop where
  length_eq : fs.length = s.particles.length
  physics_eq : s.physics = alone.physics
  lt_next : ∀ p ∈ alone.particles, p.id < alone.nextId
  family_eq : s.family fs f = alone.particles.map (renumbered ρ)

variable {ρ ρ' : Nat → Nat} {alone : Swarm α}

omit [Scalar α] in
theorem Follows.congr (h : Follows ρ s fs f alone) (hρ : ∀ id < alone.nextId, ρ' id = ρ id) :
    Follows ρ' s fs f alone where
  length_eq := h.length_eq
  physics_eq := h.physics_eq
  lt_next := h.lt_next
  family_eq := by
    rw [h.family_eq]
    refine List.map_congr_left fun p hp ↦ ?_
    exact Particle.renumbered_congr (hρ p.id (h.lt_next p hp)).symm

/-- What becomes of the family in a step is what becomes of it alone; only the numbers of new forks
are still to be mapped. -/
theorem Follows.advance (h : Follows ρ s fs f alone) (t : Tree (Turtle α)) (dt : α) :
    ∃ ρ', (∀ id < alone.nextId, ρ' id = ρ id) ∧
      Follows ρ' (s.advance t dt).2 (s.founders t dt fs) f (alone.advance t dt).2 := by
  have hforks : (s.family fs f).flatMap (fun p ↦ (p.step t s.physics dt).2) =
      alone.forks t dt := by
    rw [h.family_eq, List.flatMap_map, forks, h.physics_eq]
    simp only [Particle.step_renumbered]
  have hbodies : (s.familyForks t dt fs f).map body = (alone.forked t dt).map body := by
    rw [map_body_familyForks h.length_eq, hforks, h.physics_eq, map_body_forked]
  obtain ⟨ρ', hold, hnew⟩ := exists_renumbering hbodies (map_id_forked alone t dt) ρ
  have hsurvivors : (s.family fs f).filterMap (fun p ↦ (p.step t s.physics dt).1) =
      (alone.survivors t dt).map (renumbered ρ') := by
    rw [(h.congr hold).family_eq, List.filterMap_map, survivors, List.map_filterMap, h.physics_eq]
    refine List.filterMap_congr fun p _ ↦ ?_
    rw [Function.comp_apply, Particle.step_renumbered]
  refine ⟨ρ', hold, length_founders h.length_eq, h.physics_eq, lt_next_advance h.lt_next, ?_⟩
  rw [family_advance h.length_eq, hsurvivors, hnew, advance_eq, List.map_append]

theorem Follows.advances (h : Follows ρ s fs f alone) (t : Tree (Turtle α)) (dts : List α) :
    ∃ ρ', (∀ id < alone.nextId, ρ' id = ρ id) ∧ ∀ k,
      Follows ρ' (s.advances t (dts.take k)) (foundersAfter t s fs (dts.take k)) f
        (alone.advances t (dts.take k)) := by
  induction dts generalizing s fs alone ρ with
  | nil => exact ⟨ρ, fun _ _ ↦ rfl, fun k ↦ by rwa [List.take_nil]⟩
  | cons dt dts ih =>
    obtain ⟨ρ₁, hρ₁, hstep⟩ := h.advance t dt
    obtain ⟨ρ', hρ', hrun⟩ := ih hstep
    have hold : ∀ id < alone.nextId, ρ' id = ρ id := by
      intro id hid
      have hnext : alone.nextId ≤ (alone.advance t dt).2.nextId := Nat.le_add_right _ _
      rw [hρ' id (hid.trans_le hnext), hρ₁ id hid]
    refine ⟨ρ', hold, fun k ↦ ?_⟩
    cases k with
    | zero => exact h.congr hold
    | succ k => exact hrun k

/-- Particles do not notice each other, in a tree or in any other arena. A step of two lists of
particles one after the other is a step of each: the survivors of the first, those of the second,
the forks of the first and those of the second, the latter numbered on together. In a run of steps
particles keep their order; and a family, that is one particle or several and all that descend from
them, is after each step what it would be without the others, but for the numbers of its forks. -/
theorem particles_do_not_interact (t : Tree (Turtle α)) :
    (∀ (s : Swarm α) (dt : α), (s.advance t dt).2.particles = s.survivors t dt ++ s.forked t dt ∧
      (s.advance t dt).1.spawned = (s.forked t dt).map Particle.id ∧
      (s.advance t dt).1.spawned = List.range' s.nextId (s.advance t dt).1.spawned.length) ∧
    (∀ (ps qs : List (Particle α)) (c : Physics α) (m n k : Nat) (dt : α),
      let s : Swarm α := ⟨ps ++ qs, c, k⟩
      let left : Swarm α := ⟨ps, c, m⟩
      let right : Swarm α := ⟨qs, c, n⟩
      s.survivors t dt = left.survivors t dt ++ right.survivors t dt ∧
        (s.forked t dt).map body = (left.forked t dt ++ right.forked t dt).map body ∧
        (s.advance t dt).1.died = (left.advance t dt).1.died ++ (right.advance t dt).1.died) ∧
    (∀ (s : Swarm α) (dts : List α),
      (s.advances t dts).ids.Sublist (s.ids ++ (s.reports t dts).flatMap Report.spawned)) ∧
    ∀ (s : Swarm α) (fs : List ι) (f : ι) (n : Nat) (dts : List α),
      fs.length = s.particles.length → (∀ p ∈ s.family fs f, p.id < n) →
        let alone : Swarm α := ⟨s.family fs f, s.physics, n⟩
        ∃ ρ : Nat → Nat, (∀ id < n, ρ id = id) ∧ ∀ k,
          (foundersAfter t s fs (dts.take k)).length =
              (s.advances t (dts.take k)).particles.length ∧
            (s.advances t (dts.take k)).family (foundersAfter t s fs (dts.take k)) f =
              (alone.advances t (dts.take k)).particles.map (renumbered ρ) := by
  refine ⟨?_, ?_, fun s dts ↦ (ids_advances_sublist s t dts).1, ?_⟩
  · intro s dt
    exact ⟨by rw [advance_eq], by rw [advance_eq], spawned_advance s t dt⟩
  · intro ps qs c m n k dt s left right
    have hforks : s.forks t dt = left.forks t dt ++ right.forks t dt := List.flatMap_append
    have hentering : t.existing (s.forks t dt) =
        t.existing (left.forks t dt) ++ t.existing (right.forks t dt) := by
      rw [hforks]
      exact List.filterMap_append
    refine ⟨List.filterMap_append, ?_, ?_⟩
    · rw [List.map_append, map_body_forked, map_body_forked, map_body_forked, hentering,
        List.map_append]
    · rw [advance_eq, advance_eq, advance_eq, dying, List.filter_append, List.map_append]
      rfl
  · intro s fs f n dts hlength hids alone
    have hstart : Follows id s fs f alone := by
      refine ⟨hlength, rfl, hids, ?_⟩
      exact (List.map_id' _).symm
    obtain ⟨ρ, hρ, hrun⟩ := hstart.advances t dts
    exact ⟨ρ, hρ, fun k ↦ ⟨(hrun k).length_eq, (hrun k).family_eq⟩⟩

/-- Two particles fork at the same time. The fork of the second is the fourth particle to enter
here, but the third if the second particle is alone. -/
theorem particles_do_not_interact_of_two_forks :
    let t : Tree (Turtle Float32) := ((Tree.ofRoot default).addChild 0 default).addChild 0 default
    let s : Swarm Float32 := ((Swarm.empty default).spawnAtRoot t 2).2
    let alone : Swarm Float32 := ⟨s.family [0, 1] 1, s.physics, 2⟩
    [0, 1].length = s.particles.length ∧ (∀ p ∈ s.family [0, 1] 1, p.id < 2) ∧
      (alone.advances t [2]).ids = [1, 2] ∧ ∃ ρ : Nat → Nat, ρ 1 = 1 ∧ ρ 2 = 3 ∧
        (s.advances t [2]).family (foundersAfter t s [0, 1] [2]) 1 =
          (alone.advances t [2]).particles.map (renumbered ρ) := by
  intro t s alone
  have hlength : [0, 1].length = s.particles.length := by decide +kernel
  have hids : ∀ p ∈ s.family [0, 1] 1, p.id < 2 := by decide +kernel
  have halone : (alone.advances t [2]).ids = [1, 2] := by decide +kernel
  have hfamily : ((s.advances t [2]).family (foundersAfter t s [0, 1] [2]) 1).map Particle.id =
      [1, 3] := by decide +kernel
  obtain ⟨ρ, hρ, hrun⟩ :=
    (particles_do_not_interact t).2.2.2 s [0, 1] 1 2 [2] hlength hids
  have hsame := (hrun 1).2
  rw [List.take_succ_cons, List.take_zero] at hsame
  have hnumbers := congrArg (List.map Particle.id) hsame
  rw [hfamily, List.map_map] at hnumbers
  have hmap : ((alone.advances t [2]).ids.map ρ) = [1, 3] := by
    rw [hnumbers, ids, List.map_map]
    rfl
  rw [halone] at hmap
  simp only [List.map_cons, List.map_nil, List.cons.injEq, and_true] at hmap
  exact ⟨hlength, hids, halone, ρ, hmap.1, hmap.2, hsame⟩

end Swarm

end BranchStream
