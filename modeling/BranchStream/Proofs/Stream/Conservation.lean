import BranchStream.Binary32.Instances
import BranchStream.Proofs.Branches.Subtree
import BranchStream.Proofs.Stream.Advance
import BranchStream.Proofs.Turtle.Growth
import Mathlib.Algebra.Ring.Nat
import Mathlib.Data.List.Flatten

namespace BranchStream.Swarm

variable {α : Type}

section

variable [Scalar α] {s : Swarm α} {t : Tree (Turtle α)} {dt : α}

def passed (s : Swarm α) (dt : α) : List Nat := (s.completing dt).map Particle.node

/-- The nodes that are entered in a step: those that completing particles go on to, and those that
particles are forked onto. -/
def entered (s : Swarm α) (t : Tree (Turtle α)) (dt : α) : List Nat :=
  ((s.completing dt).filterMap fun p ↦ (p.step t s.physics dt).1.map Particle.node) ++
    (s.forked t dt).map Particle.node

def advances (t : Tree (Turtle α)) (s : Swarm α) (dts : List α) : Swarm α :=
  dts.foldl (fun s dt ↦ (s.advance t dt).2) s

def reports (t : Tree (Turtle α)) : Swarm α → List α → List Report
  | _, [] => []
  | s, dt :: dts => (s.advance t dt).1 :: reports t (s.advance t dt).2 dts

def visits (t : Tree (Turtle α)) : Swarm α → List α → List Nat
  | _, [] => []
  | s, dt :: dts => s.entered t dt ++ visits t (s.advance t dt).2 dts

theorem passed_eq : s.passed dt =
    s.particles.flatMap fun p ↦ if p.Completes s.physics dt then [p.node] else [] := by
  rw [passed, List.map_eq_flatMap, flatMap_completing]

theorem entered_perm (ht : t.Grown) : (s.entered t dt).Perm
    (s.particles.flatMap fun p ↦ if p.Completes s.physics dt then t.children p.node else []) := by
  rw [entered, map_node_forked ht, forks_eq ht, List.filterMap_eq_flatMap_toList,
    ← flatMap_completing]
  refine (List.flatMap_append_perm _ _ _).trans (List.Perm.of_eq ?_)
  apply List.flatMap_congr
  intro p hp
  have hc : p.Completes s.physics dt := by simpa using (List.mem_filter.mp hp).2
  have hn := Particle.nodes_step ht s.physics dt p
  rwa [Particle.snd_step ht, Particle.heirs, if_pos hc, if_pos hc] at hn

/-- A step moves what is left to stream over from the subtrees of the particles to the nodes that
have been passed. -/
theorem subtrees_advance (ht : t.Grown) (dt : α) :
    (s.particles.flatMap fun p ↦ t.subtree p.node).Perm
      (s.passed dt ++ (s.advance t dt).2.particles.flatMap fun p ↦ t.subtree p.node) := by
  have hsplit (p : Particle α) : t.subtree p.node =
      (if p.Completes s.physics dt then [p.node] else []) ++
        (p.heirs t s.physics dt).flatMap t.subtree := by
    by_cases h : p.Completes s.physics dt
    · rw [Particle.heirs, if_pos h, if_pos h, ht.subtree_eq, List.singleton_append]
    · rw [Particle.heirs, if_neg h, if_neg h, List.flatMap_singleton, List.nil_append]
  have hafter : ((s.advance t dt).2.particles.flatMap fun p ↦ t.subtree p.node).Perm
      (s.particles.flatMap fun p ↦ (p.heirs t s.physics dt).flatMap t.subtree) := by
    rw [← List.flatMap_map (f := Particle.node) (g := t.subtree), ← List.flatMap_assoc]
    exact (nodes_advance ht).flatMap_right t.subtree
  rw [List.flatMap_congr fun p _ ↦ hsplit p, passed_eq]
  exact (List.flatMap_append_perm _ _ _).symm.trans (hafter.symm.append_left _)

theorem entered_append_nodes (ht : t.Grown) :
    (s.entered t dt ++ s.particles.map Particle.node).Perm
      (s.passed dt ++ (s.advance t dt).2.particles.map Particle.node) := by
  have hnodes : s.particles.map Particle.node = s.particles.flatMap fun p ↦ [p.node] :=
    List.map_eq_flatMap
  have hswap (p : Particle α) :
      ((if p.Completes s.physics dt then t.children p.node else []) ++ [p.node]).Perm
        ((if p.Completes s.physics dt then [p.node] else []) ++ p.heirs t s.physics dt) := by
    by_cases h : p.Completes s.physics dt
    · rw [Particle.heirs, if_pos h, if_pos h, if_pos h]
      exact List.perm_append_comm
    · rw [Particle.heirs, if_neg h, if_neg h, if_neg h]
  rw [hnodes, passed_eq]
  refine ((entered_perm ht).append_right _).trans ?_
  refine (List.flatMap_append_perm _ _ _).trans ?_
  refine (List.Perm.flatMap_left _ fun p _ ↦ hswap p).trans ?_
  exact (List.flatMap_append_perm _ _ _).symm.trans ((nodes_advance ht).symm.append_left _)

theorem length_died_advance (ht : t.Grown) :
    (s.advance t dt).1.died.length = (s.passed dt).countP t.isLeaf := by
  rw [advance_eq, dying, List.length_map, ← List.countP_eq_length_filter, passed, completing,
    List.countP_map, List.countP_filter]
  apply List.countP_congr
  intro p _
  rw [Particle.isNone_step ht, Function.comp_apply, Bool.and_comm]

theorem length_advance (s : Swarm α) (t : Tree (Turtle α)) (dt : α) :
    (s.advance t dt).2.particles.length + (s.advance t dt).1.died.length =
    s.particles.length + (s.advance t dt).1.spawned.length := by
  have hsurvivors : (s.survivors t dt).length =
      s.particles.countP fun p ↦ !(p.step t s.physics dt).1.isNone := by
    rw [survivors, List.length_filterMap_eq_countP]
    exact List.countP_congr fun p _ ↦ by rw [Option.not_isNone]
  have hall := s.particles.length_eq_countP_add_countP fun p ↦ (p.step t s.physics dt).1.isNone
  simp only [Bool.not_eq_true, Bool.decide_eq_false] at hall
  rw [advance_eq]
  simp only [dying, List.length_append, List.length_map, ← List.countP_eq_length_filter]
  omega

theorem sum_leaves_advance (ht : t.Grown) : (s.particles.map fun p ↦ t.leaves p.node).sum =
    ((s.advance t dt).2.particles.map fun p ↦ t.leaves p.node).sum +
      (s.advance t dt).1.died.length := by
  have hsum (ps : List (Particle α)) : (ps.map fun p ↦ t.leaves p.node).sum =
      (ps.flatMap fun p ↦ t.subtree p.node).countP t.isLeaf := by
    rw [List.countP_flatMap]
    rfl
  rw [hsum, hsum, (subtrees_advance ht dt).countP_eq, List.countP_append, length_died_advance ht]
  omega

theorem exists_passed (ht : t.Grown) (s : Swarm α) (dts : List α) : ∃ passed : List Nat,
    (s.particles.flatMap fun p ↦ t.subtree p.node).Perm
      (passed ++ (s.advances t dts).particles.flatMap fun p ↦ t.subtree p.node) ∧
    (s.visits t dts ++ s.particles.map Particle.node).Perm
      (passed ++ (s.advances t dts).particles.map Particle.node) ∧
    ((s.reports t dts).flatMap Report.died).length = passed.countP t.isLeaf ∧
    (s.advances t dts).particles.length + ((s.reports t dts).flatMap Report.died).length =
      s.particles.length + ((s.reports t dts).flatMap Report.spawned).length := by
  induction dts generalizing s with
  | nil => exact ⟨[], List.Perm.refl _, List.Perm.refl _, rfl, rfl⟩
  | cons dt dts ih =>
    obtain ⟨passed, htrees, hnodes, hdied, hlength⟩ := ih (s.advance t dt).2
    refine ⟨s.passed dt ++ passed, ?_, ?_, ?_, ?_⟩
    · rw [List.append_assoc]
      exact (subtrees_advance ht dt).trans (htrees.append_left _)
    · rw [visits, List.append_assoc, List.append_assoc]
      refine (List.perm_append_comm_assoc _ _ _).trans ?_
      refine ((entered_append_nodes ht).append_left _).trans ?_
      exact (List.perm_append_comm_assoc _ _ _).trans (hnodes.append_left _)
    · rw [reports, List.flatMap_cons, List.length_append, hdied, length_died_advance ht,
        List.countP_append]
    · have h := length_advance s t dt
      simp only [reports, List.flatMap_cons, List.length_append, advances, List.foldl_cons]
        at hlength ⊢
      omega

theorem spawn?_of_lt (s : Swarm α) {r : Nat} (hr : r < t.size) : ∃ n, t.get? r = some n ∧
    s.spawn? t r = some (s.nextId, (s.enter [(r, n)]).2) := by
  obtain ⟨n, hn⟩ := Tree.exists_get? hr
  exact ⟨n, hn, by rw [spawn?, hn, Option.map_some]⟩

end

variable [Elementary α]

/-- Steps of any lengths, not a number among them, conserve leaves: those below the particles before
a step are those below them after it and one for each particle that died. What one particle starts
in an empty swarm enters each node below it at most once, and just once when the swarm is empty
again. -/
theorem streaming_conserves_leaves :
    (∀ (i : Interpreter α) (w : Word) (m : Modifiers α), (i.build w m).Grown) ∧
    ∀ t : Tree (Turtle α), t.Grown → t.leaves Tree.rootId = t.leafCount ∧
      (∀ (s : Swarm α) (dt : α), (s.particles.map fun p ↦ t.leaves p.node).sum =
        ((s.advance t dt).2.particles.map fun p ↦ t.leaves p.node).sum +
          (s.advance t dt).1.died.length) ∧
      ∀ s : Swarm α, s.particles = [] → ∀ r < t.size, ∃ id s₀, s.spawn? t r = some (id, s₀) ∧
        ∀ dts : List α,
          ((s₀.advances t dts).particles.Pairwise fun p q ↦
            (t.subtree p.node).Disjoint (t.subtree q.node)) ∧
          (r :: s₀.visits t dts).Nodup ∧ (∀ m ∈ r :: s₀.visits t dts, m ∈ t.subtree r) ∧
          ((s₀.advances t dts).particles = [] →
            (r :: s₀.visits t dts).Perm (t.subtree r) ∧
            ((s₀.reports t dts).flatMap Report.died).length = t.leaves r ∧
            ((s₀.reports t dts).flatMap Report.spawned).length + 1 = t.leaves r) := by
  refine ⟨Interpreter.grown_build, fun t ht ↦ ⟨ht.leaves_root, fun s dt ↦ sum_leaves_advance ht,
    fun s hs r hr ↦ ?_⟩⟩
  obtain ⟨n, -, hspawn⟩ := spawn?_of_lt s hr
  refine ⟨s.nextId, (s.enter [(r, n)]).2, hspawn, ?_⟩
  intro dts
  obtain ⟨passed, htrees, hnodes, hdied, hlength⟩ := exists_passed ht (s.enter [(r, n)]).2 dts
  generalize (s.enter [(r, n)]).2.advances t dts = s' at *
  have hparticle : (s.enter [(r, n)]).2.particles = [.entering s.physics s.nextId r n.state] := by
    rw [enter_eq, hs]
    rfl
  rw [hparticle] at htrees hnodes hlength
  simp only [List.flatMap_cons, List.flatMap_nil, List.append_nil, List.map_cons, List.map_nil,
    List.length_singleton, Particle.entering] at htrees hnodes hlength
  have hentered := (List.perm_append_singleton r _).symm.trans hnodes
  have hnodup := htrees.nodup_iff.mp (ht.nodup_subtree r)
  have hsub : (passed ++ s'.particles.map Particle.node).Sublist
      (passed ++ s'.particles.flatMap fun p ↦ t.subtree p.node) := by
    rw [List.map_eq_flatMap]
    refine (List.Sublist.flatMap_right _ fun p _ ↦ ?_).append_left _
    exact List.singleton_sublist.mpr (ht.mem_subtree_self p.node)
  refine ⟨(List.nodup_flatMap.mp hnodup.of_append_right).2, ?_, ?_, ?_⟩
  · exact hentered.nodup_iff.mpr (hnodup.sublist hsub)
  · intro m hm
    exact htrees.mem_iff.mpr (hsub.subset (hentered.mem_iff.mp hm))
  · intro hempty
    rw [hempty] at htrees hentered hlength
    simp only [List.flatMap_nil, List.map_nil, List.append_nil, List.length_nil]
      at htrees hentered hlength
    have hleaves : ((Swarm.reports t (s.enter [(r, n)]).2 dts).flatMap Report.died).length =
        t.leaves r := hdied.trans (htrees.countP_eq t.isLeaf).symm
    exact ⟨hentered.trans htrees.symm, hleaves, by omega⟩

theorem fork_streams_to_both_leaves :
    let t : Tree (Turtle Float32) :=
      ((Tree.ofRoot default).addChild Tree.rootId default).addChild Tree.rootId default
    let s : Swarm Float32 := .empty default
    t.Grown ∧ s.particles = [] ∧ Tree.rootId < t.size ∧ ∃ id s₀,
      s.spawn? t Tree.rootId = some (id, s₀) ∧ (s₀.advances t [2, 2]).particles = [] ∧
        (Tree.rootId :: s₀.visits t [2, 2]).Perm [0, 1, 2] ∧
        ((s₀.reports t [2, 2]).flatMap Report.died).length = 2 ∧
        ((s₀.reports t [2, 2]).flatMap Report.spawned).length + 1 = 2 := by
  intro t s
  have ht : t.Grown := ((Tree.Grown.ofRoot _).addChild (by decide) _).addChild (by decide) _
  obtain ⟨id, s₀, hs₀, hrun⟩ :=
    (streaming_conserves_leaves.2 t ht).2.2 s rfl Tree.rootId (by decide)
  have hempty : (s₀.advances t [2, 2]).particles = [] := by
    cases hs₀
    decide +kernel
  have hsubtree : t.subtree Tree.rootId = [0, 1, 2] := by decide
  have hleaves : t.leaves Tree.rootId = 2 := by decide
  have hdone := (hrun [2, 2]).2.2.2 hempty
  rw [hsubtree, hleaves] at hdone
  exact ⟨ht, rfl, by decide, id, s₀, hs₀, hempty, hdone⟩

end BranchStream.Swarm
