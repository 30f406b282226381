import BranchStream.Proofs.Stream.Step

namespace BranchStream

variable {σ α : Type}

def Tree.existing (t : Tree σ) (ids : List Nat) : List (Nat × Tree.Node σ) :=
  ids.filterMap fun id ↦ (t.get? id).map (id, ·)

theorem Tree.map_fst_existing {t : Tree σ} {ids : List Nat} (h : ∀ id ∈ ids, id < t.size) :
    (t.existing ids).map Prod.fst = ids := by
  induction ids with
  | nil => rfl
  | cons id ids ih =>
    obtain ⟨n, hn⟩ := Tree.exists_get? (h id List.mem_cons_self)
    have htail := ih fun id' hid' ↦ h id' (List.mem_cons_of_mem id hid')
    rw [Tree.existing] at htail ⊢
    simp only [List.filterMap_cons, hn, Option.map_some, List.map_cons, htail]

theorem Tree.get?_of_mem_existing {t : Tree σ} {ids : List Nat} {e : Nat × Tree.Node σ}
    (h : e ∈ t.existing ids) : t.get? e.1 = some e.2 := by
  obtain ⟨id, -, hid⟩ := List.mem_filterMap.mp h
  obtain ⟨n, hn, rfl⟩ := Option.map_eq_some_iff.mp hid
  exact hn

namespace Swarm

variable [Scalar α] (s : Swarm α) (t : Tree (Turtle α)) (dt : α)

def entrants (nodes : List (Nat × Tree.Node (Turtle α))) : List (Particle α) :=
  nodes.zipIdx.map fun ((node, n), k) ↦ .entering s.physics (s.nextId + k) node n.state

def completing : List (Particle α) := s.particles.filter fun p ↦ p.Completes s.physics dt

def survivors : List (Particle α) := s.particles.filterMap fun p ↦ (p.step t s.physics dt).1

def dying : List Nat :=
  (s.particles.filter fun p ↦ (p.step t s.physics dt).1.isNone).map Particle.id

def forks : List Nat := s.particles.flatMap fun p ↦ (p.step t s.physics dt).2

def forked : List (Particle α) := s.entrants (t.existing (s.forks t dt))

/-- Every particle travels to a node of the tree. -/
def Within : Prop := ∀ p ∈ s.particles, p.node < t.size

variable {s t dt} {nodes : List (Nat × Tree.Node (Turtle α))}

theorem enter_eq : s.enter nodes = ((s.entrants nodes).map Particle.id,
    { s with particles := s.particles ++ s.entrants nodes, nextId := s.nextId + nodes.length }) :=
  rfl

theorem length_entrants : (s.entrants nodes).length = nodes.length := by simp [entrants]

theorem map_id_entrants :
    (s.entrants nodes).map Particle.id = List.range' s.nextId nodes.length := by
  apply List.ext_getElem
  · simp [entrants]
  · intro i hi hj
    simp [entrants, Particle.entering]

theorem map_node_entrants : (s.entrants nodes).map Particle.node = nodes.map Prod.fst := by
  apply List.ext_getElem
  · simp [entrants]
  · intro i hi hj
    simp [entrants, Particle.entering]

theorem entering_of_mem_entrants {p : Particle α} (hp : p ∈ s.entrants nodes) :
    ∃ e ∈ nodes, p.node = e.1 ∧ p.life = 0 ∧ p.position = e.2.state.segmentStart := by
  obtain ⟨⟨⟨node, n⟩, k⟩, he, rfl⟩ := List.mem_map.mp hp
  exact ⟨(node, n), List.fst_mem_of_mem_zipIdx he, rfl, rfl, rfl⟩

theorem advance_eq : s.advance t dt =
    (⟨(s.forked t dt).map Particle.id, s.dying t dt⟩,
      { s with
        particles := s.survivors t dt ++ s.forked t dt
        nextId := s.nextId + (s.forked t dt).length }) := by
  have hdying : (s.particles.filterMap fun p ↦
      if (p.step t s.physics dt).1.isNone then some p.id else none) = s.dying t dt := by
    rw [dying, ← List.filterMap_eq_map, ← List.filterMap_eq_filter, List.filterMap_filterMap]
    apply List.filterMap_congr
    intro p _
    by_cases h : (p.step t s.physics dt).1.isNone <;> simp [h, Option.guard]
  rw [forked, length_entrants, ← hdying]
  simp only [advance, enter_eq, List.filterMap_map, List.flatMap_map]
  rfl

theorem forall_mem_enter {P : Particle α → Prop}
    (henter : ∀ id, ∀ e ∈ nodes, P (.entering s.physics id e.1 e.2.state))
    (h : ∀ p ∈ s.particles, P p) : ∀ p ∈ (s.enter nodes).2.particles, P p := by
  intro p hp
  rw [enter_eq, List.mem_append] at hp
  rcases hp with hp | hp
  · exact h p hp
  · obtain ⟨⟨e, k⟩, he, rfl⟩ := List.mem_map.mp hp
    exact henter _ e (List.fst_mem_of_mem_zipIdx he)

theorem forall_mem_advance {P : Particle α → Prop}
    (henter : ∀ id node n, t.get? node = some n → P (.entering s.physics id node n.state))
    (hmove : ∀ p ∈ s.particles, ¬ p.Completes s.physics dt → P (p.move s.physics dt)) :
    ∀ p ∈ (s.advance t dt).2.particles, P p := by
  intro q hq
  rw [advance_eq, List.mem_append] at hq
  rcases hq with hq | hq
  · obtain ⟨p, hp, hstep⟩ := List.mem_filterMap.mp hq
    rcases Particle.survivor_cases hstep with ⟨hs, rfl⟩ | ⟨child, n, -, hn, rfl⟩
    · exact hmove p hp hs
    · exact henter p.id child n hn
  · obtain ⟨⟨e, k⟩, he, rfl⟩ := List.mem_map.mp hq
    exact henter _ e.1 e.2 (Tree.get?_of_mem_existing (List.fst_mem_of_mem_zipIdx he))

theorem move_mem_advance {p : Particle α} (hp : p ∈ s.particles) (hs : ¬ p.Completes s.physics dt) :
    p.move s.physics dt ∈ (s.advance t dt).2.particles := by
  have hstep : (p.step t s.physics dt).1 = some (p.move s.physics dt) :=
    congrArg Prod.fst (if_pos (Decidable.not_not.mp hs))
  rw [advance_eq]
  exact List.mem_append_left _ (List.mem_filterMap.mpr ⟨p, hp, hstep⟩)

theorem physics_advance (s : Swarm α) (t : Tree (Turtle α)) (dt : α) :
    (s.advance t dt).2.physics = s.physics := rfl

theorem flatMap_completing {β : Type} (f : Particle α → List β) : (s.completing dt).flatMap f =
    s.particles.flatMap fun p ↦ if p.Completes s.physics dt then f p else [] := by
  rw [completing]
  induction s.particles with
  | nil => rfl
  | cons p ps ih => by_cases h : p.Completes s.physics dt <;> simp [h, ih]

theorem forks_eq (ht : t.Grown) :
    s.forks t dt = (s.completing dt).flatMap fun p ↦ (t.children p.node).tail := by
  rw [forks, flatMap_completing]
  exact List.flatMap_congr fun p _ ↦ Particle.snd_step ht s.physics dt p

theorem lt_of_mem_forks (ht : t.Grown) {id : Nat} (h : id ∈ s.forks t dt) : id < t.size := by
  rw [forks_eq ht, List.mem_flatMap] at h
  obtain ⟨p, -, hp⟩ := h
  exact (ht.mem_children (List.mem_of_mem_tail hp)).2

theorem map_node_forked (ht : t.Grown) : (s.forked t dt).map Particle.node = s.forks t dt := by
  rw [forked, map_node_entrants, Tree.map_fst_existing fun id hid ↦ lt_of_mem_forks ht hid]

theorem map_node_survivors : (s.survivors t dt).map Particle.node =
    s.particles.flatMap fun p ↦ ((p.step t s.physics dt).1.map Particle.node).toList := by
  rw [survivors, List.map_filterMap, List.filterMap_eq_flatMap_toList]

theorem map_id_survivors_eq_filter : (s.survivors t dt).map Particle.id =
    (s.particles.filter fun p ↦ !(p.step t s.physics dt).1.isNone).map Particle.id := by
  rw [survivors]
  induction s.particles with
  | nil => rfl
  | cons p ps ih =>
    cases hp : (p.step t s.physics dt).1 with
    | none => simp [hp, ih]
    | some q => simp [hp, ih, Particle.id_of_step hp]

theorem ids_advance_sublist (s : Swarm α) (t : Tree (Turtle α)) (dt : α) :
    (s.advance t dt).2.ids.Sublist (s.ids ++ (s.advance t dt).1.spawned) := by
  rw [advance_eq, ids, List.map_append, map_id_survivors_eq_filter]
  exact (List.filter_sublist.map Particle.id).append_right _

theorem nodes_advance (ht : t.Grown) :
    ((s.advance t dt).2.particles.map Particle.node).Perm
      (s.particles.flatMap (Particle.heirs t s.physics dt)) := by
  rw [advance_eq, List.map_append, map_node_forked ht, map_node_survivors, forks]
  refine (List.flatMap_append_perm _ _ _).trans (List.Perm.of_eq ?_)
  exact List.flatMap_congr fun p _ ↦ Particle.nodes_step ht s.physics dt p

theorem Within.advance (ht : t.Grown) (h : s.Within t) : (s.advance t dt).2.Within t := by
  intro q hq
  have hmem := (nodes_advance ht).mem_iff.mp (List.mem_map_of_mem (f := Particle.node) hq)
  obtain ⟨p, hp, hheir⟩ := List.mem_flatMap.mp hmem
  rw [Particle.heirs] at hheir
  split at hheir
  · exact (ht.mem_children hheir).2
  · rw [List.mem_singleton.mp hheir]
    exact h p hp

theorem Within.enter (h : s.Within t) (hn : ∀ e ∈ nodes, e.1 < t.size) :
    (s.enter nodes).2.Within t :=
  forall_mem_enter (fun _ e he ↦ hn e he) h

theorem Within.spawnAtRoot (h : s.Within t) (ht : t.Grown) (count : Nat) :
    (s.spawnAtRoot t count).2.Within t := by
  unfold Swarm.spawnAtRoot
  split
  · apply h.enter
    intro e he
    rw [List.eq_of_mem_replicate he]
    exact ht.size_pos
  · exact h

theorem spawnAtRoot_eq {root : Tree.Node (Turtle α)} (h : t.root? = some root) (count : Nat) :
    s.spawnAtRoot t count = s.enter (List.replicate count (Tree.rootId, root)) := by
  rw [Swarm.spawnAtRoot, h]

theorem length_spawnAtRoot (s : Swarm α) (h : 0 < t.size) (count : Nat) :
    (s.spawnAtRoot t count).1.length = count := by
  obtain ⟨root, hroot⟩ := Tree.exists_get? h
  rw [spawnAtRoot_eq hroot, enter_eq, List.length_map, length_entrants, List.length_replicate]

theorem exists_rooted (s : Swarm α) (t : Tree (Turtle α)) (count : Nat) :
    ∃ rooted : List (Particle α),
      (s.spawnAtRoot t count).2.particles = s.particles ++ rooted ∧
      (s.spawnAtRoot t count).1 = rooted.map Particle.id ∧
      ∀ p ∈ rooted, p.node = Tree.rootId ∧ p.life = 0 := by
  cases hroot : t.root? with
  | none =>
    rw [Swarm.spawnAtRoot, hroot]
    exact ⟨[], (List.append_nil _).symm, rfl, nofun⟩
  | some root =>
    rw [spawnAtRoot_eq hroot, enter_eq]
    refine ⟨_, rfl, rfl, fun p hp ↦ ?_⟩
    obtain ⟨e, he, hnode, hlife, -⟩ := entering_of_mem_entrants hp
    obtain rfl := List.eq_of_mem_replicate he
    exact ⟨hnode, hlife⟩

theorem advance_of_eq_nil (h : s.particles = []) (t : Tree (Turtle α)) (dt : α) :
    s.advance t dt = (⟨[], []⟩, s) := by
  obtain ⟨particles, physics, nextId⟩ := s
  cases h
  rfl

end Swarm

end BranchStream
