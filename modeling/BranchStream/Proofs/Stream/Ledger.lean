import BranchStream.Proofs.Stream.Advance
import Mathlib.Data.List.Nodup

namespace BranchStream.Swarm

variable {α : Type}

/-- The ids of the live particles increase, and all of them have been given out. -/
structure Numbered (s : Swarm α) : Prop where
  increasing : s.ids.Pairwise (· < ·)
  lt_next : ∀ id ∈ s.ids, id < s.nextId

/-- The live ids of `s'` are those of `s` without the ones that died, and then the spawned ones. -/
structure Accounts (s s' : Swarm α) (spawned died : List Nat) : Prop where
  spawned_eq : spawned = List.range' s.nextId spawned.length
  next_eq : s'.nextId = s.nextId + spawned.length
  died_sublist : died.Sublist s.ids
  ids_eq : s'.ids = (s.ids.filter fun id ↦ id ∉ died) ++ spawned

variable {s s' s₁ s₂ : Swarm α} {spawned spawned' died died' : List Nat}

theorem Numbered.nodup (h : s.Numbered) : s.ids.Nodup :=
  h.increasing.imp Nat.ne_of_lt

theorem Numbered.get?_eq_some_iff (h : s.Numbered) {id : Nat} {p : Particle α} :
    s.get? id = some p ↔ p ∈ s.particles ∧ p.id = id := by
  rw [get?]
  constructor
  · intro hp
    have hid := List.find?_some hp
    exact ⟨List.mem_of_find?_eq_some hp, by simpa using hid⟩
  · rintro ⟨hp, rfl⟩
    cases hq : s.particles.find? fun q ↦ q.id == p.id with
    | none => exact absurd (beq_self_eq_true p.id) (List.find?_eq_none.mp hq p hp)
    | some q =>
      have hid := List.find?_some hq
      have hmem := List.mem_of_find?_eq_some hq
      rw [List.inj_on_of_nodup_map h.nodup hmem hp (by simpa using hid)]

namespace Accounts

theorem le_of_mem_spawned (h : Accounts s s' spawned died) {id : Nat} (hid : id ∈ spawned) :
    s.nextId ≤ id ∧ id < s'.nextId := by
  rw [h.spawned_eq, List.mem_range'_1, ← h.next_eq] at hid
  exact hid

theorem numbered (h : Accounts s s' spawned died) (hs : s.Numbered) : s'.Numbered := by
  constructor
  · rw [h.ids_eq, List.pairwise_append]
    refine ⟨hs.increasing.filter _, ?_, ?_⟩
    · rw [h.spawned_eq]
      exact List.pairwise_lt_range'
    · intro a ha b hb
      have hlt := hs.lt_next a (List.mem_of_mem_filter ha)
      have hle := h.le_of_mem_spawned hb
      omega
  · intro id hid
    rw [h.ids_eq, List.mem_append] at hid
    rcases hid with hid | hid
    · have hlt := hs.lt_next id (List.mem_of_mem_filter hid)
      have hnext := h.next_eq
      omega
    · exact (h.le_of_mem_spawned hid).2

theorem nodup_died (h : Accounts s s' spawned died) (hs : s.Numbered) : died.Nodup :=
  hs.nodup.sublist h.died_sublist

theorem disjoint (h : Accounts s s' spawned died) (hs : s.Numbered) : died.Disjoint spawned := by
  intro id hdied hspawned
  have hlt := hs.lt_next id (h.died_sublist.subset hdied)
  have hle := h.le_of_mem_spawned hspawned
  omega

theorem ids_perm (h : Accounts s s' spawned died) (hs : s.Numbered) :
    (s'.ids ++ died).Perm (s.ids ++ spawned) := by
  have hdied : (s.ids.filter fun id ↦ !decide (id ∉ died)).Perm died := by
    rw [List.perm_ext_iff_of_nodup (hs.nodup.filter _) (h.nodup_died hs)]
    intro id
    simp only [List.mem_filter, decide_not, Bool.not_not, decide_eq_true_eq]
    exact ⟨And.right, fun hid ↦ ⟨h.died_sublist.subset hid, hid⟩⟩
  have hsplit := (List.filter_append_perm (fun id ↦ decide (id ∉ died)) s.ids).symm.trans
    (hdied.append_left _)
  rw [h.ids_eq, List.append_assoc]
  refine (List.perm_append_comm.append_left _).trans ?_
  rw [← List.append_assoc]
  exact (hsplit.append_right _).symm

theorem trans (h₁ : Accounts s s₁ spawned died) (h₂ : Accounts s₁ s₂ spawned' died')
    (hs : s.Numbered) (hdied : (died ++ died').Sublist s.ids) :
    Accounts s s₂ (spawned ++ spawned') (died ++ died') where
  spawned_eq := by
    rw [List.length_append, ← List.range'_append_1, ← h₁.spawned_eq, ← h₁.next_eq,
      ← h₂.spawned_eq]
  next_eq := by
    rw [h₂.next_eq, h₁.next_eq, List.length_append]
    omega
  died_sublist := hdied
  ids_eq := by
    have hnew : (spawned.filter fun id ↦ id ∉ died') = spawned := by
      refine List.filter_eq_self.mpr fun id hid ↦ decide_eq_true fun hid' ↦ ?_
      have hlt := hs.lt_next id (hdied.subset (List.mem_append_right _ hid'))
      have hle := h₁.le_of_mem_spawned hid
      omega
    rw [h₂.ids_eq, h₁.ids_eq, List.filter_append, hnew, List.filter_filter, List.append_assoc]
    refine congrArg (· ++ _) (List.filter_congr fun id _ ↦ ?_)
    simp [Bool.and_comm]

end Accounts

theorem accounts_refl (s : Swarm α) : Accounts s s [] [] :=
  ⟨rfl, rfl, List.nil_sublist _, by simp⟩

theorem accounts_clear (s : Swarm α) : Accounts s s.clear.2 [] s.clear.1 where
  spawned_eq := rfl
  next_eq := rfl
  died_sublist := List.Sublist.refl _
  ids_eq := by
    have hnone : (s.ids.filter fun id ↦ id ∉ s.ids) = [] := by simp
    rw [clear, hnone]
    rfl

variable [Scalar α] {t : Tree (Turtle α)} {dt : α} {nodes : List (Nat × Tree.Node (Turtle α))}

theorem accounts_enter (s : Swarm α) (nodes : List (Nat × Tree.Node (Turtle α))) :
    Accounts s (s.enter nodes).2 (s.enter nodes).1 [] where
  spawned_eq := by rw [enter_eq, List.length_map, length_entrants, map_id_entrants]
  next_eq := by rw [enter_eq, List.length_map, length_entrants]
  died_sublist := List.nil_sublist _
  ids_eq := by
    rw [ids_enter]
    simp

theorem accounts_spawnAtRoot (s : Swarm α) (t : Tree (Turtle α)) (count : Nat) :
    Accounts s (s.spawnAtRoot t count).2 (s.spawnAtRoot t count).1 [] := by
  unfold spawnAtRoot
  split
  · exact accounts_enter s _
  · exact accounts_refl s

theorem map_id_survivors (hs : s.Numbered) : (s.survivors t dt).map Particle.id =
    s.ids.filter fun id ↦ id ∉ s.dying t dt := by
  rw [map_id_survivors_eq_filter, ids, List.filter_map]
  refine congrArg _ (List.filter_congr fun p hp ↦ ?_)
  have hmem : p.id ∈ s.dying t dt ↔ (p.step t s.physics dt).1.isNone = true := by
    refine ⟨fun h ↦ ?_, fun h ↦ List.mem_map_of_mem (List.mem_filter.mpr ⟨hp, h⟩)⟩
    obtain ⟨q, hq, hid⟩ := List.mem_map.mp h
    obtain ⟨hq, hnone⟩ := List.mem_filter.mp hq
    rwa [← List.inj_on_of_nodup_map hs.nodup hq hp hid]
  simp only [Function.comp_apply, decide_not, hmem, Bool.decide_eq_true]

theorem accounts_advance (hs : s.Numbered) (t : Tree (Turtle α)) (dt : α) :
    Accounts s (s.advance t dt).2 (s.advance t dt).1.spawned (s.advance t dt).1.died where
  spawned_eq := by
    rw [advance_eq, List.length_map, forked, length_entrants, map_id_entrants]
  next_eq := by rw [advance_eq, List.length_map]
  died_sublist := by
    rw [advance_eq]
    exact (List.filter_sublist).map Particle.id
  ids_eq := by
    rw [advance_eq, ids, List.map_append, map_id_survivors hs]

end BranchStream.Swarm
