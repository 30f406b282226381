import BranchStream.Proofs.Branches.Growth
import BranchStream.Stream.Swarm
import Mathlib.Data.List.Perm.Basic

namespace BranchStream

variable {α : Type} [Scalar α] {t : Tree (Turtle α)} {c : Physics α} {dt : α}

namespace Particle

/-- The time on the edge is up after `dt` more seconds; so it is if that time is not a number. -/
def Completes (c : Physics α) (dt : α) (p : Particle α) : Prop := ¬ (p.move c dt).life ≤ c.lifetime

instance (p : Particle α) : Decidable (p.Completes c dt) :=
  inferInstanceAs (Decidable (¬ (p.move c dt).life ≤ c.lifetime))

def heirs (t : Tree (Turtle α)) (c : Physics α) (dt : α) (p : Particle α) : List Nat :=
  if p.Completes c dt then t.children p.node else [p.node]

variable {p q : Particle α}

@[simp]
theorem id_move : (p.move c dt).id = p.id := by
  dsimp only [move]
  split <;> rfl

@[simp]
theorem node_move : (p.move c dt).node = p.node := by
  dsimp only [move]
  split <;> rfl

@[simp]
theorem life_move : (p.move c dt).life = p.life + dt := by
  dsimp only [move]
  split <;> rfl

theorem survivor_cases (h : (p.step t c dt).1 = some q) :
    (¬ p.Completes c dt ∧ q = p.move c dt) ∨
    ∃ child n, p.Completes c dt ∧ t.get? child = some n ∧ q = entering c p.id child n.state := by
  by_cases hs : p.Completes c dt
  · have hx : p.step t c dt = (p.move c dt).cross t c := if_neg hs
    rw [hx, cross] at h
    split at h
    · cases h
    · split at h
      · rename_i child _ _ _ n hn
        cases h
        exact .inr ⟨child, n, hs, hn, by rw [id_move]⟩
      · cases h
  · have hx : p.step t c dt = (some (p.move c dt), []) := if_pos (Decidable.not_not.mp hs)
    rw [hx] at h
    cases h
    exact .inl ⟨hs, rfl⟩

theorem id_of_step (h : (p.step t c dt).1 = some q) : q.id = p.id := by
  rcases survivor_cases h with ⟨-, rfl⟩ | ⟨child, n, -, -, rfl⟩
  · exact id_move
  · rfl

/-- All that can become of a particle in a step. The first child of a node exists in a grown tree,
so that no particle dies above a leaf. -/
theorem step_cases (ht : t.Grown) (c : Physics α) (dt : α) (p : Particle α) :
    ¬ p.Completes c dt ∧ p.step t c dt = (some (p.move c dt), []) ∨
    (p.Completes c dt ∧ t.children p.node = [] ∧ p.step t c dt = (none, [])) ∨
    ∃ first others n, p.Completes c dt ∧ t.children p.node = first :: others ∧
      t.get? first = some n ∧ p.step t c dt = (some (entering c p.id first n.state), others) := by
  by_cases hs : p.Completes c dt
  · have hx : p.step t c dt = (p.move c dt).cross t c := if_neg hs
    cases hc : t.children p.node with
    | nil => exact .inr (.inl ⟨hs, rfl, by simp only [hx, cross, node_move, hc]⟩)
    | cons first others =>
      have hlt := ht.mem_children (hc ▸ List.mem_cons_self : first ∈ t.children p.node)
      obtain ⟨n, hn⟩ := Tree.exists_get? hlt.2
      exact .inr (.inr ⟨first, others, n, hs, rfl, hn, by
        simp only [hx, cross, node_move, id_move, hc, hn]⟩)
  · exact .inl ⟨hs, if_pos (Decidable.not_not.mp hs)⟩

theorem isNone_step (ht : t.Grown) (c : Physics α) (dt : α) (p : Particle α) :
    (p.step t c dt).1.isNone = (decide (p.Completes c dt) && t.isLeaf p.node) := by
  rcases step_cases ht c dt p with ⟨hs, hx⟩ | ⟨hs, hc, hx⟩ | ⟨first, others, n, hs, hc, -, hx⟩
  · simp [hx, hs]
  · simp [hx, hs, Tree.isLeaf, hc]
  · simp [hx, hs, Tree.isLeaf, hc]

theorem snd_step (ht : t.Grown) (c : Physics α) (dt : α) (p : Particle α) :
    (p.step t c dt).2 = if p.Completes c dt then (t.children p.node).tail else [] := by
  rcases step_cases ht c dt p with ⟨hs, hx⟩ | ⟨hs, hc, hx⟩ | ⟨first, others, n, hs, hc, -, hx⟩
  · rw [hx, if_neg hs]
  · rw [hx, if_pos hs, hc, List.tail_nil]
  · rw [hx, if_pos hs, hc, List.tail_cons]

theorem nodes_step (ht : t.Grown) (c : Physics α) (dt : α) (p : Particle α) :
    ((p.step t c dt).1.map node).toList ++ (p.step t c dt).2 = p.heirs t c dt := by
  rcases step_cases ht c dt p with ⟨hs, hx⟩ | ⟨hs, hc, hx⟩ | ⟨first, others, n, hs, hc, -, hx⟩
  · rw [hx, heirs, if_neg hs, Option.map_some, node_move]
    rfl
  · rw [hx, heirs, if_pos hs, hc]
    rfl
  · rw [hx, heirs, if_pos hs, hc]
    rfl

end Particle

end BranchStream
