import BranchStream.Proofs.Branches.Growth
import Mathlib.Data.Fintype.Order
import Mathlib.Logic.Relation
import Mathlib.Order.WellFounded

namespace BranchStream.Tree

variable {σ : Type} {t t₀ : Tree σ} {parent id c a b : Nat} {state : σ}

def Below (t : Tree σ) : Nat → Nat → Prop := Relation.TransGen fun id c ↦ c ∈ t.children id

/-- The links fit together: the root is there, and it alone has no parent; each other node is listed
once, among the children of its parent, and nothing else is listed; and no node is below itself. -/
structure Rooted (t : Tree σ) : Prop where
  parent?_eq_none_iff : ∀ c, t.parent? c = some none ↔ c = rootId
  count_children : ∀ id c, (t.children id).count c = if t.parent? c = some (some id) then 1 else 0
  not_below_self : ∀ id, ¬ t.Below id id

theorem count_children_addChild (hp : parent < t.size) :
    ((t.addChild parent state).children id).count c =
      (t.children id).count c + if c = t.size ∧ id = parent then 1 else 0 := by
  rw [children_addChild hp]
  by_cases hid : id = parent
  · by_cases hc : c = t.size
    · simp [hid, hc]
    · simp [hid, hc, Ne.symm hc]
  · simp [hid]

theorem Below.exists_child (h : t.Below a b) : ∃ c, c ∈ t.children a := by
  obtain ⟨c, hc, -⟩ := Relation.TransGen.head'_iff.mp h
  exact ⟨c, hc⟩

theorem below_addChild (hp : parent < t.size) (h : (t.addChild parent state).Below a b) :
    t.Below a b ∨ b = t.size := by
  induction h with
  | single hc => exact ((mem_children_addChild hp).mp hc).imp .single And.left
  | tail _ hc ih =>
    rcases (mem_children_addChild hp).mp hc with hc | ⟨hnew, -⟩
    · rcases ih with hbelow | rfl
      · exact .inl (hbelow.tail hc)
      · simp [children_eq_nil] at hc
    · exact .inr hnew

theorem rooted_ofRoot (state : σ) : (ofRoot state).Rooted where
  parent?_eq_none_iff c := by simp [parent?_ofRoot]
  count_children id c := by simp [children_ofRoot, parent?_ofRoot]
  not_below_self id h := by
    obtain ⟨c, hc⟩ := h.exists_child
    simp [children_ofRoot] at hc

namespace Rooted

theorem size_pos (h : t.Rooted) : 0 < t.size := by
  by_contra hsize
  have hroot := (h.parent?_eq_none_iff rootId).mpr rfl
  rw [parent?_eq_none (Nat.not_lt.mp hsize)] at hroot
  cases hroot

theorem mem_children_iff (h : t.Rooted) : c ∈ t.children id ↔ t.parent? c = some (some id) := by
  rw [← List.count_pos_iff, h.count_children]
  split <;> simp [*]

theorem child_lt (h : t.Rooted) (hc : c ∈ t.children id) : c < t.size := by
  by_contra hsize
  rw [h.mem_children_iff, parent?_eq_none (Nat.not_lt.mp hsize)] at hc
  cases hc

theorem child_ne_root (h : t.Rooted) (hc : c ∈ t.children id) : c ≠ rootId := by
  rintro rfl
  rw [h.mem_children_iff, (h.parent?_eq_none_iff rootId).mpr rfl] at hc
  cases hc

theorem eq_of_mem_children (h : t.Rooted) (ha : c ∈ t.children a) (hb : c ∈ t.children b) :
    a = b := by
  rw [h.mem_children_iff] at ha hb
  exact Option.some.inj (Option.some.inj (ha.symm.trans hb))

theorem nodup_children (h : t.Rooted) (id : Nat) : (t.children id).Nodup := by
  refine List.nodup_iff_count_le_one.mpr fun c ↦ ?_
  rw [h.count_children]
  split <;> simp

theorem exists_parent (h : t.Rooted) (hc : c < t.size) (hne : c ≠ rootId) :
    ∃ id, id < t.size ∧ c ∈ t.children id := by
  obtain ⟨n, hn⟩ := exists_get? hc
  have hparent : t.parent? c = some n.parent := by rw [parent?, hn, Option.map_some]
  cases hid : n.parent with
  | none =>
    rw [hid] at hparent
    exact absurd ((h.parent?_eq_none_iff c).mp hparent) hne
  | some id =>
    rw [hid] at hparent
    have hmem := h.mem_children_iff.mpr hparent
    refine ⟨id, ?_, hmem⟩
    by_contra hlt
    simp [children_eq_nil (Nat.not_lt.mp hlt)] at hmem

theorem down_induction (h : t.Rooted) {P : Nat → Prop} (root : P rootId)
    (child : ∀ id, P id → ∀ c ∈ t.children id, P c) (hc : c < t.size) : P c := by
  have htrans : IsTrans (Fin t.size) fun a b ↦ t.Below a b := ⟨fun _ _ _ ↦ Relation.TransGen.trans⟩
  have hirrefl : Std.Irrefl fun a b : Fin t.size ↦ t.Below a b := ⟨fun a ↦ h.not_below_self a⟩
  have hwf : WellFounded fun a b : Fin t.size ↦ t.Below a b :=
    Finite.wellFounded_of_trans_of_irrefl _
  refine hwf.induction (C := fun i ↦ P i) ⟨c, hc⟩ fun i ih ↦ ?_
  by_cases hi : i.val = rootId
  · rwa [hi]
  · obtain ⟨id, hlt, hmem⟩ := h.exists_parent i.isLt hi
    exact child id (ih ⟨id, hlt⟩ (.single hmem)) i hmem

theorem addChild (h : t.Rooted) (hp : parent < t.size) (state : σ) :
    (t.addChild parent state).Rooted where
  parent?_eq_none_iff c := by
    rw [parent?_addChild, ← h.parent?_eq_none_iff]
    split
    · rename_i hc
      simp [hc, parent?_eq_none]
    · rfl
  count_children id c := by
    rw [count_children_addChild hp, parent?_addChild, h.count_children]
    by_cases hc : c = t.size
    · simp [hc, parent?_eq_none, eq_comm]
    · simp [hc]
  not_below_self id hbelow := by
    rcases below_addChild hp hbelow with hold | rfl
    · exact h.not_below_self id hold
    · obtain ⟨c, hc⟩ := hbelow.exists_child
      rw [children_addChild hp, if_neg hp.ne', children_eq_nil (Nat.le_refl _)] at hc
      cases hc

theorem of_addChild (h : (t.addChild parent state).Rooted) (hp : parent < t.size) : t.Rooted where
  parent?_eq_none_iff c := by
    have hc := h.parent?_eq_none_iff c
    rw [parent?_addChild] at hc
    split at hc
    · rename_i hnew
      have hne : t.size ≠ rootId := (Nat.zero_lt_of_lt hp).ne'
      simp [hnew, parent?_eq_none, hne]
    · exact hc
  count_children id c := by
    have hc := h.count_children id c
    rw [count_children_addChild hp, parent?_addChild] at hc
    by_cases hnew : c = t.size
    · -- a place that was listed before would be listed twice now, or by two nodes
      simp only [hnew, if_true, true_and, Option.some.injEq, eq_comm] at hc
      rw [hnew, parent?_eq_none (Nat.le_refl _)]
      simpa using hc
    · simpa [hnew] using hc
  not_below_self id hbelow := by
    refine h.not_below_self id (Relation.TransGen.mono ?_ id id hbelow)
    exact fun a b hb ↦ (mem_children_addChild hp).mpr (.inl hb)

end Rooted

theorem Grown.rooted (ht : t.Grown) : t.Rooted := by
  induction ht with
  | ofRoot state => exact rooted_ofRoot state
  | addChild _ hp state ih => exact ih.addChild hp state

/-- Children have been added to `t₀`, each below a node that was there. -/
inductive GrownFrom (t₀ : Tree σ) : Tree σ → Prop
  | refl : GrownFrom t₀ t₀
  | addChild {t : Tree σ} {parent : Nat} (ht : GrownFrom t₀ t) (hp : parent < t.size) (state : σ) :
      GrownFrom t₀ (t.addChild parent state)

theorem GrownFrom.rooted_iff (h : t₀.GrownFrom t) : t.Rooted ↔ t₀.Rooted := by
  induction h with
  | refl => rfl
  | addChild _ hp state ih =>
    exact ⟨fun h ↦ ih.mp (h.of_addChild hp), fun h ↦ (ih.mpr h).addChild hp state⟩

end BranchStream.Tree
