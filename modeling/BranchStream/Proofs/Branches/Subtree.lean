import BranchStream.Proofs.Branches.Growth
import Mathlib.Data.List.FinRange

namespace BranchStream.Tree

variable {σ : Type} {t : Tree σ} {parent id m : Nat} {state : σ}

def preorder (t : Tree σ) : (fuel : Nat) → (id : Nat) → List Nat
  | 0, id => [id]
  | fuel + 1, id => id :: (t.children id).flatMap (t.preorder fuel)

/-- A node and all below it; no path down a grown tree has more edges than the tree has nodes. -/
def subtree (t : Tree σ) (id : Nat) : List Nat := t.preorder t.size id

def leaves (t : Tree σ) (id : Nat) : Nat := (t.subtree id).countP t.isLeaf

theorem Grown.preorder_succ (ht : t.Grown) {fuel : Nat} (h : t.size ≤ fuel + id) :
    t.preorder fuel id = t.preorder (fuel + 1) id := by
  induction fuel generalizing id with
  | zero =>
    rw [preorder, preorder, children_eq_nil (by omega), List.flatMap_nil]
  | succ fuel ih =>
    rw [preorder, preorder]
    congr 1
    refine List.flatMap_congr fun c hc ↦ ih ?_
    have hlt := ht.mem_children hc
    omega

theorem Grown.subtree_eq (ht : t.Grown) (id : Nat) :
    t.subtree id = id :: (t.children id).flatMap t.subtree := by
  rw [subtree, ht.preorder_succ (by omega), preorder]
  rfl

theorem Grown.mem_subtree_self (ht : t.Grown) (id : Nat) : id ∈ t.subtree id := by
  rw [ht.subtree_eq]
  exact List.mem_cons_self

theorem Grown.mem_subtree (ht : t.Grown) (hm : m ∈ t.subtree id) :
    id ≤ m ∧ (m = id ∨ m < t.size) := by
  induction id using ht.child_induction with
  | step id ih =>
    rw [ht.subtree_eq, List.mem_cons, List.mem_flatMap] at hm
    rcases hm with rfl | ⟨c, hc, hm⟩
    · exact ⟨Nat.le_refl _, .inl rfl⟩
    · have hlt := ht.mem_children hc
      have h := ih c hc hm
      omega

theorem Grown.mem_subtree_trans (ht : t.Grown) {k : Nat} (hm : m ∈ t.subtree id)
    (hid : id ∈ t.subtree k) : m ∈ t.subtree k := by
  induction k using ht.child_induction with
  | step k ih =>
    rw [ht.subtree_eq, List.mem_cons, List.mem_flatMap] at hid
    rcases hid with rfl | ⟨c, hc, hid⟩
    · exact hm
    · rw [ht.subtree_eq]
      exact List.mem_cons_of_mem k (List.mem_flatMap.mpr ⟨c, hc, ih c hc hid⟩)

theorem Grown.subtree_addChild_size (ht : t.Grown) (hp : parent < t.size) :
    (t.addChild parent state).subtree t.size = [t.size] := by
  rw [(ht.addChild hp state).subtree_eq, children_addChild hp, if_neg (by omega),
    children_eq_nil (Nat.le_refl _), List.flatMap_nil]

theorem Grown.count_subtree_addChild (ht : t.Grown) (hp : parent < t.size) (hid : id < t.size) :
    ((t.addChild parent state).subtree id).count m =
      if m = t.size then (t.subtree id).count parent else (t.subtree id).count m := by
  have ht' := ht.addChild hp state
  induction id using ht.child_induction with
  | step id ih =>
    have hsum : ((t.children id).map
          (List.count m ∘ (t.addChild parent state).subtree)).sum =
        ((t.children id).map fun c ↦
          if m = t.size then (t.subtree c).count parent else (t.subtree c).count m).sum := by
      congr 1
      exact List.map_congr_left fun c hc ↦ ih c hc (ht.mem_children hc).2
    rw [ht'.subtree_eq, ht.subtree_eq, children_addChild hp]
    by_cases he : id = parent
    · subst he
      rw [if_pos rfl]
      simp only [List.count_cons, List.count_flatMap, List.flatMap_append, List.count_append,
        List.flatMap_singleton, ht.subtree_addChild_size hp, hsum]
      by_cases hm : m = t.size
      · subst hm
        simp [Function.comp_def, Nat.ne_of_lt hid]
      · simp [Function.comp_def, hm, Ne.symm hm]
    · rw [if_neg he]
      simp only [List.count_cons, List.count_flatMap, hsum]
      by_cases hm : m = t.size
      · subst hm
        simp [Function.comp_def, he, Nat.ne_of_lt hid]
      · simp [Function.comp_def, hm]

theorem Grown.mem_subtree_addChild (ht : t.Grown) (hp : parent < t.size) (hid : id < t.size) :
    m ∈ (t.addChild parent state).subtree id ↔
      m ∈ t.subtree id ∨ m = t.size ∧ parent ∈ t.subtree id := by
  rw [← List.count_pos_iff, ht.count_subtree_addChild hp hid]
  by_cases hm : m = t.size
  · subst hm
    have hnot : t.size ∉ t.subtree id := by
      intro h
      have hlt := (ht.mem_subtree h).2
      omega
    rw [if_pos rfl, List.count_pos_iff]
    simp [hnot]
  · rw [if_neg hm, List.count_pos_iff]
    simp [hm]

theorem Grown.count_subtree_le_one (ht : t.Grown) : (t.subtree id).count m ≤ 1 := by
  induction ht generalizing id m with
  | ofRoot state =>
    rw [(Grown.ofRoot state).subtree_eq, children_ofRoot, List.flatMap_nil]
    exact List.count_le_length
  | @addChild t parent ht hp state ih =>
    by_cases hid : id < t.size
    · rw [ht.count_subtree_addChild hp hid]
      by_cases hm : m = t.size
      · rw [if_pos hm]
        exact ih
      · rw [if_neg hm]
        exact ih
    · have hnil : (t.addChild parent state).children id = [] := by
        rw [children_addChild hp, if_neg (by omega), children_eq_nil (by omega)]
      rw [(ht.addChild hp state).subtree_eq, hnil, List.flatMap_nil]
      exact List.count_le_length

theorem Grown.nodup_subtree (ht : t.Grown) (id : Nat) : (t.subtree id).Nodup :=
  List.nodup_iff_count_le_one.mpr fun _ ↦ ht.count_subtree_le_one

theorem Grown.subtree_root (ht : t.Grown) : (t.subtree rootId).Perm (List.range t.size) := by
  rw [List.perm_iff_count]
  intro m
  induction ht generalizing m with
  | ofRoot state => rw [(Grown.ofRoot state).subtree_eq, children_ofRoot]; rfl
  | @addChild t parent ht hp state ih =>
    rw [ht.count_subtree_addChild hp ht.size_pos, size_addChild, List.range_succ,
      List.count_append, List.count_singleton, ih, ih]
    by_cases hm : m = t.size
    · subst hm
      have hone : (List.range t.size).count parent = 1 :=
        List.count_eq_one_of_mem List.nodup_range (List.mem_range.mpr hp)
      have hzero : (List.range t.size).count t.size = 0 :=
        List.count_eq_zero_of_not_mem (by simp)
      simp [hone, hzero]
    · simp [hm, Ne.symm hm]

theorem countP_range_isLeaf : (List.range t.size).countP t.isLeaf = t.leafCount := by
  have hleaf (i : Fin t.nodes.size) : t.isLeaf i = t.nodes[i].children.isEmpty := by
    have h : t.get? i = some t.nodes[i] := Array.getElem?_eq_getElem i.isLt
    rw [isLeaf, children, h]
  have hnodes : t.nodes.toList = (List.finRange t.nodes.size).map fun i ↦ t.nodes[i] := by
    rw [← List.ofFn_eq_map]
    exact List.ofFn_getElem.symm
  rw [leafCount, ← Array.countP_toList, hnodes, List.countP_map, size,
    ← List.map_coe_finRange_eq_range, List.countP_map]
  exact List.countP_congr fun i _ ↦ by simp only [Function.comp_apply, hleaf]

theorem Grown.leaves_root (ht : t.Grown) : t.leaves rootId = t.leafCount := by
  rw [leaves, ht.subtree_root.countP_eq, countP_range_isLeaf]

end BranchStream.Tree
