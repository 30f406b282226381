import BranchStream.Branches.Edges
import BranchStream.Proofs.Branches.Subtree
import Mathlib.Data.List.Sort
import Mathlib.Tactic.SplitIfs

namespace BranchStream.Tree

variable {σ : Type} {t : Tree σ} {parent id : Nat} {state : σ}

/-- Every subtree is gone through in the order of the ids. -/
def Ordered (t : Tree σ) : Prop := ∀ id, (t.subtree id).Pairwise (· < ·)

theorem ordered_ofRoot (state : σ) : (ofRoot state).Ordered := by
  intro id
  rw [(Grown.ofRoot state).subtree_eq, children_ofRoot, List.flatMap_nil]
  exact List.pairwise_singleton _ _

/-- The nodes from the last one up, each below the next. -/
def Spine (t : Tree σ) (ids : List Nat) : Prop := ids.Pairwise fun a b ↦ a ∈ t.subtree b

theorem Spine.addChild {ids : List Nat} (h : t.Spine (parent :: ids)) (ht : t.Grown)
    (hids : ∀ id ∈ parent :: ids, id < t.size) (state : σ) :
    (t.addChild parent state).Spine (t.size :: parent :: ids) := by
  have hp : parent < t.size := hids parent List.mem_cons_self
  refine List.pairwise_cons.mpr ⟨?_, ?_⟩
  · intro id hid
    rw [ht.mem_subtree_addChild hp (hids id hid)]
    refine .inr ⟨rfl, ?_⟩
    rcases List.mem_cons.mp hid with rfl | hid
    · exact ht.mem_subtree_self id
    · exact (List.pairwise_cons.mp h).1 id hid
  · refine List.Pairwise.imp_of_mem ?_ h
    intro a b _ hb hab
    exact (ht.mem_subtree_addChild hp (hids b hb)).mpr (.inl hab)

theorem Ordered.between_children (ho : t.Ordered) (ht : t.Grown) (hp : parent < t.size)
    (hlast : t.size - 1 ∈ t.subtree parent) (state : σ) (id : Nat) :
    (t.children id).Pairwise fun c c' ↦ ∀ x ∈ (t.addChild parent state).subtree c,
      ∀ y ∈ (t.addChild parent state).subtree c', x < y := by
  have hbetween := ho id
  rw [ht.subtree_eq, List.pairwise_cons, List.pairwise_flatMap] at hbetween
  refine List.Pairwise.imp_of_mem ?_ hbetween.2.2
  intro c c' hc hc' hlt x hx y hy
  rw [ht.mem_subtree_addChild hp (ht.mem_children hc).2] at hx
  rw [ht.mem_subtree_addChild hp (ht.mem_children hc').2] at hy
  rcases hx with hx | ⟨rfl, hx⟩
  · rcases hy with hy | ⟨rfl, -⟩
    · exact hlt x hx y hy
    · have hsize := (ht.mem_children hc).2
      have hxlt := (ht.mem_subtree hx).2
      omega
  · -- a parent below the first child would have the last node there, and leave no second child
    have hend := hlt _ (ht.mem_subtree_trans hlast hx) c' (ht.mem_subtree_self c')
    have hsize := (ht.mem_children hc').2
    omega

theorem Ordered.between_addChild (ho : t.Ordered) (ht : t.Grown) (hp : parent < t.size)
    (hlast : t.size - 1 ∈ t.subtree parent) (state : σ) (id : Nat) :
    ((t.addChild parent state).children id).Pairwise fun c c' ↦
      ∀ x ∈ (t.addChild parent state).subtree c,
        ∀ y ∈ (t.addChild parent state).subtree c', x < y := by
  have hbetween := ho.between_children ht hp hlast state id
  rw [children_addChild hp]
  split_ifs with hid
  · refine List.pairwise_append.mpr ⟨hbetween, List.pairwise_singleton _ _, ?_⟩
    intro c hc c' hc' x hx y hy
    rw [List.mem_singleton.mp hc', ht.subtree_addChild_size hp, List.mem_singleton] at hy
    rw [hy]
    have hlt := ht.mem_children hc
    rcases (ht.mem_subtree_addChild hp hlt.2).mp hx with hx | ⟨-, hx⟩
    · have hxlt := (ht.mem_subtree hx).2
      omega
    · have hle := (ht.mem_subtree hx).1
      omega
  · exact hbetween

theorem Ordered.addChild (ho : t.Ordered) (ht : t.Grown) (hp : parent < t.size)
    (hlast : t.size - 1 ∈ t.subtree parent) (state : σ) : (t.addChild parent state).Ordered := by
  have ht' := ht.addChild hp state
  intro id
  induction id using ht'.child_induction with
  | step id ih =>
    rw [ht'.subtree_eq, List.pairwise_cons, List.pairwise_flatMap]
    refine ⟨?_, ih, ho.between_addChild ht hp hlast state id⟩
    intro k hk
    obtain ⟨c, hc, hk⟩ := List.mem_flatMap.mp hk
    exact (ht'.mem_children hc).1.trans_le (ht'.mem_subtree hk).1

theorem Ordered.subtree_root (ho : t.Ordered) (ht : t.Grown) :
    t.subtree rootId = List.range t.size :=
  ht.subtree_root.eq_of_pairwise (fun _ _ _ _ hab hba ↦ absurd hab hba.asymm) (ho rootId)
    List.pairwise_lt_range

theorem le_foldl_degree (nodes : List (Node σ)) (d : Nat) :
    d ≤ nodes.foldl (fun d n ↦ max d n.children.length) d ∧
      ∀ n ∈ nodes, n.children.length ≤ nodes.foldl (fun d n ↦ max d n.children.length) d := by
  induction nodes generalizing d with
  | nil => exact ⟨Nat.le_refl d, nofun⟩
  | cons n nodes ih =>
    obtain ⟨hd, hnodes⟩ := ih (max d n.children.length)
    refine ⟨(Nat.le_max_left _ _).trans hd, fun n' hn' ↦ ?_⟩
    rcases List.mem_cons.mp hn' with rfl | hn'
    · exact (Nat.le_max_right _ _).trans hd
    · exact hnodes n' hn'

theorem length_children_le (t : Tree σ) (id : Nat) : (t.children id).length ≤ t.maxDegree := by
  rw [children]
  cases h : t.get? id with
  | none => exact Nat.zero_le _
  | some n =>
    rw [maxDegree, ← Array.foldl_toList]
    exact (le_foldl_degree _ 0).2 n (Array.mem_toList_iff.mpr (Array.mem_of_getElem? h))

def edgeInto (t : Tree σ) (id : Nat) : Nat × Nat := (((t.get? id).bind Node.parent).getD rootId, id)

theorem Grown.edgesBelow_eq (ht : t.Grown) (id : Nat) :
    t.edgesBelow id = (t.children id).map t.edgeInto := by
  refine List.map_congr_left fun c hc ↦ ?_
  obtain ⟨n, hn, hparent⟩ := ht.mem_children_iff.mp hc
  simp [edgeInto, hn, hparent]

theorem Grown.walkEdges_eq (ht : t.Grown) {fuel : Nat} {ids : List Nat}
    (hids : ∀ id ∈ ids, id < t.size) (hfuel : (ids.flatMap t.subtree).length ≤ fuel) :
    t.walkEdges fuel (ids.map t.edgeInto) = some ((ids.flatMap t.subtree).map t.edgeInto) := by
  induction fuel generalizing ids with
  | zero =>
    cases ids with
    | nil => rfl
    | cons id rest =>
      rw [List.flatMap_cons, ht.subtree_eq] at hfuel
      simp at hfuel
  | succ fuel ih =>
    cases ids with
    | nil => rfl
    | cons id rest =>
      have hchildren : ∀ c ∈ t.children id ++ rest, c < t.size := by
        intro c hc
        rcases List.mem_append.mp hc with hc | hc
        · exact (ht.mem_children hc).2
        · exact hids c (List.mem_cons_of_mem id hc)
      have hless : ((t.children id ++ rest).flatMap t.subtree).length ≤ fuel := by
        rw [List.flatMap_cons, ht.subtree_eq] at hfuel
        simpa using hfuel
      rw [List.map_cons, edgeInto, walkEdges, if_pos (hids id List.mem_cons_self),
        ht.edgesBelow_eq, ← List.map_append, ih hchildren hless, List.flatMap_cons, ht.subtree_eq]
      simp [edgeInto]

theorem size_lt_fuel (h : t.children rootId ≠ []) :
    t.size < Nat.pow (t.maxDegree + 1) (t.size + 1) := by
  have hdegree := t.length_children_le rootId
  have hlength := List.length_pos_iff.mpr h
  have hpow : t.size + 1 < Nat.pow 2 (t.size + 1) := Nat.lt_two_pow_self
  have hmono : Nat.pow 2 (t.size + 1) ≤ Nat.pow (t.maxDegree + 1) (t.size + 1) :=
    Nat.pow_le_pow_left (by omega) _
  omega

theorem Grown.length_subtree_root_le (ht : t.Grown) :
    ((t.children rootId).flatMap t.subtree).length ≤ Nat.pow (t.maxDegree + 1) (t.size + 1) := by
  cases hc : t.children rootId with
  | nil => exact Nat.zero_le _
  | cons c rest =>
    have hlength := ht.subtree_root.length_eq
    rw [List.length_range, ht.subtree_eq, List.length_cons, hc] at hlength
    have hfuel := size_lt_fuel (t := t) (by rw [hc]; exact List.cons_ne_nil c rest)
    omega

theorem Grown.edges?_eq (ht : t.Grown) :
    t.edges? = some ((t.subtree rootId).tail.map t.edgeInto) := by
  have htail : (t.subtree rootId).tail = (t.children rootId).flatMap t.subtree := by
    rw [ht.subtree_eq, List.tail_cons]
  rw [edges?, ht.edgesBelow_eq, htail]
  exact ht.walkEdges_eq (fun c hc ↦ (ht.mem_children hc).2) ht.length_subtree_root_le

end BranchStream.Tree
