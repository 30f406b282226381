import BranchStream.Branches.Tree

namespace BranchStream.Tree

variable {σ : Type} {t : Tree σ} {parent id c : Nat} {state : σ}

theorem exists_get? (h : id < t.size) : ∃ n, t.get? id = some n :=
  ⟨t.nodes[id], Array.getElem?_eq_getElem h⟩

theorem children_eq_nil (h : t.size ≤ id) : t.children id = [] := by
  rw [children, get?_eq_none h]

theorem children_ofRoot : (ofRoot state).children id = [] := by
  cases id with
  | zero => rfl
  | succ id => exact children_eq_nil (by simp)

theorem children_addChild (h : parent < t.size) :
    (t.addChild parent state).children id =
      if id = parent then t.children id ++ [t.size] else t.children id := by
  by_cases hid : id = t.size
  · subst hid
    rw [if_neg (by omega), children_eq_nil (Nat.le_refl _), children, get?_addChild_size]
  · rw [children, get?_addChild_of_ne hid]
    by_cases hp : parent = id
    · subst hp
      obtain ⟨n, hn⟩ := exists_get? h
      simp [children, hn, Node.addChild]
    · rw [if_neg hp, if_neg (Ne.symm hp), children]

theorem mem_children_addChild (hp : parent < t.size) :
    c ∈ (t.addChild parent state).children id ↔
      c ∈ t.children id ∨ c = t.size ∧ id = parent := by
  rw [children_addChild hp]
  by_cases hid : id = parent
  · simp [hid]
  · simp [hid]

def parent? (t : Tree σ) (id : Nat) : Option (Option Nat) := (t.get? id).map Node.parent

theorem parent?_eq_none (h : t.size ≤ c) : t.parent? c = none := by
  rw [parent?, get?_eq_none h, Option.map_none]

theorem parent?_ofRoot : (ofRoot state).parent? c = if c = rootId then some none else none := by
  cases c with
  | zero => rfl
  | succ c => exact parent?_eq_none (by simp)

theorem parent?_addChild : (t.addChild parent state).parent? c =
    if c = t.size then some (some parent) else t.parent? c := by
  rw [parent?]
  split
  · rename_i hc
    rw [hc, get?_addChild_size, Option.map_some]
  · rename_i hc
    rw [get?_addChild_of_ne hc, parent?]
    split
    · cases t.get? c <;> rfl
    · rfl

theorem parent?_eq_some_iff :
    t.parent? c = some (some id) ↔ ∃ n, t.get? c = some n ∧ n.parent = some id :=
  Option.map_eq_some_iff

inductive Grown : Tree σ → Prop
  | ofRoot (state : σ) : Grown (ofRoot state)
  | addChild {t : Tree σ} {parent : Nat} (ht : Grown t) (hp : parent < t.size) (state : σ) :
      Grown (t.addChild parent state)

theorem Grown.size_pos (ht : t.Grown) : 0 < t.size := by
  cases ht with
  | ofRoot => simp
  | addChild => simp

theorem Grown.mem_children (ht : t.Grown) (hc : c ∈ t.children id) : id < c ∧ c < t.size := by
  induction ht with
  | ofRoot state => simp [children_ofRoot] at hc
  | @addChild t parent ht hp state ih =>
    rw [size_addChild]
    rcases (mem_children_addChild hp).mp hc with hc | ⟨rfl, rfl⟩
    · have h := ih hc
      omega
    · omega

theorem Grown.exists_parent (ht : t.Grown) (hpos : 0 < c) (hc : c < t.size) :
    ∃ id, c ∈ t.children id := by
  induction ht with
  | ofRoot state =>
    rw [size_ofRoot] at hc
    omega
  | @addChild t parent ht hp state ih =>
    rw [size_addChild] at hc
    by_cases hnew : c = t.size
    · exact ⟨parent, (mem_children_addChild hp).mpr (.inr ⟨hnew, rfl⟩)⟩
    · obtain ⟨id, hid⟩ := ih (by omega)
      exact ⟨id, (mem_children_addChild hp).mpr (.inl hid)⟩

theorem Grown.mem_children_iff (ht : t.Grown) :
    c ∈ t.children id ↔ ∃ n, t.get? c = some n ∧ n.parent = some id := by
  rw [← parent?_eq_some_iff]
  induction ht with
  | ofRoot state =>
    rw [children_ofRoot, parent?_ofRoot]
    split <;> simp
  | @addChild t parent ht hp state ih =>
    rw [mem_children_addChild hp, parent?_addChild]
    split
    · rename_i hc
      have hnot : t.size ∉ t.children id := fun h ↦ Nat.lt_irrefl _ (ht.mem_children h).2
      simp [hc, hnot, eq_comm]
    · rename_i hc
      simp [hc, ih]

theorem Grown.child_lt (ht : t.Grown) {n : Node σ} (hn : t.get? id = some n)
    (hc : c ∈ n.children) : c < t.size := by
  have hmem : c ∈ t.children id := by rwa [children, hn]
  exact (ht.mem_children hmem).2

theorem Grown.parent_lt (ht : t.Grown) {n : Node σ} (hn : t.get? c = some n)
    (hid : n.parent = some id) : id < t.size := by
  have hlt := ht.mem_children (ht.mem_children_iff.mpr ⟨n, hn, hid⟩)
  omega

theorem Grown.child_induction (ht : t.Grown) {P : Nat → Prop}
    (step : ∀ id, (∀ c ∈ t.children id, P c) → P id) (id : Nat) : P id :=
  step id fun c _ ↦ ht.child_induction step c
termination_by t.size - id
decreasing_by
  have h := ht.mem_children ‹c ∈ t.children id›
  omega

/-- More nodes have been added to `t`: its own nodes are as they were but for children that come
after all of them. -/
structure Extends (t t' : Tree σ) : Prop where
  size_le : t.size ≤ t'.size
  get?_eq : ∀ id n, t.get? id = some n → ∃ more,
    t'.get? id = some { n with children := n.children ++ more } ∧ ∀ c ∈ more, t.size ≤ c

theorem Extends.refl (t : Tree σ) : t.Extends t where
  size_le := Nat.le_refl _
  get?_eq id n hn := ⟨[], by rw [hn, List.append_nil], nofun⟩

theorem Extends.addChild {t' : Tree σ} (h : t.Extends t') (parent : Nat) (state : σ) :
    t.Extends (t'.addChild parent state) where
  size_le := by
    have hle := h.size_le
    rw [size_addChild]
    omega
  get?_eq id n hn := by
    obtain ⟨more, hmore, hle⟩ := h.get?_eq id n hn
    have hne : id ≠ t'.size := by
      rintro rfl
      rw [get?_eq_none h.size_le] at hn
      cases hn
    rw [get?_addChild_of_ne hne]
    split
    · refine ⟨more ++ [t'.size], ?_, ?_⟩
      · simp [hmore, Node.addChild]
      · intro c hc
        rcases List.mem_append.mp hc with hc | hc
        · exact hle c hc
        · rw [List.mem_singleton.mp hc]
          exact h.size_le
    · exact ⟨more, hmore, hle⟩

end BranchStream.Tree
