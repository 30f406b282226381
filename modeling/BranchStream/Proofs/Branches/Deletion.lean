import BranchStream.Proofs.Branches.Subtree
import Mathlib.Data.List.Sort
import Mathlib.Tactic.SplitIfs

namespace BranchStream.Tree

variable {σ : Type}

def outside (t : Tree σ) (id : Nat) : List Nat :=
  (List.range t.size).filter (· ∉ t.subtree id)

/-- The node in a tree of the nodes `kept` only, each numbered by its place among them. -/
def Node.among (kept : List Nat) (n : Node σ) : Node σ :=
  { n with
    parent := n.parent.map kept.idxOf
    children := (n.children.filter (· ∈ kept)).map kept.idxOf }

/-- The tree without a node and all below it. The nodes that remain are numbered anew in the order
of their ids; each keeps its state, its parent and the order of its children. -/
def without (t : Tree σ) (id : Nat) : Tree σ :=
  ⟨((t.outside id).filterMap fun k ↦ (t.get? k).map (Node.among (t.outside id))).toArray⟩

/-- Where an id goes when `len` places are put in at `start`. -/
def skip (start len k : Nat) : Nat := if k < start then k else k + len

def Node.skipping (start len : Nat) (n : Node σ) : Node σ :=
  { n with parent := n.parent.map (skip start len), children := n.children.map (skip start len) }

def Node.skipped (start len : Nat) (n : Node σ) : Node σ :=
  { n with children := n.children.filter fun c ↦ c < start ∨ start + len ≤ c }

/-- The tree `t'` is `t` with a subtree of `len` nodes put in at `start`. -/
structure Inserted (start len : Nat) (t t' : Tree σ) : Prop where
  le_size : start ≤ t.size
  size_eq : t'.size = t.size + len
  subtree : ∀ m, m ∈ t'.subtree start ↔ start ≤ m ∧ m < start + len
  get?_eq : ∀ k, (t'.get? (skip start len k)).map (Node.skipped start len) =
    (t.get? k).map (Node.skipping start len)

variable {t t' : Tree σ} {start len k parent : Nat} {state : σ}

theorem skip_strictMono (start len : Nat) : StrictMono (skip start len) := by
  intro j k h
  unfold skip
  split_ifs <;> omega

theorem skip_outside (start len k : Nat) :
    skip start len k < start ∨ start + len ≤ skip start len k := by
  unfold skip
  split_ifs <;> omega

theorem skip_of_lt (h : k < start) : skip start len k = k := if_pos h

theorem skip_of_le (h : start ≤ k) : skip start len k = k + len := if_neg (Nat.not_lt.mpr h)

theorem Node.skipped_addChild {n : Node σ} {c : Nat} (hc : c < start ∨ start + len ≤ c) :
    (n.addChild c).skipped start len = (n.skipped start len).addChild c := by
  simp [skipped, Node.addChild, List.filter_append, hc]

theorem Node.skipping_addChild {n : Node σ} {c : Nat} :
    (n.addChild c).skipping start len = (n.skipping start len).addChild (skip start len c) := by
  simp [skipping, Node.addChild]

theorem Inserted.addChild (h : Inserted start len t t') (ht' : t'.Grown) (hp : parent < t.size)
    (state : σ) :
    Inserted start len (t.addChild parent state) (t'.addChild (skip start len parent) state) := by
  have hle := h.le_size
  have hsize := h.size_eq
  have hstart : start < t'.size := by
    have hmem := (h.subtree start).mp (ht'.mem_subtree_self start)
    omega
  have hparent : skip start len parent < t'.size := by
    unfold skip
    split_ifs <;> omega
  have hnew : skip start len t.size = t'.size := by rw [skip_of_le hle, hsize]
  refine ⟨?_, ?_, ?_, ?_⟩
  · rw [size_addChild]
    omega
  · rw [size_addChild, size_addChild]
    omega
  · intro m
    have hout := skip_outside start len parent
    rw [ht'.mem_subtree_addChild hparent hstart, h.subtree, h.subtree]
    omega
  · intro k
    by_cases hk : k = t.size
    · rw [hk, hnew, get?_addChild_size, get?_addChild_size]
      rfl
    · have hne : skip start len k ≠ t'.size := by
        rw [← hnew]
        exact (skip_strictMono start len).injective.ne hk
      have hiff : skip start len parent = skip start len k ↔ parent = k :=
        (skip_strictMono start len).injective.eq_iff
      rw [get?_addChild_of_ne hne, get?_addChild_of_ne hk, if_congr hiff rfl rfl]
      split_ifs
      · have hskipped : Node.skipped start len ∘ (·.addChild t'.size) =
            (·.addChild t'.size) ∘ Node.skipped (σ := σ) start len :=
          funext fun _ ↦ Node.skipped_addChild (.inr (by omega))
        have hskipping : Node.skipping start len ∘ (·.addChild t.size) =
            (·.addChild t'.size) ∘ Node.skipping (σ := σ) start len :=
          funext fun _ ↦ hnew ▸ Node.skipping_addChild
        rw [Option.map_map, Option.map_map, hskipped, hskipping, ← Option.map_map,
          ← Option.map_map, h.get?_eq]
      · exact h.get?_eq k

theorem Inserted.outside_eq (h : Inserted start len t t') :
    t'.outside start = (List.range t.size).map (skip start len) := by
  have hle := h.le_size
  have hsize := h.size_eq
  have hleft : (t'.outside start).Pairwise (· < ·) := List.pairwise_lt_range.filter _
  have hright : ((List.range t.size).map (skip start len)).Pairwise (· < ·) :=
    List.pairwise_lt_range.map _ fun _ _ hlt ↦ skip_strictMono start len hlt
  refine List.Perm.eq_of_pairwise (fun _ _ _ _ hab hba ↦ absurd hab hba.asymm) hleft hright ?_
  rw [List.perm_ext_iff_of_nodup hleft.nodup hright.nodup]
  intro m
  simp only [outside, List.mem_filter, List.mem_range, decide_eq_true_eq, h.subtree, List.mem_map]
  constructor
  · rintro ⟨hm, hout⟩
    rcases Nat.lt_or_ge m start with hlt | hge
    · exact ⟨m, by omega, skip_of_lt hlt⟩
    · refine ⟨m - len, by omega, ?_⟩
      rw [skip_of_le (by omega)]
      omega
  · rintro ⟨k, hk, rfl⟩
    have hout := skip_outside start len k
    refine ⟨?_, by omega⟩
    unfold skip
    split_ifs <;> omega

theorem filterMap_getElem? (l : List σ) : (List.range l.length).filterMap (l[·]?) = l := by
  induction l with
  | nil => rfl
  | cons a l ih =>
    rw [List.length_cons, List.range_succ_eq_map, List.filterMap_cons, List.filterMap_map]
    simpa [Function.comp_def] using ih

theorem Inserted.idxOf_skip (h : Inserted start len t t') (hk : k < t.size) :
    (t'.outside start).idxOf (skip start len k) = k := by
  rw [h.outside_eq]
  have hnodup : ((List.range t.size).map (skip start len)).Nodup :=
    List.nodup_range.map (skip_strictMono start len).injective
  have hget := hnodup.idxOf_getElem k (by simpa using hk)
  rwa [List.getElem_map, List.getElem_range] at hget

theorem Inserted.node_eq (h : Inserted start len t t') (ht : t.Grown) (ht' : t'.Grown)
    (hk : k < t.size) :
    (t'.get? (skip start len k)).map (Node.among (t'.outside start)) = t.get? k := by
  obtain ⟨n, hn⟩ := exists_get? hk
  have hskipped := h.get?_eq k
  rw [hn, Option.map_some, Option.map_eq_some_iff] at hskipped
  obtain ⟨n', hn', heq⟩ := hskipped
  obtain ⟨state, parent, children⟩ := n
  obtain ⟨state', parent', children'⟩ := n'
  simp only [Node.skipped, Node.skipping, Node.mk.injEq] at heq
  obtain ⟨rfl, rfl, hchildren⟩ := heq
  rw [hn', hn, Option.map_some, Option.some.injEq, Node.among, Node.mk.injEq]
  refine ⟨rfl, ?_, ?_⟩
  · cases parent with
    | none => rfl
    | some q => rw [Option.map_some, Option.map_some, h.idxOf_skip (ht.parent_lt hn rfl)]
  · have hkept : ∀ c ∈ children', decide (c ∈ t'.outside start) =
        decide (c < start ∨ start + len ≤ c) := by
      intro c hc
      have hlt := ht'.child_lt hn' hc
      rw [decide_eq_decide, outside, List.mem_filter, List.mem_range, decide_eq_true_eq, h.subtree]
      omega
    have hback : ∀ c ∈ children, ((t'.outside start).idxOf ∘ skip start len) c = c :=
      fun c hc ↦ h.idxOf_skip (ht.child_lt hn hc)
    rw [List.filter_congr hkept, hchildren, List.map_map, List.map_congr_left hback, List.map_id']

theorem Inserted.without_eq (h : Inserted start len t t') (ht : t.Grown) (ht' : t'.Grown) :
    t'.without start = t := by
  have hnodes : (List.range t.size).filterMap t.get? = t.nodes.toList := by
    have hall := filterMap_getElem? t.nodes.toList
    simp only [Array.length_toList, Array.getElem?_toList] at hall
    exact hall
  have hkept : (t'.outside start).filterMap
      (fun k ↦ (t'.get? k).map (Node.among (t'.outside start))) = t.nodes.toList := by
    rw [h.outside_eq, List.filterMap_map, ← h.outside_eq, ← hnodes]
    exact List.filterMap_congr fun k hk ↦ h.node_eq ht ht' (List.mem_range.mp hk)
  rw [without, hkept]

theorem Grown.skipping_node (ht : t.Grown) {n : Node σ} (hn : t.get? k = some n) :
    n.skipping t.size len = n := by
  obtain ⟨state, parent, children⟩ := n
  rw [Node.skipping, Node.mk.injEq]
  refine ⟨rfl, ?_, ?_⟩
  · cases parent with
    | none => rfl
    | some q => rw [Option.map_some, skip_of_lt (ht.parent_lt hn rfl)]
  · have hstay : ∀ c ∈ children, skip t.size len c = c :=
      fun c hc ↦ skip_of_lt (ht.child_lt hn hc)
    rw [List.map_congr_left hstay, List.map_id']

theorem Extends.skipped_node (h : t.Extends t') (ht : t.Grown) (ht' : t'.Grown) {n : Node σ}
    (hn : t.get? k = some n) :
    (t'.get? k).map (Node.skipped t.size (t'.size - t.size)) = some n := by
  obtain ⟨more, hmore, hlater⟩ := h.get?_eq k n hn
  have hold : ∀ c ∈ n.children, decide (c < t.size ∨ t.size + (t'.size - t.size) ≤ c) = true :=
    fun c hc ↦ decide_eq_true (.inl (ht.child_lt hn hc))
  have hnew : ∀ c ∈ more, ¬ decide (c < t.size ∨ t.size + (t'.size - t.size) ≤ c) = true := by
    intro c hc
    have hlt := ht'.child_lt hmore (List.mem_append_right _ hc)
    have hge := hlater c hc
    rw [decide_eq_true_eq]
    omega
  rw [hmore, Option.map_some, Node.skipped, List.filter_append, List.filter_eq_self.mpr hold,
    List.filter_eq_nil_iff.mpr hnew, List.append_nil]

theorem Extends.inserted (h : t.Extends t') (ht : t.Grown) (ht' : t'.Grown)
    (hsub : ∀ m, m ∈ t'.subtree t.size ↔ t.size ≤ m ∧ m < t'.size) :
    Inserted t.size (t'.size - t.size) t t' := by
  have hle := h.size_le
  have hend : t.size + (t'.size - t.size) = t'.size := by omega
  refine ⟨Nat.le_refl _, hend.symm, ?_, ?_⟩
  · rw [hend]
    exact hsub
  · intro k
    rcases Nat.lt_or_ge k t.size with hk | hk
    · obtain ⟨n, hn⟩ := exists_get? hk
      rw [skip_of_lt hk, h.skipped_node ht ht' hn, hn, Option.map_some, ht.skipping_node hn]
    · rw [skip_of_le hk, get?_eq_none hk, get?_eq_none (by omega)]
      rfl

end BranchStream.Tree
