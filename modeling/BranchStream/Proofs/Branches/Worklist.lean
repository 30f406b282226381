import BranchStream.Proofs.Branches.DepthFirst
import BranchStream.Proofs.Branches.Rooted

namespace BranchStream.Tree

variable {σ : Type} {t : Tree σ}

theorem map_snd_edgesBelow (t : Tree σ) (id : Nat) :
    (t.edgesBelow id).map Prod.snd = t.children id := by
  simp [edgesBelow]

theorem walkEdges_mono {fuel fuel' : Nat} {pending es : List (Nat × Nat)}
    (h : t.walkEdges fuel pending = some es) (hle : fuel ≤ fuel') :
    t.walkEdges fuel' pending = some es := by
  induction fuel generalizing fuel' pending es with
  | zero =>
    cases pending with
    | nil => rwa [walkEdges] at h ⊢
    | cons e rest => cases h
  | succ fuel ih =>
    obtain ⟨fuel', rfl⟩ := Nat.exists_eq_add_of_le' (Nat.zero_lt_of_lt hle)
    cases pending with
    | nil => rwa [walkEdges] at h ⊢
    | cons e rest =>
      rw [walkEdges] at h ⊢
      split at h
      · rename_i hlt
        obtain ⟨es', hes', rfl⟩ := Option.map_eq_some_iff.mp h
        rw [if_pos hlt, ih hes' (Nat.le_of_succ_le_succ hle), Option.map_some]
      · cases h

/-- Where the walk stands. It has reached some nodes from the root on, and the pending edges are
those that lead on from them; no node is reached or pending twice. -/
structure Walked (t : Tree σ) (reached : List Nat) (pending : List (Nat × Nat)) : Prop where
  root_mem : rootId ∈ reached
  nodup : (reached ++ pending.map Prod.snd).Nodup
  source : ∀ c ∈ reached, c = rootId ∨ ∃ id ∈ reached, c ∈ t.children id
  edge : ∀ e ∈ pending, e.1 ∈ reached ∧ e.2 ∈ t.children e.1
  closed : ∀ id ∈ reached, ∀ c ∈ t.children id, c ∈ reached ++ pending.map Prod.snd

variable {reached : List Nat} {pending : List (Nat × Nat)} {parent id c : Nat}

theorem Walked.source_of_mem (hw : t.Walked reached pending)
    (hc : c ∈ reached ++ pending.map Prod.snd) :
    c = rootId ∨ ∃ id ∈ reached, c ∈ t.children id := by
  rcases List.mem_append.mp hc with hc | hc
  · exact hw.source c hc
  · obtain ⟨e, he, rfl⟩ := List.mem_map.mp hc
    exact .inr ⟨e.1, hw.edge e he⟩

namespace Rooted

theorem walked_start (h : t.Rooted) : t.Walked [rootId] (t.edgesBelow rootId) where
  root_mem := List.mem_cons_self
  nodup := by
    rw [map_snd_edgesBelow, List.singleton_append, List.nodup_cons]
    exact ⟨fun hroot ↦ h.child_ne_root hroot rfl, h.nodup_children rootId⟩
  source c hc := .inl (List.mem_singleton.mp hc)
  edge e he := by
    obtain ⟨c, hc, rfl⟩ := List.mem_map.mp he
    exact ⟨List.mem_cons_self, hc⟩
  closed id hid c hc := by
    obtain rfl := List.mem_singleton.mp hid
    rw [map_snd_edgesBelow]
    exact List.mem_cons_of_mem _ hc

/-- A child of a node that is reached only now cannot be known: another node would have listed it, or
this one would have been reached before. -/
theorem disjoint_children (h : t.Rooted) (hw : t.Walked reached ((parent, id) :: pending)) :
    (t.children id).Disjoint (reached ++ ((parent, id) :: pending).map Prod.snd) := by
  intro c hc hmem
  rcases hw.source_of_mem hmem with hroot | ⟨id', hid', hc'⟩
  · exact h.child_ne_root hc hroot
  · rw [h.eq_of_mem_children hc' hc] at hid'
    exact (List.nodup_append.mp hw.nodup).2.2 id hid' id (by simp) rfl

theorem walked_step (h : t.Rooted) (hw : t.Walked reached ((parent, id) :: pending)) :
    t.Walked (id :: reached) (t.edgesBelow id ++ pending) where
  root_mem := List.mem_cons_of_mem id hw.root_mem
  nodup := by
    have hperm : (id :: reached ++ (t.edgesBelow id ++ pending).map Prod.snd).Perm
        (t.children id ++ (reached ++ ((parent, id) :: pending).map Prod.snd)) := by
      refine List.perm_iff_count.mpr fun c ↦ ?_
      simp only [List.map_append, List.map_cons, map_snd_edgesBelow, List.count_append,
        List.count_cons]
      omega
    rw [hperm.nodup_iff, List.nodup_append']
    exact ⟨h.nodup_children id, hw.nodup, h.disjoint_children hw⟩
  source c hc := by
    rcases List.mem_cons.mp hc with rfl | hc
    · obtain ⟨hparent, hmem⟩ := hw.edge (parent, c) List.mem_cons_self
      exact .inr ⟨parent, List.mem_cons_of_mem c hparent, hmem⟩
    · refine (hw.source c hc).imp_right ?_
      rintro ⟨id', hid', hmem⟩
      exact ⟨id', List.mem_cons_of_mem id hid', hmem⟩
  edge e he := by
    rcases List.mem_append.mp he with he | he
    · obtain ⟨c, hc, rfl⟩ := List.mem_map.mp he
      exact ⟨List.mem_cons_self, hc⟩
    · obtain ⟨hsource, hmem⟩ := hw.edge e (List.mem_cons_of_mem _ he)
      exact ⟨List.mem_cons_of_mem id hsource, hmem⟩
  closed id' hid' c hc := by
    rw [List.map_append, map_snd_edgesBelow]
    rcases List.mem_cons.mp hid' with rfl | hid'
    · simp [hc]
    · have hold := hw.closed id' hid' c hc
      simp only [List.map_cons, List.mem_append, List.mem_cons] at hold ⊢
      tauto

theorem length_le_size (h : t.Rooted) (hw : t.Walked reached pending) :
    reached.length + pending.length ≤ t.size := by
  have hsubset : reached ++ pending.map Prod.snd ⊆ List.range t.size := by
    intro c hc
    rw [List.mem_range]
    rcases hw.source_of_mem hc with rfl | ⟨id, -, hmem⟩
    · exact h.size_pos
    · exact h.child_lt hmem
  have hle := (List.subperm_of_subset hw.nodup hsubset).length_le
  rwa [List.length_append, List.length_map, List.length_range] at hle

theorem exists_walkEdges (h : t.Rooted) {fuel : Nat} (hw : t.Walked reached pending)
    (hfuel : t.size ≤ reached.length + fuel) : ∃ es, t.walkEdges fuel pending = some es ∧
      t.Walked ((es.map Prod.snd).reverse ++ reached) [] ∧ ∀ e ∈ es, e.2 ∈ t.children e.1 := by
  induction fuel generalizing reached pending with
  | zero =>
    cases pending with
    | nil => exact ⟨[], by rw [walkEdges], hw, nofun⟩
    | cons e rest =>
      have hle := h.length_le_size hw
      rw [List.length_cons] at hle
      omega
  | succ fuel ih =>
    cases pending with
    | nil => exact ⟨[], by rw [walkEdges], hw, nofun⟩
    | cons e rest =>
      obtain ⟨parent, id⟩ := e
      obtain ⟨-, hmem⟩ := hw.edge (parent, id) List.mem_cons_self
      obtain ⟨es, hes, hend, hedges⟩ := ih (h.walked_step hw) (by rw [List.length_cons]; omega)
      refine ⟨(parent, id) :: es, ?_, by simpa using hend, List.forall_mem_cons.mpr ⟨hmem, hedges⟩⟩
      rw [walkEdges, if_pos (h.child_lt hmem), hes, Option.map_some]

theorem reached_perm (h : t.Rooted) (hw : t.Walked reached []) :
    reached.Perm (List.range t.size) := by
  have hnodup := hw.nodup
  rw [List.map_nil, List.append_nil] at hnodup
  refine (List.perm_ext_iff_of_nodup hnodup List.nodup_range).mpr fun c ↦ ?_
  rw [List.mem_range]
  constructor
  · intro hc
    rcases hw.source c hc with rfl | ⟨id, -, hmem⟩
    · exact h.size_pos
    · exact h.child_lt hmem
  · refine h.down_induction (P := (· ∈ reached)) hw.root_mem fun id hid c hc ↦ ?_
    simpa using hw.closed id hid c hc

theorem edges?_eq (h : t.Rooted) : ∃ es, t.edges? = some es ∧
    t.walkEdges (t.size - 1) (t.edgesBelow rootId) = some es ∧ es.length = t.size - 1 ∧
    (rootId :: es.map Prod.snd).Perm (List.range t.size) ∧ ∀ e ∈ es, e.2 ∈ t.children e.1 := by
  have hsize := h.size_pos
  have hfuel : t.size ≤ [rootId].length + (t.size - 1) := by
    rw [List.length_singleton]
    omega
  obtain ⟨es, hes, hend, hedges⟩ := h.exists_walkEdges h.walked_start hfuel
  have hperm := h.reached_perm hend
  have hlength := hperm.length_eq
  rw [List.length_append, List.length_reverse, List.length_map, List.length_singleton,
    List.length_range] at hlength
  refine ⟨es, ?_, hes, by omega, ?_, hedges⟩
  · by_cases hchildren : t.children rootId = []
    · rw [edgesBelow, hchildren, List.map_nil, walkEdges] at hes
      rw [edges?, edgesBelow, hchildren, List.map_nil, walkEdges, hes]
    · have hfuel := size_lt_fuel hchildren
      exact walkEdges_mono hes (by omega)
  · refine List.Perm.trans ?_ hperm
    rw [← List.singleton_append]
    exact List.perm_append_comm.trans ((List.reverse_perm _).symm.append_right _)

end Rooted

end BranchStream.Tree
