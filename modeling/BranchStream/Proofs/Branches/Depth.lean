import BranchStream.Proofs.Branches.Rooted
import Mathlib.Data.Finset.Lattice.Fold
import Mathlib.Data.List.Nodup
import Mathlib.Order.Lattice.Nat

namespace BranchStream.Tree

variable {σ : Type} {t : Tree σ} {id c k : Nat}

def stepsUp (t : Tree σ) : (fuel : Nat) → (id : Nat) → Nat
  | 0, _ => 0
  | fuel + 1, id =>
    match t.parent? id with
    | some (some parent) => t.stepsUp fuel parent + 1
    | _ => 0

/-- The steps from a node up to the root; in a grown tree they are fewer than there are nodes. -/
def depth (t : Tree σ) (id : Nat) : Nat := t.stepsUp t.size id

def level (t : Tree σ) (k : Nat) : List Nat := (List.range t.size).filter (t.depth · = k)

def height (t : Tree σ) : Nat := (Finset.range t.size).sup t.depth

@[simp]
theorem mem_level : id ∈ t.level k ↔ id < t.size ∧ t.depth id = k := by
  simp [level]

theorem nodup_level (t : Tree σ) (k : Nat) : (t.level k).Nodup := List.nodup_range.filter _

namespace Grown

theorem stepsUp_root (ht : t.Grown) (fuel : Nat) : t.stepsUp fuel rootId = 0 := by
  have hroot : t.parent? rootId = some none := (ht.rooted.parent?_eq_none_iff rootId).mpr rfl
  cases fuel with
  | zero => rfl
  | succ fuel => simp only [stepsUp, hroot]

theorem stepsUp_succ (ht : t.Grown) {fuel : Nat} (h : id ≤ fuel) :
    t.stepsUp (fuel + 1) id = t.stepsUp fuel id := by
  induction fuel generalizing id with
  | zero =>
    obtain rfl : id = rootId := Nat.le_zero.mp h
    rw [ht.stepsUp_root, ht.stepsUp_root]
  | succ fuel ih =>
    rw [stepsUp, stepsUp]
    split
    · rename_i parent hparent
      have hlt := ht.mem_children (ht.rooted.mem_children_iff.mpr hparent)
      rw [ih (by omega)]
    · rfl

theorem depth_root (ht : t.Grown) : t.depth rootId = 0 := ht.stepsUp_root t.size

theorem depth_child (ht : t.Grown) (hc : c ∈ t.children id) : t.depth c = t.depth id + 1 := by
  have hlt := ht.mem_children hc
  obtain ⟨n, hn⟩ := Nat.exists_eq_add_of_le' ht.size_pos
  have hup : t.stepsUp (n + 1) c = t.stepsUp n id + 1 := by
    simp only [stepsUp, ht.rooted.mem_children_iff.mp hc]
  rw [depth, depth, hn, hup, ht.stepsUp_succ (by omega)]

theorem depth_eq_zero_iff (ht : t.Grown) (hc : c < t.size) : t.depth c = 0 ↔ c = rootId := by
  constructor
  · intro hzero
    by_contra hne
    obtain ⟨id, -, hmem⟩ := ht.rooted.exists_parent hc hne
    have hsucc := ht.depth_child hmem
    omega
  · rintro rfl
    exact ht.depth_root

theorem level_zero (ht : t.Grown) : (t.level 0).Perm [rootId] := by
  refine (List.perm_ext_iff_of_nodup (t.nodup_level 0) (List.nodup_singleton _)).mpr fun id ↦ ?_
  rw [mem_level, List.mem_singleton]
  constructor
  · rintro ⟨hlt, hdepth⟩
    exact (ht.depth_eq_zero_iff hlt).mp hdepth
  · rintro rfl
    exact ⟨ht.size_pos, ht.depth_root⟩

theorem level_succ (ht : t.Grown) (k : Nat) :
    (t.level (k + 1)).Perm ((t.level k).flatMap t.children) := by
  have hnodup : ((t.level k).flatMap t.children).Nodup := by
    refine List.nodup_flatMap.mpr ⟨fun id _ ↦ ht.rooted.nodup_children id, ?_⟩
    refine (t.nodup_level k).imp fun {a b} hne c ha hb ↦ ?_
    exact hne (ht.rooted.eq_of_mem_children ha hb)
  refine (List.perm_ext_iff_of_nodup (t.nodup_level (k + 1)) hnodup).mpr fun c ↦ ?_
  simp only [mem_level, List.mem_flatMap]
  constructor
  · rintro ⟨hlt, hdepth⟩
    have hne : c ≠ rootId := by
      rintro rfl
      rw [ht.depth_root] at hdepth
      omega
    obtain ⟨id, hid, hmem⟩ := ht.rooted.exists_parent hlt hne
    have hsucc := ht.depth_child hmem
    exact ⟨id, ⟨hid, by omega⟩, hmem⟩
  · rintro ⟨id, ⟨-, hdepth⟩, hmem⟩
    exact ⟨(ht.mem_children hmem).2, by rw [ht.depth_child hmem, hdepth]⟩

theorem level_eq_nil_of_le (ht : t.Grown) {j : Nat} (hj : t.level j = []) (h : j ≤ k) :
    t.level k = [] := by
  induction h with
  | refl => exact hj
  | @step m _ ih =>
    have hnext := ht.level_succ m
    rw [ih, List.flatMap_nil] at hnext
    exact hnext.eq_nil

theorem level_eq_nil_iff (ht : t.Grown) : t.level k = [] ↔ t.height < k := by
  constructor
  · intro hnil
    by_contra hle
    have hroot : (Finset.range t.size).Nonempty := ⟨rootId, Finset.mem_range.mpr ht.size_pos⟩
    obtain ⟨id, hid, hdepth⟩ := Finset.exists_mem_eq_sup _ hroot t.depth
    have hdeepest : id ∈ t.level t.height := mem_level.mpr ⟨Finset.mem_range.mp hid, hdepth.symm⟩
    rw [ht.level_eq_nil_of_le hnil (Nat.le_of_not_lt hle)] at hdeepest
    cases hdeepest
  · intro hlt
    refine List.eq_nil_iff_forall_not_mem.mpr fun id hid ↦ ?_
    obtain ⟨hsize, hdepth⟩ := mem_level.mp hid
    have hle : t.depth id ≤ t.height := Finset.le_sup (Finset.mem_range.mpr hsize)
    omega

end Grown

end BranchStream.Tree
