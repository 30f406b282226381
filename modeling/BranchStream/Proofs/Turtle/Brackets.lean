import BranchStream.Proofs.Turtle.Step
import Mathlib.Data.List.Infix

namespace BranchStream.Action

variable {α : Type}

/-- In no prefix are more branches closed than opened. -/
def Covered (u : List (Action α)) : Prop :=
  ∀ v, v <+: u → v.countP isPop ≤ v.countP isPush

def Balanced (u : List (Action α)) : Prop := Covered u ∧ u.countP isPop = u.countP isPush

instance (u : List (Action α)) : Decidable (Covered u) :=
  decidable_of_iff (∀ v ∈ u.inits, v.countP isPop ≤ v.countP isPush) (by simp [Covered])

instance (u : List (Action α)) : Decidable (Balanced u) :=
  inferInstanceAs (Decidable (_ ∧ _))

/-- The action at place `j` closes the branch that the one at place `i` opens. -/
def Closes (as : List (Action α)) (i j : Nat) : Prop :=
  i < j ∧ as[i]?.any isPush ∧ as[j]?.any isPop ∧ Balanced ((as.take j).drop (i + 1))

instance (as : List (Action α)) (i j : Nat) : Decidable (Closes as i j) :=
  inferInstanceAs (Decidable (_ ∧ _))

def depth (as : List (Action α)) : Nat :=
  (List.range as.length).countP fun i ↦
    as[i]?.any isPush && decide (∀ j < as.length, ¬ Closes as i j)

/-- The action at place `k` opens a branch below `limit` or more open ones, or closes such a
branch. -/
def Deep (limit : Nat) (as : List (Action α)) (k : Nat) : Prop :=
  (as[k]?.any isPush ∧ limit ≤ depth (as.take k)) ∨
    ∃ i < k, Closes as i k ∧ limit ≤ depth (as.take i)

instance (limit : Nat) (as : List (Action α)) (k : Nat) : Decidable (Deep limit as k) :=
  inferInstanceAs (Decidable (_ ∨ _))

def shallow (limit : Nat) (as : List (Action α)) : List (Action α) :=
  (List.range as.length).filterMap fun k ↦ if Deep limit as k then none else as[k]?

def Fits (limit : Nat) (as : List (Action α)) : Prop :=
  ∀ k < as.length, as[k]?.any isPush → depth (as.take k) < limit

instance (limit : Nat) (as : List (Action α)) : Decidable (Fits limit as) :=
  inferInstanceAs (Decidable (∀ k < as.length, _ → _))

variable {as u v x : List (Action α)} {a : Action α} {i j k limit : Nat} {rest : List Nat}

theorem covered_nil : Covered ([] : List (Action α)) := by
  intro v hv
  rw [List.prefix_nil.mp hv]
  rfl

theorem covered_concat : Covered (u ++ [a]) ↔
    Covered u ∧ (u ++ [a]).countP isPop ≤ (u ++ [a]).countP isPush := by
  simp only [Covered, List.prefix_concat_iff]
  constructor
  · intro h
    exact ⟨fun v hv ↦ h v (.inr hv), h _ (.inl rfl)⟩
  · rintro ⟨hu, ha⟩ v (rfl | hv)
    · exact ha
    · exact hu v hv

theorem Covered.initial (hu : Covered u) (hv : v <+: u) : Covered v :=
  fun x hx ↦ hu x (hx.trans hv)

theorem Covered.countP_lt (h : Covered (u ++ [.pop])) : u.countP isPop < u.countP isPush := by
  have hle := (covered_concat.mp h).2
  simp [List.countP_append] at hle
  omega

theorem balanced_nil : Balanced ([] : List (Action α)) := ⟨covered_nil, rfl⟩

theorem Covered.append (hu : Covered u) (hv : Covered v) : Covered (u ++ v) := by
  have hopened := hu u (List.prefix_refl u)
  induction v using List.reverseRecOn with
  | nil =>
    rw [List.append_nil]
    exact hu
  | append_singleton v a ih =>
    rw [covered_concat] at hv
    rw [← List.append_assoc, covered_concat]
    refine ⟨ih hv.1, ?_⟩
    have hle := hv.2
    simp only [List.countP_append] at hle ⊢
    omega

theorem Balanced.append (hu : Balanced u) (hv : Balanced v) : Balanced (u ++ v) := by
  refine ⟨hu.1.append hv.1, ?_⟩
  rw [List.countP_append, List.countP_append, hu.2, hv.2]

theorem Covered.cons_push (hu : Covered u) : Covered (Action.push :: u) := by
  intro v hv
  rcases List.prefix_cons_iff.mp hv with rfl | ⟨v', rfl, hv'⟩
  · rfl
  · have hle := hu v' hv'
    simp [List.countP_cons]
    omega

theorem Balanced.bracket (hu : Balanced u) :
    Balanced (Action.push :: u ++ [Action.pop]) := by
  have hcount : (Action.push :: u ++ [Action.pop]).countP isPop =
      (Action.push :: u ++ [Action.pop]).countP isPush := by
    simp [List.countP_append, List.countP_cons, hu.2]
  exact ⟨covered_concat.mpr ⟨hu.1.cons_push, hcount.le⟩, hcount⟩

theorem Balanced.concat (hu : Balanced u) (hpush : a.isPush = false) (hpop : a.isPop = false) :
    Balanced (u ++ [a]) := by
  have hcount : (u ++ [a]).countP isPop = (u ++ [a]).countP isPush := by
    simp [List.countP_append, hu.2, hpush, hpop]
  exact ⟨covered_concat.mpr ⟨hu.1, hcount.le⟩, hcount⟩

/-- The places where branches are opened that are never closed, the last one first. -/
def opens (as : List (Action α)) : List Nat :=
  as.zipIdx.foldl (fun places (a, k) ↦
    if a.isPush then k :: places else if a.isPop then places.tail else places) []

theorem opens_concat : opens (as ++ [a]) =
    if a.isPush then as.length :: opens as else if a.isPop then (opens as).tail else opens as := by
  simp [opens, List.zipIdx_append, List.foldl_append]

theorem opens_concat_push : opens (as ++ [Action.push]) = as.length :: opens as := opens_concat

theorem opens_concat_pop : opens (as ++ [Action.pop]) = (opens as).tail := opens_concat

theorem opens_concat_other (hpush : a.isPush = false) (hpop : a.isPop = false) :
    opens (as ++ [a]) = opens as := by
  simp [opens_concat, hpush, hpop]

theorem opens_append_of_covered (x : List (Action α)) (hu : Covered u) :
    ∃ inner, opens (x ++ u) = inner ++ opens x ∧
      inner.length + u.countP isPop = u.countP isPush := by
  induction u using List.reverseRecOn with
  | nil => exact ⟨[], by simp⟩
  | append_singleton u a ih =>
    obtain ⟨hcovered, hle⟩ := covered_concat.mp hu
    obtain ⟨inner, hopens, hlength⟩ := ih hcovered
    rw [← List.append_assoc]
    rcases a.bracket_cases with rfl | rfl | ⟨hpush, hpop⟩
    · refine ⟨(x ++ u).length :: inner, ?_, ?_⟩
      · rw [opens_concat_push, hopens, List.cons_append]
      · simp
        omega
    · cases inner with
      | nil =>
        simp at hlength hle
        omega
      | cons k inner =>
        refine ⟨inner, ?_, ?_⟩
        · rw [opens_concat_pop, hopens, List.cons_append, List.tail_cons]
        · simp at hlength ⊢
          omega
    · refine ⟨inner, ?_, ?_⟩
      · rw [opens_concat_other hpush hpop, hopens]
      · simpa [hpush, hpop] using hlength

theorem opens_append_of_balanced (x : List (Action α)) (hu : Balanced u) :
    opens (x ++ u) = opens x := by
  obtain ⟨inner, hopens, hlength⟩ := opens_append_of_covered x hu.1
  have hcount := hu.2
  have hnil : inner = [] := List.length_eq_zero_iff.mp (by omega)
  rw [hopens, hnil, List.nil_append]

theorem exists_of_opens_cons (as : List (Action α)) (h : opens as = i :: rest) :
    ∃ x u, as = x ++ .push :: u ∧ Balanced u ∧ x.length = i ∧ opens x = rest := by
  -- on the length: closing a branch uncovers one that was opened before all of it
  induction hn : as.length using Nat.strongRecOn generalizing as i rest with
  | ind n ih =>
    subst hn
    rcases List.eq_nil_or_concat' as with rfl | ⟨z, a, rfl⟩
    · cases h
    · have hz : z.length < (z ++ [a]).length := by simp
      rcases a.bracket_cases with rfl | rfl | ⟨hpush, hpop⟩
      · rw [opens_concat_push] at h
        obtain ⟨hlength, hrest⟩ := List.cons.inj h
        exact ⟨z, [], rfl, balanced_nil, hlength, hrest⟩
      · rw [opens_concat_pop] at h
        cases hopens : opens z with
        | nil => simp [hopens] at h
        | cons j places =>
          rw [hopens, List.tail_cons] at h
          obtain ⟨x, u, rfl, hu, -, hx⟩ := ih _ hz z hopens rfl
          have hlt : x.length < (x ++ Action.push :: u ++ [Action.pop]).length := by
            simp only [List.length_append, List.length_cons]
            omega
          obtain ⟨x', u', rfl, hu', hlength, hrest⟩ := ih _ hlt x (hx.trans h) rfl
          refine ⟨x', u' ++ (Action.push :: u ++ [Action.pop]), by simp, ?_, hlength, hrest⟩
          exact hu'.append hu.bracket
      · rw [opens_concat_other hpush hpop] at h
        obtain ⟨x, u, rfl, hu, hlength, hrest⟩ := ih _ hz z h rfl
        exact ⟨x, u ++ [a], by simp, hu.concat hpush hpop, hlength, hrest⟩

theorem opens_eq_cons_iff : opens as = i :: rest ↔
    ∃ x u, as = x ++ .push :: u ∧ Balanced u ∧ x.length = i ∧ opens x = rest := by
  refine ⟨exists_of_opens_cons as, ?_⟩
  rintro ⟨x, u, rfl, hu, rfl, rfl⟩
  rw [List.append_cons, opens_append_of_balanced _ hu, opens_concat_push]

theorem any_isPush_iff {o : Option (Action α)} : o.any isPush = true ↔ o = some .push := by
  cases o <;> simp [isPush_iff]

theorem closes_iff :
    Closes as i k ↔ as[k]?.any isPop ∧ opens (as.take k) = i :: opens (as.take i) := by
  rw [opens_eq_cons_iff]
  constructor
  · rintro ⟨hlt, hpush, hpop, hbalanced⟩
    have hi : (as.take k)[i]? = some .push := by
      rw [List.getElem?_take_of_lt hlt, any_isPush_iff.mp hpush]
    obtain ⟨hlength, hget⟩ := List.getElem?_eq_some_iff.mp hi
    refine ⟨hpop, as.take i, (as.take k).drop (i + 1), ?_, hbalanced, ?_, rfl⟩
    · have hsplit := List.take_append_drop i (as.take k)
      rw [List.drop_eq_getElem_cons hlength, hget, List.take_take, min_eq_left hlt.le] at hsplit
      exact hsplit.symm
    · rw [List.length_take] at hlength ⊢
      omega
  · rintro ⟨hpop, x, u, htake, hu, rfl, -⟩
    have hlt : k < as.length := by
      by_contra hge
      simp [List.getElem?_eq_none (Nat.le_of_not_lt hge)] at hpop
    have hlength := congrArg List.length htake
    simp only [List.length_take, List.length_append, List.length_cons] at hlength
    have hxk : x.length < k := by omega
    refine ⟨hxk, ?_, hpop, ?_⟩
    · rw [← List.getElem?_take_of_lt hxk, htake]
      simp
    · rw [htake, List.append_cons, List.drop_left' (by simp)]
      exact hu

theorem closes_concat (h : j < as.length) : Closes (as ++ [a]) i j ↔ Closes as i j := by
  refine and_congr_right fun hlt ↦ ?_
  rw [List.getElem?_append_left h, List.getElem?_append_left (hlt.trans h),
    List.take_append_of_le_length h.le]

theorem lt_of_mem_opens (h : i ∈ opens as) : i < as.length := by
  induction as using List.reverseRecOn with
  | nil => cases h
  | append_singleton as a ih =>
    rw [List.length_append, List.length_singleton]
    rcases a.bracket_cases with rfl | rfl | ⟨hpush, hpop⟩
    · rw [opens_concat_push] at h
      rcases List.mem_cons.mp h with rfl | h
      · omega
      · have hlt := ih h
        omega
    · rw [opens_concat_pop] at h
      have hlt := ih (List.mem_of_mem_tail h)
      omega
    · rw [opens_concat_other hpush hpop] at h
      have hlt := ih h
      omega

theorem nodup_opens (as : List (Action α)) : (opens as).Nodup := by
  induction as using List.reverseRecOn with
  | nil => exact List.nodup_nil
  | append_singleton as a ih =>
    rcases a.bracket_cases with rfl | rfl | ⟨hpush, hpop⟩
    · rw [opens_concat_push, List.nodup_cons]
      exact ⟨fun h ↦ Nat.lt_irrefl _ (lt_of_mem_opens h), ih⟩
    · rw [opens_concat_pop]
      exact ih.tail
    · rw [opens_concat_other hpush hpop]
      exact ih

theorem opens_take_of_opens_eq_cons (h : opens as = i :: rest) : opens (as.take i) = rest := by
  obtain ⟨x, u, rfl, -, rfl, hx⟩ := opens_eq_cons_iff.mp h
  rw [List.take_left, hx]

theorem mem_opens_concat : i ∈ opens (as ++ [a]) ↔
    i ∈ opens as ∧ ¬ Closes (as ++ [a]) i as.length ∨ a = push ∧ i = as.length := by
  rw [closes_iff, List.getElem?_concat_length, Option.any_some, List.take_left]
  rcases a.bracket_cases with rfl | rfl | ⟨hpush, hpop⟩
  · simp [opens_concat_push, or_comm]
  · rw [opens_concat_pop]
    cases hopens : opens as with
    | nil => simp
    | cons j places =>
      have hnodup := nodup_opens as
      rw [hopens, List.nodup_cons] at hnodup
      have hj := lt_of_mem_opens (hopens ▸ List.mem_cons_self : j ∈ opens as)
      have hplaces : opens ((as ++ [pop]).take j) = places := by
        rw [List.take_append_of_le_length hj.le, opens_take_of_opens_eq_cons hopens]
      simp only [List.tail_cons, List.mem_cons, isPop_pop, true_and, reduceCtorEq, false_and,
        or_false]
      constructor
      · intro hi
        refine ⟨.inr hi, fun heq ↦ hnodup.1 ?_⟩
        rwa [(List.cons.inj heq).1]
      · rintro ⟨rfl | hi, hne⟩
        · exact absurd (by rw [hplaces]) hne
        · exact hi
  · have hne : a ≠ push := by
      rintro rfl
      cases hpush
    simp [opens_concat_other hpush hpop, hpop, hne]

theorem mem_opens_iff :
    i ∈ opens as ↔ as[i]?.any isPush ∧ ∀ j < as.length, ¬ Closes as i j := by
  induction as using List.reverseRecOn with
  | nil => simp [opens]
  | append_singleton as a ih =>
    have hbefore : (∀ j < as.length, ¬ Closes (as ++ [a]) i j) ↔
        ∀ j < as.length, ¬ Closes as i j :=
      forall₂_congr fun j hj ↦ not_congr (closes_concat hj)
    rw [mem_opens_concat, ih, List.length_append, List.length_singleton, Nat.forall_lt_succ_right,
      hbefore]
    rcases Nat.lt_trichotomy i as.length with hi | rfl | hi
    · rw [List.getElem?_append_left hi]
      simp [hi.ne, and_assoc]
    · have hnone (j : Nat) (hj : j < as.length) : ¬ Closes as as.length j :=
        fun h ↦ Nat.lt_asymm hj h.1
      have hlast : ¬ Closes (as ++ [a]) as.length as.length := fun h ↦ Nat.lt_irrefl _ h.1
      simpa [hlast, isPush_iff] using fun _ ↦ hnone
    · have hout : (as ++ [a])[i]? = none := List.getElem?_eq_none (by simp; omega)
      simp [hout, List.getElem?_eq_none hi.le, hi.ne']

theorem depth_eq_length_opens (as : List (Action α)) : depth as = (opens as).length := by
  have hperm : ((List.range as.length).filter (· ∈ opens as)).Perm (opens as) := by
    rw [List.perm_ext_iff_of_nodup (List.nodup_range.filter _) (nodup_opens as)]
    intro i
    simp only [List.mem_filter, List.mem_range, decide_eq_true_eq]
    exact ⟨And.right, fun h ↦ ⟨lt_of_mem_opens h, h⟩⟩
  rw [← hperm.length_eq, ← List.countP_eq_length_filter, depth]
  exact List.countP_congr fun i _ ↦ by simp [mem_opens_iff]

theorem depth_concat : depth (as ++ [a]) =
    if a.isPush then depth as + 1 else if a.isPop then depth as - 1 else depth as := by
  simp only [depth_eq_length_opens, opens_concat]
  split_ifs <;> simp

theorem depth_append_of_covered (x : List (Action α)) (hu : Covered u) :
    depth (x ++ u) + u.countP isPop = depth x + u.countP isPush := by
  obtain ⟨inner, hopens, hlength⟩ := opens_append_of_covered x hu
  rw [depth_eq_length_opens, depth_eq_length_opens, hopens, List.length_append]
  omega

theorem deep_iff : Deep limit as k ↔
    as[k]?.any isPush ∧ limit ≤ depth (as.take k) ∨
      as[k]?.any isPop ∧ limit < depth (as.take k) := by
  refine or_congr_right ?_
  simp only [closes_iff, depth_eq_length_opens]
  constructor
  · rintro ⟨i, -, ⟨hpop, hopens⟩, hle⟩
    rw [hopens, List.length_cons]
    exact ⟨hpop, by omega⟩
  · rintro ⟨hpop, hlt⟩
    cases hopens : opens (as.take k) with
    | nil => simp [hopens] at hlt
    | cons i rest =>
      have hrest := opens_take_of_opens_eq_cons hopens
      have hi := lt_of_mem_opens (hopens ▸ List.mem_cons_self : i ∈ opens (as.take k))
      rw [List.length_take] at hi
      rw [List.take_take, min_eq_left (by omega)] at hrest
      rw [hopens, List.length_cons] at hlt
      exact ⟨i, by omega, ⟨hpop, by rw [hrest]⟩, by rw [hrest]; omega⟩

theorem shallow_concat : shallow limit (as ++ [a]) = shallow limit as ++
    if a.isPush ∧ limit ≤ depth as ∨ a.isPop ∧ limit < depth as then [] else [a] := by
  have hbefore : ∀ k ∈ List.range as.length,
      (if Deep limit (as ++ [a]) k then none else (as ++ [a])[k]?) =
        if Deep limit as k then none else as[k]? := by
    intro k hk
    have hlt := List.mem_range.mp hk
    rw [List.getElem?_append_left hlt]
    refine if_congr ?_ rfl rfl
    rw [deep_iff, deep_iff, List.getElem?_append_left hlt, List.take_append_of_le_length hlt.le]
  have hlast : Deep limit (as ++ [a]) as.length ↔
      a.isPush ∧ limit ≤ depth as ∨ a.isPop ∧ limit < depth as := by
    rw [deep_iff, List.getElem?_concat_length, List.take_left, Option.any_some, Option.any_some]
  rw [shallow, List.length_append, List.length_singleton, List.range_succ, List.filterMap_append,
    List.filterMap_congr hbefore, ← shallow]
  congr 1
  simp only [List.filterMap_cons, List.filterMap_nil, List.getElem?_concat_length, hlast]
  split_ifs <;> rfl

theorem depth_shallow (limit : Nat) (as : List (Action α)) :
    depth (shallow limit as) = min limit (depth as) := by
  induction as using List.reverseRecOn with
  | nil => simp [shallow, depth]
  | append_singleton as a ih =>
    rw [shallow_concat, depth_concat]
    rcases a.bracket_cases with rfl | rfl | ⟨hpush, hpop⟩
    · by_cases h : limit ≤ depth as
      · simp [h, ih]
        omega
      · simp [h, depth_concat, ih]
        omega
    · by_cases h : limit < depth as
      · simp [h, ih]
        omega
      · simp [h, depth_concat, ih]
        omega
    · simp [hpush, hpop, depth_concat, ih]

theorem fits_concat :
    Fits limit (as ++ [a]) ↔ Fits limit as ∧ (a.isPush → depth as < limit) := by
  have hbefore : (∀ k < as.length, (as ++ [a])[k]?.any isPush →
      depth ((as ++ [a]).take k) < limit) ↔ Fits limit as := by
    refine forall₂_congr fun k hk ↦ ?_
    rw [List.getElem?_append_left hk, List.take_append_of_le_length hk.le]
  rw [Fits, List.length_append, List.length_singleton, Nat.forall_lt_succ_right, hbefore,
    List.getElem?_concat_length, List.take_left, Option.any_some]

theorem Fits.mono {limit' : Nat} (h : Fits limit as) (hle : limit ≤ limit') : Fits limit' as :=
  fun k hk hpush ↦ (h k hk hpush).trans_le hle

theorem fits_shallow (limit : Nat) (as : List (Action α)) : Fits limit (shallow limit as) := by
  induction as using List.reverseRecOn with
  | nil => exact nofun
  | append_singleton as a ih =>
    rw [shallow_concat]
    split_ifs with h
    · rwa [List.append_nil]
    · refine fits_concat.mpr ⟨ih, fun hpush ↦ ?_⟩
      rw [depth_shallow]
      have hlt : ¬ limit ≤ depth as := fun hle ↦ h (.inl ⟨hpush, hle⟩)
      omega

theorem depth_le_length (as : List (Action α)) : depth as ≤ as.length :=
  List.countP_le_length.trans_eq List.length_range

theorem fits_of_length_le (h : as.length ≤ limit) : Fits limit as := by
  intro k hk _
  have hle := depth_le_length (as.take k)
  rw [List.length_take] at hle
  omega

end BranchStream.Action
