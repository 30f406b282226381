import BranchStream.Proofs.Binary32.Special

namespace BranchStream.Binary32

open Float.Model (UnpackedFloat)
open Float.Model.UnpackedFloat

variable {x y lo hi : Float32}

theorem isNaN_eq_true_iff : x.isNaN = true ↔ parts x = .notANumber := by
  have hnan : x.isNaN = (parts x).isNaN := rfl
  rw [hnan]
  cases parts x <;> simp [UnpackedFloat.isNaN]

theorem not_gt_of_nan (hx : parts x = .notANumber) (y : Float32) : ¬ y < x := by
  rw [lt_iff_compare, hx]
  cases parts y <;> nofun

theorem not_le_of_nan (hx : parts x = .notANumber) (y : Float32) : ¬ y ≤ x := by
  rw [le_iff_compare, hx]
  cases parts y <;> nofun

theorem not_le_right_of_nan (hx : parts x = .notANumber) (y : Float32) : ¬ x ≤ y := by
  rw [le_iff_compare, hx]
  nofun

theorem isNaN_eq_false_of_le (h : x ≤ y) : x.isNaN = false := by
  rw [← Bool.not_eq_true, isNaN_eq_true_iff]
  exact fun hx ↦ not_le_right_of_nan hx y h

theorem lt_of_neg_infinity (hx : parts x = .infinity .negative) (hy : y.isFinite = true) :
    x < y := by
  rw [lt_iff_compare, hx]
  rcases finite_cases hy with ⟨s, hp⟩ | ⟨s, m, e, h, hp, -⟩
  · rw [hp]
    rfl
  · rw [hp]
    rfl

theorem abs_value_rem_lt (hx : x.isFinite = true) (hy : y.isFinite = true) (hy' : 0 < value y) :
    (rem x y).isFinite = true ∧ |value (rem x y)| < value y := by
  rcases nonneg_cases hy hy'.le with ⟨s', hp'⟩ | ⟨n, f, h', hp', -⟩
  · exact absurd (value_of_zero hp') hy'.ne'
  rcases finite_cases hx with ⟨s, hp⟩ | ⟨s, m, e, h, hp, -⟩
  · have hrem : rem x y = x := by simp only [rem, hp, hp']
    rw [hrem, value_of_zero hp, abs_zero]
    exact ⟨hx, hy'⟩
  · obtain ⟨hfinite, hvalue⟩ := exact_rem_of_parts hp hp'
    rw [value_of_finite hp', signed] at hy' ⊢
    rw [hvalue, abs_signed s (Int.sub_floor_div_mul_nonneg _ hy')]
    exact ⟨hfinite, Int.sub_floor_div_mul_lt _ hy'⟩

theorem wrap_of_finite (hx : x.isFinite = true) (hy : y.isFinite = true) (hy' : 0 < value y) :
    (Scalar.wrap x y).isFinite = true ∧ 0 ≤ value (Scalar.wrap x y) ∧
      value (Scalar.wrap x y) ≤ value y := by
  obtain ⟨hfinite, hlt⟩ := abs_value_rem_lt hx hy hy'
  obtain ⟨hbelow, habove⟩ := abs_lt.mp hlt
  have hsign : rem x y < 0 ↔ value (rem x y) < 0 := by
    rw [lt_iff_value hfinite rfl, value_zero]
  by_cases hneg : rem x y < 0
  · have hwrap : Scalar.wrap x y = rem x y + y := if_pos hneg
    rw [hsign] at hneg
    have hsum : |value (rem x y) + value y| ≤ maxValue := by
      rw [abs_of_nonneg (by linarith)]
      exact (by linarith : _ ≤ value y).trans ((le_abs_self _).trans (abs_value_le y))
    obtain ⟨hwrapped, hround⟩ := (rounded_add hfinite hy).finite_of_le hsum
    rw [hwrap]
    exact ⟨hwrapped, (hround 0 representable_zero).2 (by linarith),
      (hround _ (representable_value y)).1 (by linarith)⟩
  · have hwrap : Scalar.wrap x y = rem x y := if_neg hneg
    rw [hsign] at hneg
    rw [hwrap]
    exact ⟨hfinite, not_lt.mp hneg, habove.le⟩

theorem parts_wrap_of_not_finite (hx : x.isFinite = false) (y : Float32) :
    parts (Scalar.wrap x y) = .notANumber := by
  have hrem := parts_rem_of_not_finite hx y
  have hwrap : Scalar.wrap x y = rem x y := if_neg (not_lt_of_nan hrem 0)
  rwa [hwrap]

theorem clamp_of_nan (hx : parts x = .notANumber) (lo hi : Float32) :
    Scalar.clamp x lo hi = x := by
  rw [Scalar.clamp, if_neg (not_lt_of_nan hx lo), if_neg (not_gt_of_nan hx hi)]

theorem isFinite_of_between (hlo : lo.isFinite = true) (hhi : hi.isFinite = true)
    (hx : x.isNaN = false) (hbelow : ¬ x < lo) (habove : ¬ hi < x) : x.isFinite = true := by
  by_contra hspecial
  rcases special_cases (Bool.not_eq_true _ ▸ hspecial) with ⟨s, hp⟩ | hp
  · cases s with
    | positive => exact habove (lt_of_infinity hhi hp)
    | negative => exact hbelow (lt_of_neg_infinity hp hlo)
  · rw [isNaN_eq_true_iff.mpr hp] at hx
    cases hx

theorem clamp_bounds_iff (hlo : lo.isFinite = true) (hhi : hi.isFinite = true)
    (hle : value lo ≤ value hi) :
    (lo ≤ Scalar.clamp x lo hi ∧ Scalar.clamp x lo hi ≤ hi) ↔ x.isNaN = false := by
  constructor
  · rintro ⟨hbelow, -⟩
    by_contra hx
    rw [Bool.not_eq_false, isNaN_eq_true_iff] at hx
    rw [clamp_of_nan hx] at hbelow
    exact not_le_of_nan hx lo hbelow
  · intro hx
    rw [Scalar.clamp]
    split_ifs with hbelow habove
    · exact ⟨(le_iff_value hlo hlo).mpr le_rfl, (le_iff_value hlo hhi).mpr hle⟩
    · exact ⟨(le_iff_value hlo hhi).mpr hle, (le_iff_value hhi hhi).mpr le_rfl⟩
    · have hfinite := isFinite_of_between hlo hhi hx hbelow habove
      rw [lt_iff_value hfinite hlo, not_lt] at hbelow
      rw [lt_iff_value hhi hfinite, not_lt] at habove
      exact ⟨(le_iff_value hlo hfinite).mpr hbelow, (le_iff_value hfinite hhi).mpr habove⟩

theorem eq_of_value_eq (hx : x.isFinite = true) (hy : y.isFinite = true) (h : value x = value y)
    (h₀ : value x ≠ 0) : x = y := by
  have hequal : (x == y) = true := by
    show ((parts x).compare (parts y) == some .eq) = true
    rw [compare_parts hx hy, compare_eq_iff_eq.mpr h]
    rfl
  obtain ⟨-, -, hxy | ⟨rfl, -⟩ | ⟨rfl, -⟩⟩ := Float32.beq_iff_ne_nan_and_eq.mp hequal
  · exact hxy
  · exact absurd value_zero h₀
  · exact absurd (value_of_zero (s := .negative) rfl) h₀

theorem isFinite_of_mem (hlo : lo.isFinite = true) (hhi : hi.isFinite = true) (h : lo ≤ x)
    (h' : x ≤ hi) : x.isFinite = true := by
  refine isFinite_of_between hlo hhi ?_ (fun hlt ↦ not_le_of_lt hlt h)
    fun hlt ↦ not_le_of_lt hlt h'
  exact isNaN_eq_false_of_le h'

theorem clamp_of_mem (h : lo ≤ x) (h' : x ≤ hi) : Scalar.clamp x lo hi = x := by
  rw [Scalar.clamp, if_neg fun hlt ↦ not_le_of_lt hlt h, if_neg fun hlt ↦ not_le_of_lt hlt h']

theorem rem_of_lt (hx : x.isFinite = true) (hy : y.isFinite = true) (hx' : 0 ≤ value x)
    (hlt : value x < value y) : rem x y = x := by
  have hy' : 0 < value y := hx'.trans_lt hlt
  rcases nonneg_cases hx hx' with ⟨s, hp⟩ | ⟨m, e, h, hp, -⟩
  · rcases nonneg_cases hy hy'.le with ⟨s', hp'⟩ | ⟨n, f, h', hp', -⟩
    · exact absurd (value_of_zero hp') hy'.ne'
    · simp only [rem, hp, hp']
  · have hpos : 0 < value x := by
      rw [value_of_finite hp, signed]
      positivity
    obtain ⟨hfinite, hvalue⟩ := exact_rem hx hy hx' hy'
    have hfloor : ⌊value x / value y⌋ = 0 :=
      Int.floor_eq_zero_iff.mpr ⟨by positivity, (div_lt_one hy').mpr hlt⟩
    rw [hfloor, Int.cast_zero, zero_mul, sub_zero] at hvalue
    exact (eq_of_value_eq hx hfinite hvalue.symm hpos.ne').symm

theorem wrap_of_nonneg (hx : x.isFinite = true) (hy : y.isFinite = true) (hx' : 0 ≤ value x)
    (hy' : 0 < value y) : Scalar.wrap x y = rem x y := by
  obtain ⟨hfinite, hvalue⟩ := exact_rem hx hy hx' hy'
  have hnonneg : ¬ rem x y < 0 := by
    rw [lt_iff_value hfinite rfl, value_zero, hvalue, not_lt]
    exact Int.sub_floor_div_mul_nonneg _ hy'
  exact if_neg hnonneg

end BranchStream.Binary32
