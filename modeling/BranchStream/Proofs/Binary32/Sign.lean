import BranchStream.Proofs.Binary32.Wrapping

namespace BranchStream.Binary32

open Float.Model (UnpackedFloat)
open Float.Model.UnpackedFloat

variable {x y : Float32} {s s' : Sign}

theorem parts_neg (x : Float32) : parts (-x) = (parts x).neg := by
  have hneg : -x = .ofModel (.pack (parts x).neg) := rfl
  rw [hneg]
  cases hp : parts x with
  | finite s m e h =>
    obtain ⟨hc, he⟩ := canonical_unpack hp
    exact (unpack_ofModel_pack (u := .finite (-s) m e h) hc).trans (if_neg (not_lt.mpr he))
  | notANumber => exact unpack_ofModel_pack (u := .notANumber) trivial
  | infinity s => exact unpack_ofModel_pack (u := .infinity (-s)) trivial
  | zero s => exact unpack_ofModel_pack (u := .zero (-s)) trivial

theorem isFinite_neg (x : Float32) : (-x).isFinite = x.isFinite := by
  have hparts : (-x).isFinite = (parts x).neg.isFinite := isFinite_of_parts (parts_neg x)
  rw [hparts]
  show _ = (parts x).isFinite
  cases parts x <;> rfl

theorem value_neg (x : Float32) : value (-x) = -value x := by
  rw [value, parts_neg, value]
  cases parts x with
  | finite s m e h =>
    cases s with
    | positive => rfl
    | negative => exact (neg_neg _).symm
  | _ => exact neg_zero.symm

theorem le_zero_iff (hx : x.isFinite = true) : x ≤ 0 ↔ value x ≤ 0 := by
  rw [le_iff_value hx rfl, value_zero]

theorem lt_zero_iff (hx : x.isFinite = true) : x < 0 ↔ value x < 0 := by
  rw [lt_iff_value hx rfl, value_zero]

theorem zero_le_iff (hx : x.isFinite = true) : 0 ≤ x ↔ 0 ≤ value x := by
  rw [le_iff_value rfl hx, value_zero]

theorem zero_lt_iff (hx : x.isFinite = true) : 0 < x ↔ 0 < value x := by
  rw [lt_iff_value rfl hx, value_zero]

theorem pos_of_infinity (hx : parts x = .infinity .positive) : 0 < x := lt_of_infinity rfl hx

theorem neg_of_infinity (hx : parts x = .infinity .negative) : x < 0 :=
  lt_of_neg_infinity hx rfl

theorem not_lt_neg_infinity (hx : parts x = .infinity .negative) (y : Float32) : ¬ y < x := by
  rw [lt_iff_compare, hx]
  cases parts y with
  | infinity s => cases s <;> decide
  | _ => nofun

theorem mul_eq (x y : Float32) :
    x * y = .ofModel (.pack (UnpackedFloat.mul .binary32 (parts x) (parts y))) := rfl

theorem parts_mul_infinity_zero (hx : parts x = .infinity s) (hy : parts y = .zero s') :
    parts (x * y) = .notANumber := by
  rw [mul_eq, hx, hy]
  exact unpack_ofModel_pack trivial

theorem parts_mul_infinity {m : Nat} {e : Int} {h : 0 < m} (hx : parts x = .infinity s)
    (hy : parts y = .finite s' m e h) : parts (x * y) = .infinity (s * s') := by
  rw [mul_eq, hx, hy]
  exact unpack_ofModel_pack (u := .infinity (s * s')) trivial

theorem Rounded.pos {q : ℚ} (h : Rounded q x) (hq : 2 ^ (-149 : ℤ) ≤ q) : 0 < x := by
  have hleast : Representable (2 ^ (-149 : ℤ)) :=
    ⟨1, -149, by norm_num, le_rfl, by norm_num⟩
  cases h with
  | finite hx hround =>
    rw [zero_lt_iff hx]
    exact (by positivity : (0 : ℚ) < 2 ^ (-149 : ℤ)).trans_le ((hround _ hleast).2 hq)
  | overflow s hx hlarge =>
    cases s with
    | positive => exact pos_of_infinity hx
    | negative =>
      have hneg : -q ≤ 0 := neg_nonpos.mpr ((by positivity : (0 : ℚ) ≤ 2 ^ (-149 : ℤ)).trans hq)
      exact absurd (hlarge.trans_le hneg) (not_lt.mpr maxValue_nonneg)

theorem Rounded.nonpos {q : ℚ} (h : Rounded q x) (hq : q ≤ 0) : x ≤ 0 := by
  cases h with
  | finite hx hround =>
    rw [le_zero_iff hx]
    exact (hround 0 representable_zero).1 hq
  | overflow s hx hlarge =>
    cases s with
    | positive => exact absurd (hlarge.trans_le hq) (not_lt.mpr maxValue_nonneg)
    | negative => exact le_of_lt (neg_of_infinity hx)

theorem add_eq (x y : Float32) :
    x + y = .ofModel (.pack (UnpackedFloat.add .binary32 (parts x) (parts y))) := rfl

theorem parts_add_infinity (hx : x.isFinite = true) (hy : parts y = .infinity s) :
    parts (x + y) = .infinity s := by
  rw [add_eq, hy]
  rcases finite_cases hx with ⟨s', hp⟩ | ⟨s', m, e, h, hp, -⟩
  · rw [hp]
    exact unpack_ofModel_pack (u := .infinity s) trivial
  · rw [hp]
    exact unpack_ofModel_pack (u := .infinity s) trivial

theorem Rounded.ge_of_le {q : ℚ} (h : Rounded q x) (hq : value y ≤ q) :
    (x.isFinite = true ∧ value y ≤ value x) ∨ parts x = .infinity .positive := by
  cases h with
  | finite hx hround => exact .inl ⟨hx, (hround _ (representable_value y)).2 hq⟩
  | overflow s hx hlarge =>
    cases s with
    | positive => exact .inr hx
    | negative =>
      have hlow := neg_le_of_abs_le (abs_value_le y)
      have hneg : maxValue < -q := hlarge
      linarith

theorem Rounded.not_lt_of_le {q : ℚ} (h : Rounded q x) (hy : y.isFinite = true)
    (hq : q ≤ value y) : ¬ y < x := by
  cases h with
  | finite hx hround =>
    rw [lt_iff_value hy hx, not_lt]
    exact (hround _ (representable_value y)).1 hq
  | overflow s hx hlarge =>
    cases s with
    | positive =>
      have hhigh := le_of_abs_le (abs_value_le y)
      have hpos : maxValue < q := hlarge
      linarith
    | negative => exact not_lt_neg_infinity hx y

end BranchStream.Binary32
