import BranchStream.Binary32.Elementary
import BranchStream.Proofs.Binary32.FixedPoint
import BranchStream.Proofs.Binary32.Root

namespace BranchStream.Binary32

open Float.Model (UnpackedFloat)
open Float.Model.UnpackedFloat
open FixedPoint (toReal ulp)

theorem ulp_precision : ulp precision = 1 / 2 ^ 192 := rfl

theorem shiftRight_bits (n : ℕ) :
    let k := n.log2 - 63
    n >>> k * 2 ^ k ≤ n ∧ n < (n >>> k + 1) * 2 ^ k ∧ 2 ^ 63 * 2 ^ k ≤ n + 2 ^ 63 ∧
      (2 ^ 63 ≤ n → 2 ^ 63 ≤ n >>> k) := by
  intro k
  rw [Nat.shiftRight_eq_div_pow]
  have hpos : 0 < 2 ^ k := by positivity
  have hlarge (hn : 2 ^ 63 ≤ n) : 2 ^ 63 * 2 ^ k ≤ n := by
    have hlog : 63 ≤ n.log2 := (Nat.le_log2 (by omega)).mpr hn
    calc 2 ^ 63 * 2 ^ k = 2 ^ n.log2 := by
          rw [← pow_add]
          congr 1
          omega
      _ ≤ n := Nat.log2_self_le (by omega)
  refine ⟨Nat.div_mul_le_self n _, Nat.lt_mul_of_div_lt (Nat.lt_succ_self _) hpos, ?_,
    fun hn ↦ (Nat.le_div_iff_mul_le hpos).mpr (hlarge hn)⟩
  rcases le_or_gt (2 ^ 63) n with hn | hn
  · exact (hlarge hn).trans (Nat.le_add_right _ _)
  · have hk : k = 0 := by
      rcases eq_or_ne n 0 with rfl | hne
      · rfl
      · have := (Nat.log2_lt hne).mpr hn
        omega
    rw [hk]
    omega

theorem signed_mul_right (s : Sign) (p q : ℚ) : signed s p * q = signed s (p * q) := by
  cases s with
  | positive => rfl
  | negative => exact neg_mul p q

theorem abs_signed_sub (s : Sign) (p q : ℚ) : |signed s p - signed s q| = |p - q| := by
  cases s with
  | positive => rfl
  | negative => rw [signed, signed, neg_sub_neg, abs_sub_comm]

theorem rounded_ofFixed {v e : ℤ} (h : e ≤ 0 ∨ 2 ^ 63 ≤ v.natAbs) :
    ∃ q : ℚ, Rounded q (ofFixed v e) ∧
      2 ^ 63 * |q - v * 2 ^ (e - precision)| ≤ (|(v : ℚ)| + 2 ^ 63) * 2 ^ (e - precision) := by
  obtain ⟨hlow, hhigh, hgap, hbits⟩ := shiftRight_bits v.natAbs
  set k := v.natAbs.log2 - 63 with hk
  set m := v.natAbs >>> k with hm
  set s : Sign := if v < 0 then .negative else .positive with hs
  have hsign : (v : ℚ) = signed s v.natAbs := by
    rw [hs, Nat.cast_natAbs, Int.cast_abs]
    split_ifs with hneg
    · rw [signed, abs_of_neg (by exact_mod_cast hneg), neg_neg]
    · rw [signed, abs_of_nonneg (by exact_mod_cast not_lt.mp hneg)]
  have hinner : (m : ℚ) * 2 ^ (e - precision + k) < (m + 1 / 2) * 2 ^ (e - precision + k) := by
    gcongr
    norm_num
  have htarget : e - precision + k ≤ max (m.log2 + (e - precision + k) - 23) (-149) := by
    rcases le_or_gt (2 ^ 63) v.natAbs with hlarge | hsmall
    · have : 63 ≤ m.log2 := (Nat.le_log2 (by omega)).mpr (hbits hlarge)
      omega
    · have : k = 0 := by
        have hlt : 2 ^ k < 2 := by omega
        exact Nat.lt_one_iff.mp ((Nat.pow_lt_pow_iff_right one_lt_two).mp hlt)
      push_cast
      omega
  have hnear := near_roundWithAccuracy (a := .inexact .lt) s hinner.le (by gcongr; norm_num)
    (by simpa using hinner.ne') htarget
  refine ⟨_, hnear.rounded, ?_⟩
  have hunit : (0 : ℚ) < 2 ^ (e - precision) := by positivity
  have hclose : |(m + 1 / 2) * 2 ^ k - (v.natAbs : ℚ)| ≤ 2 ^ k := by
    have hlow' : (m : ℚ) * 2 ^ k ≤ v.natAbs := by exact_mod_cast hlow
    have hhigh' : (v.natAbs : ℚ) < (m + 1) * 2 ^ k := by exact_mod_cast hhigh
    rw [abs_le]
    constructor <;> linarith
  have hgap' : (2 : ℚ) ^ 63 * 2 ^ k ≤ v.natAbs + 2 ^ 63 := by exact_mod_cast hgap
  rw [hsign, signed_mul_right, abs_signed_sub, abs_signed s (by positivity), scaled_add, ← sub_mul,
    abs_mul, abs_of_pos hunit, ← mul_assoc]
  gcongr
  exact (mul_le_mul_of_nonneg_left hclose (by positivity)).trans hgap'

theorem ofFixed_near {v : ℤ} (hv : |toReal precision v| ≤ 2 ^ 20) :
    (ofFixed v 0).isFinite = true ∧ |real (ofFixed v 0) - toReal precision v| ≤
      2 ^ (-22 : ℤ) * |toReal precision v| + 2 ^ (-148 : ℤ) := by
  obtain ⟨q, hround, hclose⟩ := rounded_ofFixed (v := v) (e := 0) (.inl le_rfl)
  have hscale : toReal precision v = v * 2 ^ (-192 : ℤ) := by
    rw [FixedPoint.toReal, zpow_neg, div_eq_mul_inv]
    rfl
  have habs : |(v : ℝ)| * 2 ^ (-192 : ℤ) = |toReal precision v| := by
    rw [hscale, abs_mul, abs_of_pos (by positivity : (0 : ℝ) < 2 ^ (-192 : ℤ))]
  have hq := Rat.cast_le (K := ℝ).mpr hclose
  push_cast at hq
  rw [← hscale, add_mul, habs] at hq
  have hqv := abs_sub_abs_le_abs_sub (q : ℝ) (toReal precision v)
  norm_num at hq
  have hmax : |q| ≤ maxValue := by
    have hreal : ((|q| : ℚ) : ℝ) ≤ ((2 ^ 30 : ℚ) : ℝ) := by
      push_cast
      norm_num at *
      linarith
    exact (Rat.cast_le.mp hreal).trans (by norm_num [maxValue])
  obtain ⟨hfinite, hnear⟩ := hround.real_near hmax
  refine ⟨hfinite, ?_⟩
  have htri := abs_sub_le (real (ofFixed v 0)) q (toReal precision v)
  norm_num at *
  linarith [abs_nonneg (toReal precision v)]

theorem toReal_toFixed {p : ℕ} {s : Sign} {m : ℕ} {e : ℤ} (he : -p ≤ e) :
    toReal p (toFixed p s m e) = (signed s (m * 2 ^ e) : ℚ) := by
  obtain ⟨k, hk⟩ : ∃ k : ℕ, e = k - p := ⟨(e + p).toNat, by omega⟩
  have hshift : (e + p).toNat = k := by omega
  rw [toFixed, hshift, Nat.shiftLeft_eq, signed_scaled, hk, zpow_sub₀ two_ne_zero, zpow_natCast,
    zpow_natCast, FixedPoint.toReal]
  cases s with
  | positive =>
    simp only [Sign.apply]
    push_cast
    ring
  | negative =>
    simp only [Sign.apply]
    push_cast
    ring

end BranchStream.Binary32
