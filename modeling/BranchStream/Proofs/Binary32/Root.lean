import BranchStream.Proofs.Binary32.Error

namespace BranchStream.Binary32

open Float.Model (Format UnpackedFloat)
open Float.Model.UnpackedFloat

variable {x y : Float32}

theorem sqrt_eq (x : Float32) :
    x.sqrt = .ofModel (.pack (UnpackedFloat.sqrt .binary32 (parts x))) := rfl

theorem targetExponent_sqrt (m : ℕ) (e : ℤ) :
    Format.binary32.targetExponent ((Float.Model.totalExponent m e + 1).ediv 2) =
      max ((m.log2 + e + 2) / 2 - 24) (-149) := by
  have hmin : Format.binary32.minExponent = -149 := rfl
  rw [Format.targetExponent, Float.Model.totalExponent, mantissaBits_eq, hmin]
  have hsum : (m.log2 : ℤ) + 1 + e + 1 = m.log2 + e + 2 := by ring
  rw [hsum]
  rfl

theorem le_sqrt_shiftLeft {m k : ℕ} (hm : 0 < m) (h : 46 ≤ m.log2 + k) :
    2 ^ 23 ≤ (m <<< k).sqrt := by
  rw [Nat.le_sqrt, Nat.shiftLeft_eq]
  calc 2 ^ 23 * 2 ^ 23 = 2 ^ 46 := by norm_num
    _ ≤ 2 ^ (m.log2 + k) := Nat.pow_le_pow_right two_pos h
    _ = 2 ^ m.log2 * 2 ^ k := pow_add _ _ _
    _ ≤ m * 2 ^ k := Nat.mul_le_mul_right _ (Nat.log2_self_le hm.ne')

theorem real_scaled (m k : ℕ) (t : ℤ) :
    √((m : ℝ) * 2 ^ (2 * t + k)) = √(m <<< k : ℕ) * 2 ^ t := by
  have hscale : (m : ℝ) * 2 ^ (2 * t + k) = (m <<< k : ℕ) * (2 ^ t) ^ 2 := by
    rw [Nat.shiftLeft_eq, zpow_add₀ two_ne_zero, zpow_natCast, ← zpow_natCast _ 2, ← zpow_mul,
      mul_comm t]
    push_cast
    ring
  rw [hscale, Real.sqrt_mul (by positivity), Real.sqrt_sq (by positivity)]

theorem close_to_root {n : ℕ} {t : ℤ} {q : ℚ} (hbits : 2 ^ 23 ≤ n.sqrt) (hlow : n.sqrt * 2 ^ t ≤ q)
    (hhigh : q ≤ (n.sqrt + 1) * 2 ^ t) :
    |(q : ℝ) - √(n : ℝ) * 2 ^ t| ≤ 2 ^ (-23 : ℤ) * (√(n : ℝ) * 2 ^ t) := by
  have hroot : (n.sqrt : ℝ) ≤ √(n : ℝ) := Real.nat_sqrt_le_real_sqrt
  have hroot' : √(n : ℝ) < n.sqrt + 1 := Real.real_sqrt_lt_nat_sqrt_succ
  have hlow' := Rat.cast_le (K := ℝ).mpr hlow
  have hhigh' := Rat.cast_le (K := ℝ).mpr hhigh
  push_cast at hlow' hhigh'
  have hunit : (0 : ℝ) < 2 ^ t := by positivity
  have hbits' : (2 ^ 23 : ℝ) ≤ √(n : ℝ) := by
    refine le_trans ?_ hroot
    exact_mod_cast hbits
  calc |(q : ℝ) - √(n : ℝ) * 2 ^ t| ≤ 2 ^ t := by
        rw [abs_le]
        constructor <;> nlinarith
    _ ≤ 2 ^ (-23 : ℤ) * (2 ^ 23 * 2 ^ t) := by
        rw [← mul_assoc]
        norm_num
    _ ≤ 2 ^ (-23 : ℤ) * (√(n : ℝ) * 2 ^ t) := by gcongr

theorem near_sqrt {m : ℕ} {e : ℤ} (h : 0 < m) (he : -149 ≤ e) :
    ∃ q : ℚ, Near q (UnpackedFloat.sqrt .binary32 (.finite .positive m e h)) ∧
      2 ^ (-75 : ℤ) ≤ q ∧ |(q : ℝ) - √(m * 2 ^ e)| ≤ 2 ^ (-23 : ℤ) * √(m * 2 ^ e) := by
  simp only [UnpackedFloat.sqrt, sqrtCore, targetExponent_sqrt]
  set t := min (e.ediv 2) (max (((m.log2 : ℤ) + e + 2) / 2 - 24) (-149)) with ht
  have hhalf : e.ediv 2 = e / 2 := rfl
  obtain ⟨k, hk⟩ : ∃ k, k = (e - 2 * t).toNat := ⟨_, rfl⟩
  rw [← hk]
  set r := (m <<< k).sqrt with hr
  have hroot : 2 ^ 23 ≤ r := le_sqrt_shiftLeft h (by omega)
  have hlog : 23 ≤ r.log2 := (Nat.le_log2 (by omega)).mpr hroot
  have htarget : t ≤ max (r.log2 + t - 23) (-149) := by omega
  have hunit : (0 : ℚ) < 2 ^ t := by positivity
  have hreal : √((m : ℝ) * 2 ^ e) = √(m <<< k : ℕ) * 2 ^ t := by
    rw [← real_scaled]
    congr 3
    omega
  have hsmall : (2 : ℚ) ^ (-75 : ℤ) ≤ r * 2 ^ t := by
    calc (2 : ℚ) ^ (-75 : ℤ) = 2 ^ 23 * 2 ^ (-98 : ℤ) := by norm_num
      _ ≤ r * 2 ^ t := by
          gcongr
          · exact_mod_cast hroot
          · norm_num
          · omega
  have hclose {q : ℚ} (hq : r * 2 ^ t ≤ q) (hq' : q ≤ (r + 1) * 2 ^ t) :
      |(q : ℝ) - √(m * 2 ^ e)| ≤ 2 ^ (-23 : ℤ) * √(m * 2 ^ e) := by
    rw [hreal]
    exact close_to_root hroot hq hq'
  by_cases hrem : m <<< k - r * r = 0
  · refine ⟨r * 2 ^ t, near_roundWithAccuracy .positive le_rfl ?_ ?_ htarget, hsmall,
      hclose le_rfl ?_⟩
    · gcongr
      exact lt_add_one _
    · simp [hrem]
    · gcongr
      exact (lt_add_one _).le
  · have hbetween : (r : ℚ) * 2 ^ t < (r + 1 / 2) * 2 ^ t := by
      gcongr
      norm_num
    refine ⟨(r + 1 / 2) * 2 ^ t, near_roundWithAccuracy .positive hbetween.le ?_ ?_ htarget,
      hsmall.trans hbetween.le, hclose hbetween.le ?_⟩
    · gcongr
      norm_num
    · simpa [hrem] using hbetween.ne'
    · gcongr
      norm_num

theorem sqrt_near (hx : x.isFinite = true) (hpos : 0 ≤ value x) :
    x.sqrt.isFinite = true ∧ |real x.sqrt - √(real x)| ≤ 2 ^ (-21 : ℤ) * √(real x) := by
  rcases nonneg_cases hx hpos with ⟨s, hp⟩ | ⟨m, e, h, hp, hc⟩
  · have hroot : parts x.sqrt = .zero s := by
      rw [sqrt_eq, hp]
      exact unpack_ofModel_pack trivial
    refine ⟨isFinite_of_parts hroot, ?_⟩
    rw [real, real, value_of_zero hp, value_of_zero hroot]
    simp
  · obtain ⟨q, hnear, hsmall, hclose⟩ := near_sqrt h hc.le
    have hvalue : real x = m * 2 ^ e := by
      rw [real, value_of_finite hp, signed]
      push_cast
      rfl
    rw [← hvalue] at hclose
    have hreal := Rat.cast_le (K := ℝ).mpr hsmall
    push_cast at hreal
    have hq : 0 < (q : ℝ) := lt_of_lt_of_le (by positivity) hreal
    set l := √(real x) with hl
    have hlarge : l ≤ 2 ^ 64 :=
      Real.sqrt_le_iff.mpr ⟨by positivity, (le_of_abs_le (abs_real_le x)).trans (by norm_num)⟩
    obtain ⟨hlow, hhigh⟩ := abs_le.mp hclose
    norm_num at hlow hhigh hreal
    have hmax : |q| ≤ maxValue := by
      rw [abs_of_pos (by exact_mod_cast hq)]
      have hcast : (q : ℝ) ≤ ((2 ^ 65 : ℚ) : ℝ) := by
        push_cast
        norm_num
        linarith
      exact (Rat.cast_le.mp hcast).trans (by norm_num [maxValue])
    rw [sqrt_eq, hp]
    obtain ⟨hfinite, hround⟩ := hnear.rounded.real_near hmax
    refine ⟨hfinite, ?_⟩
    rw [abs_of_pos hq] at hround
    obtain ⟨hlow', hhigh'⟩ := abs_le.mp hround
    norm_num at hlow' hhigh'
    rw [abs_le]
    norm_num
    constructor <;> linarith

end BranchStream.Binary32
