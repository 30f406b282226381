import BranchStream.Proofs.Geometry.Quaternion

namespace BranchStream

open Exact

noncomputable scoped instance Exact.analysis : Functions ℝ where
  sqrt := Real.sqrt
  sin := Real.sin
  cos := Real.cos
  acos := Real.arccos
  ln := Real.log
  exp := Real.exp
  pi := Real.pi
  radiansPerDegree := Real.pi / 180

namespace Vec3

variable {v : Vec3 ℝ} {s : ℝ}

theorem length_eq (v : Vec3 ℝ) : v.length = √(v.x ^ 2 + v.y ^ 2 + v.z ^ 2) := by
  show √(v.x * v.x + v.y * v.y + v.z * v.z) = _
  ring_nf

theorem scale_eq (v : Vec3 ℝ) (s : ℝ) : v * s = ⟨v.x * s, v.y * s, v.z * s⟩ := rfl

theorem length_scale (v : Vec3 ℝ) (hs : 0 ≤ s) : (v * s).length = v.length * s := by
  rw [length_eq, length_eq, scale_eq, ← Real.sqrt_sq hs, ← Real.sqrt_mul (by positivity),
    Real.sqrt_sq hs]
  congr 1
  ring

theorem length_zero : (0 : Vec3 ℝ).length = 0 := by
  rw [length_eq]
  show √((0 : ℝ) ^ 2 + (0 : ℝ) ^ 2 + (0 : ℝ) ^ 2) = 0
  simp

theorem length_pos (hv : v ≠ 0) : 0 < v.length := by
  rw [length_eq, Real.sqrt_pos]
  contrapose! hv
  have hx : v.x ^ 2 = 0 := by linarith [sq_nonneg v.x, sq_nonneg v.y, sq_nonneg v.z]
  have hy : v.y ^ 2 = 0 := by linarith [sq_nonneg v.y, sq_nonneg v.z]
  have hz : v.z ^ 2 = 0 := by linarith [sq_nonneg v.z]
  exact Vec3.ext (pow_eq_zero_iff two_ne_zero |>.mp hx) (pow_eq_zero_iff two_ne_zero |>.mp hy)
    (pow_eq_zero_iff two_ne_zero |>.mp hz)

theorem normalizeOrZero_zero : (0 : Vec3 ℝ).normalizeOrZero = 0 := by
  rw [normalizeOrZero, length_zero]
  simp

theorem normalizeOrZero_of_ne (hv : v ≠ 0) : v.normalizeOrZero = v * (1 / v.length) :=
  if_pos ⟨rfl, one_div_pos.mpr (length_pos hv)⟩

theorem normalizeOrZero_scale (hv : v ≠ 0) (hs : 0 < s) :
    (v.normalizeOrZero * s).length = s ∧
      (v.normalizeOrZero * s).normalizeOrZero = v.normalizeOrZero := by
  have hlength := length_pos hv
  have haxis : v.normalizeOrZero.length = 1 := by
    rw [normalizeOrZero_of_ne hv, length_scale v (by positivity), mul_one_div_cancel hlength.ne']
  have hscaled : (v.normalizeOrZero * s).length = s := by
    rw [length_scale _ hs.le, haxis, one_mul]
  have hne : v.normalizeOrZero * s ≠ 0 := by
    intro h
    rw [h, length_zero] at hscaled
    exact hs.ne hscaled
  refine ⟨hscaled, ?_⟩
  rw [normalizeOrZero_of_ne hne, hscaled]
  have hback (x : ℝ) : x * s * (1 / s) = x := by field_simp
  exact Vec3.ext (hback _) (hback _) (hback _)

end Vec3

namespace Quaternion

variable {q : Quaternion ℝ}

theorem norm_eq (q : Quaternion ℝ) : q.norm = √q.normSq := rfl

theorem normSq_pos (hq : q ≠ 0) : 0 < q.normSq := by
  refine lt_of_le_of_ne ?_ (normSq_ne_zero hq).symm
  rw [normSq_eq]
  positivity

theorem norm_sq (q : Quaternion ℝ) : q.norm ^ 2 = q.w ^ 2 + q.vector.length ^ 2 := by
  rw [norm_eq, Vec3.length_eq, Real.sq_sqrt (by rw [normSq_eq]; positivity),
    Real.sq_sqrt (by positivity), normSq_eq]
  show _ = q.w ^ 2 + (q.x ^ 2 + q.y ^ 2 + q.z ^ 2)
  ring

theorem ln_eq (hq : q ≠ 0) : q.ln =
    ofScalarVector (Real.log q.norm) (q.vector.normalizeOrZero * Real.arccos (q.w / q.norm)) := by
  have hnorm : 0 < q.norm := Real.sqrt_pos.mpr (normSq_pos hq)
  have hw : |q.w| ≤ q.norm := by
    rw [← abs_of_pos hnorm, ← sq_le_sq, norm_sq]
    exact le_add_of_nonneg_right (sq_nonneg _)
  obtain ⟨hlow, hhigh⟩ := abs_le.mp hw
  have hclamp : Scalar.clamp (q.w / q.norm) (-1) 1 = q.w / q.norm := by
    rw [Scalar.clamp, if_neg (not_lt.mpr ?_), if_neg (not_lt.mpr ?_)]
    · exact (div_le_one hnorm).mpr hhigh
    · rw [le_div_iff₀ hnorm]
      linarith
  rw [ln, hclamp]
  rfl

theorem exp_eq (q : Quaternion ℝ) : q.exp =
    ofScalarVector (Real.cos q.vector.length) (q.vector.normalizeOrZero * Real.sin q.vector.length) *
      Real.exp q.w := rfl

theorem exp_ln_of_vector_ne (hv : q.vector ≠ 0) : q.ln.exp = q := by
  have hq : q ≠ 0 := by
    rintro rfl
    exact hv rfl
  have hnorm : 0 < q.norm := Real.sqrt_pos.mpr (normSq_pos hq)
  have hlength := Vec3.length_pos hv
  have hsum := norm_sq q
  set n := q.norm
  set l := q.vector.length
  -- the angle is not zero, so its axis is found again
  have hangle : 0 < Real.arccos (q.w / n) := by
    rw [Real.arccos_pos, div_lt_one hnorm]
    exact lt_of_pow_lt_pow_left₀ 2 hnorm.le (by nlinarith)
  obtain ⟨hscaled, haxis⟩ := Vec3.normalizeOrZero_scale hv hangle
  have hbound : -1 ≤ q.w / n ∧ q.w / n ≤ 1 := by
    rw [← abs_le, abs_div, abs_of_pos hnorm, div_le_one hnorm, ← abs_of_pos hnorm, ← sq_le_sq]
    nlinarith
  have hsin : Real.sin (Real.arccos (q.w / n)) = l / n := by
    rw [Real.sin_arccos, show 1 - (q.w / n) ^ 2 = (l / n) ^ 2 by field_simp; linarith,
      Real.sqrt_sq (by positivity)]
  have hvector : (ofScalarVector (Real.log n)
      (q.vector.normalizeOrZero * Real.arccos (q.w / n))).vector =
      q.vector.normalizeOrZero * Real.arccos (q.w / n) := rfl
  have hscalar : (ofScalarVector (Real.log n)
      (q.vector.normalizeOrZero * Real.arccos (q.w / n))).w = Real.log n := rfl
  rw [ln_eq hq, exp_eq, hvector, hscalar, hscaled, haxis, hsin,
    Real.cos_arccos hbound.1 hbound.2, Real.exp_log hnorm, Vec3.normalizeOrZero_of_ne hv]
  have hpart (x : ℝ) : x * (1 / l) * (l / n) * n = x := by field_simp
  exact Quaternion.ext (div_mul_cancel₀ _ hnorm.ne') (hpart _) (hpart _) (hpart _)

theorem exp_ln_of_vector_eq (hq : q ≠ 0) (hv : q.vector = 0) :
    q.ln.exp = if q.w < 0 then -q else q := by
  have hpos : 0 < q.norm := Real.sqrt_pos.mpr (normSq_pos hq)
  have hnorm : q.norm = |q.w| := by
    have hsum := norm_sq q
    rw [hv, Vec3.length_zero, zero_pow two_ne_zero, add_zero, sq_eq_sq_iff_abs_eq_abs,
      abs_of_pos hpos] at hsum
    exact hsum
  have hzero : (0 : Vec3 ℝ) * Real.arccos (q.w / q.norm) = 0 :=
    Vec3.ext (zero_mul _) (zero_mul _) (zero_mul _)
  obtain ⟨hx, hy, hz⟩ := Vec3.mk.inj hv
  have hrebuilt : q.ln.exp = ⟨q.norm, 0, 0, 0⟩ := by
    have hvector : (ofScalarVector (Real.log q.norm) (0 : Vec3 ℝ)).vector = 0 := rfl
    have hscalar : (ofScalarVector (Real.log q.norm) (0 : Vec3 ℝ)).w = Real.log q.norm := rfl
    rw [ln_eq hq, hv, Vec3.normalizeOrZero_zero, hzero, exp_eq, hvector, hscalar,
      Vec3.length_zero, Vec3.normalizeOrZero_zero, Real.cos_zero, Real.sin_zero,
      Real.exp_log hpos]
    have hnone : (0 : ℝ) * 0 * q.norm = 0 := by ring
    exact Quaternion.ext (one_mul _) hnone hnone hnone
  rw [hrebuilt, hnorm]
  split_ifs with hw
  · rw [abs_of_neg hw]
    exact Quaternion.ext rfl (by rw [← neg_zero, ← hx]; rfl) (by rw [← neg_zero, ← hy]; rfl)
      (by rw [← neg_zero, ← hz]; rfl)
  · rw [abs_of_nonneg (not_lt.mp hw)]
    exact Quaternion.ext rfl hx.symm hy.symm hz.symm

theorem exp_ln_eq (hq : q ≠ 0) : q.ln.exp = if q.vector = 0 ∧ q.w < 0 then -q else q := by
  by_cases hv : q.vector = 0
  · rw [exp_ln_of_vector_eq hq hv]
    simp [hv]
  · rw [exp_ln_of_vector_ne hv, if_neg fun h ↦ hv h.1]

end Quaternion

end BranchStream
