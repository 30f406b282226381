import BranchStream.Proofs.Geometry.Polar

namespace BranchStream

open Binary32

namespace Quaternion

variable {q : Quaternion Float32}

theorem normSq_isFinite (hw : q.w.isFinite = true) (hv : q.vector.Finite) (h : q.sq ≤ 2 ^ 120) :
    q.normSq.isFinite = true := by
  have hx := sq_nonneg (real q.vector.x)
  have hy := sq_nonneg (real q.vector.y)
  have hz := sq_nonneg (real q.vector.z)
  rw [sq, Vec3.sq] at h
  have hfirst := mul_self_isFinite hw (by linarith)
  have hsum := squareSum_mul_self hw hfirst
  have hsecond := hsum.isFinite_add (by norm_num) hv.x (by linarith)
  have hsum' := hsum.add one_pos (by norm_num) hv.x hsecond
  have hthird := hsum'.isFinite_add (by norm_num) hv.y (by linarith)
  refine (hsum'.add two_pos (by norm_num) hv.y hthird).isFinite_add (by norm_num) hv.z ?_
  show _ + real q.vector.z ^ 2 ≤ _
  linarith

theorem norm_beq_zero (hw : q.w.isFinite = true) (hv : q.vector.Finite) (h : q.sq = 0) :
    (q.norm == 0) = true := by
  have hfinite := normSq_isFinite hw hv (by rw [h]; positivity)
  obtain ⟨-, hnonneg, -, -, -, hhalf⟩ := squareSum_normSq hw hv hfinite
  rw [h, mul_zero, mul_zero] at hhalf
  have hzero := hhalf.antisymm hnonneg
  obtain ⟨hroot, hnear⟩ := sqrt_near hfinite (by exact_mod_cast hnonneg)
  rw [hzero, Real.sqrt_zero, mul_zero, sub_zero, abs_nonpos_iff] at hnear
  exact beq_zero_iff.mpr ⟨hroot, Rat.cast_injective (hnear.trans Rat.cast_zero.symm)⟩

theorem one_div_norm (hw : q.w.isFinite = true) (hv : q.vector.Finite) (hlow : 2 ^ (-60 : ℤ) ≤ q.sq)
    (hhigh : q.sq ≤ 2 ^ (30 : ℤ)) : (q.norm == 0) = false ∧ (1 / q.norm).isFinite = true ∧
      2 ^ (-16 : ℤ) ≤ real (1 / q.norm) ∧ real (1 / q.norm) ≤ 2 ^ (31 : ℤ) := by
  have hfinite := normSq_isFinite hw hv (hhigh.trans (by norm_num))
  obtain ⟨hnorm, hnear⟩ := norm_near hw hv hfinite (hlow.trans' (by norm_num))
  have hroot : 2 ^ (-30 : ℤ) ≤ √q.sq ∧ √q.sq ≤ 2 ^ (15 : ℤ) :=
    ⟨Real.le_sqrt_of_sq_le (hlow.trans' (by norm_num)),
      Real.sqrt_le_iff.mpr ⟨by positivity, hhigh.trans (by norm_num)⟩⟩
  obtain ⟨hlow', hhigh'⟩ := hroot
  obtain ⟨hinverse, hpos, hnear'⟩ := one_div_near hnorm (hlow'.trans' (by norm_num))
    (hhigh'.trans (by norm_num)) (by norm_num) hnear
  have hr : 0 < √q.sq := lt_of_lt_of_le (by positivity) hlow'
  have hbounds : 2 ^ (-15 : ℤ) ≤ 1 / √q.sq ∧ 1 / √q.sq ≤ 2 ^ (30 : ℤ) := by
    rw [le_div_iff₀ hr, div_le_iff₀ hr]
    norm_num at hlow' hhigh' ⊢
    constructor <;> linarith
  refine ⟨?_, hinverse, ?_⟩
  · rw [← Bool.not_eq_true, beq_zero_iff, not_and]
    intro _ hzero
    rw [abs_le] at hnear
    rw [real, hzero, Rat.cast_zero] at hnear
    norm_num at hnear
    linarith
  · rw [abs_le] at hnear'
    norm_num at hnear' hbounds ⊢
    constructor <;> linarith

theorem scaled_ne_zero {x r : Float32} (hx : x.isFinite = true) (hr : r.isFinite = true)
    (hx' : 2 ^ (-14 : ℤ) ≤ |real x|) (hx'' : |real x| ≤ 2 ^ (15 : ℤ)) (hr' : 2 ^ (-16 : ℤ) ≤ real r)
    (hr'' : real r ≤ 2 ^ (31 : ℤ)) : (x * r == 0) = false := by
  have hr₀ : 0 < real r := lt_of_lt_of_le (by positivity) hr'
  have habs : |real x * real r| = |real x| * real r := by rw [abs_mul, abs_of_pos hr₀]
  have hlow : (2 : ℝ) ^ (-14 : ℤ) * 2 ^ (-16 : ℤ) ≤ |real x| * real r := by gcongr
  have hhigh : |real x| * real r ≤ 2 ^ (15 : ℤ) * 2 ^ (31 : ℤ) := by gcongr
  obtain ⟨-, hnear⟩ := real_mul_near hx hr (by rw [habs]; exact hhigh.trans (by norm_num))
  rw [← Bool.not_eq_true, beq_zero_iff, not_and]
  intro _ hzero
  rw [real, hzero, Rat.cast_zero, zero_sub, abs_neg, habs] at hnear
  norm_num at hlow hnear
  linarith

theorem toAxisAngle_of_beq (h : (q.ln.norm == 0) = true) : q.toAxisAngle = ⟨0, 1, 0, 0⟩ := if_pos h

theorem vector_toAxisAngle_of_ne (h : (q.ln.norm == 0) = false) :
    q.toAxisAngle.vector = q.ln.vector * (1 / q.ln.norm) := by
  have hscaled : q.toAxisAngle =
      (q.ln * (1 / q.ln.norm)).addScalar ((2 : Nat) * q.ln.norm) := if_neg (by rw [h]; nofun)
  rw [hscaled]
  rfl

section

variable (hq : q.Regular)

include hq

theorem Regular.ln_w_of_norm_beq (h : (q.norm == 1) = true) : (q.ln.w == 0) = true := by
  obtain ⟨hfinite, hnear⟩ := hq.ln_w_near
  have hone : value q.norm = 1 := ((beq_iff_value hq.norm_near.1 rfl).mp h).trans value_literal_one
  rw [real, real, hone, Rat.cast_one, Real.log_one, abs_zero, mul_zero, sub_zero,
    abs_nonpos_iff] at hnear
  exact beq_zero_iff.mpr ⟨hfinite, Rat.cast_injective (hnear.trans Rat.cast_zero.symm)⟩

theorem Regular.le_abs_ln_w (h : (q.norm == 1) ≠ true) : 2 ^ (-25 : ℤ) ≤ |real q.ln.w| := by
  have hone : value q.norm ≠ 1 := fun hone ↦
    h ((beq_iff_value hq.norm_near.1 rfl).mpr (hone.trans value_literal_one.symm))
  have hlog := abs_log_ge (representable_value q.norm) hq.norm_pos hone
  have hnear := hq.ln_w_near.2
  have htri := abs_sub_abs_le_abs_sub (Real.log (real q.norm)) (real q.ln.w)
  rw [abs_sub_comm] at htri
  norm_num at hlog hnear ⊢
  linarith

theorem Regular.sq_ln_le : q.ln.sq ≤ 2 ^ (30 : ℤ) := by
  have hw : real q.ln.w ^ 2 ≤ 47 ^ 2 := sq_le_sq.mpr (by
    rw [abs_of_pos (by norm_num : (0 : ℝ) < 47)]
    exact hq.abs_ln_w_le)
  have hvector : q.ln.vector.sq ≤ 10 ^ 2 := by
    by_cases h : q.Axisless
    · rw [(hq.null_ln_vector h).sq]
      norm_num
    · obtain ⟨hlow, hhigh⟩ := hq.stretch_bounds h
      have hangle := hq.angle_le
      have hangle' := hq.angle_nonneg
      have hnear := le_of_abs_le (hq.ln_vector_sq h)
      have hprod : q.vector.stretch * real q.angle ≤ 8 / 5 * (22 / 7) := by gcongr
      refine (Real.sqrt_le_left (by norm_num)).mp ?_
      norm_num at hnear hprod
      linarith
  rw [sq]
  norm_num at hw hvector ⊢
  linarith

theorem Regular.ln_vector_finite : q.ln.vector.Finite := by
  by_cases h : q.Axisless
  · exact (hq.null_ln_vector h).finite
  · exact (hq.ln_vector_along h).finite

theorem Regular.exists_coordinate (h : ¬ q.Axisless) : 2 ^ (-14 : ℤ) ≤ |real q.ln.vector.x| ∨
    2 ^ (-14 : ℤ) ≤ |real q.ln.vector.y| ∨ 2 ^ (-14 : ℤ) ≤ |real q.ln.vector.z| := by
  obtain ⟨hlow, -⟩ := hq.stretch_bounds h
  have hangle := hq.le_angle (not_or.mp h).2
  have hnear := neg_le_of_abs_le (hq.ln_vector_sq h)
  have hprod : 7 / 10 * real q.angle ≤ q.vector.stretch * real q.angle :=
    mul_le_mul_of_nonneg_right hlow hq.angle_nonneg
  have hroot : 2 ^ (-13 : ℤ) ≤ √q.ln.vector.sq := by
    norm_num at hangle hnear hprod ⊢
    linarith
  have hsq : (2 ^ (-13 : ℤ)) ^ 2 ≤ q.ln.vector.sq := (Real.le_sqrt' (by positivity)).mp hroot
  by_contra! hsmall
  obtain ⟨hx, hy, hz⟩ := hsmall
  rw [← abs_of_pos (by positivity : (0 : ℝ) < 2 ^ (-14 : ℤ)), ← sq_lt_sq] at hx hy hz
  rw [Vec3.sq] at hsq
  norm_num at hx hy hz hsq
  linarith

theorem Regular.sqrt_ln_vector_le : √q.ln.vector.sq ≤ 2 ^ (15 : ℤ) := by
  have hhigh := hq.sq_ln_le
  refine Real.sqrt_le_iff.mpr ⟨by positivity, ?_⟩
  rw [sq] at hhigh
  have hw := sq_nonneg (real q.ln.w)
  norm_num at hhigh ⊢
  linarith

theorem Regular.vector_toAxisAngle (hlow : 2 ^ (-60 : ℤ) ≤ q.ln.sq) :
    ∃ r : Float32, q.toAxisAngle.vector = q.ln.vector * r ∧ r.isFinite = true ∧
      2 ^ (-16 : ℤ) ≤ real r ∧ real r ≤ 2 ^ (31 : ℤ) ∧ q.toAxisAngle.vector.Finite := by
  have hroot := hq.sqrt_ln_vector_le
  obtain ⟨hnorm, hr, hscale, hscale'⟩ :=
    one_div_norm hq.ln_w_near.1 hq.ln_vector_finite hlow hq.sq_ln_le
  refine ⟨1 / q.ln.norm, vector_toAxisAngle_of_ne hnorm, hr, hscale, hscale', ?_⟩
  rw [vector_toAxisAngle_of_ne hnorm]
  refine hq.ln_vector_finite.scale hr ?_
  rw [abs_of_pos (lt_of_lt_of_le (by positivity) hscale)]
  calc _ ≤ (2 : ℝ) ^ (15 : ℤ) * 2 ^ (31 : ℤ) := by gcongr
    _ ≤ 2 ^ 127 := by norm_num

theorem Regular.toAxisAngle_of_axisless (h : q.Axisless) (hone : (q.norm == 1) ≠ true) :
    q.toAxisAngle.vector.Null := by
  have hscalar := hq.le_abs_ln_w hone
  have hlow : 2 ^ (-60 : ℤ) ≤ q.ln.sq := by
    rw [sq, (hq.null_ln_vector h).sq, add_zero, ← sq_abs]
    refine le_trans ?_ (pow_le_pow_left₀ (by positivity) hscalar 2)
    norm_num
  obtain ⟨r, hvector, hr, -⟩ := hq.vector_toAxisAngle hlow
  rw [hvector]
  exact (hq.null_ln_vector h).scale hr

theorem Regular.toAxisAngle_of_axis (h : ¬ q.Axisless) :
    q.toAxisAngle.vector.Finite ∧ ¬ q.toAxisAngle.vector.Null := by
  obtain ⟨hx, hy, hz⟩ := Vec3.abs_le_sqrt_sq q.ln.vector
  have hcoordinate := hq.exists_coordinate h
  have hlow : 2 ^ (-60 : ℤ) ≤ q.ln.sq := by
    have hle : (2 : ℝ) ^ (-14 : ℤ) ≤ √q.ln.vector.sq := by
      rcases hcoordinate with hle | hle | hle
      · exact hle.trans hx
      · exact hle.trans hy
      · exact hle.trans hz
    have hsq := (Real.le_sqrt' (by positivity)).mp hle
    have hw := sq_nonneg (real q.ln.w)
    rw [sq]
    norm_num at hsq ⊢
    linarith
  obtain ⟨r, hvector, hr, hscale, hscale', hfinite⟩ := hq.vector_toAxisAngle hlow
  refine ⟨hfinite, fun hnull ↦ ?_⟩
  rw [hvector] at hnull
  have hroot := hq.sqrt_ln_vector_le
  have hne {x : Float32} (hx : x.isFinite = true) (hle : 2 ^ (-14 : ℤ) ≤ |real x|)
      (hle' : |real x| ≤ √q.ln.vector.sq) (hzero : (x * r == 0) = true) : False := by
    rw [scaled_ne_zero hx hr hle (hle'.trans hroot) hscale hscale'] at hzero
    cases hzero
  have hvector := hq.ln_vector_finite
  rcases hcoordinate with hle | hle | hle
  · exact hne hvector.x hle hx hnull.x
  · exact hne hvector.y hle hy hnull.y
  · exact hne hvector.z hle hz hnull.z

theorem Regular.toAxisAngle_of_norm (h : q.Axisless) (hone : (q.norm == 1) = true) :
    q.toAxisAngle = ⟨0, 1, 0, 0⟩ := by
  refine toAxisAngle_of_beq (norm_beq_zero hq.ln_w_near.1 hq.ln_vector_finite ?_)
  rw [sq, (hq.null_ln_vector h).sq, real, (beq_zero_iff.mp (hq.ln_w_of_norm_beq hone)).2]
  norm_num

end

theorem not_null_sentinel : ¬ (⟨0, 1, 0, 0⟩ : Quaternion Float32).vector.Null :=
  fun hnull ↦ absurd hnull.x (by decide +kernel)

/-- The vector part of the result vanishes exactly if the logarithm has no axis and the length is
not computed as one. For a length computed as one a logarithm without axis gives the sentinel. -/
theorem toAxisAngle_cases (hq : q.Regular) :
    q.toAxisAngle.vector.Finite ∧
      (q.toAxisAngle.vector.Null ↔ q.Axisless ∧ (q.norm == 1) = false) ∧
      (q.Axisless ∧ (q.norm == 1) = true → q.toAxisAngle = ⟨0, 1, 0, 0⟩) ∧
      (q.vector.Null → q.Axisless) := by
  have hzero : q.vector.Null → q.Axisless := fun hnull ↦ .inl hnull.dot_self
  by_cases h : q.Axisless
  · cases hone : q.norm == 1 with
    | true =>
      have hsentinel := hq.toAxisAngle_of_norm h hone
      rw [hsentinel]
      refine ⟨⟨rfl, rfl, rfl⟩, ?_, fun _ ↦ rfl, hzero⟩
      exact iff_of_false not_null_sentinel fun hother ↦ nomatch hother.2
    | false =>
      have hnull := hq.toAxisAngle_of_axisless h (by rw [hone]; nofun)
      exact ⟨hnull.finite, iff_of_true hnull ⟨h, rfl⟩, nofun, hzero⟩
  · obtain ⟨hfinite, hne⟩ := hq.toAxisAngle_of_axis h
    exact ⟨hfinite, iff_of_false hne fun hother ↦ h hother.1, fun hother ↦ absurd hother.1 h, hzero⟩

theorem toAxisAngle_cases_of_rotation :
    let q : Quaternion Float32 := ⟨.ofBits 0x3f19999a, .ofBits 0x3f4ccccd, 0, 0⟩
    q.Regular ∧ ¬ q.Axisless ∧ q.toAxisAngle.vector.Finite ∧ ¬ q.toAxisAngle.vector.Null := by
  intro q
  have hq : q.Regular := ⟨by decide, ⟨by decide, by decide, by decide⟩, by decide, by decide +kernel⟩
  have haxis : ¬ q.Axisless := by decide +kernel
  obtain ⟨hfinite, hnull, -⟩ := toAxisAngle_cases hq
  exact ⟨hq, haxis, hfinite, fun h ↦ haxis (hnull.mp h).1⟩

/-- Twice the identity rotates nothing, and gives neither an axis nor the sentinel. -/
theorem toAxisAngle_two :
    let q : Quaternion Float32 := ⟨.ofBits 0x40000000, 0, 0, 0⟩
    q.Regular ∧ q.vector.Null ∧ q.toAxisAngle = ⟨.ofBits 0x4018b90c, 0, 0, 0⟩ ∧
      q.toAxisAngle ≠ ⟨0, 1, 0, 0⟩ ∧ q.toAxisAngle.vector.Null := by
  intro q
  have hresult : q.toAxisAngle = ⟨.ofBits 0x4018b90c, 0, 0, 0⟩ := by decide +kernel
  refine ⟨⟨by decide, ⟨by decide, by decide, by decide⟩, by decide, by decide +kernel⟩,
    ⟨by decide +kernel, by decide +kernel, by decide +kernel⟩, hresult, ?_, ?_⟩
  · decide +kernel
  · rw [hresult]
    exact ⟨rfl, rfl, rfl⟩

end Quaternion

end BranchStream
