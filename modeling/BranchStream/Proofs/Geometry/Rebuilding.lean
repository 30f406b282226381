import BranchStream.Proofs.Geometry.Polar

namespace BranchStream

open Binary32

namespace Quaternion

variable {q : Quaternion Float32}

theorem exp_w (l : Quaternion Float32) :
    l.exp.w = Binary32.cos l.vector.length * Binary32.exp l.w := rfl

theorem exp_vector (l : Quaternion Float32) : l.exp.vector =
    l.vector.normalizeOrZero * Binary32.sin l.vector.length * Binary32.exp l.w := rfl

section

variable (hq : q.Regular)

include hq

theorem Regular.exp_ln_w_near : (Binary32.exp q.ln.w).isFinite = true ∧
    |real (Binary32.exp q.ln.w) - √q.sq| ≤ 2 ^ (-12 : ℤ) * √q.sq := by
  obtain ⟨hw, hlog⟩ := hq.ln_w_near
  have hbound := hq.abs_log_norm_le
  obtain ⟨hfinite, hexp⟩ := exp_near hw (hq.abs_ln_w_le.trans (by norm_num))
  refine ⟨hfinite, ?_⟩
  have hnorm : 0 < real q.norm := by exact_mod_cast hq.norm_pos
  set d := real q.ln.w - Real.log (real q.norm) with hd
  have hd' : |d| ≤ 2 ^ (-14 : ℤ) := by
    norm_num at hlog ⊢
    linarith
  have hsmall := Real.abs_exp_sub_one_le (x := d) (hd'.trans (by norm_num))
  have hfactor : Real.exp (real q.ln.w) = real q.norm * Real.exp d := by
    conv_lhs => rw [← add_sub_cancel (Real.log (real q.norm)) (real q.ln.w), ← hd, Real.exp_add,
      Real.exp_log hnorm]
  have hclose : |Real.exp (real q.ln.w) - real q.norm| ≤ real q.norm * (2 * 2 ^ (-14 : ℤ)) := by
    rw [hfactor, ← mul_sub_one, abs_mul, abs_of_pos hnorm]
    gcongr
    exact hsmall.trans (by gcongr)
  have hlength := hq.norm_near.2
  rw [abs_le] at hexp hclose hlength ⊢
  norm_num at hexp hclose hlength ⊢
  constructor <;> linarith

theorem Regular.exp_ln_of_axisless (h : q.Axisless) :
    real q.ln.exp.w = real (Binary32.exp q.ln.w) ∧ q.ln.exp.w.isFinite = true ∧
      q.ln.exp.vector.Null := by
  have hE := hq.exp_ln_w_near.1
  have hdot := (hq.null_ln_vector h).dot_self
  obtain ⟨s, hlength⟩ : ∃ s, parts q.ln.vector.length = .zero s := by
    obtain ⟨s, hp⟩ := parts_of_beq_zero hdot
    refine ⟨s, ?_⟩
    show parts (q.ln.vector.dot q.ln.vector).sqrt = _
    rw [sqrt_eq, hp]
    exact unpack_ofModel_pack (u := .zero s) trivial
  have hcos : Binary32.cos q.ln.vector.length = 1 := by simp only [Binary32.cos, hlength]
  obtain ⟨hsin, -⟩ := sin_near (isFinite_of_parts hlength)
  obtain ⟨hfinite, hvalue⟩ := (rounded_mul (x := 1) rfl hE).exact
    (by rw [value_literal_one, one_mul]; exact representable_value _)
    (by rw [value_literal_one, one_mul]; exact abs_value_le _)
  refine ⟨?_, ?_, ?_⟩
  · rw [exp_w, hcos, real, hvalue, value_literal_one, one_mul]
  · rwa [exp_w, hcos]
  · rw [exp_vector, Vec3.normalizeOrZero_of_dot_beq_zero hdot]
    exact (Vec3.null_zero.scale hsin).scale hE

theorem Regular.ln_length_near (h : ¬ q.Axisless) : q.ln.vector.length.isFinite = true ∧
    |real q.ln.vector.length - q.vector.stretch * real q.angle| ≤ 2 ^ (-15 : ℤ) * real q.angle := by
  obtain ⟨hlow, hhigh⟩ := hq.stretch_bounds h
  have hnear := hq.ln_vector_sq h
  have hangle := hq.le_angle (not_or.mp h).2
  have hangle' := hq.angle_le
  have hprod : 7 / 10 * real q.angle ≤ q.vector.stretch * real q.angle ∧
      q.vector.stretch * real q.angle ≤ 8 / 5 * real q.angle :=
    ⟨mul_le_mul_of_nonneg_right hlow hq.angle_nonneg,
      mul_le_mul_of_nonneg_right hhigh hq.angle_nonneg⟩
  have hfinite := (hq.ln_vector_along h).finite
  rw [abs_le] at hnear
  have hroot : 2 ^ (-13 : ℤ) ≤ √q.ln.vector.sq ∧ √q.ln.vector.sq ≤ 2 * real q.angle := by
    norm_num at hnear hangle ⊢
    constructor <;> linarith
  have hsq : 2 ^ (-26 : ℤ) ≤ q.ln.vector.sq := by
    have := (Real.le_sqrt' (by positivity)).mp hroot.1
    norm_num at this ⊢
    exact this
  have hsq' : q.ln.vector.sq ≤ 2 ^ 120 := by
    have hle : √q.ln.vector.sq ≤ 8 := by linarith [hroot.2]
    exact ((Real.sqrt_le_left (by norm_num)).mp hle).trans (by norm_num)
  have hdot := Vec3.dot_self_isFinite hfinite hsq'
  obtain ⟨hlength, hclose⟩ := (Vec3.squareSum_dot hfinite hdot).root_near (by norm_num)
    (hsq.trans' (by norm_num))
  refine ⟨hlength, ?_⟩
  show |real (q.ln.vector.dot q.ln.vector).sqrt - _| ≤ _
  rw [abs_le] at hclose ⊢
  norm_num at hnear hclose hroot ⊢
  constructor <;> linarith

theorem Regular.axis_again (h : ¬ q.Axisless) :
    q.vector.Along q.ln.vector.normalizeOrZero (1 / √q.vector.sq) (2 ^ (-11 : ℤ)) := by
  obtain ⟨hlow, hhigh⟩ := hq.stretch_bounds h
  have hangle := hq.le_angle (not_or.mp h).2
  have hangle' := hq.angle_le
  obtain ⟨hlength, hnear⟩ := hq.ln_length_near h
  have halong := hq.ln_vector_along h
  have hdot : 0 < √(real (q.vector.dot q.vector)) :=
    Real.sqrt_pos.mpr (by exact_mod_cast hq.dot_pos (not_or.mp h).1)
  have hθ : 0 < real q.angle := lt_of_lt_of_le (by positivity) hangle
  set θ := real q.angle with hθ'
  have hρ : q.vector.stretch = √q.vector.sq / √(real (q.vector.dot q.vector)) := rfl
  set ρ := q.vector.stretch with hρ'
  set b := ρ * θ with hb
  have hρ₀ : 0 < ρ := by linarith
  have hb₀ : 0 < b := by positivity
  have hb₁ : 7 / 10 * θ ≤ b := by
    rw [hb]
    gcongr
  have hb₂ : b ≤ 8 / 5 * (22 / 7) := by
    rw [hb]
    gcongr
  obtain ⟨r, haxis, hr, hscale⟩ := Vec3.normalizeOrZero_near (d := b) (δ := 2 ^ (-14 : ℤ)) hlength
    (by norm_num at hangle ⊢; linarith) (hb₂.trans (by norm_num)) (by norm_num)
    (by norm_num at hnear ⊢; linarith)
  have hσ : √q.vector.sq = ρ * √(real (q.vector.dot q.vector)) := by
    rw [hρ, div_mul_cancel₀ _ hdot.ne']
  have hθb : θ * (1 / b) ≤ 10 / 7 := by
    rw [mul_one_div, div_le_iff₀ hb₀]
    linarith
  have hθb₀ : 0 ≤ θ * (1 / b) := by positivity
  have hone : b * (1 / b) = 1 := mul_one_div_cancel hb₀.ne'
  have hscaled := halong.scale hr (M := b) (D := 1 / b) (d := 1 / b)
    (by
      rw [abs_of_nonneg (by positivity), hσ, hb]
      apply le_of_eq
      field_simp)
    (abs_of_pos (by positivity)).le hscale
    (by
      norm_num at hone hθb hθb₀ ⊢
      linarith)
  have hcoefficient : 1 / √(real (q.vector.dot q.vector)) * θ * (1 / b) = 1 / √q.vector.sq := by
    rw [hσ, hb]
    field_simp
  rw [hcoefficient, ← haxis] at hscaled
  refine hscaled.mono ?_
  norm_num at hone hθb hθb₀ ⊢
  linarith

theorem Regular.turn_near (h : ¬ q.Axisless) :
    let b := q.vector.stretch * real q.angle
    let φ := q.ln.vector.length
    ((Binary32.cos φ).isFinite = true ∧ |real (Binary32.cos φ) - Real.cos b| ≤ 2 ^ (-12 : ℤ)) ∧
      (Binary32.sin φ).isFinite = true ∧ |real (Binary32.sin φ) - Real.sin b| ≤ 2 ^ (-12 : ℤ) := by
  intro b φ
  obtain ⟨hlength, hnear⟩ := hq.ln_length_near h
  have hangle := hq.angle_le
  have hclose : |real φ - b| ≤ 2 ^ (-13 : ℤ) := by
    norm_num at hnear ⊢
    linarith
  obtain ⟨hfinite, hcos⟩ := cos_near hlength
  obtain ⟨hfinite', hsin⟩ := sin_near hlength
  have hslope := Real.abs_cos_sub_cos_le (real φ) b
  have hslope' := Real.abs_sin_sub_sin_le (real φ) b
  have htri := abs_sub_le (real (Binary32.cos φ)) (Real.cos (real φ)) (Real.cos b)
  have htri' := abs_sub_le (real (Binary32.sin φ)) (Real.sin (real φ)) (Real.sin b)
  norm_num at hcos hsin hclose
  refine ⟨⟨hfinite, ?_⟩, hfinite', ?_⟩ <;> norm_num <;> linarith

end

/-- The exponential of the logarithm: nearly the length and the axis of the quaternion, and the
stretched angle. -/
theorem Regular.exp_ln_near (hq : q.Regular) (h : ¬ q.Axisless) :
    let b := q.vector.stretch * real q.angle
    q.ln.exp.w.isFinite = true ∧ |real q.ln.exp.w - Real.cos b * √q.sq| ≤ 2 ^ (-10 : ℤ) * √q.sq ∧
      q.vector.Along q.ln.exp.vector (1 / √q.vector.sq * Real.sin b * √q.sq)
        (2 ^ (-9 : ℤ) * √q.sq) := by
  intro b
  obtain ⟨hcos, hsin⟩ := hq.turn_near h
  obtain ⟨hE, hE'⟩ := hq.exp_ln_w_near
  obtain ⟨hμ, hμ'⟩ := hq.sqrt_bounds
  have hμ₀ : 0 ≤ √q.sq := Real.sqrt_nonneg _
  have hscalar := mul_near hcos.1 hE (Real.abs_cos_le_one b) (abs_of_nonneg hμ₀).le hcos.2 hE'
    (by norm_num at hμ' ⊢; linarith)
  have hunit : |1 / √q.vector.sq| * √q.vector.sq ≤ 1 := by
    rw [abs_of_nonneg (by positivity), one_div_mul_eq_div]
    exact div_self_le_one _
  have hvector := (hq.axis_again h).scale hsin.1 hunit (Real.abs_sin_le_one b) hsin.2
    (by norm_num)
  have hturned : |1 / √q.vector.sq * Real.sin b| * √q.vector.sq ≤ 1 := by
    rw [abs_mul, mul_right_comm]
    exact mul_le_one₀ hunit (abs_nonneg _) (Real.abs_sin_le_one b)
  have hvector' := (hvector.mono (δ := 2 ^ (-10 : ℤ)) (by norm_num)).scale hE hturned
    (abs_of_nonneg hμ₀).le hE' (by norm_num at hμ' ⊢; linarith)
  refine ⟨hscalar.1, hscalar.2.trans ?_, hvector'.mono ?_⟩
  · norm_num at hμ ⊢
    linarith
  · norm_num at hμ ⊢
    linarith

end Quaternion

end BranchStream
