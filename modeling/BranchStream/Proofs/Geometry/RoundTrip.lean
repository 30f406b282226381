import BranchStream.Proofs.Geometry.Logarithm
import BranchStream.Proofs.Geometry.Rebuilding

namespace BranchStream

open Binary32 Exact
open Float.Model (UnpackedFloat)

namespace Binary32

variable {x y z : Float32} {t u N : ℝ}

/-- `x` is a number not below `t`, or too great to be one. -/
def Above (t : ℝ) (x : Float32) : Prop :=
  parts x = .infinity .positive ∨ x.isFinite = true ∧ t ≤ real x

theorem Above.pos (h : Above t x) (ht : 0 < t) : 0 < x := by
  rcases h with hinf | ⟨hx, hle⟩
  · exact pos_of_infinity hinf
  · exact (zero_lt_iff hx).mpr (by exact_mod_cast ht.trans_le hle)

theorem real_maxValue : (maxValue : ℝ) = (2 ^ 24 - 1) * 2 ^ 104 := by
  rw [maxValue]
  push_cast
  rfl

/-- A lower bound loses little when the number above it is rounded. It is a share of `N`, whose size
keeps the loss in proportion and the bound itself among the finite numbers. -/
theorem Rounded.above {q : ℚ} (h : Rounded q x) (hN : 2 ^ (-127 : ℤ) ≤ N)
    (hN' : N ≤ 5 / 4 * 2 ^ 128) (ht : N * t ≤ q) (hlow : -(3 / 4) ≤ t) (hhigh : t ≤ 4) :
    Above (N * (t - 2 ^ (-20 : ℤ))) x := by
  have hN₀ : 0 < N := lt_of_lt_of_le (by positivity) hN
  have hmin : -(3 / 4) * N ≤ N * t := by nlinarith
  have hmax : N * t ≤ 4 * N := by nlinarith
  cases h with
  | finite hx hround =>
    refine .inr ⟨hx, ?_⟩
    have hcast := Rat.cast_le (K := ℝ).mpr hround.abs_sub_le
    push_cast at hcast
    have hnear := neg_le_of_abs_le hcast
    rcases le_or_gt (q : ℝ) 0 with hq | hq
    · rw [abs_of_nonpos hq] at hnear
      norm_num at hnear hN ⊢
      linarith
    · rw [abs_of_pos hq] at hnear
      norm_num at hnear hN ⊢
      linarith
  | overflow s hx hq =>
    cases s with
    | positive => exact .inl hx
    | negative =>
      have hcast := Rat.cast_lt (K := ℝ).mpr hq
      rw [signed, real_maxValue] at hcast
      push_cast at hcast
      norm_num at hcast hN'
      linarith

theorem Above.add (hx : Above (N * t) x) (hy : Above (N * u) y) (hN : 2 ^ (-127 : ℤ) ≤ N)
    (hN' : N ≤ 5 / 4 * 2 ^ 128) (hlow : -(3 / 4) ≤ t + u) (hhigh : t + u ≤ 4) :
    Above (N * (t + u - 2 ^ (-20 : ℤ))) (x + y) := by
  rcases hx with hinf | ⟨hx, hle⟩
  · refine .inl ?_
    rw [add_eq, hinf]
    rcases hy with hinf' | ⟨hy, -⟩
    · rw [hinf']
      exact unpack_ofModel_pack (u := .infinity .positive) trivial
    · rcases finite_cases hy with ⟨s, hp⟩ | ⟨s, m, e, h, hp, -⟩ <;> rw [hp] <;>
        exact unpack_ofModel_pack (u := .infinity .positive) trivial
  · rcases hy with hinf | ⟨hy, hle'⟩
    · exact .inl (parts_add_infinity hx hinf)
    · refine (rounded_add hx hy).above hN hN' ?_ hlow hhigh
      push_cast
      linarith

theorem parts_add_of_beq_zero (hx : (x == 0) = false) (hz : (z == 0) = true) :
    parts (x + z) = parts x := by
  obtain ⟨s, hz⟩ := parts_of_beq_zero hz
  rw [add_eq, hz]
  cases hfinite : x.isFinite with
  | true =>
    rcases finite_cases hfinite with ⟨s', hp⟩ | ⟨s', m, e, h, hp, hc, he⟩
    · rw [← Bool.not_eq_true, beq_zero_iff, not_and] at hx
      exact absurd (value_of_zero hp) (hx hfinite)
    · rw [hp]
      have hsettled : settled (.finite s' m e h) = .finite s' m e h := if_neg (by omega)
      exact (unpack_ofModel_pack (u := .finite s' m e h) hc).trans hsettled
  | false =>
    rcases special_cases hfinite with ⟨s', hp⟩ | hp
    · rw [hp]
      exact unpack_ofModel_pack (u := .infinity s') trivial
    · rw [hp]
      exact unpack_ofModel_pack (u := .notANumber) trivial

theorem add_neg_of_beq_zero (hx : x < 0) (hz : (z == 0) = true) : x + z < 0 := by
  have hne : (x == 0) = false := by
    rw [← Bool.not_eq_true, beq_zero_iff]
    rintro ⟨hfinite, hvalue⟩
    exact absurd ((lt_zero_iff hfinite).mp hx) (not_lt.mpr hvalue.ge)
  rwa [lt_iff_compare, parts_add_of_beq_zero hne hz, ← lt_iff_compare]

theorem add_pos_of_beq_zero (hx : 0 < x) (hz : (z == 0) = true) : 0 < x + z := by
  have hne : (x == 0) = false := by
    rw [← Bool.not_eq_true, beq_zero_iff]
    rintro ⟨hfinite, hvalue⟩
    exact absurd ((zero_lt_iff hfinite).mp hx) (not_lt.mpr hvalue.le)
  rwa [lt_iff_compare, parts_add_of_beq_zero hne hz, ← lt_iff_compare]

theorem above_mul {c ε μ : ℝ} (hx : x.isFinite = true) (hy : y.isFinite = true)
    (hxc : |real x - c| ≤ ε * μ) (hyμ : |real y| ≤ μ) (hN : 2 ^ (-127 : ℤ) ≤ μ ^ 2)
    (hN' : μ ^ 2 ≤ 5 / 4 * 2 ^ 128) (ht : μ ^ 2 * t ≤ c * real y) (hε : ε ≤ 1 / 4)
    (hlow : -(1 / 2) ≤ t) (hhigh : t ≤ 5 / 4) (hε' : 0 ≤ ε) :
    Above (μ ^ 2 * (t - ε - 2 ^ (-20 : ℤ))) (x * y) := by
  refine (rounded_mul hx hy).above hN hN' ?_ (by linarith) (by linarith)
  have herror : |(real x - c) * real y| ≤ ε * μ * μ := by
    rw [abs_mul]
    exact mul_le_mul hxc hyμ (abs_nonneg _) ((abs_nonneg _).trans hxc)
  have hsplit : real x * real y = c * real y + (real x - c) * real y := by ring
  push_cast
  rw [hsplit]
  linarith [neg_le_of_abs_le herror]

theorem Rounded.neg {q : ℚ} (h : Rounded q x) (hq : q ≤ -2 ^ (-149 : ℤ)) : x < 0 := by
  have hleast : Representable (-2 ^ (-149 : ℤ)) :=
    Representable.neg ⟨1, -149, by norm_num, le_rfl, by norm_num⟩
  have hpos : (0 : ℚ) < 2 ^ (-149 : ℤ) := by positivity
  cases h with
  | finite hx hround =>
    rw [lt_zero_iff hx]
    exact ((hround _ hleast).1 hq).trans_lt (neg_lt_zero.mpr hpos)
  | overflow s hx hlarge =>
    cases s with
    | positive => exact absurd (hlarge.trans_le hq) (not_lt.mpr (by linarith [maxValue_nonneg]))
    | negative => exact neg_of_infinity hx

end Binary32

theorem share_bounds {g τ : ℝ} (hg : -(3 / 10) ≤ g) (hg' : g ≤ 5 / 4) (hτ : 0 ≤ τ) (hτ' : τ ≤ 1) :
    -(3 / 10) ≤ g * τ ∧ g * τ ≤ 5 / 4 := by
  constructor <;> nlinarith

theorem shares_bounds {b θ c s : ℝ} (hc : |Real.cos θ - c| ≤ 2 ^ (-16 : ℤ))
    (hs : |Real.sin θ - s| ≤ 2 ^ (-7 : ℤ)) (hturn : |b - θ| ≤ 22 / 21) :
    -(3 / 10) ≤ Real.cos b * c ∧ Real.cos b * c ≤ 5 / 4 ∧ -(3 / 10) ≤ Real.sin b * s ∧
      Real.sin b * s ≤ 5 / 4 ∧ 2 / 5 ≤ Real.cos b * c + Real.sin b * s := by
  have hcos : |Real.cos b * Real.cos θ - Real.cos b * c| ≤ 2 ^ (-16 : ℤ) := by
    rw [← mul_sub, abs_mul]
    exact (mul_le_of_le_one_left (abs_nonneg _) (Real.abs_cos_le_one b)).trans hc
  have hsin : |Real.sin b * Real.sin θ - Real.sin b * s| ≤ 2 ^ (-7 : ℤ) := by
    rw [← mul_sub, abs_mul]
    exact (mul_le_of_le_one_left (abs_nonneg _) (Real.abs_sin_le_one b)).trans hs
  have hsq : (b - θ) ^ 2 ≤ (22 / 21) ^ 2 := sq_le_sq.mpr (by
    rwa [abs_of_pos (by norm_num : (0 : ℝ) < 22 / 21)])
  have hdifference := Real.one_sub_sq_div_two_le_cos (x := b - θ)
  have hdifference' := Real.cos_le_one (b - θ)
  have hsum := Real.neg_one_le_cos (b + θ)
  have hsum' := Real.cos_le_one (b + θ)
  rw [Real.cos_sub] at hdifference hdifference'
  rw [Real.cos_add] at hsum hsum'
  rw [abs_le] at hcos hsin
  norm_num at hcos hsin hsq
  refine ⟨?_, ?_, ?_, ?_, ?_⟩ <;> linarith

theorem sum_pos_of_shares {N f g τ υ ω : ℝ} {p₀ p₁ p₂ p₃ : Float32} (hN : 2 ^ (-127 : ℤ) ≤ N)
    (hN' : N ≤ 5 / 4 * 2 ^ 128) (h₀ : Above (N * (f - 2 ^ (-10 : ℤ) - 2 ^ (-20 : ℤ))) p₀)
    (h₁ : Above (N * (g * τ - 2 ^ (-9 : ℤ) - 2 ^ (-20 : ℤ))) p₁)
    (h₂ : Above (N * (g * υ - 2 ^ (-9 : ℤ) - 2 ^ (-20 : ℤ))) p₂)
    (h₃ : Above (N * (g * ω - 2 ^ (-9 : ℤ) - 2 ^ (-20 : ℤ))) p₃) (hf : -(3 / 10) ≤ f)
    (hf' : f ≤ 5 / 4) (hg : -(3 / 10) ≤ g) (hg' : g ≤ 5 / 4) (hfg : 2 / 5 ≤ f + g) (hτ : 0 ≤ τ)
    (hυ : 0 ≤ υ) (hω : 0 ≤ ω) (hsum : τ + υ + ω = 1) : 0 < p₀ + p₁ + p₂ + p₃ := by
  obtain ⟨hlow, hhigh⟩ := share_bounds hg hg' hτ (by linarith)
  obtain ⟨hlow', hhigh'⟩ := share_bounds hg hg' (add_nonneg hτ hυ) (by linarith)
  have hwhole : g * τ + g * υ + g * ω = g := by rw [← mul_add, ← mul_add, hsum, mul_one]
  rw [mul_add] at hlow' hhigh'
  norm_num at h₀ h₁ h₂ h₃
  have hfirst := h₀.add h₁ hN hN' (by norm_num; linarith) (by linarith)
  have hsecond := hfirst.add h₂ hN hN' (by norm_num; linarith) (by norm_num; linarith)
  have hthird := hsecond.add h₃ hN hN' (by norm_num; linarith) (by norm_num; linarith)
  have hN₀ : 0 < N := lt_of_lt_of_le (by positivity) hN
  refine hthird.pos (mul_pos hN₀ ?_)
  norm_num
  linarith

namespace Quaternion

variable {q : Quaternion Float32}

section

variable (hq : q.Regular)

include hq

theorem Regular.abs_w_ge (h : q.Axisless) : 9 / 10 * √q.sq ≤ |real q.w| ∧
    (1 ≤ q.w / q.norm → 0 < real q.w) := by
  have hμ := hq.sqrt_pos
  have hone (hone : 1 ≤ q.w / q.norm) : 9 / 10 * √q.sq ≤ real q.w := by
    obtain ⟨-, -, hnear, hiff⟩ := hq.cosine_near
    rw [hiff.mpr hone, abs_le] at hnear
    rw [← le_div_iff₀ hμ]
    norm_num at hnear
    linarith
  refine ⟨?_, fun hle ↦ lt_of_lt_of_le (by positivity) (hone hle)⟩
  rcases h with h | h
  · have hge := (Vec3.squareSum_dot hq.vector hq.vector_dot_isFinite).ge
    rw [real, (beq_zero_iff.mp h).2, Rat.cast_zero] at hge
    have hlow := hq.sq_bounds.1
    have hN : √q.sq ^ 2 = q.sq := Real.sq_sqrt (hlow.trans' (by positivity))
    refine abs_le_of_sq_le_sq' ?_ (abs_nonneg _) |>.2
    rw [sq_abs, mul_pow, hN]
    rw [sq] at hlow ⊢
    norm_num at hge hlow ⊢
    linarith
  · exact (hone h).trans (le_abs_self _)

theorem Regular.dot_of_axisless (h : q.Axisless) :
    (0 < real q.w → 0 < q.ln.exp.dot q) ∧ (real q.w < 0 → q.ln.exp.dot q < 0) := by
  obtain ⟨hvalue, hfinite, hx, hy, hz⟩ := hq.exp_ln_of_axisless h
  have hlength := neg_le_of_abs_le hq.exp_ln_w_near.2
  rw [← hvalue] at hlength
  have hscalar := (hq.abs_w_ge h).1
  have hμ := hq.sqrt_pos
  have hN : √q.sq ^ 2 = q.sq := Real.sq_sqrt (hq.sq_bounds.1.trans' (by positivity))
  have hsq := hq.sq_bounds.1
  rw [← hN] at hsq
  have hproduct : 2 ^ (-149 : ℤ) ≤ real q.ln.exp.w * |real q.w| := by
    have hle : 9 / 10 * √q.sq ≤ real q.ln.exp.w := by
      norm_num at hlength
      linarith
    calc (2 : ℝ) ^ (-149 : ℤ) ≤ 9 / 10 * √q.sq * (9 / 10 * √q.sq) := by
          norm_num at hsq ⊢
          linarith
      _ ≤ real q.ln.exp.w * |real q.w| :=
          mul_le_mul hle hscalar (by positivity) (le_trans (by positivity) hle)
  have hvanish {x y : Float32} (hx : (x == 0) = true) (hy : y.isFinite = true) :
      (x * y == 0) = true := by
    obtain ⟨hx, hx'⟩ := beq_zero_iff.mp hx
    exact mul_beq_zero hx hy (by rw [hx', zero_mul])
  have hrounded := rounded_mul hfinite hq.w
  constructor
  · intro hw
    rw [abs_of_pos hw] at hproduct
    have hpos := hrounded.pos (by
      rw [← Rat.cast_le (K := ℝ)]
      push_cast
      exact hproduct)
    exact add_pos_of_beq_zero (add_pos_of_beq_zero (add_pos_of_beq_zero hpos
      (hvanish hx hq.vector.x)) (hvanish hy hq.vector.y)) (hvanish hz hq.vector.z)
  · intro hw
    rw [abs_of_neg hw, mul_neg, le_neg] at hproduct
    have hneg := hrounded.neg (by
      rw [← Rat.cast_le (K := ℝ)]
      push_cast
      exact hproduct)
    exact add_neg_of_beq_zero (add_neg_of_beq_zero (add_neg_of_beq_zero hneg
      (hvanish hx hq.vector.x)) (hvanish hy hq.vector.y)) (hvanish hz hq.vector.z)

theorem Regular.vector_sq_pos (h : ¬ q.Axisless) : 0 < q.vector.sq := by
  have hhalf := (Vec3.squareSum_dot hq.vector hq.vector_dot_isFinite).half
  have hdot : 0 < real (q.vector.dot q.vector) := by exact_mod_cast hq.dot_pos (not_or.mp h).1
  have hmul := hdot.trans_le hhalf
  norm_num at hmul
  exact hmul

theorem Regular.dot_of_axis (h : ¬ q.Axisless)
    (hturn : |q.vector.stretch * real q.angle - real q.angle| ≤ 22 / 21) :
    0 < q.ln.exp.dot q := by
  obtain ⟨hfinite, hscalar, hvector⟩ := hq.exp_ln_near h
  obtain ⟨hN, hN'⟩ := hq.sq_bounds
  have hμ := hq.sqrt_pos
  have hσ₀ := hq.vector_sq_pos h
  have hσ : √q.vector.sq ^ 2 = q.vector.sq := Real.sq_sqrt hσ₀.le
  have hμ₂ : √q.sq ^ 2 = q.sq := Real.sq_sqrt (hN.trans' (by positivity))
  have hσμ : √q.vector.sq ≤ √q.sq := Real.sqrt_le_sqrt (le_add_of_nonneg_left (sq_nonneg _))
  rw [← hμ₂] at hN hN'
  obtain ⟨hf, hf', hg, hg', hfg⟩ := shares_bounds hq.cos_angle_near hq.sin_angle_near hturn
  set b := q.vector.stretch * real q.angle
  set μ := √q.sq
  have hσ₁ : 0 < √q.vector.sq := Real.sqrt_pos.mpr hσ₀
  set σ := √q.vector.sq
  set f := Real.cos b * (real q.w / μ) with hf₀
  set g := Real.sin b * (σ / μ) with hg₀
  have hw : Above (μ ^ 2 * (f - 2 ^ (-10 : ℤ) - 2 ^ (-20 : ℤ))) (q.ln.exp.w * q.w) := by
    refine above_mul hfinite hq.w hscalar q.abs_w_le hN hN' (le_of_eq ?_) (by norm_num) (by linarith)
      hf' (by positivity)
    rw [hf₀]
    field_simp
  -- each coordinate has its part of the vector's share
  have hcoordinate {x y : Float32} (hx : x.isFinite = true) (hy : y.isFinite = true)
      (hnear : |real x - 1 / σ * Real.sin b * μ * real y| ≤ 2 ^ (-9 : ℤ) * μ)
      (hle : |real y| ≤ σ) :
      Above (μ ^ 2 * (g * (real y ^ 2 / σ ^ 2) - 2 ^ (-9 : ℤ) - 2 ^ (-20 : ℤ))) (x * y) := by
    have hle' : real y ^ 2 ≤ σ ^ 2 := sq_le_sq.mpr (by rwa [abs_of_pos hσ₁])
    obtain ⟨hlow, hhigh⟩ := share_bounds hg hg' (by positivity : 0 ≤ real y ^ 2 / σ ^ 2)
      ((div_le_one (by positivity)).mpr hle')
    refine above_mul hx hy hnear (hle.trans hσμ) hN hN' (le_of_eq ?_) (by norm_num) (by linarith)
      hhigh (by positivity)
    rw [hg₀]
    field_simp
  obtain ⟨hx, hy, hz⟩ := Vec3.abs_le_sqrt_sq q.vector
  have hsum : real q.vector.x ^ 2 / σ ^ 2 + real q.vector.y ^ 2 / σ ^ 2 +
      real q.vector.z ^ 2 / σ ^ 2 = 1 := by
    rw [← add_div, ← add_div, hσ, ← Vec3.sq, div_self hσ₀.ne']
  exact sum_pos_of_shares hN hN' hw (hcoordinate hvector.finite.x hq.vector.x hvector.x hx)
    (hcoordinate hvector.finite.y hq.vector.y hvector.y hy)
    (hcoordinate hvector.finite.z hq.vector.z hvector.z hz) hf hf' hg hg' hfg (by positivity)
    (by positivity) (by positivity) hsum

end

theorem real_two_units : real (Float32.ofBits 2) = 2 ^ (-148 : ℤ) := by
  have hparts : parts (Float32.ofBits 2) = .finite .positive 2 (-149) two_pos := rfl
  rw [real, value_of_finite hparts, signed]
  norm_num

/-- On which side the rebuilt quaternion lies. A square of two units is enough for the vector part to
keep its angle. -/
theorem exp_ln_side (hq : q.Regular) :
    (0 ≤ q.w ∨ Float32.ofBits 2 ≤ q.vector.dot q.vector → 0 < q.ln.exp.dot q) ∧
      (q.w < 0 ∧ (q.vector.dot q.vector == 0) = true → q.ln.exp.dot q < 0) := by
  have hdot := hq.vector_dot_isFinite
  rw [zero_le_iff hq.w, le_iff_real (by rfl) hdot, real_two_units]
  refine ⟨fun h ↦ ?_, fun ⟨hw, hzero⟩ ↦ ?_⟩
  · by_cases haxis : q.Axisless
    · refine (hq.dot_of_axisless haxis).1 ?_
      obtain ⟨hlarge, hone⟩ := hq.abs_w_ge haxis
      have hne : real q.w ≠ 0 := abs_pos.mp (lt_of_lt_of_le (mul_pos (by norm_num) hq.sqrt_pos) hlarge)
      rcases h with hw | hunits
      · exact lt_of_le_of_ne (by exact_mod_cast hw) hne.symm
      · refine hone (haxis.resolve_left fun hzero ↦ ?_)
        rw [real, (beq_zero_iff.mp hzero).2, Rat.cast_zero] at hunits
        exact absurd hunits (not_le.mpr (by positivity))
    · refine hq.dot_of_axis haxis ?_
      obtain ⟨hlow, hhigh⟩ := hq.stretch_bounds haxis
      have hangle := hq.angle_nonneg
      rw [← sub_one_mul, abs_mul, abs_of_nonneg hangle]
      rcases h with hw | hunits
      · have hright := hq.angle_le_of_nonneg hw
        have hstretch : |q.vector.stretch - 1| ≤ 3 / 5 := abs_le.mpr ⟨by linarith, by linarith⟩
        calc |q.vector.stretch - 1| * real q.angle ≤ 3 / 5 * (8 / 5) := by gcongr
          _ ≤ 22 / 21 := by norm_num
      · have hround := hq.angle_le
        have htwo := Vec3.stretch_le_of_two hq.vector hdot hunits
        have hstretch : |q.vector.stretch - 1| ≤ 1 / 3 := abs_le.mpr ⟨by linarith, by linarith⟩
        calc |q.vector.stretch - 1| * real q.angle ≤ 1 / 3 * (22 / 7) := by gcongr
          _ = 22 / 21 := by norm_num
  · exact (hq.dot_of_axisless (.inl hzero)).2 (by exact_mod_cast (lt_zero_iff hq.w).mp hw)

/-- The exponential undoes the logarithm, but for a negative scalar part without an axis. Over the
real numbers it returns every quaternion but the negative numbers, which it returns as positive ones.
In binary32 numbers it returns to the side of the quaternion, and to the opposite side if the scalar
part is negative and the squares of the vector part vanish. -/
theorem exp_ln {p : Quaternion ℝ} (hp : p ≠ 0) {q : Quaternion Float32} (hq : q.Regular) :
    (p.ln.exp = if p.vector = 0 ∧ p.w < 0 then -p else p) ∧
      (0 ≤ q.w ∨ Float32.ofBits 2 ≤ q.vector.dot q.vector → 0 < q.ln.exp.dot q) ∧
      (q.w < 0 ∧ (q.vector.dot q.vector == 0) = true → q.ln.exp.dot q < 0) :=
  ⟨exp_ln_eq hp, exp_ln_side hq⟩

theorem exp_ln_of_obtuse :
    let p : Quaternion ℝ := ⟨-2, 1, 0, 0⟩
    let q : Quaternion Float32 := ⟨.ofBits 0xc0000000, .ofBits 0x3f800000, 0, 0⟩
    p ≠ 0 ∧ p.ln.exp = p ∧ q.Regular ∧ q.w < 0 ∧ 0 < q.ln.exp.dot q := by
  intro p q
  have hvector : p.vector ≠ 0 := fun h ↦ one_ne_zero (congrArg Vec3.x h)
  have hp : p ≠ 0 := fun h ↦ hvector (congrArg vector h)
  have hq : q.Regular := ⟨by decide, ⟨by decide, by decide, by decide⟩, by decide, by decide +kernel⟩
  obtain ⟨hexact, hside, -⟩ := exp_ln hp hq
  refine ⟨hp, ?_, hq, by decide +kernel, hside (.inr (by decide +kernel))⟩
  rw [hexact, if_neg fun h ↦ hvector h.1]

/-- The logarithm of the half turn that is only a number vanishes. -/
theorem exp_ln_neg_one :
    let p : Quaternion ℝ := ⟨-1, 0, 0, 0⟩
    let q : Quaternion Float32 := ⟨.ofBits 0xbf800000, 0, 0, 0⟩
    p ≠ 0 ∧ p.ln.exp ≠ p ∧ q.Regular ∧ q.ln = 0 ∧ q.ln.exp = 1 ∧ ¬ 0 < q.ln.exp.dot q := by
  intro p q
  have hw : p.w = -1 := rfl
  have hp : p ≠ 0 := by
    intro h
    have hzero : p.w = 0 := congrArg w h
    linarith
  refine ⟨hp, fun h ↦ ?_, ⟨by decide, ⟨by decide, by decide, by decide⟩, by decide,
    by decide +kernel⟩, by decide +kernel, by decide +kernel, by decide +kernel⟩
  rw [exp_ln_of_vector_eq hp rfl, if_pos (by rw [hw]; norm_num)] at h
  have hback : -p.w = p.w := congrArg w h
  linarith

end Quaternion

end BranchStream
