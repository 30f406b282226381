import BranchStream.Proofs.Geometry.Magnitude

namespace BranchStream

open Binary32

namespace Binary32

variable {x y : Float32} {r : ℝ}

theorem value_le_add (hx : x.isFinite = true) (hy : y.isFinite = true)
    (h : (x + y).isFinite = true) (hpos : 0 ≤ value x) : value y ≤ value (x + y) := by
  have hexact : value y ≤ value x + value y := le_add_of_nonneg_left hpos
  rcases (rounded_add hx hy).ge_of_le hexact with ⟨-, hle⟩ | hinf
  · exact hle
  · rw [isFinite_of_parts hinf] at h
    cases h

theorem real_neg_one : real (-1) = -1 := by rw [real, value_neg, value_literal_one]; norm_num

theorem le_iff_real (hx : x.isFinite = true) (hy : y.isFinite = true) :
    x ≤ y ↔ real x ≤ real y := by
  rw [le_iff_value hx hy, Rat.cast_le]

theorem lt_iff_real (hx : x.isFinite = true) (hy : y.isFinite = true) :
    x < y ↔ real x < real y := by
  rw [lt_iff_value hx hy, Rat.cast_lt]

theorem isFinite_neg_one : (-1 : Float32).isFinite = true := by rw [isFinite_neg]; rfl

theorem clamp_near (hx : x.isFinite = true) (hr : |r| ≤ 1) :
    (Scalar.clamp x (-1) 1).isFinite = true ∧ |real (Scalar.clamp x (-1) 1)| ≤ 1 ∧
      |real (Scalar.clamp x (-1) 1) - r| ≤ |real x - r| ∧
      (real (Scalar.clamp x (-1) 1) = 1 ↔ 1 ≤ x) := by
  obtain ⟨hlow, hhigh⟩ := abs_le.mp hr
  rw [le_iff_real rfl hx, real_one, Scalar.clamp]
  split_ifs with hx₁ hx₂
  · rw [lt_iff_real hx isFinite_neg_one, real_neg_one] at hx₁
    rw [real_neg_one]
    refine ⟨isFinite_neg_one, by norm_num, ?_, iff_of_false (by norm_num) (by linarith)⟩
    rw [abs_of_nonpos (by linarith), abs_of_nonpos (by linarith)]
    linarith
  · rw [lt_iff_real rfl hx, real_one] at hx₂
    rw [real_one]
    refine ⟨rfl, by norm_num, ?_, iff_of_true rfl hx₂.le⟩
    rw [abs_of_nonneg (by linarith), abs_of_nonneg (by linarith)]
    linarith
  · rw [lt_iff_real hx isFinite_neg_one, real_neg_one, not_lt] at hx₁
    rw [lt_iff_real rfl hx, real_one, not_lt] at hx₂
    exact ⟨hx, abs_le.mpr ⟨hx₁, hx₂⟩, le_rfl, hx₂.ge_iff_eq.symm⟩

theorem clamp_nonneg (hx : x.isFinite = true) (h : 0 ≤ real x) :
    0 ≤ real (Scalar.clamp x (-1) 1) := by
  rw [Scalar.clamp]
  split_ifs with hx₁ hx₂
  · rw [lt_iff_real hx isFinite_neg_one, real_neg_one] at hx₁
    linarith
  · rw [real_one]
    exact zero_le_one
  · exact h

end Binary32

namespace Quaternion

variable {q : Quaternion Float32}

noncomputable def sq (q : Quaternion Float32) : ℝ := real q.w ^ 2 + q.vector.sq

theorem squareSum_normSq (hw : q.w.isFinite = true) (hv : q.vector.Finite)
    (h : q.normSq.isFinite = true) : SquareSum q.normSq q.sq 4 := by
  obtain ⟨hwxy, hz⟩ := isFinite_of_add h
  obtain ⟨hwx, hy⟩ := isFinite_of_add hwxy
  obtain ⟨hww, hx⟩ := isFinite_of_add hwx
  have hsum := (((squareSum_mul_self hw hww).add one_pos (by norm_num) hv.x hwx).add two_pos
    (by norm_num) hv.y hwxy).add three_pos (by norm_num) hv.z h
  have hassoc : real q.w ^ 2 + real q.vector.x ^ 2 + real q.vector.y ^ 2 + real q.vector.z ^ 2 =
      q.sq := by
    rw [sq, Vec3.sq]
    ring
  rwa [hassoc] at hsum

theorem norm_near (hw : q.w.isFinite = true) (hv : q.vector.Finite) (h : q.normSq.isFinite = true)
    (hlow : 2 ^ (-127 : ℤ) ≤ q.sq) :
    q.norm.isFinite = true ∧ |real q.norm - √q.sq| ≤ 2 ^ (-18 : ℤ) * √q.sq :=
  (squareSum_normSq hw hv h).root_near le_rfl hlow

/-- The components are finite, and the square of the length neither overflows nor underflows. -/
structure Regular (q : Quaternion Float32) : Prop where
  w : q.w.isFinite = true
  vector : q.vector.Finite
  isFinite : q.normSq.isFinite = true
  /-- The bound is the least number that is not subnormal. -/
  normal : Float32.ofBits 0x00800000 ≤ q.normSq

theorem real_least_normal : real (Float32.ofBits 0x00800000) = 2 ^ (-126 : ℤ) := by
  have hparts : parts (Float32.ofBits 0x00800000) =
      .finite .positive (2 ^ 23) (-149) (by norm_num) := rfl
  rw [real, value_of_finite hparts, signed]
  norm_num

section

variable (hq : q.Regular)

include hq

theorem Regular.squareSum : SquareSum q.normSq q.sq 4 := squareSum_normSq hq.w hq.vector hq.isFinite

theorem Regular.vector_dot_isFinite : (q.vector.dot q.vector).isFinite = true := by
  have hsum := hq.isFinite
  obtain ⟨hwxy, hz⟩ := isFinite_of_add hsum
  obtain ⟨hwx, hy⟩ := isFinite_of_add hwxy
  obtain ⟨hw, hx⟩ := isFinite_of_add hwx
  have hpos {x : Float32} (hx : x.isFinite = true) (h : (x * x).isFinite = true) :
      0 ≤ value (x * x) := by
    exact_mod_cast (squareSum_mul_self hx h).nonneg
  have hx₀ := hpos hq.vector.x hx
  have hy₀ := hpos hq.vector.y hy
  have hz₀ := hpos hq.vector.z hz
  obtain ⟨hxy, hle⟩ := isFinite_add_of_le hx hwx hy (value_le_add hw hx hwx (hpos hq.w hw))
    (add_nonneg hx₀ hy₀) hwxy
  have hxy₀ := hy₀.trans (value_le_add hx hy hxy hx₀)
  exact (isFinite_add_of_le hxy hwxy hz hle (add_nonneg hxy₀ hz₀) hsum).1

theorem Regular.sq_bounds : 2 ^ (-127 : ℤ) ≤ q.sq ∧ q.sq ≤ 5 / 4 * 2 ^ 128 := by
  obtain ⟨-, -, -, hle, hge, -⟩ := hq.squareSum
  have hlow := (le_iff_real (by rfl) hq.isFinite).mp hq.normal
  have hhigh := le_of_abs_le (abs_real_le q.normSq)
  rw [real_least_normal] at hlow
  norm_num at hle hge hlow hhigh ⊢
  constructor <;> linarith

theorem Regular.sqrt_bounds : 2 ^ (-64 : ℤ) ≤ √q.sq ∧ √q.sq ≤ 2 ^ 65 := by
  obtain ⟨hlow, hhigh⟩ := hq.sq_bounds
  constructor
  · exact Real.le_sqrt_of_sq_le (hlow.trans' (by norm_num))
  · exact Real.sqrt_le_iff.mpr ⟨by positivity, hhigh.trans (by norm_num)⟩

theorem Regular.sqrt_pos : 0 < √q.sq := lt_of_lt_of_le (by positivity) hq.sqrt_bounds.1

theorem Regular.norm_near :
    q.norm.isFinite = true ∧ |real q.norm - √q.sq| ≤ 2 ^ (-18 : ℤ) * √q.sq :=
  Quaternion.norm_near hq.w hq.vector hq.isFinite hq.sq_bounds.1

theorem Regular.norm_bounds : 2 ^ (-65 : ℤ) ≤ real q.norm ∧ real q.norm ≤ 2 ^ (66 : ℤ) := by
  obtain ⟨hlow, hhigh⟩ := hq.sqrt_bounds
  have hnear := hq.norm_near.2
  rw [abs_le] at hnear
  norm_num at hlow hhigh hnear ⊢
  constructor <;> linarith

theorem Regular.norm_pos : 0 < value q.norm := by
  have hpos : 0 < real q.norm := lt_of_lt_of_le (by positivity) hq.norm_bounds.1
  exact_mod_cast hpos

end

theorem vector_sq_nonneg (q : Quaternion Float32) : 0 ≤ q.vector.sq := by
  rw [Vec3.sq]
  positivity

theorem abs_w_le (q : Quaternion Float32) : |real q.w| ≤ √q.sq := by
  refine Real.abs_le_sqrt ?_
  rw [sq]
  exact le_add_of_nonneg_right q.vector_sq_nonneg

def cosine (q : Quaternion Float32) : Float32 := Scalar.clamp (q.w / q.norm) (-1) 1

def angle (q : Quaternion Float32) : Float32 := acos q.cosine

section

variable (hq : q.Regular)

include hq

theorem Regular.quotient_near : (q.w / q.norm).isFinite = true ∧
    |real (q.w / q.norm) - real q.w / √q.sq| ≤ 2 ^ (-17 : ℤ) := by
  obtain ⟨hnorm, hnear⟩ := hq.norm_near
  have hpos := hq.sqrt_pos
  have hw := q.abs_w_le
  set μ := √q.sq with hμ
  obtain ⟨hlow, hhigh⟩ := abs_le.mp hnear
  have hnorm₀ : (1 - 2 ^ (-18 : ℤ)) * μ ≤ real q.norm := by linarith
  have hnorm₁ : 0 < real q.norm := lt_of_lt_of_le (by norm_num; positivity) hnorm₀
  have hone : μ / real q.norm ≤ 1 + 2 ^ (-17 : ℤ) := by
    rw [div_le_iff₀ hnorm₁]
    norm_num at hnorm₀ ⊢
    linarith
  have hquotient : |real q.w / real q.norm| ≤ 1 + 2 ^ (-17 : ℤ) := by
    rw [abs_div, abs_of_pos hnorm₁]
    exact (by gcongr : _ ≤ μ / real q.norm).trans hone
  obtain ⟨hfinite, hlast⟩ := real_div_near hq.w hnorm hnorm₁.ne'
    (hquotient.trans (by norm_num))
  refine ⟨hfinite, ?_⟩
  have hsplit : real q.w / real q.norm - real q.w / μ =
      real q.w / real q.norm * ((μ - real q.norm) / μ) := by field_simp
  have hexact : |real q.w / real q.norm - real q.w / μ| ≤ (1 + 2 ^ (-17 : ℤ)) * 2 ^ (-18 : ℤ) := by
    rw [hsplit, abs_mul, abs_div (μ - _), abs_of_pos hpos, abs_sub_comm]
    refine mul_le_mul hquotient ?_ (by positivity) (by positivity)
    rwa [div_le_iff₀ hpos]
  have htri := abs_sub_le (real (q.w / q.norm)) (real q.w / real q.norm) (real q.w / μ)
  norm_num at hquotient hlast hexact ⊢
  linarith

theorem Regular.cosine_near : q.cosine.isFinite = true ∧ |real q.cosine| ≤ 1 ∧
    |real q.cosine - real q.w / √q.sq| ≤ 2 ^ (-17 : ℤ) ∧
    (real q.cosine = 1 ↔ 1 ≤ q.w / q.norm) := by
  obtain ⟨hquotient, hnear⟩ := hq.quotient_near
  have hone : |real q.w / √q.sq| ≤ 1 := by
    rw [abs_div, abs_of_pos hq.sqrt_pos, div_le_one hq.sqrt_pos]
    exact q.abs_w_le
  obtain ⟨hfinite, hbound, hcloser, hiff⟩ := clamp_near hquotient hone
  exact ⟨hfinite, hbound, hcloser.trans hnear, hiff⟩

theorem Regular.angle_near : q.angle.isFinite = true ∧
    |real q.angle - Real.arccos (real q.cosine)| ≤ 2 ^ (-19 : ℤ) := by
  obtain ⟨hfinite, hbound, -⟩ := hq.cosine_near
  exact acos_near hfinite hbound

theorem Regular.angle_of_one_le (h : 1 ≤ q.w / q.norm) : q.angle = 0 := by
  obtain ⟨hfinite, -, -, hiff⟩ := hq.cosine_near
  exact acos_of_value_one hfinite (Rat.cast_injective ((hiff.mpr h).trans Rat.cast_one.symm))

theorem Regular.angle_le : real q.angle ≤ 22 / 7 := by
  have hnear := le_of_abs_le hq.angle_near.2
  have hpi := Real.arccos_le_pi (real q.cosine)
  have hpi' := Real.pi_lt_d6
  norm_num at hnear hpi' ⊢
  linarith

theorem Regular.angle_le_of_nonneg (h : 0 ≤ value q.w) : real q.angle ≤ 8 / 5 := by
  have hpos := hq.norm_pos
  have hquotient : 0 ≤ value (q.w / q.norm) := by
    rcases (rounded_div hq.w hq.norm_near.1 hpos.ne').nonneg (by positivity) with ⟨-, hle⟩ | hinf
    · exact hle
    · have hfinite := hq.quotient_near.1
      rw [isFinite_of_parts hinf] at hfinite
      cases hfinite
  have hcosine : 0 ≤ real q.cosine :=
    clamp_nonneg hq.quotient_near.1 (by exact_mod_cast hquotient)
  have hright := Real.arccos_le_pi_div_two.mpr hcosine
  have hangle := le_of_abs_le hq.angle_near.2
  have hpi := Real.pi_lt_d6
  norm_num at hangle hpi
  linarith

theorem Regular.le_angle (h : ¬ 1 ≤ q.w / q.norm) : 2 ^ (-12 : ℤ) ≤ real q.angle := by
  obtain ⟨hfinite, hbound, -, hiff⟩ := hq.cosine_near
  obtain ⟨hlow, hhigh⟩ := abs_le.mp hbound
  have hlt : value q.cosine < 1 := by
    have hreal : real q.cosine < 1 := hhigh.lt_of_ne fun heq ↦ h (hiff.mp heq)
    exact_mod_cast hreal
  have hnext : value q.cosine ≤ (2 ^ 24 - 1 : ℕ) * 2 ^ (-24 : ℤ) := by
    refine ((representable_value q.cosine).le_or_le (m := 2 ^ 24 - 1) (e := -24)
      (.inl (by norm_num))).resolve_right fun hle ↦ ?_
    norm_num at hle
    linarith
  have hcos : real q.cosine ≤ 1 - 2 ^ (-24 : ℤ) := by
    have hcast := Rat.cast_le (K := ℝ).mpr hnext
    push_cast at hcast
    norm_num at hcast ⊢
    linarith
  set a := Real.arccos (real q.cosine) with ha
  have hcosine : Real.cos a = real q.cosine := Real.cos_arccos hlow hhigh
  have hsq := Real.one_sub_sq_div_two_le_cos (x := a)
  have hroot : 5 / 4 * 2 ^ (-12 : ℤ) ≤ a := by
    refine le_of_sq_le_sq ?_ (Real.arccos_nonneg _)
    norm_num at hcos ⊢
    linarith
  have hnear := neg_le_of_abs_le hq.angle_near.2
  norm_num at hroot hnear ⊢
  linarith

theorem Regular.angle_nonneg : 0 ≤ real q.angle := by
  by_cases h : 1 ≤ q.w / q.norm
  · rw [hq.angle_of_one_le h, real, value_zero, Rat.cast_zero]
  · exact le_trans (by positivity) (hq.le_angle h)

theorem Regular.cos_angle_near :
    |Real.cos (real q.angle) - real q.w / √q.sq| ≤ 2 ^ (-16 : ℤ) := by
  obtain ⟨-, hbound, hnear, -⟩ := hq.cosine_near
  obtain ⟨hlow, hhigh⟩ := abs_le.mp hbound
  have hslope := Real.abs_cos_sub_cos_le (real q.angle) (Real.arccos (real q.cosine))
  rw [Real.cos_arccos hlow hhigh] at hslope
  have hangle := hq.angle_near.2
  have htri := abs_sub_le (Real.cos (real q.angle)) (real q.cosine) (real q.w / √q.sq)
  norm_num at hnear hangle ⊢
  linarith

theorem Regular.sin_angle_near :
    |Real.sin (real q.angle) - √q.vector.sq / √q.sq| ≤ 2 ^ (-7 : ℤ) := by
  obtain ⟨-, hbound, hnear, -⟩ := hq.cosine_near
  have hslope := Real.abs_sin_sub_sin_le (real q.angle) (Real.arccos (real q.cosine))
  rw [Real.sin_arccos] at hslope
  have hangle := hq.angle_near.2
  have hpos := hq.sqrt_pos
  have hμ : √q.sq ^ 2 = q.sq := Real.sq_sqrt (hq.sq_bounds.1.trans' (by positivity))
  have hsine : √q.vector.sq / √q.sq = √(1 - (real q.w / √q.sq) ^ 2) := by
    rw [← Real.sqrt_div q.vector_sq_nonneg]
    congr 1
    rw [div_pow, hμ, sq]
    have : real q.w ^ 2 + q.vector.sq ≠ 0 := by
      rw [← sq, ← hμ]
      positivity
    field_simp
    ring
  have hone : |real q.w / √q.sq| ≤ 1 := by
    rw [abs_div, abs_of_pos hpos, div_le_one hpos]
    exact q.abs_w_le
  have hroot : |√(1 - real q.cosine ^ 2) - √(1 - (real q.w / √q.sq) ^ 2)| ≤ 2 ^ (-8 : ℤ) := by
    refine (abs_sqrt_sub_le_sqrt ?_ ?_).trans ?_
    · rw [sub_nonneg, sq_le_one_iff_abs_le_one]
      exact hbound
    · rw [sub_nonneg, sq_le_one_iff_abs_le_one]
      exact hone
    · refine Real.sqrt_le_iff.mpr ⟨by positivity, ?_⟩
      have hsplit : 1 - real q.cosine ^ 2 - (1 - (real q.w / √q.sq) ^ 2) =
          -((real q.cosine - real q.w / √q.sq) * (real q.cosine + real q.w / √q.sq)) := by ring
      rw [hsplit, abs_neg, abs_mul]
      calc _ ≤ (2 : ℝ) ^ (-17 : ℤ) * (1 + 1) :=
            mul_le_mul hnear ((abs_add_le _ _).trans (add_le_add hbound hone)) (abs_nonneg _)
              (by positivity)
        _ = (2 ^ (-8 : ℤ)) ^ 2 := by norm_num
  rw [hsine]
  have htri := abs_sub_le (Real.sin (real q.angle)) (√(1 - real q.cosine ^ 2))
    (√(1 - (real q.w / √q.sq) ^ 2))
  norm_num at hroot hangle ⊢
  linarith

end

/-- The logarithm has no axis: the vector part is too short to have one, or the scalar part is not
below the length. -/
def Axisless (q : Quaternion Float32) : Prop :=
  (q.vector.dot q.vector == 0) = true ∨ 1 ≤ q.w / q.norm

instance : Decidable q.Axisless := inferInstanceAs (Decidable (_ ∨ _))

theorem ln_vector (q : Quaternion Float32) :
    q.ln.vector = q.vector.normalizeOrZero * q.angle := rfl

section

variable (hq : q.Regular)

include hq

theorem Regular.dot_pos (h : (q.vector.dot q.vector == 0) ≠ true) :
    0 < value (q.vector.dot q.vector) := by
  have hfinite := hq.vector_dot_isFinite
  have hnonneg := (Vec3.squareSum_dot hq.vector hfinite).nonneg
  have hne : value (q.vector.dot q.vector) ≠ 0 := fun hzero ↦ h (beq_zero_iff.mpr ⟨hfinite, hzero⟩)
  exact lt_of_le_of_ne (by exact_mod_cast hnonneg) hne.symm

theorem Regular.stretch_bounds (h : ¬ q.Axisless) :
    7 / 10 ≤ q.vector.stretch ∧ q.vector.stretch ≤ 8 / 5 :=
  Vec3.stretch_bounds hq.vector hq.vector_dot_isFinite (hq.dot_pos (not_or.mp h).1)

theorem Regular.axis_finite : q.vector.normalizeOrZero.Finite := by
  by_cases h : (q.vector.dot q.vector == 0) = true
  · rw [Vec3.normalizeOrZero_of_dot_beq_zero h]
    exact Vec3.null_zero.finite
  · exact (Vec3.axis_along hq.vector hq.vector_dot_isFinite (hq.dot_pos h)).finite

theorem Regular.null_ln_vector (h : q.Axisless) : q.ln.vector.Null := by
  rw [ln_vector]
  rcases h with h | h
  · rw [Vec3.normalizeOrZero_of_dot_beq_zero h]
    exact Vec3.null_zero.scale hq.angle_near.1
  · rw [hq.angle_of_one_le h]
    exact Vec3.null_scale_zero hq.axis_finite rfl

theorem Regular.ln_vector_along (h : ¬ q.Axisless) :
    q.vector.Along q.ln.vector (1 / √(real (q.vector.dot q.vector)) * real q.angle)
      (2 ^ (-17 : ℤ) * real q.angle) := by
  obtain ⟨hdot, hone⟩ := not_or.mp h
  have hpos := hq.dot_pos hdot
  obtain ⟨-, hstretch⟩ := hq.stretch_bounds h
  have hangle := hq.le_angle hone
  have hangle' := hq.angle_le
  have hscaled := (Vec3.axis_along hq.vector hq.vector_dot_isFinite hpos).scale hq.angle_near.1
    (M := 8 / 5) (by
      rwa [abs_of_nonneg (by positivity), one_div_mul_eq_div])
    (abs_of_nonneg hq.angle_nonneg).le (by rw [sub_self, abs_zero])
    (by
      norm_num at hangle' ⊢
      linarith)
  rw [ln_vector]
  refine hscaled.mono ?_
  norm_num at hangle ⊢
  linarith

theorem Regular.ln_vector_sq (h : ¬ q.Axisless) :
    |√q.ln.vector.sq - q.vector.stretch * real q.angle| ≤ 2 ^ (-16 : ℤ) * real q.angle := by
  have hangle := hq.angle_nonneg
  have hnear := (hq.ln_vector_along h).sqrt_sq_near (by positivity)
  have hscale : 1 / √(real (q.vector.dot q.vector)) * real q.angle * √q.vector.sq =
      q.vector.stretch * real q.angle := by
    rw [Vec3.stretch]
    ring
  rw [hscale] at hnear
  refine hnear.trans (le_of_eq ?_)
  norm_num
  ring

theorem Regular.abs_log_norm_le : |Real.log (real q.norm)| ≤ 46 := by
  obtain ⟨hlow, hhigh⟩ := hq.norm_bounds
  have hpos : 0 < real q.norm := lt_of_lt_of_le (by positivity) hlow
  have htwo := Real.log_two_lt_d9
  have hfirst := Real.log_le_log (by positivity) hlow
  have hlast := Real.log_le_log hpos hhigh
  rw [Real.log_zpow] at hfirst hlast
  refine abs_le.mpr ?_
  norm_num at htwo hfirst hlast ⊢
  constructor <;> linarith

theorem Regular.ln_w_near : q.ln.w.isFinite = true ∧
    |real q.ln.w - Real.log (real q.norm)| ≤ 2 ^ (-20 : ℤ) * |Real.log (real q.norm)| :=
  ln_near hq.norm_near.1 hq.norm_pos

theorem Regular.abs_ln_w_le : |real q.ln.w| ≤ 47 := by
  have hlog := hq.abs_log_norm_le
  have hnear := hq.ln_w_near.2
  have htri := abs_sub_abs_le_abs_sub (real q.ln.w) (Real.log (real q.norm))
  norm_num at hnear
  linarith

end

end Quaternion

end BranchStream
