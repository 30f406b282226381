import BranchStream.Geometry.Quaternion
import BranchStream.Proofs.Binary32.Angles
import BranchStream.Proofs.Binary32.Exponential

namespace BranchStream

open Binary32
open Float.Model (UnpackedFloat)

namespace Binary32

variable {a x : Float32} {A : ℝ} {k : ℕ}

/-- `a` is computed as a sum of `k` squares whose exact sum is `A`. -/
structure SquareSum (a : Float32) (A : ℝ) (k : ℕ) : Prop where
  isFinite : a.isFinite = true
  nonneg : 0 ≤ real a
  exact_nonneg : 0 ≤ A
  le : real a ≤ (1 + k * 2 ^ (-22 : ℤ)) * (A + k * 2 ^ (-150 : ℤ))
  ge : A ≤ (1 + k * 2 ^ (-22 : ℤ)) * (real a + k * 2 ^ (-150 : ℤ))
  half : real a ≤ (1 + k * 2 ^ (-22 : ℤ)) * (2 * A)

theorem squareSum_mul_self (hx : x.isFinite = true) (h : (x * x).isFinite = true) :
    SquareSum (x * x) (real x ^ 2) 1 := by
  have hnear := Rat.cast_le (K := ℝ).mpr (value_mul_near hx hx h)
  push_cast at hnear
  rw [← sq, abs_of_nonneg (sq_nonneg (real x)), abs_le] at hnear
  have hnonneg : 0 ≤ value (x * x) := by
    rcases (rounded_mul hx hx).nonneg (mul_self_nonneg _) with ⟨-, hle⟩ | hinf
    · exact hle
    · rw [isFinite_of_parts hinf] at h
      cases h
  have hreal : 0 ≤ real (x * x) := by exact_mod_cast hnonneg
  have hsq := sq_nonneg (real x)
  refine ⟨h, hreal, hsq, ?_, ?_, ?_⟩
  · norm_num at hnear ⊢
    linarith
  · norm_num at hnear ⊢
    linarith
  · rcases hnonneg.eq_or_lt with hzero | hpos
    · rw [real, ← hzero, Rat.cast_zero]
      positivity
    · have hleast := least_le_real h hpos
      norm_num at hnear hleast ⊢
      linarith

theorem mul_self_isFinite (hx : x.isFinite = true) (h : real x ^ 2 ≤ 2 ^ 120) :
    (x * x).isFinite = true := by
  refine (real_mul_near hx hx ?_).1
  rw [← sq, abs_of_nonneg (sq_nonneg _)]
  exact h.trans (by norm_num)

theorem SquareSum.isFinite_add (ha : SquareSum a A k) (hk : k ≤ 16) (hx : x.isFinite = true)
    (h : A + real x ^ 2 ≤ 2 ^ 120) : (a + x * x).isFinite = true := by
  have hexact := ha.exact_nonneg
  have hsquare := sq_nonneg (real x)
  have hp := squareSum_mul_self hx (mul_self_isFinite hx (by linarith))
  refine Binary32.isFinite_add ha.isFinite hp.isFinite ?_
  rw [abs_of_nonneg (add_nonneg ha.nonneg hp.nonneg)]
  have hk' : (k : ℝ) ≤ 16 := by exact_mod_cast hk
  have hle : real a ≤ (1 + 16 * 2 ^ (-22 : ℤ)) * (A + 16 * 2 ^ (-150 : ℤ)) :=
    ha.le.trans (by gcongr)
  have hle' := hp.le
  norm_num at h hle hle' ⊢
  linarith

theorem real_add_bounds {y : Float32} (hx : x.isFinite = true) (hy : y.isFinite = true)
    (hx' : 0 ≤ real x) (hy' : 0 ≤ real y) (h : (x + y).isFinite = true) : 0 ≤ real (x + y) ∧
      real (x + y) ≤ (1 + 3 / 4 * 2 ^ (-22 : ℤ)) * (real x + real y) ∧
      real x + real y ≤ (1 + 3 / 4 * 2 ^ (-22 : ℤ)) * real (x + y) := by
  have hnear := real_add_near hx hy h
  rw [abs_of_nonneg (add_nonneg hx' hy'), abs_le] at hnear
  norm_num at hnear
  refine ⟨by linarith, ?_, ?_⟩ <;> norm_num <;> linarith

theorem factor_mul_le {κ m : ℝ} (hκ : κ ≤ 2 ^ (-18 : ℤ)) (hm : 0 ≤ m) :
    (1 + κ) * ((1 + 3 / 4 * 2 ^ (-22 : ℤ)) * m) ≤ (1 + (κ + 2 ^ (-22 : ℤ))) * m := by
  rw [← mul_assoc]
  gcongr
  norm_num at *
  linarith

theorem SquareSum.add (ha : SquareSum a A k) (hk : 0 < k) (hk' : k ≤ 16) (hx : x.isFinite = true)
    (h : (a + x * x).isFinite = true) : SquareSum (a + x * x) (A + real x ^ 2) (k + 1) := by
  have hp := squareSum_mul_self hx (isFinite_of_add h).2
  have hnonneg := ha.nonneg
  have hnonneg' := hp.nonneg
  obtain ⟨hsum, hlow, hhigh⟩ := real_add_bounds ha.isFinite hp.isFinite hnonneg hnonneg' h
  have hexact := ha.exact_nonneg
  have hκ : (2 : ℝ) ^ (-22 : ℤ) ≤ k * 2 ^ (-22 : ℤ) :=
    le_mul_of_one_le_left (by positivity) (by exact_mod_cast hk)
  have hκ' : (k : ℝ) * 2 ^ (-22 : ℤ) ≤ 2 ^ (-18 : ℤ) := by
    have : (k : ℝ) ≤ 16 := by exact_mod_cast hk'
    norm_num
    linarith
  obtain ⟨-, -, -, hle, hge, hhalf⟩ := ha
  set κ := (k : ℝ) * 2 ^ (-22 : ℤ) with hκ₀
  set η := (2 : ℝ) ^ (-150 : ℤ) with hη
  have hη₀ : 0 < η := by positivity
  have hκ₁ : 0 ≤ κ := le_trans (by positivity) hκ
  -- one square is as good as a sum of several
  have hone {r m : ℝ} (hm : 0 ≤ m) (hr : r ≤ (1 + (1 : ℕ) * 2 ^ (-22 : ℤ)) * m) :
      r ≤ (1 + κ) * m := by
    refine hr.trans ?_
    gcongr
    rwa [Nat.cast_one, one_mul]
  have hnext : (1 : ℝ) + (k + 1 : ℕ) * 2 ^ (-22 : ℤ) = 1 + (κ + 2 ^ (-22 : ℤ)) := by
    push_cast
    ring
  have hunits : ((k + 1 : ℕ) : ℝ) * η = k * η + η := by
    push_cast
    ring
  refine ⟨h, hsum, by positivity, ?_, ?_, ?_⟩
  · rw [hnext, hunits]
    have hp' := hone (by positivity) hp.le
    calc real (a + x * x) ≤ (1 + 3 / 4 * 2 ^ (-22 : ℤ)) * (real a + real (x * x)) := hlow
      _ ≤ (1 + 3 / 4 * 2 ^ (-22 : ℤ)) *
            ((1 + κ) * (A + k * η) + (1 + κ) * (real x ^ 2 + (1 : ℕ) * η)) := by gcongr
      _ = (1 + κ) * ((1 + 3 / 4 * 2 ^ (-22 : ℤ)) * (A + real x ^ 2 + (k * η + η))) := by
          push_cast
          ring
      _ ≤ _ := factor_mul_le hκ' (by positivity)
  · rw [hnext, hunits]
    have hp' := hone (by positivity) hp.ge
    calc A + real x ^ 2 ≤ (1 + κ) * (real a + k * η) + (1 + κ) * (real (x * x) + (1 : ℕ) * η) :=
          add_le_add hge hp'
      _ = (1 + κ) * (real a + real (x * x) + (k * η + η)) := by
          push_cast
          ring
      _ ≤ (1 + κ) * ((1 + 3 / 4 * 2 ^ (-22 : ℤ)) * (real (a + x * x) + (k * η + η))) := by
          gcongr
          rw [mul_add]
          have : k * η + η ≤ (1 + 3 / 4 * 2 ^ (-22 : ℤ)) * (k * η + η) :=
            le_mul_of_one_le_left (by positivity) (by norm_num)
          linarith
      _ ≤ _ := factor_mul_le hκ' (by positivity)
  · rw [hnext]
    have hp' := hone (by positivity) hp.half
    calc real (a + x * x) ≤ (1 + 3 / 4 * 2 ^ (-22 : ℤ)) * (real a + real (x * x)) := hlow
      _ ≤ (1 + 3 / 4 * 2 ^ (-22 : ℤ)) * ((1 + κ) * (2 * A) + (1 + κ) * (2 * real x ^ 2)) := by
          gcongr
      _ = (1 + κ) * ((1 + 3 / 4 * 2 ^ (-22 : ℤ)) * (2 * (A + real x ^ 2))) := by ring
      _ ≤ _ := factor_mul_le hκ' (by positivity)

theorem SquareSum.root_near (ha : SquareSum a A k) (hk : k ≤ 4) (hA : 2 ^ (-127 : ℤ) ≤ A) :
    a.sqrt.isFinite = true ∧ |real a.sqrt - √A| ≤ 2 ^ (-18 : ℤ) * √A := by
  obtain ⟨hfinite, hnonneg, -, hle, hge, -⟩ := ha
  have hk' : (k : ℝ) ≤ 4 := by exact_mod_cast hk
  have hsq : √A ^ 2 = A := Real.sq_sqrt (le_trans (by positivity) hA)
  have hbounds : real a ≤ (1 + 2 ^ (-19 : ℤ)) * A ∧ (1 - 2 ^ (-19 : ℤ)) * A ≤ real a := by
    have hle' : real a ≤ (1 + 4 * 2 ^ (-22 : ℤ)) * (A + 4 * 2 ^ (-150 : ℤ)) :=
      hle.trans (by gcongr)
    have hge' : A ≤ (1 + 4 * 2 ^ (-22 : ℤ)) * (real a + 4 * 2 ^ (-150 : ℤ)) :=
      hge.trans (by gcongr)
    norm_num at hle' hge' hA ⊢
    constructor <;> linarith
  obtain ⟨hroot, hnear⟩ := sqrt_near hfinite (by exact_mod_cast hnonneg)
  have hhigh : √(real a) ≤ (1 + 2 ^ (-19 : ℤ)) * √A := by
    refine Real.sqrt_le_iff.mpr ⟨by positivity, hbounds.1.trans ?_⟩
    rw [mul_pow, hsq]
    gcongr
    norm_num
  have hlow : (1 - 2 ^ (-19 : ℤ)) * √A ≤ √(real a) := by
    refine Real.le_sqrt_of_sq_le (le_trans ?_ hbounds.2)
    rw [mul_pow, hsq]
    gcongr
    norm_num
  refine ⟨hroot, ?_⟩
  have hpos : 0 ≤ √A := Real.sqrt_nonneg A
  rw [abs_le] at hnear ⊢
  norm_num at hnear hhigh hlow ⊢
  constructor <;> linarith

theorem mul_near {x y : Float32} {p d M D ε δ : ℝ} (hx : x.isFinite = true) (hy : y.isFinite = true)
    (hp : |p| ≤ M) (hd : |d| ≤ D) (hε : |real x - p| ≤ ε) (hδ : |real y - d| ≤ δ)
    (hsmall : (M + ε) * (D + δ) ≤ 2 ^ 127) :
    (x * y).isFinite = true ∧ |real (x * y) - p * d| ≤
      ε * (D + δ) + M * δ + 2 ^ (-23 : ℤ) * ((M + ε) * (D + δ)) + 2 ^ (-149 : ℤ) := by
  have hx' : |real x| ≤ M + ε := by linarith [abs_sub_abs_le_abs_sub (real x) p]
  have hy' : |real y| ≤ D + δ := by linarith [abs_sub_abs_le_abs_sub (real y) d]
  have hM : 0 ≤ M := (abs_nonneg _).trans hp
  have hε₀ : 0 ≤ ε := (abs_nonneg _).trans hε
  have hprod : |real x * real y| ≤ (M + ε) * (D + δ) := by
    rw [abs_mul]
    exact mul_le_mul hx' hy' (abs_nonneg _) (by positivity)
  obtain ⟨hfinite, hnear⟩ := real_mul_near hx hy (hprod.trans hsmall)
  refine ⟨hfinite, ?_⟩
  have hsplit : real x * real y - p * d = (real x - p) * real y + p * (real y - d) := by ring
  have hexact : |real x * real y - p * d| ≤ ε * (D + δ) + M * δ := by
    rw [hsplit]
    refine (abs_add_le _ _).trans (add_le_add ?_ ?_)
    · rw [abs_mul]
      exact mul_le_mul hε hy' (abs_nonneg _) hε₀
    · rw [abs_mul]
      exact mul_le_mul hp hδ (abs_nonneg _) hM
  have hlast := mul_le_mul_of_nonneg_left hprod (by positivity : (0 : ℝ) ≤ 2 ^ (-23 : ℤ))
  linarith [abs_sub_le (real (x * y)) (real x * real y) (p * d)]

theorem beq_iff_value {y : Float32} (hx : x.isFinite = true) (hy : y.isFinite = true) :
    (x == y) = true ↔ value x = value y := by
  show ((parts x).compare (parts y) == some .eq) = true ↔ _
  rw [compare_parts hx hy, beq_iff_eq, Option.some.injEq, compare_eq_iff_eq]

theorem beq_zero_iff : (x == 0) = true ↔ x.isFinite = true ∧ value x = 0 := by
  constructor
  · intro h
    have hx : x.isFinite = true := by
      by_contra hx
      have hcompare : ((parts x).compare (parts 0) == some .eq) = true := h
      rcases special_cases (Bool.not_eq_true _ ▸ hx) with ⟨s, hp⟩ | hp <;> rw [hp] at hcompare
      · cases s <;> cases hcompare
      · cases hcompare
    exact ⟨hx, ((beq_iff_value hx rfl).mp h).trans value_zero⟩
  · rintro ⟨hx, hvalue⟩
    exact (beq_iff_value hx rfl).mpr (hvalue.trans value_zero.symm)

theorem parts_of_beq_zero (h : (x == 0) = true) : ∃ s, parts x = .zero s := by
  obtain ⟨hx, hvalue⟩ := beq_zero_iff.mp h
  rcases finite_cases hx with hp | ⟨s, m, e, hm, hp, -⟩
  · exact hp
  · have habs := abs_real_of_parts hp
    rw [real, hvalue, Rat.cast_zero, abs_zero] at habs
    exact absurd habs.symm (by positivity)

theorem mul_beq_zero {y : Float32} (hx : x.isFinite = true) (hy : y.isFinite = true)
    (h : value x * value y = 0) : (x * y == 0) = true := by
  obtain ⟨hfinite, hvalue⟩ := (rounded_mul hx hy).exact (h ▸ representable_zero)
    (by rw [h, abs_zero]; exact maxValue_nonneg)
  exact beq_zero_iff.mpr ⟨hfinite, hvalue.trans h⟩

theorem parts_one_div_zero {s : UnpackedFloat.Sign} (hx : parts x = .zero s) :
    ∃ s', parts (1 / x) = .infinity s' := by
  rw [div_eq, hx]
  rcases finite_cases (x := 1) rfl with ⟨s', hp⟩ | ⟨s', m, e, h, hp, -⟩
  · exact absurd (value_literal_one.symm.trans (value_of_zero hp)) one_ne_zero
  · rw [hp]
    exact ⟨_, unpack_ofModel_pack trivial⟩

end Binary32

namespace Vec3

variable {a v : Vec3 Float32} {r : Float32} {c d ε δ M D : ℝ}

structure Finite (v : Vec3 Float32) : Prop where
  x : v.x.isFinite = true
  y : v.y.isFinite = true
  z : v.z.isFinite = true

noncomputable def sq (v : Vec3 Float32) : ℝ := real v.x ^ 2 + real v.y ^ 2 + real v.z ^ 2

theorem squareSum_dot (hv : v.Finite) (h : (v.dot v).isFinite = true) :
    SquareSum (v.dot v) v.sq 3 := by
  obtain ⟨hxy, hz⟩ := isFinite_of_add h
  obtain ⟨hx, hy⟩ := isFinite_of_add hxy
  exact ((squareSum_mul_self hv.x hx).add one_pos (by norm_num) hv.y hxy).add two_pos (by norm_num)
    hv.z h

theorem dot_self_isFinite (hv : v.Finite) (h : v.sq ≤ 2 ^ 120) : (v.dot v).isFinite = true := by
  have hx := sq_nonneg (real v.x)
  have hy := sq_nonneg (real v.y)
  have hz := sq_nonneg (real v.z)
  rw [sq] at h
  have hfirst := mul_self_isFinite hv.x (by linarith)
  have hsum := squareSum_mul_self hv.x hfirst
  have hsecond := hsum.isFinite_add (by norm_num) hv.y (by linarith)
  exact (hsum.add one_pos (by norm_num) hv.y hsecond).isFinite_add (by norm_num) hv.z h

theorem length_near (h : (v.dot v).isFinite = true) (hpos : 0 ≤ value (v.dot v)) :
    v.length.isFinite = true ∧
      |real v.length - √(real (v.dot v))| ≤ 2 ^ (-21 : ℤ) * √(real (v.dot v)) :=
  sqrt_near h hpos

theorem normalizeOrZero_of_dot_beq_zero (h : (v.dot v == 0) = true) : v.normalizeOrZero = 0 := by
  obtain ⟨s, hp⟩ := parts_of_beq_zero h
  have hlength : parts v.length = .zero s := by
    show parts (v.dot v).sqrt = _
    rw [sqrt_eq, hp]
    exact unpack_ofModel_pack (u := .zero s) trivial
  have hinverse : (1 / v.length).isFinite = false := by
    obtain ⟨s', hparts⟩ := parts_one_div_zero hlength
    exact isFinite_of_parts hparts
  exact if_neg fun hscale ↦ Bool.false_ne_true (hinverse.symm.trans hscale.1)

theorem sqrt_dot_bounds (h : (v.dot v).isFinite = true) (hpos : 0 < value (v.dot v)) :
    2 ^ (-75 : ℤ) ≤ √(real (v.dot v)) ∧ √(real (v.dot v)) ≤ 2 ^ (64 : ℤ) := by
  constructor
  · refine Real.le_sqrt_of_sq_le (le_trans ?_ (least_le_real h hpos))
    norm_num
  · refine Real.sqrt_le_iff.mpr ⟨by positivity, ?_⟩
    exact (le_of_abs_le (abs_real_le _)).trans (by norm_num)

theorem normalizeOrZero_near (hlength : v.length.isFinite = true) (hlow : 2 ^ (-80 : ℤ) ≤ d)
    (hhigh : d ≤ 2 ^ (80 : ℤ)) (hδ : δ ≤ 1 / 8) (hnear : |real v.length - d| ≤ δ * d) :
    ∃ r : Float32, v.normalizeOrZero = v * r ∧ r.isFinite = true ∧
      |real r - 1 / d| ≤ (2 * δ + 2 ^ (-21 : ℤ)) * (1 / d) := by
  obtain ⟨hinverse, hpos, hnear'⟩ := one_div_near hlength hlow hhigh hδ hnear
  have hscale : (0 : Float32) < 1 / v.length := (zero_lt_iff hinverse).mpr (by exact_mod_cast hpos)
  exact ⟨1 / v.length, if_pos ⟨hinverse, hscale⟩, hinverse, hnear'⟩

/-- `a` is nearly the multiple of `v` by `c`. -/
structure Along (v a : Vec3 Float32) (c ε : ℝ) : Prop where
  finite : a.Finite
  x : |real a.x - c * real v.x| ≤ ε
  y : |real a.y - c * real v.y| ≤ ε
  z : |real a.z - c * real v.z| ≤ ε

theorem along_self (hv : v.Finite) : v.Along v 1 0 := by
  refine ⟨hv, ?_, ?_, ?_⟩ <;> rw [one_mul, sub_self, abs_zero]

theorem abs_le_sqrt_sq (v : Vec3 Float32) :
    |real v.x| ≤ √v.sq ∧ |real v.y| ≤ √v.sq ∧ |real v.z| ≤ √v.sq := by
  have hx := sq_nonneg (real v.x)
  have hy := sq_nonneg (real v.y)
  have hz := sq_nonneg (real v.z)
  refine ⟨?_, ?_, ?_⟩ <;> exact Real.abs_le_sqrt (by rw [sq]; linarith)

theorem Along.scale (ha : v.Along a c ε) (hr : r.isFinite = true) (hM : |c| * √v.sq ≤ M)
    (hD : |d| ≤ D) (hδ : |real r - d| ≤ δ) (hsmall : (M + ε) * (D + δ) ≤ 2 ^ 127) :
    v.Along (a * r) (c * d)
      (ε * (D + δ) + M * δ + 2 ^ (-23 : ℤ) * ((M + ε) * (D + δ)) + 2 ^ (-149 : ℤ)) := by
  obtain ⟨hx, hy, hz⟩ := abs_le_sqrt_sq v
  have hle {y : ℝ} (hy : |y| ≤ √v.sq) : |c * y| ≤ M := by
    rw [abs_mul]
    exact (mul_le_mul_of_nonneg_left hy (abs_nonneg c)).trans hM
  obtain ⟨hfx, hnx⟩ := mul_near ha.finite.x hr (hle hx) hD ha.x hδ hsmall
  obtain ⟨hfy, hny⟩ := mul_near ha.finite.y hr (hle hy) hD ha.y hδ hsmall
  obtain ⟨hfz, hnz⟩ := mul_near ha.finite.z hr (hle hz) hD ha.z hδ hsmall
  rw [mul_right_comm] at hnx hny hnz
  exact ⟨⟨hfx, hfy, hfz⟩, hnx, hny, hnz⟩

theorem Along.mono (ha : v.Along a c ε) (h : ε ≤ δ) : v.Along a c δ :=
  ⟨ha.finite, ha.x.trans h, ha.y.trans h, ha.z.trans h⟩

theorem Finite.scale (hv : v.Finite) (hr : r.isFinite = true)
    (h : √v.sq * |real r| ≤ 2 ^ 127) : (v * r).Finite :=
  ((along_self hv).scale hr (by rw [abs_one, one_mul]) le_rfl (by rw [sub_self, abs_zero])
    (by rwa [add_zero, add_zero])).finite

/-- The exact length against the computed one. -/
noncomputable def stretch (v : Vec3 Float32) : ℝ := √v.sq / √(real (v.dot v))

section

variable (hv : v.Finite) (h : (v.dot v).isFinite = true)

include hv h

theorem stretch_le {b : ℝ} (hb : 0 ≤ b) (hpos : 0 < value (v.dot v))
    (hle : (1 + 3 * 2 ^ (-22 : ℤ)) * (real (v.dot v) + 3 * 2 ^ (-150 : ℤ)) ≤
      b ^ 2 * real (v.dot v)) : v.stretch ≤ b := by
  have hdot : 0 < real (v.dot v) := by exact_mod_cast hpos
  rw [stretch, div_le_iff₀ (Real.sqrt_pos.mpr hdot)]
  refine Real.sqrt_le_iff.mpr ⟨by positivity, ?_⟩
  rw [mul_pow, Real.sq_sqrt hdot.le]
  exact (squareSum_dot hv h).ge.trans hle

theorem stretch_bounds (hpos : 0 < value (v.dot v)) : 7 / 10 ≤ v.stretch ∧ v.stretch ≤ 8 / 5 := by
  have hleast := least_le_real h hpos
  have hdot : 0 < real (v.dot v) := by exact_mod_cast hpos
  constructor
  · rw [stretch, le_div_iff₀ (Real.sqrt_pos.mpr hdot)]
    refine Real.le_sqrt_of_sq_le ?_
    rw [mul_pow, Real.sq_sqrt hdot.le]
    have hhalf := (squareSum_dot hv h).half
    norm_num at hhalf ⊢
    linarith
  · refine stretch_le hv h (by norm_num) hpos ?_
    norm_num at hleast ⊢
    linarith

theorem stretch_le_of_two (hle : 2 ^ (-148 : ℤ) ≤ real (v.dot v)) : v.stretch ≤ 4 / 3 := by
  have hpos : 0 < value (v.dot v) := by
    have : 0 < real (v.dot v) := lt_of_lt_of_le (by positivity) hle
    exact_mod_cast this
  refine stretch_le hv h (by norm_num) hpos ?_
  norm_num at hle ⊢
  linarith

theorem axis_along (hpos : 0 < value (v.dot v)) :
    v.Along v.normalizeOrZero (1 / √(real (v.dot v))) (2 ^ (-18 : ℤ)) := by
  obtain ⟨-, hstretch⟩ := stretch_bounds hv h hpos
  obtain ⟨hlow, hhigh⟩ := sqrt_dot_bounds h hpos
  obtain ⟨hlength, hnear⟩ := length_near h hpos.le
  obtain ⟨r, haxis, hr, hnear⟩ := normalizeOrZero_near hlength (hlow.trans' (by norm_num))
    (hhigh.trans (by norm_num)) (by norm_num) hnear
  rw [stretch, div_eq_mul_one_div] at hstretch
  set d := 1 / √(real (v.dot v)) with hd
  have hd₀ : 0 ≤ d := by positivity
  have hσ := Real.sqrt_nonneg v.sq
  have hnear' : |real r - d| ≤ 2 ^ (-19 : ℤ) * d := by
    refine hnear.trans ?_
    gcongr
    norm_num
  have hscaled := (along_self hv).scale hr (by rw [abs_one, one_mul]) (abs_of_nonneg hd₀).le hnear'
    (by
      rw [add_zero, ← one_add_mul, mul_left_comm]
      calc _ ≤ (1 + (2 : ℝ) ^ (-19 : ℤ)) * (8 / 5) := by gcongr
        _ ≤ 2 ^ 127 := by norm_num)
  rw [one_mul, ← haxis] at hscaled
  refine hscaled.mono ?_
  have hmul := mul_nonneg hσ hd₀
  norm_num at hstretch ⊢
  linarith

end

structure Null (v : Vec3 Float32) : Prop where
  x : (v.x == 0) = true
  y : (v.y == 0) = true
  z : (v.z == 0) = true

theorem null_zero : (0 : Vec3 Float32).Null := ⟨rfl, rfl, rfl⟩

theorem Null.finite (hv : v.Null) : v.Finite :=
  ⟨(beq_zero_iff.mp hv.x).1, (beq_zero_iff.mp hv.y).1, (beq_zero_iff.mp hv.z).1⟩

theorem Null.sq (hv : v.Null) : v.sq = 0 := by
  rw [Vec3.sq, real, real, real, (beq_zero_iff.mp hv.x).2, (beq_zero_iff.mp hv.y).2,
    (beq_zero_iff.mp hv.z).2]
  norm_num

theorem Null.scale (hv : v.Null) (hr : r.isFinite = true) : (v * r).Null := by
  have hzero {x : Float32} (hx : (x == 0) = true) : (x * r == 0) = true := by
    obtain ⟨hfinite, hvalue⟩ := beq_zero_iff.mp hx
    exact mul_beq_zero hfinite hr (by rw [hvalue, zero_mul])
  exact ⟨hzero hv.x, hzero hv.y, hzero hv.z⟩

theorem null_scale_zero (hv : v.Finite) (hr : (r == 0) = true) : (v * r).Null := by
  obtain ⟨hfinite, hvalue⟩ := beq_zero_iff.mp hr
  have hzero {x : Float32} (hx : x.isFinite = true) : (x * r == 0) = true :=
    mul_beq_zero hx hfinite (by rw [hvalue, mul_zero])
  exact ⟨hzero hv.x, hzero hv.y, hzero hv.z⟩

theorem Null.dot_self (hv : v.Null) : (v.dot v == 0) = true := by
  have hfinite := dot_self_isFinite hv.finite (by rw [hv.sq]; positivity)
  obtain ⟨-, hnonneg, -, -, -, hhalf⟩ := squareSum_dot hv.finite hfinite
  rw [hv.sq, mul_zero, mul_zero] at hhalf
  exact beq_zero_iff.mpr
    ⟨hfinite, Rat.cast_injective ((hhalf.antisymm hnonneg).trans Rat.cast_zero.symm)⟩

theorem Along.sqrt_sq_near (ha : v.Along a c ε) (hc : 0 ≤ c) : |√a.sq - c * √v.sq| ≤ 2 * ε := by
  obtain ⟨-, hx, hy, hz⟩ := ha
  have hε : 0 ≤ ε := (abs_nonneg _).trans hx
  have hnorm (x y z : ℝ) : ‖(!₂[x, y, z] : EuclideanSpace ℝ (Fin 3))‖ = √(x ^ 2 + y ^ 2 + z ^ 2) := by
    simp [EuclideanSpace.norm_eq, Fin.sum_univ_three]
  have hscaled : c * √v.sq = √((c * real v.x) ^ 2 + (c * real v.y) ^ 2 + (c * real v.z) ^ 2) := by
    rw [mul_pow, mul_pow, mul_pow, ← mul_add, ← mul_add, Real.sqrt_mul (sq_nonneg c),
      Real.sqrt_sq hc, sq]
  have htri := abs_norm_sub_norm_le (!₂[real a.x, real a.y, real a.z] : EuclideanSpace ℝ (Fin 3))
    !₂[c * real v.x, c * real v.y, c * real v.z]
  have hdiff : (!₂[real a.x, real a.y, real a.z] : EuclideanSpace ℝ (Fin 3)) -
      !₂[c * real v.x, c * real v.y, c * real v.z] =
      !₂[real a.x - c * real v.x, real a.y - c * real v.y, real a.z - c * real v.z] := by
    ext i
    fin_cases i <;> rfl
  rw [hdiff, hnorm, hnorm, hnorm, ← hscaled] at htri
  refine htri.trans (Real.sqrt_le_iff.mpr ⟨by positivity, ?_⟩)
  have hx' := sq_le_sq' (by linarith [neg_le_of_abs_le hx]) (le_of_abs_le hx)
  have hy' := sq_le_sq' (by linarith [neg_le_of_abs_le hy]) (le_of_abs_le hy)
  have hz' := sq_le_sq' (by linarith [neg_le_of_abs_le hz]) (le_of_abs_le hz)
  rw [mul_pow]
  linarith [sq_nonneg ε]

end Vec3

end BranchStream
