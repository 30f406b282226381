import BranchStream.Proofs.Binary32.Truncation

namespace BranchStream.Binary32

open Float.Model (UnpackedFloat)
open Float.Model.UnpackedFloat

section Real

variable {s t x : ℝ}

theorem abs_arctan_sub_le (s t : ℝ) : |Real.arctan s - Real.arctan t| ≤ |s - t| := by
  have hslope (r : ℝ) (_ : r ∈ Set.univ) : ‖deriv Real.arctan r‖ ≤ 1 := by
    rw [Real.deriv_arctan, Real.norm_eq_abs, abs_of_pos (by positivity), div_le_one (by positivity)]
    linarith [sq_nonneg r]
  have h := convex_univ.norm_image_sub_le_of_norm_deriv_le
    (fun r _ ↦ Real.differentiableAt_arctan r) hslope (Set.mem_univ t) (Set.mem_univ s)
  rwa [one_mul] at h

theorem arctan_half (ht : 0 ≤ t) : 2 * Real.arctan (t / (1 + √(1 + t ^ 2))) = Real.arctan t := by
  set r := √(1 + t ^ 2) with hr
  have hsq : r ^ 2 = 1 + t ^ 2 := Real.sq_sqrt (by positivity)
  have hone : 1 ≤ r := Real.one_le_sqrt.mpr (by linarith [sq_nonneg t])
  have hle : t < 1 + r := by nlinarith
  have hden : 0 < 1 + r := by linarith
  have hfrac : 0 ≤ t / (1 + r) := by positivity
  rw [Real.two_mul_arctan (by linarith) ((div_lt_one hden).mpr hle)]
  congr 1
  have hne : (1 + r) ^ 2 - t ^ 2 ≠ 0 := by nlinarith
  have hne' : 1 - (t / (1 + r)) ^ 2 ≠ 0 := by
    rw [div_pow, one_sub_div (by positivity)]
    positivity
  rw [div_eq_iff hne']
  field_simp
  nlinarith

theorem arccos_eq (hx : 0 ≤ x) (hx' : x ≤ 1) :
    Real.arccos x = 2 * Real.arctan √((1 - x) / (1 + x)) := by
  set t := √((1 - x) / (1 + x)) with ht
  have hsq : t ^ 2 = (1 - x) / (1 + x) := Real.sq_sqrt (by apply div_nonneg <;> linarith)
  have hcos : Real.cos (2 * Real.arctan t) = x := by
    rw [Real.cos_two_mul, Real.cos_sq_arctan, hsq]
    field_simp
    ring
  have hnonneg : 0 ≤ Real.arctan t := Real.arctan_nonneg.mpr (Real.sqrt_nonneg _)
  have hlt := Real.arctan_lt_pi_div_two t
  rw [← Real.arccos_cos (by positivity) (by linarith : 2 * Real.arctan t ≤ Real.pi), hcos]

theorem abs_sqrt_sub_mul {a b : ℝ} (ha : 0 ≤ a) (hb : 0 ≤ b) :
    |√a - √b| * (√a + √b) = |a - b| := by
  have hsum : 0 ≤ √a + √b := by positivity
  rw [← abs_of_nonneg hsum, ← abs_mul]
  congr 1
  nlinarith [Real.sq_sqrt ha, Real.sq_sqrt hb]

theorem abs_sqrt_sub_le_sqrt {a b : ℝ} (ha : 0 ≤ a) (hb : 0 ≤ b) : |√a - √b| ≤ √|a - b| := by
  refine Real.le_sqrt_of_sq_le ?_
  have hle : |√a - √b| ≤ √a + √b := by
    rw [abs_le]
    constructor <;> linarith [Real.sqrt_nonneg a, Real.sqrt_nonneg b]
  rw [← abs_sqrt_sub_mul ha hb, sq]
  gcongr

theorem abs_sqrt_sub_le {a b : ℝ} (ha : 0 ≤ a) (hb : 1 ≤ b) : |√a - √b| ≤ |a - b| := by
  rw [← abs_sqrt_sub_mul ha (zero_le_one.trans hb)]
  have hone : 1 ≤ √b := Real.one_le_sqrt.mpr hb
  exact le_mul_of_one_le_right (abs_nonneg _) (by linarith [Real.sqrt_nonneg a])

end Real

namespace FixedPoint

variable {p n : ℕ} {x : ℤ}

theorem reciprocal_near (hd : 0 < n) : |toReal p (one p / n) - (n : ℝ)⁻¹| ≤ ulp p := by
  have h := div_natCast_near p (one p) hd
  rwa [toReal_one, one_div] at h

theorem arctan_near_of_near (hp : 8 ≤ p) {r : ℝ} (hr : 0 ≤ r) (hr' : r ≤ 1 / 4)
    (hx : |toReal p x - r| ≤ ulp p) :
    |toReal p (arctan p n x) - Real.arctan r| ≤ 10 * ulp p + (1 / 8) ^ n * 2 := by
  have hsmall := ulp_le p hp
  have hbound : |toReal p x| ≤ 1 / 3 := by
    rw [abs_le] at *
    constructor <;> linarith
  calc _ ≤ |toReal p (arctan p n x) - Real.arctan (toReal p x)| +
          |Real.arctan (toReal p x) - Real.arctan r| := abs_sub_le _ _ _
    _ ≤ (9 * ulp p + (1 / 8) ^ n * 2) + ulp p :=
        add_le_add (arctan_near hp hbound) ((abs_arctan_sub_le _ _).trans hx)
    _ = _ := by ring

theorem pi_near (hp : 8 ≤ p) : |toReal p (pi p n) - Real.pi| ≤ 200 * ulp p + (1 / 8) ^ n * 40 := by
  have hfive := arctan_near_of_near (n := n) hp (by positivity) (by norm_num)
    (reciprocal_near (p := p) (n := 5) (by norm_num))
  have hlarge := arctan_near_of_near (n := n) hp (by positivity) (by norm_num)
    (reciprocal_near (p := p) (n := 239) (by norm_num))
  have hmachin := Real.four_mul_arctan_inv_5_sub_arctan_inv_239
  have hsum : toReal p (pi p n) = 16 * toReal p (arctan p n (one p / 5)) -
      4 * toReal p (arctan p n (one p / 239)) := by
    rw [pi, toReal_sub, toReal_mul, toReal_mul]
    push_cast
    rfl
  push_cast at hfive hlarge
  rw [hsum]
  rw [abs_le] at *
  constructor <;> linarith

theorem sqrt_nonneg (p : ℕ) (a : ℤ) : 0 ≤ sqrt p a := Int.natCast_nonneg _

theorem div_nonneg {a b : ℤ} (ha : 0 ≤ a) (hb : 0 ≤ b) : 0 ≤ div p a b :=
  Int.ediv_nonneg (mul_nonneg ha (one_pos p).le) hb

theorem halfAngle_near (hp : 8 ≤ p) (hx : 0 ≤ x) (hx' : toReal p x ≤ 2) :
    0 ≤ halfAngle p x ∧ toReal p (halfAngle p x) ≤ toReal p x / 2 + 3 * ulp p ∧
      |2 * Real.arctan (toReal p (halfAngle p x)) - Real.arctan (toReal p x)| ≤ 6 * ulp p := by
  have hulp := ulp_pos p
  have hsmall := ulp_le p hp
  set t := toReal p x with ht
  have ht₀ : 0 ≤ t := toReal_nonneg p hx
  set a := one p + mul p x x with ha
  have ha₀ : 0 ≤ a := add_nonneg (one_pos p).le
    (Int.ediv_nonneg (mul_nonneg hx hx) (one_pos p).le)
  have hsquare : |toReal p a - (1 + t ^ 2)| ≤ ulp p := by
    rw [ha, toReal_add, toReal_one, add_sub_add_left_eq_sub]
    exact square_near p x
  set r := √(1 + t ^ 2) with hr
  have hr₁ : 1 ≤ r := Real.one_le_sqrt.mpr (by linarith [sq_nonneg t])
  set d := one p + sqrt p a with hd
  have hd₁ : 1 ≤ toReal p d := by
    rw [hd, toReal_add, toReal_one]
    linarith [toReal_nonneg p (sqrt_nonneg p a)]
  have hden : |toReal p d - (1 + r)| ≤ 2 * ulp p := by
    have hroot := (abs_sqrt_sub_le (toReal_nonneg p ha₀)
      (by linarith [sq_nonneg t] : 1 ≤ 1 + t ^ 2)).trans hsquare
    rw [hd, toReal_add, toReal_one, add_sub_add_left_eq_sub]
    linarith [abs_sub_le (toReal p (sqrt p a)) √(toReal p a) r, sqrt_near p ha₀]
  have hd₀ : 0 < d := add_pos_of_pos_of_nonneg (one_pos p) (sqrt_nonneg p a)
  have hquotient : |t / toReal p d - t / (1 + r)| ≤ 2 * ulp p := by
    have hprod : 0 < toReal p d * (1 + r) := by positivity
    rw [div_sub_div _ _ (by positivity) (by positivity), mul_comm _ t, ← mul_sub, abs_div, abs_mul,
      abs_of_nonneg ht₀, abs_sub_comm, abs_of_pos hprod, div_le_iff₀ hprod]
    calc t * |toReal p d - (1 + r)| ≤ 2 * (2 * ulp p) := by gcongr
      _ = 2 * ulp p * (1 * (1 + 1)) := by ring
      _ ≤ 2 * ulp p * (toReal p d * (1 + r)) := by gcongr
  have hdiv : |toReal p (halfAngle p x) - t / toReal p d| ≤ ulp p := div_near p x hd₀
  have hhalf : |toReal p (halfAngle p x) - t / (1 + r)| ≤ 3 * ulp p := by
    linarith [abs_sub_le (toReal p (halfAngle p x)) (t / toReal p d) (t / (1 + r))]
  refine ⟨div_nonneg hx hd₀.le, ?_, ?_⟩
  · have hle : t / (1 + r) ≤ t / 2 := by
      gcongr
      linarith
    linarith [le_of_abs_le hhalf]
  · rw [← arctan_half ht₀, ← mul_sub, abs_mul, abs_two]
    linarith [abs_arctan_sub_le (toReal p (halfAngle p x)) (t / (1 + r))]

end FixedPoint

open FixedPoint (toReal ulp)

theorem eighth_near {x : ℤ} (hx : 0 ≤ x) (hx' : toReal precision x ≤ 5 / 4) :
    let half := FixedPoint.halfAngle precision
    |8 * Real.arctan (toReal precision (half (half (half x)))) - Real.arctan (toReal precision x)| ≤
        42 * ulp precision ∧ 0 ≤ toReal precision (half (half (half x))) ∧
      toReal precision (half (half (half x))) ≤ 1 / 4 := by
  intro half
  have hulp := FixedPoint.ulp_le precision (by norm_num)
  obtain ⟨h₁, hle₁, hnear₁⟩ := FixedPoint.halfAngle_near (p := precision) (by norm_num) hx
    (by linarith)
  obtain ⟨h₂, hle₂, hnear₂⟩ := FixedPoint.halfAngle_near (p := precision) (by norm_num) h₁
    (by linarith)
  obtain ⟨h₃, hle₃, hnear₃⟩ := FixedPoint.halfAngle_near (p := precision) (by norm_num) h₂
    (by linarith)
  refine ⟨?_, FixedPoint.toReal_nonneg _ h₃, by linarith⟩
  rw [abs_le] at *
  constructor <;> linarith

theorem tangent_near {x : ℤ} (hx : 0 ≤ x) (hx' : x ≤ FixedPoint.one precision) :
    let one := FixedPoint.one precision
    let y := toReal precision x
    let t := FixedPoint.sqrt precision (FixedPoint.div precision (one - x) (one + x))
    |toReal precision t - √((1 - y) / (1 + y))| ≤ 1 / 2 ^ 95 ∧ toReal precision t ≤ 5 / 4 := by
  intro one y t
  have hy₀ : 0 ≤ y := FixedPoint.toReal_nonneg _ hx
  have hy₁ : y ≤ 1 := by
    have := FixedPoint.toReal_le_toReal precision hx'
    rwa [FixedPoint.toReal_one] at this
  have hden : 0 < one + x := by linarith [FixedPoint.one_pos precision]
  set q := FixedPoint.div precision (one - x) (one + x) with hq
  have hq₀ : 0 ≤ q := FixedPoint.div_nonneg (by linarith) hden.le
  have hquotient : |toReal precision q - (1 - y) / (1 + y)| ≤ ulp precision := by
    have := FixedPoint.div_near precision (one - x) hden
    rwa [FixedPoint.toReal_sub, FixedPoint.toReal_add, FixedPoint.toReal_one] at this
  have hratio : 0 ≤ (1 - y) / (1 + y) := by
    apply div_nonneg <;> linarith
  have hone : √((1 - y) / (1 + y)) ≤ 1 := by
    rw [Real.sqrt_le_one, div_le_one (by linarith)]
    linarith
  have hfirst := FixedPoint.sqrt_near precision hq₀
  have hsecond := abs_sqrt_sub_le_sqrt (FixedPoint.toReal_nonneg precision hq₀) hratio
  have hunit : √|toReal precision q - (1 - y) / (1 + y)| ≤ 1 / 2 ^ 96 := by
    rw [Real.sqrt_le_iff]
    refine ⟨by positivity, hquotient.trans ?_⟩
    rw [ulp_precision]
    norm_num
  have hroot : |toReal precision t - √((1 - y) / (1 + y))| ≤ 1 / 2 ^ 95 := by
    have hsum := abs_sub_le (toReal precision t) √(toReal precision q) √((1 - y) / (1 + y))
    rw [ulp_precision] at hfirst
    norm_num at hfirst hunit ⊢
    linarith
  refine ⟨hroot, ?_⟩
  have := le_of_abs_le hroot
  norm_num at this
  linarith

theorem arccosFixed_near {x : ℤ} (hx : 0 ≤ x) (hx' : x ≤ FixedPoint.one precision) :
    |toReal precision (arccosFixed x) - Real.arccos (toReal precision x)| ≤ 1 / 2 ^ 80 := by
  have hy₀ : 0 ≤ toReal precision x := FixedPoint.toReal_nonneg _ hx
  have hy₁ : toReal precision x ≤ 1 := by
    have := FixedPoint.toReal_le_toReal precision hx'
    rwa [FixedPoint.toReal_one] at this
  obtain ⟨hroot, hbound⟩ := tangent_near hx hx'
  set y := toReal precision x
  set t := FixedPoint.sqrt precision (FixedPoint.div precision (FixedPoint.one precision - x)
    (FixedPoint.one precision + x)) with ht
  obtain ⟨heighth, hnonneg, hle⟩ := eighth_near (FixedPoint.sqrt_nonneg precision _) hbound
  set h := FixedPoint.halfAngle precision (FixedPoint.halfAngle precision
    (FixedPoint.halfAngle precision t)) with hh
  have hseries := FixedPoint.arctan_near (p := precision) (n := 36) (x := h) (by norm_num)
    (by rw [abs_of_nonneg hnonneg]; linarith)
  have hangle := (abs_arctan_sub_le (toReal precision t) √((1 - y) / (1 + y))).trans hroot
  have hvalue : toReal precision (arccosFixed x) =
      16 * toReal precision (FixedPoint.arctan precision 36 h) := by
    have hfixed : arccosFixed x = 16 * FixedPoint.arctan precision 36 h := rfl
    rw [hfixed, FixedPoint.toReal_mul]
    push_cast
    rfl
  rw [arccos_eq hy₀ hy₁, hvalue]
  rw [ulp_precision, abs_le] at *
  norm_num at *
  constructor <;> linarith

theorem ofFixed_close {v : ℤ} {r : ℝ} (hv : |toReal precision v - r| ≤ 2 ^ (-24 : ℤ))
    (hr : |r| ≤ 4) : (ofFixed v 0).isFinite = true ∧ |real (ofFixed v 0) - r| ≤ 2 ^ (-19 : ℤ) := by
  have hbound := abs_sub_abs_le_abs_sub (toReal precision v) r
  norm_num at hv
  obtain ⟨hfinite, hnear⟩ := ofFixed_near (v := v) (by norm_num; linarith)
  refine ⟨hfinite, ?_⟩
  have htri := abs_sub_le (real (ofFixed v 0)) (toReal precision v) r
  norm_num at *
  linarith

section Acos

variable {x : Float32}

theorem toReal_abs {s : Sign} {m : ℕ} {e : ℤ} {h : 0 < m} (hp : parts x = .finite s m e h) :
    toReal precision (toFixed precision .positive m e) = |real x| := by
  have he := (canonical_unpack hp).1.le
  rw [toReal_toFixed (by push_cast; omega), abs_real_of_parts hp, signed]
  push_cast
  rfl

theorem halfTurn_near : |toReal precision halfTurn - Real.pi| ≤ 1 / 2 ^ 80 := by
  have h := FixedPoint.pi_near (p := precision) (n := 48) (by norm_num)
  rw [ulp_precision] at h
  exact h.trans (by norm_num)

theorem toFixed_le_one_iff {m : ℕ} {e : ℤ} :
    toFixed precision .positive m e ≤ FixedPoint.one precision ↔
      toReal precision (toFixed precision .positive m e) ≤ 1 := by
  rw [← FixedPoint.toReal_one precision, FixedPoint.toReal, FixedPoint.toReal,
    div_le_div_iff_of_pos_right (by positivity)]
  exact Int.cast_le.symm

theorem toFixed_nonneg (p m : ℕ) (e : ℤ) : 0 ≤ toFixed p .positive m e := Int.natCast_nonneg _

theorem acos_near (hx : x.isFinite = true) (hone : |real x| ≤ 1) :
    (acos x).isFinite = true ∧ |real (acos x) - Real.arccos (real x)| ≤ 2 ^ (-19 : ℤ) := by
  have hpi := Real.pi_le_four
  have hclose {v : ℤ} (hv : |toReal precision v - Real.arccos (real x)| ≤ 1 / 2 ^ 79) :
      (ofFixed v 0).isFinite = true ∧
        |real (ofFixed v 0) - Real.arccos (real x)| ≤ 2 ^ (-19 : ℤ) := by
    refine ofFixed_close (hv.trans (by norm_num)) ?_
    rw [abs_of_nonneg (Real.arccos_nonneg _)]
    exact (Real.arccos_le_pi _).trans hpi
  rcases finite_cases hx with ⟨s, hp⟩ | ⟨s, m, e, h, hp, hc, -⟩
  · have hacos : acos x = ofFixed (arccosFixed 0) 0 := by simp only [acos, hp]
    have hzero := arccosFixed_near le_rfl (FixedPoint.one_pos precision).le
    rw [FixedPoint.toReal_zero] at hzero
    rw [hacos]
    refine hclose ?_
    rw [real, value_of_zero hp, Rat.cast_zero]
    exact hzero.trans (by norm_num)
  · set a := toFixed precision .positive m e with ha
    have hvalue : toReal precision a = |real x| := toReal_abs hp
    have hle : a ≤ FixedPoint.one precision := toFixed_le_one_iff.mpr (hvalue.trans_le hone)
    have harc := arccosFixed_near (toFixed_nonneg precision m e) hle
    rw [hvalue] at harc
    cases s with
    | positive =>
      have hreal : real x = |real x| := by
        rw [real, value_of_finite hp, signed, abs_of_nonneg]
        positivity
      by_cases heq : a = FixedPoint.one precision
      · have hacos : acos x = 0 := by simp only [acos, hp, ← ha, heq, lt_irrefl, if_true, if_false]
        have hvalue' : real x = 1 := by rw [hreal, ← hvalue, heq, FixedPoint.toReal_one]
        rw [hacos, hvalue', Real.arccos_one, real, value_zero]
        exact ⟨rfl, by norm_num⟩
      · have hacos : acos x = ofFixed (arccosFixed a) 0 := by
          simp only [acos, hp, ← ha, not_lt.mpr hle, heq, if_false]
        rw [hacos]
        rw [← hreal] at harc
        exact hclose (harc.trans (by norm_num))
    | negative =>
      have hreal : real x = -|real x| := by
        rw [real, value_of_finite hp, signed, Rat.cast_neg, abs_neg, abs_of_nonneg]
        positivity
      have hacos : acos x = ofFixed (halfTurn - arccosFixed a) 0 := by
        simp only [acos, hp, ← ha, not_lt.mpr hle, if_false]
      rw [hacos]
      refine hclose ?_
      rw [hreal, Real.arccos_neg, FixedPoint.toReal_sub]
      have hhalf := halfTurn_near
      rw [abs_le] at *
      norm_num at *
      constructor <;> linarith

theorem acos_of_value_one (hx : x.isFinite = true) (hone : value x = 1) : acos x = 0 := by
  obtain ⟨hfinite, hvalue⟩ := value_one
  rw [eq_of_value_eq hx hfinite (hone.trans hvalue.symm) (by rw [hone]; exact one_ne_zero)]
  decide +kernel

end Acos

section Reduction

theorem quarterTurn_near : |toReal reductionPrecision quarterTurn - Real.pi / 2| ≤ 1 / 2 ^ 230 := by
  have hpi := FixedPoint.pi_near (p := reductionPrecision) (n := 80) (by norm_num)
  have hhalf := FixedPoint.div_natCast_near reductionPrecision
    (FixedPoint.pi reductionPrecision 80) (d := 2) two_pos
  have hulp : ulp reductionPrecision ≤ 1 / 2 ^ 250 :=
    one_div_pow_le_one_div_pow_of_le one_le_two (by norm_num)
  have hquarter : quarterTurn = FixedPoint.pi reductionPrecision 80 / (2 : ℕ) := rfl
  rw [← hquarter] at hhalf
  rw [abs_le] at *
  norm_num at hpi hhalf hulp ⊢
  constructor <;> linarith

theorem sinTurned_near {turns r : ℤ} (hr : |toReal precision r| ≤ 4 / 5) :
    |toReal precision (sinTurned turns r) -
      Real.sin (toReal precision r + turns * (Real.pi / 2))| ≤ 2 ^ (-25 : ℤ) := by
  set ρ := toReal precision r with hρ
  have hsin := FixedPoint.sin_near (p := precision) (n := 26) (x := r) (by norm_num) (by linarith)
  have hcos := FixedPoint.cos_near (p := precision) (n := 26) (x := r) (by norm_num) hr
  rw [← hρ, ulp_precision] at hsin hcos
  have hsin' := hsin.trans (by norm_num : _ ≤ (2 : ℝ) ^ (-25 : ℤ))
  have hcos' := hcos.trans (by norm_num : _ ≤ (2 : ℝ) ^ (-25 : ℤ))
  obtain ⟨k, j, hj, hj', hturns⟩ : ∃ k j : ℤ, 0 ≤ j ∧ j < 4 ∧ turns = 4 * k + j :=
    ⟨turns / 4, turns % 4, by omega, by omega, by omega⟩
  have hangle : Real.sin (ρ + turns * (Real.pi / 2)) = Real.sin (ρ + j * (Real.pi / 2)) := by
    rw [hturns, ← Real.sin_add_int_mul_two_pi (ρ + j * (Real.pi / 2)) k]
    push_cast
    ring_nf
  have hneg {v : ℤ} {s : ℝ} (h : |toReal precision v - s| ≤ 2 ^ (-25 : ℤ)) :
      |toReal precision (-v) - -s| ≤ 2 ^ (-25 : ℤ) := by
    rwa [FixedPoint.toReal_neg, neg_sub_neg, abs_sub_comm]
  rw [hangle, sinTurned]
  obtain rfl | rfl | rfl | rfl : j = 0 ∨ j = 1 ∨ j = 2 ∨ j = 3 := by omega
  · rw [if_pos (by omega : turns % 2 = 0), if_pos (by omega : turns % 4 < 2), Int.cast_zero,
      zero_mul, add_zero]
    exact hsin'
  · rw [if_neg (by omega : ¬ turns % 2 = 0), if_pos (by omega : turns % 4 < 2), Int.cast_one,
      one_mul, Real.sin_add_pi_div_two]
    exact hcos'
  · have hpi : ρ + (2 : ℤ) * (Real.pi / 2) = ρ + Real.pi := by push_cast; ring
    rw [if_pos (by omega : turns % 2 = 0), if_neg (by omega : ¬ turns % 4 < 2), hpi,
      Real.sin_add_pi]
    exact hneg hsin'
  · have hpi : ρ + (3 : ℤ) * (Real.pi / 2) = ρ + Real.pi / 2 + Real.pi := by push_cast; ring
    rw [if_neg (by omega : ¬ turns % 2 = 0), if_neg (by omega : ¬ turns % 4 < 2), hpi,
      Real.sin_add_pi, Real.sin_add_pi_div_two]
    exact hneg hcos'

theorem reduced_near {x q r t : ℝ} (hx : |x| ≤ 2 ^ 128) (hq : |q - Real.pi / 2| ≤ 1 / 2 ^ 230)
    (hrest : |2 * (x - t * q)| ≤ q) (hcut : |r - (x - t * q)| ≤ 1 / 2 ^ 192) :
    |r| ≤ 4 / 5 ∧ |r + t * (Real.pi / 2) - x| ≤ 2 ^ (-90 : ℤ) := by
  have hpi := Real.pi_gt_three
  have hpi' := Real.pi_lt_d4
  have hone : 1 ≤ q := by
    have := neg_le_of_abs_le hq
    norm_num at this
    linarith
  have hrest' : |x - t * q| ≤ q / 2 := by
    rw [abs_mul, abs_two] at hrest
    linarith
  have hmany : |t| ≤ 2 ^ 129 := by
    have htri := abs_sub_abs_le_abs_sub (t * q) x
    have hsum : |t * q| ≤ 2 ^ 128 + 1 := by
      rw [abs_sub_comm] at htri
      have := le_of_abs_le hq
      norm_num at this
      linarith
    calc |t| ≤ |t| * q := le_mul_of_one_le_right (abs_nonneg t) hone
      _ = |t * q| := by rw [abs_mul, abs_of_pos (by linarith : 0 < q)]
      _ ≤ 2 ^ 128 + 1 := hsum
      _ ≤ 2 ^ 129 := by norm_num
  have hdrift : |t * (q - Real.pi / 2)| ≤ 2 ^ 129 * (1 / 2 ^ 230) := by
    rw [abs_mul]
    gcongr
  rw [mul_sub] at hdrift
  rw [abs_le] at hcut hdrift hq hrest'
  norm_num at hcut hdrift hq hrest'
  refine ⟨abs_le.mpr ⟨?_, ?_⟩, abs_le.mpr ⟨?_, ?_⟩⟩ <;> norm_num <;> linarith

theorem reduceAngle_near {s : Sign} {m : ℕ} {e : ℤ} {h : 0 < m} {x : Float32}
    (hp : parts x = .finite s m e h) :
    let (turns, r) := reduceAngle s m e
    |toReal precision r| ≤ 4 / 5 ∧
      |toReal precision r + turns * (Real.pi / 2) - real x| ≤ 2 ^ (-90 : ℤ) := by
  have hx : toReal reductionPrecision (toFixed reductionPrecision s m e) = real x := by
    rw [toReal_toFixed (by have := (canonical_unpack hp).1.le; push_cast; omega), real,
      value_of_finite hp]
  simp only [reduceAngle]
  set a := toFixed reductionPrecision s m e with ha
  have hquarter := quarterTurn_near
  generalize quarterTurn = q at *
  set turns := (a + q / 2) / q with hturns
  set rest := a - turns * q with hrest
  have hpos : 0 < q := by
    refine FixedPoint.pos_of_toReal_pos reductionPrecision ?_
    have := neg_le_of_abs_le hquarter
    norm_num at this
    linarith [Real.pi_gt_three]
  have hrest' : toReal reductionPrecision rest = real x - turns * toReal reductionPrecision q := by
    rw [hrest, FixedPoint.toReal_sub, FixedPoint.toReal_mul, hx]
  refine reduced_near (abs_real_le x) hquarter ?_ ?_
  · rw [← hrest']
    exact FixedPoint.rest_le reductionPrecision a hpos
  · rw [← hrest', ← ulp_precision]
    refine FixedPoint.near_of_ediv precision rest (FixedPoint.one_pos _) ?_
    rw [FixedPoint.cast_one, div_div, ← pow_add]
    rfl

variable {x : Float32}

theorem sinTurned_reduced {turns r k : ℤ} {y : ℝ} (hr : |toReal precision r| ≤ 4 / 5)
    (hy : |toReal precision r + turns * (Real.pi / 2) - y| ≤ 2 ^ (-90 : ℤ)) :
    |toReal precision (sinTurned (turns + k) r) - Real.sin (y + k * (Real.pi / 2))| ≤
      2 ^ (-24 : ℤ) := by
  have hturned : |toReal precision (sinTurned (turns + k) r) -
      Real.sin (toReal precision r + (turns + k : ℤ) * (Real.pi / 2))| ≤ 2 ^ (-25 : ℤ) :=
    sinTurned_near hr
  have hangle := Real.abs_sin_sub_sin_le
    (toReal precision r + (turns + k : ℤ) * (Real.pi / 2)) (y + k * (Real.pi / 2))
  have hshift : toReal precision r + (turns + k : ℤ) * (Real.pi / 2) - (y + k * (Real.pi / 2)) =
      toReal precision r + turns * (Real.pi / 2) - y := by
    push_cast
    ring
  rw [hshift] at hangle
  have htri := abs_sub_le (toReal precision (sinTurned (turns + k) r))
    (Real.sin (toReal precision r + (turns + k : ℤ) * (Real.pi / 2)))
    (Real.sin (y + k * (Real.pi / 2)))
  norm_num at *
  linarith

theorem sin_near (hx : x.isFinite = true) :
    (sin x).isFinite = true ∧ |real (sin x) - Real.sin (real x)| ≤ 2 ^ (-19 : ℤ) := by
  rcases finite_cases hx with ⟨s, hp⟩ | ⟨s, m, e, h, hp, hc, -⟩
  · have hsin : sin x = x := by simp only [sin, hp]
    rw [hsin, real, value_of_zero hp]
    simp [hx]
  · by_cases hsmall : m.log2 + e < -13
    · have hsin : sin x = x := by simp only [sin, hp, hsmall, if_true]
      rw [hsin]
      refine ⟨hx, (Real.abs_sub_sin_le _).trans ?_⟩
      have hbound : |real x| ≤ 2 ^ (-13 : ℤ) :=
        (abs_real_lt hp).le.trans (zpow_le_zpow_right₀ one_le_two (by omega))
      calc |real x| ^ 3 / 6 ≤ (2 ^ (-13 : ℤ)) ^ 3 / 6 := by gcongr
        _ ≤ 2 ^ (-19 : ℤ) := by norm_num
    · obtain ⟨hr, hangle⟩ := reduceAngle_near hp
      have hsin : sin x = ofFixed (sinTurned (reduceAngle s m e).1 (reduceAngle s m e).2) 0 := by
        simp only [sin, hp, hsmall, if_false]
      have hclose := sinTurned_reduced (k := 0) hr hangle
      rw [Int.cast_zero, zero_mul, add_zero, add_zero] at hclose
      rw [hsin]
      exact ofFixed_close hclose ((Real.abs_sin_le_one _).trans (by norm_num))

theorem cos_near (hx : x.isFinite = true) :
    (cos x).isFinite = true ∧ |real (cos x) - Real.cos (real x)| ≤ 2 ^ (-19 : ℤ) := by
  rcases finite_cases hx with ⟨s, hp⟩ | ⟨s, m, e, h, hp, hc, -⟩
  · have hcos : cos x = 1 := by simp only [cos, hp]
    obtain ⟨hfinite, hone⟩ := exact_ofNat (n := 1) (by norm_num)
    rw [hcos]
    refine ⟨hfinite, ?_⟩
    have hvalue : value 1 = 1 := by exact_mod_cast hone
    rw [real, real, hvalue, value_of_zero hp]
    norm_num
  · obtain ⟨hr, hangle⟩ := reduceAngle_near hp
    have hcos : cos x = ofFixed (sinTurned ((reduceAngle s m e).1 + 1) (reduceAngle s m e).2) 0 := by
      simp only [cos, hp]
    have hclose := sinTurned_reduced (k := 1) hr hangle
    rw [Int.cast_one, one_mul, Real.sin_add_pi_div_two] at hclose
    rw [hcos]
    exact ofFixed_close hclose ((Real.abs_cos_le_one _).trans (by norm_num))

end Reduction

end BranchStream.Binary32
