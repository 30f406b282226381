import BranchStream.Binary32.FixedPoint
import Mathlib

namespace BranchStream.Binary32.FixedPoint

variable (p : ℕ) {a b x z : ℤ}

noncomputable def toReal (v : ℤ) : ℝ := v / 2 ^ p

noncomputable def ulp : ℝ := 1 / 2 ^ p

theorem ulp_pos : 0 < ulp p := by
  rw [ulp]
  positivity

theorem ulp_le (hp : 8 ≤ p) : ulp p ≤ 1 / 256 := by
  rw [ulp]
  gcongr
  calc (256 : ℝ) = 2 ^ 8 := by norm_num
    _ ≤ 2 ^ p := pow_le_pow_right₀ one_le_two hp

theorem one_eq : one p = 2 ^ p := by
  rw [one, Nat.one_shiftLeft]
  push_cast
  rfl

theorem one_pos : 0 < one p := by
  rw [one_eq]
  positivity

theorem cast_one : (one p : ℝ) = 2 ^ p := by
  rw [one_eq]
  push_cast
  rfl

@[simp] theorem toReal_zero : toReal p 0 = 0 := by simp [toReal]

@[simp] theorem toReal_one : toReal p (one p) = 1 := by
  rw [toReal, cast_one, div_self (by positivity)]

@[simp] theorem toReal_add (a b : ℤ) : toReal p (a + b) = toReal p a + toReal p b := by
  simp only [toReal]
  push_cast
  ring

@[simp] theorem toReal_sub (a b : ℤ) : toReal p (a - b) = toReal p a - toReal p b := by
  simp only [toReal]
  push_cast
  ring

@[simp] theorem toReal_neg (a : ℤ) : toReal p (-a) = -toReal p a := by
  simp only [toReal]
  push_cast
  ring

@[simp] theorem toReal_mul (n a : ℤ) : toReal p (n * a) = n * toReal p a := by
  simp only [toReal]
  push_cast
  ring

theorem toReal_nonneg (ha : 0 ≤ a) : 0 ≤ toReal p a := by
  rw [toReal]
  have : (0 : ℝ) ≤ a := by exact_mod_cast ha
  positivity

theorem toReal_le_toReal (h : a ≤ b) : toReal p a ≤ toReal p b := by
  rw [toReal, toReal]
  gcongr

theorem toReal_ediv (a : ℤ) {b : ℤ} (hb : 0 < b) :
    toReal p (a / b) ≤ a / b / 2 ^ p ∧ a / b / 2 ^ p ≤ toReal p (a / b) + ulp p := by
  have hb' : (0 : ℝ) < b := by exact_mod_cast hb
  have hlow : ((b * (a / b) : ℤ) : ℝ) ≤ a := by exact_mod_cast Int.mul_ediv_self_le hb.ne'
  have hhigh : (a : ℝ) ≤ ((b * (a / b) + b : ℤ) : ℝ) := by
    exact_mod_cast (Int.lt_mul_ediv_self_add hb).le
  push_cast at hlow hhigh
  rw [toReal, ulp, ← add_div]
  constructor <;> gcongr
  · rwa [le_div_iff₀' hb']
  · rw [div_le_iff₀' hb']
    linarith

theorem near_of_ediv (a : ℤ) {b : ℤ} (hb : 0 < b) {r : ℝ} (hr : (a : ℝ) / b / 2 ^ p = r) :
    |toReal p (a / b) - r| ≤ ulp p := by
  obtain ⟨hlow, hhigh⟩ := toReal_ediv p a hb
  rw [← hr, abs_le]
  constructor <;> linarith [ulp_pos p]

theorem mul_near (a b : ℤ) : |toReal p (mul p a b) - toReal p a * toReal p b| ≤ ulp p := by
  refine near_of_ediv p _ (one_pos p) ?_
  rw [cast_one, toReal, toReal]
  push_cast
  field_simp

theorem div_near (a : ℤ) (hb : 0 < b) :
    |toReal p (div p a b) - toReal p a / toReal p b| ≤ ulp p := by
  refine near_of_ediv p _ hb ?_
  have : (b : ℝ) ≠ 0 := by exact_mod_cast hb.ne'
  rw [toReal, toReal]
  push_cast
  rw [cast_one]
  field_simp

theorem div_natCast_near (a : ℤ) {d : ℕ} (hd : 0 < d) :
    |toReal p (a / d) - toReal p a / d| ≤ ulp p := by
  refine near_of_ediv p _ (by exact_mod_cast hd) ?_
  rw [toReal]
  push_cast
  field_simp

theorem sqrt_near (ha : 0 ≤ a) : |toReal p (sqrt p a) - √(toReal p a)| ≤ ulp p := by
  have hroot : √(toReal p a) = √((a * one p).toNat : ℝ) / 2 ^ p := by
    have hnat : (((a * one p).toNat : ℕ) : ℝ) = a * 2 ^ p := by
      have hpos : 0 ≤ a * one p := mul_nonneg ha (one_pos p).le
      rw [← Int.cast_natCast, Int.toNat_of_nonneg hpos, Int.cast_mul, cast_one]
    have hscale : toReal p a = a * 2 ^ p / (2 ^ p) ^ 2 := by
      rw [toReal]
      field_simp
    rw [hscale, hnat, Real.sqrt_div' _ (by positivity), Real.sqrt_sq (by positivity)]
  have hlow : ((a * one p).toNat.sqrt : ℝ) ≤ √((a * one p).toNat : ℝ) :=
    Real.nat_sqrt_le_real_sqrt
  have hhigh : √((a * one p).toNat : ℝ) < (a * one p).toNat.sqrt + 1 :=
    Real.real_sqrt_lt_nat_sqrt_succ
  have hvalue : toReal p (sqrt p a) = (a * one p).toNat.sqrt / 2 ^ p := by
    rw [toReal, sqrt]
    push_cast
    rfl
  rw [hvalue, hroot, ← sub_div, abs_div, abs_of_pos (by positivity : (0 : ℝ) < 2 ^ p), ulp]
  gcongr
  rw [abs_le]
  constructor <;> linarith

theorem rest_le (a : ℤ) {q : ℤ} (hq : 0 < q) :
    |2 * toReal p (a - (a + q / 2) / q * q)| ≤ toReal p q := by
  have hmod := Int.emod_add_mul_ediv (a + q / 2) q
  have hmod₀ := Int.emod_nonneg (a + q / 2) hq.ne'
  have hmod₁ := Int.emod_lt_of_pos (a + q / 2) hq
  rw [mul_comm] at hmod
  have hwhole : |2 * (a - (a + q / 2) / q * q)| ≤ q := by
    rw [abs_le]
    constructor <;> omega
  rw [toReal, toReal, ← mul_div_assoc, abs_div, abs_of_pos (by positivity : (0 : ℝ) < 2 ^ p)]
  gcongr
  exact_mod_cast hwhole

theorem pos_of_toReal_pos (h : 0 < toReal p a) : 0 < a := by
  rw [toReal, div_pos_iff_of_pos_right (by positivity)] at h
  exact_mod_cast h

/-- An error that is a part of the next inner one, and some more, does not grow. -/
theorem le_of_contraction {e : ℕ → ℕ → ℝ} {c δ r : ℝ} (hδ : 0 ≤ δ) (hr : 0 ≤ r) (hr' : r ≤ 1 / 2)
    (hlast : ∀ k, e 0 k ≤ c) (hstep : ∀ n k, e (n + 1) k ≤ δ + r * e n (k + 1)) (n k : ℕ) :
    e n k ≤ 2 * δ + r ^ n * c := by
  induction n generalizing k with
  | zero =>
    rw [pow_zero, one_mul]
    linarith [hlast k]
  | succ n ih =>
    calc e (n + 1) k ≤ δ + r * e n (k + 1) := hstep n k
      _ ≤ δ + r * (2 * δ + r ^ n * c) := by gcongr; exact ih (k + 1)
      _ = δ + r * (2 * δ) + r ^ (n + 1) * c := by ring
      _ ≤ δ + 1 / 2 * (2 * δ) + r ^ (n + 1) * c := by gcongr
      _ = 2 * δ + r ^ (n + 1) * c := by ring

theorem abs_mul_sub_mul_le {s t u v : ℝ} : |s * t - u * v| ≤ |s| * |t - v| + |s - u| * |v| := by
  rw [← abs_mul, ← abs_mul, show s * t - u * v = s * (t - v) + (s - u) * v by ring]
  exact abs_add_le _ _

/-- The series whose successive terms have the ratios `y / d k`, `y / d (k + 1)`, … -/
noncomputable def ratios (y : ℝ) (d : ℕ → ℕ) (k : ℕ) : ℝ :=
  tsum fun j ↦ ∏ i ∈ Finset.range j, y / d (k + i)

noncomputable def odds (y : ℝ) (k : ℕ) : ℝ := tsum fun j : ℕ ↦ y ^ j / (2 * (k + j) + 1 : ℕ)

section Ratios

variable {y : ℝ} {d : ℕ → ℕ}

theorem abs_prod_ratios_le (hd : ∀ k, |y / d (k + 1)| ≤ 3 / 8) (k j : ℕ) :
    ‖∏ i ∈ Finset.range j, y / d (k + 1 + i)‖ ≤ (1 / 2) ^ j := by
  rw [Real.norm_eq_abs, Finset.abs_prod]
  calc ∏ i ∈ Finset.range j, |y / d (k + 1 + i)| ≤ ∏ _i ∈ Finset.range j, (1 / 2 : ℝ) := by
        refine Finset.prod_le_prod (fun i _ ↦ abs_nonneg _) fun i _ ↦ ?_
        rw [add_right_comm]
        linarith [hd (k + i)]
    _ = (1 / 2) ^ j := by rw [Finset.prod_const, Finset.card_range]

theorem summable_ratios (hd : ∀ k, |y / d (k + 1)| ≤ 3 / 8) (k : ℕ) :
    Summable fun j ↦ ∏ i ∈ Finset.range j, y / d (k + 1 + i) :=
  .of_norm_bounded summable_geometric_two (abs_prod_ratios_le hd k)

theorem abs_ratios_le (hd : ∀ k, |y / d (k + 1)| ≤ 3 / 8) (k : ℕ) : |ratios y d (k + 1)| ≤ 2 :=
  tsum_of_norm_bounded hasSum_geometric_two (abs_prod_ratios_le hd k)

theorem ratios_eq (hd : ∀ k, |y / d (k + 1)| ≤ 3 / 8) (k : ℕ) :
    ratios y d (k + 1) = 1 + y / d (k + 1) * ratios y d (k + 2) := by
  rw [ratios, (summable_ratios hd k).tsum_eq_zero_add, ratios, ← tsum_mul_left]
  congr 1
  refine tsum_congr fun j ↦ ?_
  rw [Finset.prod_range_succ', mul_comm, add_zero]
  congr 1
  refine Finset.prod_congr rfl fun i _ ↦ ?_
  congr 3
  ring

theorem factor_near {z f : ℤ} {n : ℕ} {r : ℝ} (hp : 8 ≤ p) (hz : |toReal p z - y| ≤ ulp p)
    (hn : 0 < n) (hy : |y / n| ≤ 3 / 8) (hr : |r| ≤ 2) :
    |toReal p (mul p z f / n) - y / n * r| ≤ 4 * ulp p + 1 / 2 * |toReal p f - r| := by
  have hulp := ulp_pos p
  have hsmall := ulp_le p hp
  have hn' : (1 : ℝ) ≤ n := by exact_mod_cast hn
  have hmul := mul_near p z f
  have hdiv := div_natCast_near p (mul p z f) hn
  have hratio : |toReal p z| / n ≤ 1 / 2 := by
    rw [abs_div, Nat.abs_cast] at hy
    rw [div_le_iff₀ (by positivity)] at hy ⊢
    have := abs_sub_abs_le_abs_sub (toReal p z) y
    linarith
  have hinner := abs_mul_sub_mul_le (s := toReal p z) (t := toReal p f) (u := y) (v := r)
  calc |toReal p (mul p z f / n) - y / n * r|
      ≤ |toReal p (mul p z f / n) - toReal p (mul p z f) / n| +
          |toReal p (mul p z f) - toReal p z * toReal p f| / n +
          |toReal p z * toReal p f - y * r| / n := by
        rw [div_mul_eq_mul_div, add_assoc, ← add_div]
        refine (abs_sub_le _ (toReal p (mul p z f) / n) _).trans ?_
        gcongr
        rw [← sub_div, abs_div, Nat.abs_cast]
        gcongr
        exact abs_sub_le _ _ _
    _ ≤ ulp p + ulp p / 1 + (|toReal p z| * |toReal p f - r| + ulp p * 2) / n := by
        gcongr
        refine hinner.trans ?_
        gcongr
    _ ≤ ulp p + ulp p / 1 + (|toReal p z| / n * |toReal p f - r| + ulp p * 2 / 1) := by
        rw [add_div, mul_div_right_comm]
        gcongr
    _ ≤ 4 * ulp p + 1 / 2 * |toReal p f - r| := by
        have := mul_le_mul_of_nonneg_right hratio (abs_nonneg (toReal p f - r))
        linarith

theorem factors_near (hp : 8 ≤ p) (hz : |toReal p z - y| ≤ ulp p) (hpos : ∀ k, 0 < d (k + 1))
    (hd : ∀ k, |y / d (k + 1)| ≤ 3 / 8) (n k : ℕ) :
    |toReal p (factors p z d n (k + 1)) - ratios y d (k + 1)| ≤ 8 * ulp p + (1 / 2) ^ n := by
  have hulp := ulp_pos p
  have h := le_of_contraction (c := 1) (δ := 4 * ulp p) (r := 1 / 2)
    (e := fun n k ↦ |toReal p (factors p z d n (k + 1)) - ratios y d (k + 1)|)
    (by positivity) (by norm_num) le_rfl ?_ ?_ n k
  · linarith
  · intro k
    rw [ratios_eq hd, factors, toReal_one, sub_add_cancel_left, abs_neg, abs_mul]
    calc |y / d (k + 1)| * |ratios y d (k + 2)| ≤ 3 / 8 * 2 := by
          gcongr
          · exact hd k
          · exact abs_ratios_le hd (k + 1)
      _ ≤ 1 := by norm_num
  · intro n k
    rw [ratios_eq hd, factors, toReal_add, toReal_one, add_sub_add_left_eq_sub]
    exact factor_near p hp hz (hpos k) (hd k) (abs_ratios_le hd (k + 1))

end Ratios

section Odds

variable {y : ℝ}

theorem abs_odds_term_le (hy : |y| ≤ 1 / 9) (k j : ℕ) :
    ‖y ^ j / (2 * (k + j) + 1 : ℕ)‖ ≤ (1 / 2) ^ j := by
  have hone : (1 : ℝ) ≤ (2 * (k + j) + 1 : ℕ) := by exact_mod_cast Nat.le_add_left 1 _
  rw [Real.norm_eq_abs, abs_div, abs_pow, Nat.abs_cast]
  calc |y| ^ j / (2 * (k + j) + 1 : ℕ) ≤ |y| ^ j := div_le_self (by positivity) hone
    _ ≤ (1 / 2) ^ j := by
        gcongr
        linarith

theorem summable_odds (hy : |y| ≤ 1 / 9) (k : ℕ) :
    Summable fun j : ℕ ↦ y ^ j / (2 * (k + j) + 1 : ℕ) :=
  .of_norm_bounded summable_geometric_two (abs_odds_term_le hy k)

theorem abs_odds_le (hy : |y| ≤ 1 / 9) (k : ℕ) : |odds y k| ≤ 2 :=
  tsum_of_norm_bounded hasSum_geometric_two (abs_odds_term_le hy k)

theorem odds_eq (hy : |y| ≤ 1 / 9) (k : ℕ) :
    odds y k = 1 / (2 * k + 1 : ℕ) + y * odds y (k + 1) := by
  rw [odds, (summable_odds hy k).tsum_eq_zero_add, odds, ← tsum_mul_left]
  congr 1
  refine tsum_congr fun j ↦ ?_
  rw [pow_succ', mul_div_assoc, add_assoc, add_comm 1 j]

theorem oddSum_near (hp : 8 ≤ p) (hz : |toReal p z - y| ≤ ulp p) (hy : |y| ≤ 1 / 9) (n k : ℕ) :
    |toReal p (oddSum p z n k) - odds y k| ≤ 8 * ulp p + (1 / 8) ^ n * 2 := by
  have hulp := ulp_pos p
  have hsmall := ulp_le p hp
  have h := le_of_contraction (c := 2) (δ := 4 * ulp p) (r := 1 / 8)
    (e := fun n k ↦ |toReal p (oddSum p z n k) - odds y k|)
    (by positivity) (by norm_num) (by norm_num) ?_ ?_ n k
  · linarith
  · intro k
    rw [oddSum, toReal_zero, zero_sub, abs_neg]
    exact abs_odds_le hy k
  · intro n k
    set f := oddSum p z n (k + 1) with hf
    have hmul := mul_near p z f
    have hdiv := div_natCast_near p (one p) (Nat.succ_pos (2 * k))
    have hfactor : |toReal p z| ≤ 1 / 8 := by
      have := abs_sub_abs_le_abs_sub (toReal p z) y
      linarith
    have hinner := abs_mul_sub_mul_le (s := toReal p z) (t := toReal p f) (u := y)
      (v := odds y (k + 1))
    have hbound := abs_odds_le hy (k + 1)
    rw [toReal_one] at hdiv
    rw [odds_eq hy, oddSum, toReal_add, add_sub_add_comm]
    calc _ ≤ |toReal p (one p / (2 * k + 1 : ℕ)) - 1 / (2 * k + 1 : ℕ)| +
            (|toReal p (mul p z f) - toReal p z * toReal p f| +
              |toReal p z * toReal p f - y * odds y (k + 1)|) := by
          refine (abs_add_le _ _).trans ?_
          gcongr
          exact abs_sub_le _ _ _
      _ ≤ ulp p + (ulp p + (1 / 8 * |toReal p f - odds y (k + 1)| + ulp p * 2)) := by
          gcongr
          refine hinner.trans ?_
          gcongr
      _ = 4 * ulp p + 1 / 8 * |toReal p f - odds y (k + 1)| := by ring

end Odds

open scoped Nat

theorem hasSum_unique {f g : ℕ → ℝ} {r : ℝ} (h : HasSum f r) (hfg : ∀ n, g n = f n) :
    tsum g = r := by
  rw [tsum_congr hfg, h.tsum_eq]

theorem exp_eq_ratios (x : ℝ) : ratios x (fun k ↦ k) 1 = Real.exp x := by
  have hsum : HasSum (fun n : ℕ ↦ x ^ n / n !) (Real.exp x) := by
    rw [Real.exp_eq_exp_ℝ]
    exact NormedSpace.expSeries_div_hasSum_exp x
  refine hasSum_unique hsum fun n ↦ ?_
  induction n with
  | zero => simp
  | succ n ih =>
    rw [Finset.prod_range_succ, ih, Nat.factorial_succ]
    push_cast
    field_simp
    ring

theorem cos_eq_ratios (x : ℝ) :
    ratios (-x ^ 2) (fun k ↦ (2 * k - 1) * (2 * k)) 1 = Real.cos x := by
  refine hasSum_unique (Real.hasSum_cos x) fun n ↦ ?_
  induction n with
  | zero => simp
  | succ n ih =>
    have hfactor : (fun k ↦ (2 * k - 1) * (2 * k)) (1 + n) = (2 * n + 1) * (2 * n + 2) := by
      show (2 * (1 + n) - 1) * (2 * (1 + n)) = _
      rw [show 2 * (1 + n) - 1 = 2 * n + 1 by omega]
      ring
    rw [Finset.prod_range_succ, ih, hfactor, show 2 * (n + 1) = 2 * n + 1 + 1 by ring,
      Nat.factorial_succ, Nat.factorial_succ]
    push_cast
    field_simp
    ring

theorem sin_eq_ratios (x : ℝ) :
    x * ratios (-x ^ 2) (fun k ↦ 2 * k * (2 * k + 1)) 1 = Real.sin x := by
  rw [ratios, ← tsum_mul_left]
  refine hasSum_unique (Real.hasSum_sin x) fun n ↦ ?_
  induction n with
  | zero => simp
  | succ n ih =>
    rw [Finset.prod_range_succ, ← mul_assoc, ih, show 2 * (n + 1) + 1 = 2 * n + 1 + 1 + 1 by ring,
      Nat.factorial_succ (2 * n + 1 + 1), Nat.factorial_succ (2 * n + 1)]
    push_cast
    field_simp
    ring

theorem arctan_eq_odds {x : ℝ} (hx : |x| < 1) : x * odds (-x ^ 2) 0 = Real.arctan x := by
  rw [odds, ← tsum_mul_left]
  refine hasSum_unique (Real.hasSum_arctan (x := x) (by rwa [Real.norm_eq_abs])) fun n ↦ ?_
  rw [neg_pow, ← pow_mul, zero_add, pow_succ]
  ring

theorem artanh_eq_odds {x : ℝ} (hx : |x| < 1) :
    2 * (x * odds (x ^ 2) 0) = Real.log (1 + x) - Real.log (1 - x) := by
  rw [odds, ← tsum_mul_left, ← tsum_mul_left]
  refine hasSum_unique (Real.hasSum_log_sub_log_of_abs_lt_one hx) fun n ↦ ?_
  rw [← pow_mul, zero_add, pow_succ]
  push_cast
  ring

section Functions

variable {p} {n : ℕ}

theorem sq_le_of_abs_le {r b : ℝ} (h : |r| ≤ b) : r ^ 2 ≤ b ^ 2 :=
  sq_le_sq' (neg_le_of_abs_le h) (le_of_abs_le h)

theorem square_near (p : ℕ) (x : ℤ) : |toReal p (mul p x x) - toReal p x ^ 2| ≤ ulp p := by
  rw [sq]
  exact mul_near p x x

theorem neg_square_near (p : ℕ) (x : ℤ) : |toReal p (-mul p x x) - -toReal p x ^ 2| ≤ ulp p := by
  rw [toReal_neg, neg_sub_neg, abs_sub_comm]
  exact square_near p x

theorem mul_near_of_near {f : ℤ} {r ε : ℝ} (hx : |toReal p x| ≤ 1)
    (hf : |toReal p f - r| ≤ ε) : |toReal p (mul p x f) - toReal p x * r| ≤ ulp p + ε := by
  calc _ ≤ |toReal p (mul p x f) - toReal p x * toReal p f| +
          |toReal p x * toReal p f - toReal p x * r| := abs_sub_le _ _ _
    _ ≤ ulp p + 1 * ε := by
        rw [← mul_sub, abs_mul]
        gcongr
        exact mul_near p x f
    _ = ulp p + ε := by rw [one_mul]

theorem exp_near (hp : 8 ≤ p) (hx : |toReal p x| ≤ 3 / 8) :
    |toReal p (exp p n x) - Real.exp (toReal p x)| ≤ 8 * ulp p + (1 / 2) ^ n := by
  rw [← exp_eq_ratios]
  refine factors_near p hp ?_ (fun k ↦ k.succ_pos) (fun k ↦ ?_) n 0
  · rw [sub_self, abs_zero]
    exact (ulp_pos p).le
  · rw [abs_div, Nat.abs_cast]
    exact (div_le_self (abs_nonneg _) (by exact_mod_cast k.succ_pos)).trans hx

theorem cos_near (hp : 8 ≤ p) (hx : |toReal p x| ≤ 4 / 5) :
    |toReal p (cos p n x) - Real.cos (toReal p x)| ≤ 8 * ulp p + (1 / 2) ^ n := by
  rw [← cos_eq_ratios]
  refine factors_near p hp (neg_square_near p x) (fun k ↦ ?_) (fun k ↦ ?_) n 0
  · show 0 < (2 * (k + 1) - 1) * (2 * (k + 1))
    exact Nat.mul_pos (by omega) (by omega)
  · have hsquare : toReal p x ^ 2 ≤ (4 / 5) ^ 2 := sq_le_of_abs_le hx
    have htwo : (2 : ℝ) ≤ ((2 * (k + 1) - 1) * (2 * (k + 1)) : ℕ) := by
      have : 1 * 2 ≤ (2 * (k + 1) - 1) * (2 * (k + 1)) := Nat.mul_le_mul (by omega) (by omega)
      exact_mod_cast this
    rw [abs_div, Nat.abs_cast, abs_neg, abs_of_nonneg (sq_nonneg _), div_le_iff₀ (by linarith)]
    linarith

theorem sin_near (hp : 8 ≤ p) (hx : |toReal p x| ≤ 1) :
    |toReal p (sin p n x) - Real.sin (toReal p x)| ≤ 9 * ulp p + (1 / 2) ^ n := by
  rw [← sin_eq_ratios]
  have hfactors : |toReal p (factors p (-mul p x x) (fun k ↦ 2 * k * (2 * k + 1)) n 1) -
      ratios (-toReal p x ^ 2) (fun k ↦ 2 * k * (2 * k + 1)) 1| ≤ 8 * ulp p + (1 / 2) ^ n := by
    refine factors_near p hp (neg_square_near p x) (fun k ↦ by positivity) (fun k ↦ ?_) n 0
    have hsquare : toReal p x ^ 2 ≤ 1 ^ 2 := sq_le_of_abs_le hx
    have hsix : (6 : ℝ) ≤ (2 * (k + 1) * (2 * (k + 1) + 1) : ℕ) := by
      have : 2 * 3 ≤ 2 * (k + 1) * (2 * (k + 1) + 1) := Nat.mul_le_mul (by omega) (by omega)
      exact_mod_cast this
    rw [abs_div, Nat.abs_cast, abs_neg, abs_of_nonneg (sq_nonneg _), div_le_iff₀ (by linarith)]
    linarith
  calc _ ≤ ulp p + (8 * ulp p + (1 / 2) ^ n) := mul_near_of_near hx hfactors
    _ = 9 * ulp p + (1 / 2) ^ n := by ring

theorem arctan_near (hp : 8 ≤ p) (hx : |toReal p x| ≤ 1 / 3) :
    |toReal p (arctan p n x) - Real.arctan (toReal p x)| ≤ 9 * ulp p + (1 / 8) ^ n * 2 := by
  have hsquare : toReal p x ^ 2 ≤ (1 / 3) ^ 2 := sq_le_of_abs_le hx
  have hsum := oddSum_near p hp (neg_square_near p x)
    (by rw [abs_neg, abs_of_nonneg (sq_nonneg _)]; linarith) n 0
  rw [← arctan_eq_odds (by linarith)]
  calc _ ≤ ulp p + (8 * ulp p + (1 / 8) ^ n * 2) := mul_near_of_near (by linarith) hsum
    _ = 9 * ulp p + (1 / 8) ^ n * 2 := by ring

theorem artanh_near (hp : 8 ≤ p) (hx : |toReal p x| ≤ 1 / 3) :
    |2 * toReal p (artanh p n x) - (Real.log (1 + toReal p x) - Real.log (1 - toReal p x))| ≤
      2 * (9 * ulp p + (1 / 8) ^ n * 2) := by
  have hsquare : toReal p x ^ 2 ≤ (1 / 3) ^ 2 := sq_le_of_abs_le hx
  have hsum := oddSum_near p hp (square_near p x)
    (by rw [abs_of_nonneg (sq_nonneg _)]; linarith) n 0
  rw [← artanh_eq_odds (by linarith), ← mul_sub, abs_mul, abs_two]
  gcongr
  calc _ ≤ ulp p + (8 * ulp p + (1 / 8) ^ n * 2) := mul_near_of_near (by linarith) hsum
    _ = 9 * ulp p + (1 / 8) ^ n * 2 := by ring

end Functions

end BranchStream.Binary32.FixedPoint
